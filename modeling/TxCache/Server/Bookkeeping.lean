import TxCache.Server.Put
import TxCache.Lib.Fold

/-!
# What the store's building blocks do to its entries and indexes

Every operation of the store is built from a few pieces: changing an entry in place, replacing a
version set, adding a key, registering and unregistering an entry's tags, truncating a still-valid
entry, and removing an entry. This file says once what each piece does to the live entries, to the
invalidation index, to the LRU and truncation lists and to the byte counts, so that the invariants
of `TxCache.Server.Invariants` follow operation by operation without unfolding the pieces again.

The live entries are `entries`, the version sets read one after another; most pieces change them
only up to the order, which is why the lemmas below give them as permutations.
-/

namespace TxCache

/-! ## The invalidation index -/

/-- The index is ordered by tag and then by address, a strict total order. -/
instance : Std.TransCmp StoreInvalTree.compareValue :=
  inferInstanceAs
    (Std.TransCmp (compareLex (compareOn InvalMapEntry.tag) (compareOn InvalMapEntry.entry)))

theorem StoreInvalTree.compareValue_eq_iff {v k : InvalMapEntry} :
    StoreInvalTree.compareValue v k = .eq ↔ v = k := by
  rw [StoreInvalTree.compareValue, Ordering.then_eq_eq, Std.compare_eq_iff_eq, Nat.compare_eq_eq]
  cases v
  cases k
  simp

theorem remove_invalTree (m : List InvalMapEntry) (k : InvalMapEntry) :
    OrdList.remove StoreInvalTree.compareValue m k = m.erase k :=
  OrdList.remove_eq_erase _ fun _ _ ↦ StoreInvalTree.compareValue_eq_iff

namespace Store

variable {a : ℕ} {m : List InvalMapEntry}

theorem mem_unregisterTags (hnd : m.Nodup) (tags : List (List Char)) (x : InvalMapEntry) :
    x ∈ unregisterTags a m tags ↔ x ∈ m ∧ ¬ (x.entry = a ∧ x.tag ∈ tags) := by
  induction tags generalizing m with
  | nil => simp [unregisterTags]
  | cons t ts ih =>
    have hnd' := hnd.erase ⟨t, a⟩
    have hstep : unregisterTags a m (t :: ts) = unregisterTags a (m.erase ⟨t, a⟩) ts := by
      rw [unregisterTags, List.foldl_cons, remove_invalTree]
      rfl
    rw [hstep, ih hnd', hnd.mem_erase_iff]
    cases x
    simp only [ne_eq, InvalMapEntry.mk.injEq, List.mem_cons, not_and, not_or]
    tauto

theorem unregisterTags_sublist (m : List InvalMapEntry) (tags : List (List Char)) :
    (unregisterTags a m tags).Sublist m := by
  induction tags generalizing m with
  | nil => exact List.Sublist.refl m
  | cons t ts ih =>
    rw [unregisterTags, List.foldl_cons, remove_invalTree]
    exact (ih _).trans List.erase_sublist

theorem mem_registerTags {tags : List (List Char)} {x : InvalMapEntry}
    (hx : x ∈ (registerTags a m tags).1) : x ∈ m ∨ (x.entry = a ∧ x.tag ∈ tags) := by
  induction tags generalizing m with
  | nil => exact .inl hx
  | cons t ts ih =>
    simp only [registerTags] at hx
    split at hx
    · exact .inl hx
    · rename_i m' hins
      rcases ih hx with hx | ⟨hxa, hxt⟩
      · rcases (OrdList.mem_insert _ hins).mp hx with rfl | hx
        · exact .inr ⟨rfl, List.mem_cons_self⟩
        · exact .inl hx
      · exact .inr ⟨hxa, List.mem_cons_of_mem t hxt⟩

theorem sorted_registerTags (hs : OrdList.Sorted StoreInvalTree.compareValue m)
    (tags : List (List Char)) : OrdList.Sorted StoreInvalTree.compareValue (registerTags a m tags).1 := by
  induction tags generalizing m with
  | nil => exact hs
  | cons t ts ih =>
    simp only [registerTags]
    split
    · exact hs
    · rename_i m' hins
      exact ih (OrdList.sorted_insert hs hins)

theorem insert_invalTree {k : InvalMapEntry} (hk : k ∉ m) :
    ∃ m', OrdList.insert StoreInvalTree.compareValue id m k = some m' ∧ m'.Perm (k :: m) := by
  cases hm : OrdList.insert StoreInvalTree.compareValue id m k with
  | some m' => exact ⟨m', rfl, OrdList.perm_of_insert _ hm⟩
  | none =>
    obtain ⟨v, hv, hcmp⟩ := (OrdList.insert_eq_none_iff _).mp hm
    exact absurd (StoreInvalTree.compareValue_eq_iff.mp hcmp ▸ hv) hk

theorem registerTags_eq (hnd : m.Nodup) {tags : List (List Char)} (htags : tags.Nodup)
    (hno : ∀ x ∈ m, x.entry = a → x.tag ∉ tags) :
    ∃ m', registerTags a m tags = (m', true) ∧ m'.Nodup ∧
      ∀ x, x ∈ m' ↔ x ∈ m ∨ (x.entry = a ∧ x.tag ∈ tags) := by
  induction tags generalizing m with
  | nil => exact ⟨m, rfl, hnd, by simp⟩
  | cons t ts ih =>
    obtain ⟨hts, hnd_ts⟩ := List.nodup_cons.mp htags
    obtain ⟨m₁, hins, hperm⟩ := insert_invalTree (m := m) (k := ⟨t, a⟩)
      fun h ↦ hno _ h rfl List.mem_cons_self
    have hnd₁ : m₁.Nodup :=
      hperm.nodup_iff.mpr (List.nodup_cons.mpr ⟨fun h ↦ hno _ h rfl List.mem_cons_self, hnd⟩)
    have hno₁ : ∀ x ∈ m₁, x.entry = a → x.tag ∉ ts := by
      intro x hx hxa
      rcases List.mem_cons.mp (hperm.subset hx) with rfl | hx
      · exact hts
      · exact fun h ↦ hno x hx hxa (List.mem_cons_of_mem t h)
    obtain ⟨m', hreg, hnd', hmem⟩ := ih hnd₁ hnd_ts hno₁
    refine ⟨m', by simp [registerTags, hins, hreg], hnd', fun x ↦ ?_⟩
    rw [hmem, hperm.mem_iff, List.mem_cons, List.mem_cons]
    cases x
    simp only [InvalMapEntry.mk.injEq]
    tauto

/-! ## Entries and version sets -/

private theorem key_ne_of_nodup {L₁ L₂ : List (List UInt8 × List Entry)} {key : List UInt8}
    {vs : List Entry} (h : ((L₁ ++ (key, vs) :: L₂).map (·.1)).Nodup) :
    (∀ p ∈ L₁, p.1 ≠ key) ∧ (∀ p ∈ L₂, p.1 ≠ key) := by
  rw [List.map_append, List.map_cons, List.nodup_append, List.nodup_cons] at h
  obtain ⟨-, ⟨hk, -⟩, hdisj⟩ := h
  exact ⟨fun p hp ↦ hdisj p.1 (List.mem_map_of_mem hp) key List.mem_cons_self,
    fun p hp hpk ↦ hk (by simpa [hpk] using List.mem_map_of_mem (f := (·.1)) hp)⟩

variable (st : Store) {key : List UInt8} {vs old : List Entry} {e : Entry}

theorem mem_entries : e ∈ st.entries ↔ ∃ l ∈ st.lines, e ∈ l.2 := List.mem_flatMap

@[simp] theorem entries_modifyEntry (f : Entry → Entry) :
    (st.modifyEntry a f).entries = st.entries.map fun e ↦ if e.addr = a then f e else e := by
  simp [entries, modifyEntry, List.flatMap_map, List.map_flatMap]

@[simp] theorem keys_modifyEntry (f : Entry → Entry) :
    (st.modifyEntry a f).lines.map (·.1) = st.lines.map (·.1) := by
  simp [modifyEntry]

@[simp] theorem keys_setVSet : (st.setVSet key vs).lines.map (·.1) = st.lines.map (·.1) := by
  simp only [setVSet, List.map_map]
  exact List.map_congr_left fun kv _ ↦ by by_cases h : kv.1 = key <;> simp [h]

theorem mem_lines_setVSet {l : List UInt8 × List Entry} (hl : l ∈ (st.setVSet key vs).lines) :
    l ∈ st.lines ∨ l = (key, vs) := by
  obtain ⟨kv, hkv, rfl⟩ := List.mem_map.mp hl
  by_cases h : kv.1 = key
  · exact .inr (if_pos h)
  · exact .inl (by rw [if_neg h]; exact hkv)

@[simp] theorem entries_insertLine : (st.insertLine key).entries = st.entries := by
  simp [entries, insertLine]

@[simp] theorem keys_insertLine :
    (st.insertLine key).lines.map (·.1) = st.lines.map (·.1) ++ [key] := by
  simp [insertLine]

theorem vset_eq_some_iff (hkeys : (st.lines.map (·.1)).Nodup) :
    st.vset key = some vs ↔ (key, vs) ∈ st.lines := by
  constructor
  · intro h
    obtain ⟨L₁, L₂, hl, -⟩ := List.lookup_eq_some_iff.mp h
    rw [hl]
    exact List.mem_append_right _ List.mem_cons_self
  · intro h
    obtain ⟨L₁, L₂, hl⟩ := List.append_of_mem h
    have hne := (key_ne_of_nodup (hl ▸ hkeys)).1
    exact List.lookup_eq_some_iff.mpr ⟨L₁, L₂, hl, fun p hp ↦ by simpa using (hne p hp).symm⟩

theorem lines_setVSet (hkeys : (st.lines.map (·.1)).Nodup) (h : st.vset key = some old)
    (vs : List Entry) :
    ∃ L₁ L₂, st.lines = L₁ ++ (key, old) :: L₂ ∧
      (st.setVSet key vs).lines = L₁ ++ (key, vs) :: L₂ := by
  obtain ⟨L₁, L₂, hl, -⟩ := List.lookup_eq_some_iff.mp h
  obtain ⟨hne₁, hne₂⟩ := key_ne_of_nodup (hl ▸ hkeys)
  refine ⟨L₁, L₂, hl, ?_⟩
  have hkeep : ∀ L : List (List UInt8 × List Entry), (∀ p ∈ L, p.1 ≠ key) →
      L.map (fun kv ↦ if kv.1 = key then (key, vs) else kv) = L := fun L hL ↦
    (List.map_congr_left fun kv hkv ↦ if_neg (hL kv hkv)).trans (List.map_id' L)
  simp only [setVSet, hl, List.map_append, List.map_cons, if_pos, hkeep L₁ hne₁, hkeep L₂ hne₂]

theorem entries_setVSet (hkeys : (st.lines.map (·.1)).Nodup) (h : st.vset key = some old)
    (vs : List Entry) :
    ∃ rest, st.entries.Perm (old ++ rest) ∧ (st.setVSet key vs).entries.Perm (vs ++ rest) := by
  obtain ⟨L₁, L₂, hl, hl'⟩ := st.lines_setVSet hkeys h vs
  refine ⟨L₁.flatMap (·.2) ++ L₂.flatMap (·.2), ?_, ?_⟩
  · rw [entries, hl, List.flatMap_append, List.flatMap_cons]
    exact List.perm_append_comm_assoc _ _ _
  · rw [entries, hl', List.flatMap_append, List.flatMap_cons]
    exact List.perm_append_comm_assoc _ _ _

theorem findEntry_eq_some_iff (hnd : (st.entries.map (·.addr)).Nodup) :
    st.findEntry a = some e ↔ e ∈ st.entries ∧ e.addr = a := by
  constructor
  · intro h
    exact ⟨List.mem_of_find?_eq_some h, by simpa using List.find?_some h⟩
  · rintro ⟨he, rfl⟩
    have hsome : (st.entries.find? (·.addr == e.addr)).isSome :=
      List.find?_isSome.mpr ⟨e, he, by simp⟩
    obtain ⟨e', he'⟩ := Option.isSome_iff_exists.mp hsome
    have haddr : e'.addr = e.addr := by simpa using List.find?_some he'
    rw [findEntry, he', List.inj_on_of_nodup_map hnd (List.mem_of_find?_eq_some he') he haddr]

theorem findEntry_eq_none_iff : st.findEntry a = none ↔ ∀ e ∈ st.entries, e.addr ≠ a := by
  simp [findEntry]

theorem addr_ne_of_mem_erase (hnd : (st.entries.map (·.addr)).Nodup) (he : e ∈ st.entries)
    {e' : Entry} (he' : e' ∈ st.entries.erase e) : e'.addr ≠ e.addr := by
  obtain ⟨hne, hmem⟩ := ((List.Nodup.of_map _ hnd).mem_erase_iff).mp he'
  exact fun h ↦ hne (List.inj_on_of_nodup_map hnd hmem he h)

theorem entries_modifyEntry_perm (hnd : (st.entries.map (·.addr)).Nodup)
    (h : st.findEntry a = some e) (f : Entry → Entry) :
    (st.modifyEntry a f).entries.Perm (f e :: st.entries.erase e) := by
  obtain ⟨he, rfl⟩ := (st.findEntry_eq_some_iff hnd).mp h
  rw [entries_modifyEntry]
  refine ((List.perm_cons_erase he).map _).trans ?_
  rw [List.map_cons, if_pos rfl]
  refine List.Perm.cons _ (List.Perm.of_eq ?_)
  exact (List.map_congr_left fun e' he' ↦ if_neg (st.addr_ne_of_mem_erase hnd he he')).trans
    (List.map_id' _)

theorem removeEntry_eq (h : st.findEntry a = some e) :
    st.removeEntry a =
      ({ st.setVSet e.key
            (OrdList.remove StoreVSet.compareValue ((st.vset e.key).getD []) e.interval.lower) with
          entryBytes := st.entryBytes - st.entryFootprint e.data.length e.invalTagsLen
          invalMap := unregisterTags a st.invalMap e.invalTags
          invTimeOrder :=
            if e.interval.stillValid then st.invTimeOrder else st.invTimeOrder.erase a
          lru := st.lru.erase a },
        st.entryFootprint e.data.length e.invalTagsLen) := by
  simp only [removeEntry, h]

theorem removeEntry_of_none (h : st.findEntry a = none) : st.removeEntry a = (st, 0) := by
  simp only [removeEntry, h]

theorem removeEntry_fields (h : st.findEntry a = some e) :
    (st.removeEntry a).1.invalMap = unregisterTags a st.invalMap e.invalTags ∧
    (st.removeEntry a).1.entryBytes =
      st.entryBytes - st.entryFootprint e.data.length e.invalTagsLen ∧
    (st.removeEntry a).1.invTimeOrder =
      (if e.interval.stillValid then st.invTimeOrder else st.invTimeOrder.erase a) ∧
    (st.removeEntry a).1.lru = st.lru.erase a ∧
    (st.removeEntry a).2 = st.entryFootprint e.data.length e.invalTagsLen := by
  rw [removeEntry_eq st h]
  exact ⟨rfl, rfl, rfl, rfl, rfl⟩

@[simp] theorem layout_removeEntry : (st.removeEntry a).1.layout = st.layout := by
  unfold removeEntry
  split <;> rfl

@[simp] theorem nextAddr_removeEntry : (st.removeEntry a).1.nextAddr = st.nextAddr := by
  unfold removeEntry
  split <;> rfl

@[simp] theorem keyBytes_removeEntry : (st.removeEntry a).1.keyBytes = st.keyBytes := by
  unfold removeEntry
  split <;> rfl

@[simp] theorem uselessBound_removeEntry :
    (st.removeEntry a).1.uselessBound = st.uselessBound := by
  unfold removeEntry
  split <;> rfl

@[simp] theorem keys_removeEntry : (st.removeEntry a).1.lines.map (·.1) = st.lines.map (·.1) := by
  unfold removeEntry
  split
  · rfl
  · exact keys_setVSet st

theorem entryFootprint_congr {st' : Store} (h : st'.layout = st.layout) :
    st'.entryFootprint = st.entryFootprint := by
  funext dataLen invalTagsLen
  simp [entryFootprint, h]

/-! ## The shape of the table -/

/-- What the store's code relies on without checking it: one line per key, entries that know the
key of their version set, version sets keyed by `lower`, and addresses that are unique and below
the next one to be handed out. -/
structure WellFormed : Prop where
  keys_nodup : (st.lines.map (·.1)).Nodup
  key_eq : ∀ l ∈ st.lines, ∀ e ∈ l.2, e.key = l.1
  lowers_nodup : ∀ l ∈ st.lines, (l.2.map (·.interval.lower)).Nodup
  addrs_nodup : (st.entries.map (·.addr)).Nodup
  addr_lt : ∀ e ∈ st.entries, e.addr < st.nextAddr

variable {st}

theorem WellFormed.of_lines {st' : Store} (hw : st.WellFormed) (hlines : st'.lines = st.lines)
    (hnext : st'.nextAddr = st.nextAddr) : st'.WellFormed where
  keys_nodup := hlines ▸ hw.keys_nodup
  key_eq := hlines ▸ hw.key_eq
  lowers_nodup := hlines ▸ hw.lowers_nodup
  addrs_nodup := by rw [entries, hlines]; exact hw.addrs_nodup
  addr_lt := by rw [entries, hlines, hnext]; exact hw.addr_lt

theorem WellFormed.vset_key (hw : st.WellFormed) (he : e ∈ st.entries) :
    ∃ vs, st.vset e.key = some vs ∧ e ∈ vs ∧ (vs.map (·.interval.lower)).Nodup := by
  obtain ⟨l, hl, hel⟩ := st.mem_entries.mp he
  refine ⟨l.2, (st.vset_eq_some_iff hw.keys_nodup).mpr ?_, hel, hw.lowers_nodup l hl⟩
  rw [hw.key_eq l hl e hel]
  exact hl

theorem mem_entries_of_vset (hvs : st.vset key = some vs) (he : e ∈ vs) : e ∈ st.entries := by
  obtain ⟨L₁, L₂, hl, -⟩ := List.lookup_eq_some_iff.mp hvs
  exact st.mem_entries.mpr ⟨(key, vs), hl ▸ List.mem_append_right _ List.mem_cons_self, he⟩

theorem remove_vset (hlow : (vs.map (·.interval.lower)).Nodup) (he : e ∈ vs) :
    OrdList.remove StoreVSet.compareValue vs e.interval.lower = vs.erase e := by
  refine OrdList.remove_eq_erase _ fun w hw ↦ ?_
  rw [StoreVSet.compareValue, Nat.compare_eq_eq]
  exact ⟨fun h ↦ List.inj_on_of_nodup_map hlow hw he h, fun h ↦ h ▸ rfl⟩

theorem WellFormed.removeEntry_lines (hw : st.WellFormed) (h : st.findEntry a = some e) :
    ∃ vs, st.vset e.key = some vs ∧ e ∈ vs ∧ (vs.map (·.interval.lower)).Nodup ∧
      (st.removeEntry a).1.lines = (st.setVSet e.key (vs.erase e)).lines := by
  obtain ⟨he, -⟩ := (st.findEntry_eq_some_iff hw.addrs_nodup).mp h
  obtain ⟨vs, hvs, hevs, hlow⟩ := hw.vset_key he
  refine ⟨vs, hvs, hevs, hlow, ?_⟩
  rw [removeEntry_eq st h, hvs, Option.getD_some, remove_vset hlow hevs]

theorem WellFormed.entries_removeEntry (hw : st.WellFormed) (h : st.findEntry a = some e) :
    st.entries.Perm (e :: (st.removeEntry a).1.entries) := by
  obtain ⟨vs, hvs, hevs, -, hlines⟩ := hw.removeEntry_lines h
  obtain ⟨rest, hold, hnew⟩ := st.entries_setVSet hw.keys_nodup hvs (vs.erase e)
  have hents : (st.removeEntry a).1.entries = (st.setVSet e.key (vs.erase e)).entries := by
    unfold entries
    rw [hlines]
  rw [hents]
  exact hold.trans (((List.perm_cons_erase hevs).append_right rest).trans (hnew.symm.cons e))

theorem WellFormed.modifyEntry (hw : st.WellFormed) {f : Entry → Entry}
    (hf : ∀ e, (f e).addr = e.addr ∧ (f e).key = e.key ∧ (f e).interval.lower = e.interval.lower)
    (a : ℕ) : (st.modifyEntry a f).WellFormed := by
  have hg : ∀ e, (if e.addr = a then f e else e).addr = e.addr ∧
      (if e.addr = a then f e else e).key = e.key ∧
      (if e.addr = a then f e else e).interval.lower = e.interval.lower := by
    intro e
    by_cases h : e.addr = a
    · simpa [h] using hf e
    · simp [h]
  have haddrs : (st.entries.map fun e ↦ if e.addr = a then f e else e).map (·.addr) =
      st.entries.map (·.addr) := by
    rw [List.map_map]
    exact List.map_congr_left fun e _ ↦ (hg e).1
  refine ⟨by rw [keys_modifyEntry]; exact hw.keys_nodup, ?_, ?_, ?_, ?_⟩
  · intro l hl e he
    obtain ⟨l₀, hl₀, rfl⟩ := List.mem_map.mp hl
    obtain ⟨e₀, he₀, rfl⟩ := List.mem_map.mp he
    exact (hg e₀).2.1.trans (hw.key_eq l₀ hl₀ e₀ he₀)
  · intro l hl
    obtain ⟨l₀, hl₀, rfl⟩ := List.mem_map.mp hl
    have hlow : (l₀.2.map fun e ↦ if e.addr = a then f e else e).map (·.interval.lower) =
        l₀.2.map (·.interval.lower) := by
      rw [List.map_map]
      exact List.map_congr_left fun e _ ↦ (hg e).2.2
    exact hlow ▸ hw.lowers_nodup l₀ hl₀
  · rw [entries_modifyEntry]
    exact haddrs ▸ hw.addrs_nodup
  · intro e he
    rw [entries_modifyEntry] at he
    obtain ⟨e₀, he₀, rfl⟩ := List.mem_map.mp he
    show _ < st.nextAddr
    rw [(hg e₀).1]
    exact hw.addr_lt e₀ he₀

theorem WellFormed.removeEntry (hw : st.WellFormed) (a : ℕ) : (st.removeEntry a).1.WellFormed := by
  cases h : st.findEntry a with
  | none => rw [removeEntry_of_none st h]; exact hw
  | some e =>
    obtain ⟨vs, hvs, hevs, hlow, hlines⟩ := hw.removeEntry_lines h
    have hperm := hw.entries_removeEntry h
    have hnd : (e :: (st.removeEntry a).1.entries).map (·.addr) |>.Nodup :=
      (hperm.map _).nodup_iff.mp hw.addrs_nodup
    refine ⟨?_, ?_, ?_, (List.nodup_cons.mp hnd).2, fun e' he' ↦ ?_⟩
    · rw [hlines, keys_setVSet]
      exact hw.keys_nodup
    · intro l hl e' he'
      rw [hlines] at hl
      rcases st.mem_lines_setVSet hl with hl | rfl
      · exact hw.key_eq l hl e' he'
      · exact hw.key_eq _ ((st.vset_eq_some_iff hw.keys_nodup).mp hvs) e'
          (List.erase_sublist.subset he')
    · intro l hl
      rw [hlines] at hl
      rcases st.mem_lines_setVSet hl with hl | rfl
      · exact hw.lowers_nodup l hl
      · exact hlow.sublist (List.erase_sublist.map _)
    · have hnext : (st.removeEntry a).1.nextAddr = st.nextAddr := by
        rw [removeEntry_eq st h]
        rfl
      rw [hnext]
      exact hw.addr_lt e' (hperm.symm.subset (List.mem_cons_of_mem e he'))

theorem WellFormed.insertLine (hw : st.WellFormed) (h : st.vset key = none) :
    (st.insertLine key).WellFormed := by
  have hnew : key ∉ st.lines.map (·.1) := by
    intro hk
    obtain ⟨p, hp, rfl⟩ := List.mem_map.mp hk
    simpa using List.lookup_eq_none_iff.mp h p hp
  refine ⟨?_, ?_, ?_, ?_, ?_⟩
  · rw [keys_insertLine]
    refine List.nodup_append.mpr ⟨hw.keys_nodup, List.nodup_singleton key, ?_⟩
    intro k hk k' hk'
    rw [List.mem_singleton.mp hk']
    rintro rfl
    exact hnew hk
  · intro l hl e he
    rcases List.mem_append.mp hl with hl | hl
    · exact hw.key_eq l hl e he
    · simp [List.mem_singleton.mp hl] at he
  · intro l hl
    rcases List.mem_append.mp hl with hl | hl
    · exact hw.lowers_nodup l hl
    · simp [List.mem_singleton.mp hl]
  · rw [entries_insertLine]
    exact hw.addrs_nodup
  · rw [entries_insertLine]
    exact hw.addr_lt

/-- An entry as `Store_TruncateUnboundedInterval` leaves it: no longer still valid, its upper end
raised to `now` if that is later, truncated at `time`. -/
def truncatedEntry (now : ℕ) (time : ℤ) (e : Entry) : Entry :=
  { e with
    interval := { e.interval with
      stillValid := false
      upper := if now > e.interval.upper then now else e.interval.upper }
    timeInvalidated := time }

theorem truncateUnboundedInterval_eq (h : st.findEntry a = some e) (now : ℕ) (time : ℤ) :
    st.truncateUnboundedInterval a now time =
      { st.modifyEntry a (truncatedEntry now time) with
        invTimeOrder := a :: st.invTimeOrder
        invalMap := unregisterTags a st.invalMap e.invalTags } := by
  simp only [truncateUnboundedInterval, h]
  rfl

theorem truncateUnboundedInterval_fields (h : st.findEntry a = some e) (now : ℕ) (time : ℤ) :
    (st.truncateUnboundedInterval a now time).invalMap =
      unregisterTags a st.invalMap e.invalTags ∧
    (st.truncateUnboundedInterval a now time).invTimeOrder = a :: st.invTimeOrder := by
  rw [truncateUnboundedInterval_eq h]
  exact ⟨rfl, rfl⟩

section Truncate

variable {now : ℕ} {time : ℤ}

@[simp] theorem layout_truncateUnboundedInterval :
    (st.truncateUnboundedInterval a now time).layout = st.layout := by
  unfold truncateUnboundedInterval
  split <;> rfl

@[simp] theorem entryBytes_truncateUnboundedInterval :
    (st.truncateUnboundedInterval a now time).entryBytes = st.entryBytes := by
  unfold truncateUnboundedInterval
  split <;> rfl

@[simp] theorem keyBytes_truncateUnboundedInterval :
    (st.truncateUnboundedInterval a now time).keyBytes = st.keyBytes := by
  unfold truncateUnboundedInterval
  split <;> rfl

@[simp] theorem lru_truncateUnboundedInterval :
    (st.truncateUnboundedInterval a now time).lru = st.lru := by
  unfold truncateUnboundedInterval
  split <;> rfl

@[simp] theorem lastInvalTime_truncateUnboundedInterval :
    (st.truncateUnboundedInterval a now time).lastInvalTime = st.lastInvalTime := by
  unfold truncateUnboundedInterval
  split <;> rfl

@[simp] theorem keys_truncateUnboundedInterval :
    (st.truncateUnboundedInterval a now time).lines.map (·.1) = st.lines.map (·.1) := by
  unfold truncateUnboundedInterval
  split
  · rfl
  · exact keys_modifyEntry st _

end Truncate

theorem entries_truncateUnboundedInterval (hnd : (st.entries.map (·.addr)).Nodup)
    (h : st.findEntry a = some e) (now : ℕ) (time : ℤ) :
    (st.truncateUnboundedInterval a now time).entries.Perm
      (truncatedEntry now time e :: st.entries.erase e) := by
  rw [truncateUnboundedInterval_eq h]
  exact st.entries_modifyEntry_perm hnd h _

theorem truncateUnboundedInterval_of_none (h : st.findEntry a = none) (now : ℕ) (time : ℤ) :
    st.truncateUnboundedInterval a now time = st := by
  simp only [truncateUnboundedInterval, h]

theorem WellFormed.truncateUnboundedInterval (hw : st.WellFormed) (a now : ℕ) (time : ℤ) :
    (st.truncateUnboundedInterval a now time).WellFormed := by
  cases h : st.findEntry a with
  | none => rw [truncateUnboundedInterval_of_none h]; exact hw
  | some e =>
    rw [truncateUnboundedInterval_eq h]
    refine WellFormed.of_lines (hw.modifyEntry ?_ a) rfl rfl
    exact fun _ ↦ ⟨rfl, rfl, rfl⟩

/-! ## The loops

Eviction and the removal of useless entries remove entries one at a time, and the walk of an
invalidation truncates one indexed entry at a time. What these pieces keep, the loops keep. -/

variable {P : Store → Prop}

theorem evictRounds_induction (hrem : ∀ st a, P st → P (st.removeEntry a).1) :
    ∀ n st toFree freed, P st → P (evictRounds n st toFree freed).1
  | 0, _, _, _, h => h
  | n + 1, st, toFree, freed, h => by
    rw [evictRounds]
    split_ifs
    · split
      · exact h
      · exact evictRounds_induction hrem n _ toFree _ (hrem st _ h)
    · exact h

theorem removeUselessRounds_induction (hrem : ∀ st a, P st → P (st.removeEntry a).1) :
    ∀ n st bound, P st → P (removeUselessRounds n st bound)
  | 0, _, _, h => h
  | n + 1, st, bound, h => by
    rw [removeUselessRounds]
    split
    · exact h
    · split
      · exact h
      · split_ifs
        · exact removeUselessRounds_induction hrem n _ bound (hrem st _ h)
        · exact h

theorem invalidateTagRounds_induction {tag : List Char} {descendants : Bool} {time : ℤ}
    (htr : ∀ st x, P st → x ∈ st.invalMap →
      P (st.truncateUnboundedInterval x.entry st.lastInvalTime time)) :
    ∀ n st L, P st → (∀ x ∈ L, x ∈ st.invalMap) →
      P (invalidateTagRounds tag descendants time n st L)
  | 0, _, _, h, _ => h
  | _ + 1, _, [], h, _ => h
  | n + 1, st, cur :: rest, h, hL => by
    rw [invalidateTagRounds]
    dsimp only
    split_ifs
    · have h' := htr st cur h (hL cur List.mem_cons_self)
      split
      · exact h'
      · exact invalidateTagRounds_induction htr n _ _ h' fun x hx ↦
          OrdList.mem_of_mem_fromGE _ hx
    · exact h

theorem expireBufferRounds_eq : ∀ (n : ℕ) (st : Store) (curTime : ℤ),
    ∃ buffer validFrom, expireBufferRounds n st curTime =
      { st with invalBuffer := buffer, bufferValidFrom := validFrom }
  | 0, st, _ => ⟨st.invalBuffer, st.bufferValidFrom, rfl⟩
  | n + 1, st, curTime => by
    rw [expireBufferRounds]
    split
    · exact ⟨st.invalBuffer, st.bufferValidFrom, rfl⟩
    · split_ifs
      · exact ⟨st.invalBuffer, st.bufferValidFrom, rfl⟩
      · obtain ⟨buffer, validFrom, h⟩ := expireBufferRounds_eq n _ curTime
        exact ⟨buffer, validFrom, h⟩

theorem invalidateTag_eq (st : Store) (tag : List Char) (descendants : Bool) (time : ℤ) :
    ∃ buffer, st.invalidateTag tag descendants time =
      { invalidateTagRounds tag descendants time (st.invalMap.length + 1) st
          (OrdList.fromGE StoreInvalTree.compareValue st.invalMap ⟨tag, 0⟩) with
        invalBuffer := buffer } := by
  unfold invalidateTag
  split
  · -- the early return: a walk from no pair is no walk, and the buffer stays
    rename_i hnil
    exact ⟨st.invalBuffer, by rw [hnil, invalidateTagRounds]⟩
  · rename_i cur rest hcons
    rw [hcons]
    dsimp only
    split
    · exact ⟨_, rfl⟩
    · exact ⟨_, rfl⟩

theorem invalidateTag_induction {tag : List Char} {descendants : Bool} {time : ℤ}
    (htr : ∀ st x, P st → x ∈ st.invalMap →
      P (st.truncateUnboundedInterval x.entry st.lastInvalTime time))
    (hbuf : ∀ (st : Store) buffer, P st → P { st with invalBuffer := buffer }) (hs : P st) :
    P (st.invalidateTag tag descendants time) := by
  obtain ⟨buffer, h⟩ := st.invalidateTag_eq tag descendants time
  rw [h]
  exact hbuf _ buffer
    (invalidateTagRounds_induction htr _ st _ hs fun x hx ↦ OrdList.mem_of_mem_fromGE _ hx)

theorem invalidate_induction {ts : ℕ} {tags : List (List Char)} {time : ℤ} {st' : Store}
    (hlast : ∀ st : Store, P st → P { st with lastInvalTime := ts })
    (htag : ∀ (st : Store) t d, P st → P (st.invalidateTag t d time))
    (hexp : ∀ st : Store, P st → P (st.expireBuffer time))
    (h : st.invalidate ts tags time = some st') (hs : P st) : P st' := by
  unfold invalidate at h
  split_ifs at h
  obtain ⟨st₁, hfold, rfl⟩ := Option.map_eq_some_iff.mp h
  refine hexp st₁ (Fold.foldlM_induction (fun s t s' hs' hPs ↦ ?_) tags _ st₁ hfold (hlast st hs))
  obtain ⟨calls, -, rfl⟩ := Option.map_eq_some_iff.mp hs'
  exact Fold.foldl_induction (fun s c hc ↦ htag s c.1 c.2 hc) calls s hPs

/-! ## Puts and lookups -/

theorem vset_isSome_iff {st : Store} {key : List UInt8} :
    (st.vset key).isSome ↔ key ∈ st.lines.map (·.1) := by
  rw [vset, List.lookup_isSome_iff, List.mem_map]
  constructor
  · rintro ⟨p, hp, hk⟩
    exact ⟨p, hp, (beq_iff_eq.mp hk).symm⟩
  · rintro ⟨p, hp, rfl⟩
    exact ⟨p, hp, beq_self_eq_true _⟩

@[simp] theorem layout_evict (st : Store) (toFree : ℕ) : (st.evict toFree).1.layout = st.layout :=
  evictRounds_induction (P := fun s ↦ s.layout = st.layout)
    (fun s _ h ↦ (layout_removeEntry s).trans h) _ _ _ _ rfl

theorem keys_evict (st : Store) (toFree : ℕ) :
    (st.evict toFree).1.lines.map (·.1) = st.lines.map (·.1) :=
  evictRounds_induction (P := fun s ↦ s.lines.map (·.1) = st.lines.map (·.1))
    (fun s _ h ↦ (keys_removeEntry s).trans h) _ _ _ _ rfl

/-- The part of `Store_Add` after eviction and the insertion into the version set: the new version
set, the next address, the tags, the truncation list, the byte count and the LRU list. -/
def addEntry (st : Store) (key : List UInt8) (vs : List Entry) (e : Entry) (fp : ℕ) : Store :=
  let st₁ := ({ st.setVSet key vs with nextAddr := st.nextAddr + 1 }.registerInvalTags e).1
  let st₂ := if e.interval.stillValid then st₁
    else { st₁ with invTimeOrder := e.addr :: st₁.invTimeOrder }
  { st₂ with entryBytes := st₂.entryBytes + fp, lru := e.addr :: st₂.lru }

section AddEntry

variable (st : Store) (key : List UInt8) (vs : List Entry) (e : Entry) (fp : ℕ)

theorem addEntry_fields :
    (st.addEntry key vs e fp).lines = (st.setVSet key vs).lines ∧
    (st.addEntry key vs e fp).nextAddr = st.nextAddr + 1 ∧
    (st.addEntry key vs e fp).invalMap = (registerTags e.addr st.invalMap e.invalTags).1 ∧
    (st.addEntry key vs e fp).entryBytes = st.entryBytes + fp ∧
    (st.addEntry key vs e fp).layout = st.layout ∧
    (st.addEntry key vs e fp).keyBytes = st.keyBytes ∧
    (st.addEntry key vs e fp).lru = e.addr :: st.lru ∧
    (st.addEntry key vs e fp).invTimeOrder =
      (if e.interval.stillValid then st.invTimeOrder else e.addr :: st.invTimeOrder) := by
  unfold addEntry
  split_ifs <;> exact ⟨rfl, rfl, rfl, rfl, rfl, rfl, rfl, rfl⟩

end AddEntry

/-- The entry that `Store_Add` builds at address `addr`. -/
def addedEntry (addr : ℕ) (key : List UInt8) (interval : Interval) (data : List UInt8)
    (tags : List (List Char)) (invalTagsLen : ℕ) (time : ℤ) : Entry :=
  { addr := addr, key := key, interval := interval, data := data, invalTags := tags,
    invalTagsLen := invalTagsLen, timeInvalidated := if interval.stillValid then -1 else time }

theorem add_induction {key : List UInt8} {interval : Interval} {data : List UInt8}
    {tags : List (List Char)} {time : ℤ}
    (hev : ∀ (s : Store) n, P s → P (s.evict n).1)
    (hins : ∀ (s : Store) vs, P s → s.layout = st.layout →
      OrdList.insert StoreVSet.compareValue
        (fun _ ↦ addedEntry s.nextAddr key interval data tags (st.copyInvalTagsLen tags) time)
        ((s.vset key).getD []) interval.lower = some vs →
      P (s.addEntry key vs (addedEntry s.nextAddr key interval data tags
        (st.copyInvalTagsLen tags) time) (st.entryFootprint data.length (st.copyInvalTagsLen tags))))
    (hs : P st) : P (st.add key interval data tags time).1 := by
  unfold add
  dsimp only
  -- eviction first, when the new entry would take the store over its size
  generalize hr : (if st.footprint + st.entryFootprint data.length (st.copyInvalTagsLen tags) >
      st.maxBytes then st.evict (st.footprint + st.entryFootprint data.length
        (st.copyInvalTagsLen tags) - st.maxBytes) else (st, true)) = r
  have hPr : P r.1 ∧ r.1.layout = st.layout := by
    rw [← hr]
    split_ifs
    · exact ⟨hev st _ hs, layout_evict st _⟩
    · exact ⟨hs, rfl⟩
  split
  · exact hPr.1
  · split
    · exact hPr.1
    · rename_i vs hins'
      exact hins _ vs hPr.1 hPr.2 hins'

theorem lookup_cases (st : Store) (key : List UInt8) (interval : Interval) (earliestPin : ℕ)
    (policy : StoreLookupPolicyId) :
    (st.lookup key interval earliestPin policy).1 = st ∨
      ∃ vs e, st.vset key = some vs ∧ e ∈ vs ∧
        (st.lookup key interval earliestPin policy).1 =
          { st with lru := e.addr :: st.lru.erase e.addr } := by
  unfold lookup
  split
  · exact .inl rfl
  · rename_i vs hvs
    have hmem : ∀ r : LookupOutcome × Option Entry, ∀ e,
        (r = st.latestAcceptableLookup vs interval earliestPin ∨
          r = screwConsistencyLookup vs interval earliestPin) → r = (.hit, some e) → e ∈ vs := by
      rintro r e (rfl | rfl) hr
      · unfold latestAcceptableLookup at hr
        split at hr
        · rename_i f hf
          split_ifs at hr <;> cases hr
          exact OrdList.mem_of_findLT _ hf
        · cases hr
      · unfold screwConsistencyLookup at hr
        split at hr
        · rename_i f hf
          split_ifs at hr <;> cases hr
          exact OrdList.mem_of_findLT _ hf
        · cases hr
    cases policy with
    | latest =>
      dsimp only
      split
      · rename_i e hr
        exact .inr ⟨vs, e, hvs, hmem _ e (.inl rfl) hr, rfl⟩
      · exact .inl rfl
    | oldest => exact .inl rfl
    | screwConsistency =>
      dsimp only
      split
      · rename_i e hr
        exact .inr ⟨vs, e, hvs, hmem _ e (.inr rfl) hr, rfl⟩
      · exact .inl rfl

theorem tryExtendInterval_cases (st : Store) (existing : Option Entry) (interval : Interval)
    (data : List UInt8) :
    (st.tryExtendInterval existing interval data).1 = st ∨
      ∃ e, existing = some e ∧ (st.tryExtendInterval existing interval data).1 =
        { st.modifyEntry e.addr (fun e ↦
            { e with interval := { e.interval with upper := interval.upper } }) with
          lru := e.addr :: st.lru.erase e.addr } := by
  unfold tryExtendInterval
  split
  · exact .inl rfl
  · rename_i e
    split_ifs
    · exact .inl rfl
    · exact .inl rfl
    · exact .inl rfl
    · exact .inr ⟨e, rfl, rfl⟩

/-! ## The stages of a put

`Store_Put` goes through the version set of its key in three stages: the latest entry below the new
upper bound is found (and removed with `force`), a still-valid entry older than the new interval is
truncated, and, unless the existing entry is extended, the new entry is added, clipped to start
where the existing one ends. -/

/-- The first stage of `putInVSet`. -/
def putFound (st : Store) (key : List UInt8) (interval : Interval) (force : Bool) :
    Store × Option Entry :=
  match OrdList.findLT StoreVSet.compareValue ((st.vset key).getD []) interval.upper with
  | some e => if force then ((st.removeEntry e.addr).1, none) else (st, some e)
  | none => (st, none)

/-- The second stage of `putInVSet`. -/
def putTruncate (r : Store × Option Entry) (interval : Interval) (time : ℤ) :
    Store × Option Entry :=
  match r.2 with
  | some e =>
    if e.interval.stillValid ∧ interval.lower ≥ r.1.lastInvalTime then
      let st' := r.1.truncateUnboundedInterval e.addr r.1.lastInvalTime time
      (st', st'.findEntry e.addr)
    else r
  | none => r

/-- The last stage of `putInVSet`, when the existing entry is not extended. -/
def putAdd (st : Store) (existing : Option Entry) (key : List UInt8) (interval : Interval)
    (data : List UInt8) (tags : List (List Char)) (time : ℤ) : Store × Bool :=
  match existing with
  | some e =>
    if e.interval.upper > interval.lower then
      if e.interval.upper ≥ interval.upper then (st, false)
      else st.add key { interval with lower := e.interval.upper } data tags time
    else st.add key interval data tags time
  | none => st.add key interval data tags time

theorem putInVSet_eq (st : Store) (key : List UInt8) (interval : Interval) (data : List UInt8)
    (tags : List (List Char)) (force : Bool) (time : ℤ) :
    st.putInVSet key interval data tags force time =
      let r := putTruncate (st.putFound key interval force) interval time
      let ext := r.1.tryExtendInterval r.2 interval data
      if ext.2 then (ext.1, true) else putAdd ext.1 r.2 key interval data tags time :=
  rfl

theorem mem_entries_of_getD {st : Store} {key : List UInt8} {e : Entry}
    (he : e ∈ (st.vset key).getD []) : e ∈ st.entries := by
  cases hvs : st.vset key with
  | none => rw [hvs] at he; cases he
  | some vs => rw [hvs] at he; exact mem_entries_of_vset hvs he

theorem putFound_spec (key : List UInt8) (interval : Interval) (force : Bool)
    (hrem : ∀ s a, P s → P (s.removeEntry a).1) (hs : P st) :
    P (st.putFound key interval force).1 ∧
      (st.putFound key interval force).1.lines.map (·.1) = st.lines.map (·.1) ∧
      ∀ e, (st.putFound key interval force).2 = some e →
        e ∈ (st.putFound key interval force).1.entries := by
  unfold putFound
  split
  · rename_i e he
    split_ifs
    · exact ⟨hrem st _ hs, keys_removeEntry st, fun _ h ↦ by cases h⟩
    · refine ⟨hs, rfl, fun e' h ↦ ?_⟩
      cases h
      exact mem_entries_of_getD (OrdList.mem_of_findLT _ he)
  · exact ⟨hs, rfl, fun _ h ↦ by cases h⟩

theorem putTruncate_spec {r : Store × Option Entry} (interval : Interval) {time : ℤ}
    (htr : ∀ (s : Store) e now, P s → e ∈ s.entries → e.interval.stillValid = true →
      P (s.truncateUnboundedInterval e.addr now time))
    (hs : P r.1) (hr : ∀ e, r.2 = some e → e ∈ r.1.entries) :
    P (putTruncate r interval time).1 ∧
      (putTruncate r interval time).1.lines.map (·.1) = r.1.lines.map (·.1) ∧
      ∀ e, (putTruncate r interval time).2 = some e → e ∈ (putTruncate r interval time).1.entries := by
  unfold putTruncate
  split
  · rename_i e he
    split_ifs with hc
    · exact ⟨htr _ e _ hs (hr e he) hc.1, keys_truncateUnboundedInterval,
        fun _ h ↦ List.mem_of_find?_eq_some h⟩
    · exact ⟨hs, rfl, hr⟩
  · exact ⟨hs, rfl, hr⟩

theorem putAdd_spec {existing : Option Entry} {key : List UInt8} {interval : Interval}
    {data : List UInt8} {tags : List (List Char)} {time : ℤ}
    (hadd : ∀ iv : Interval, iv.stillValid = interval.stillValid → P (st.add key iv data tags time).1)
    (hs : P st) : P (putAdd st existing key interval data tags time).1 := by
  unfold putAdd
  split
  · split_ifs
    · exact hs
    · exact hadd _ rfl
    · exact hadd _ rfl
  · exact hadd _ rfl

theorem putInVSet_induction {key : List UInt8} {interval : Interval} {data : List UInt8}
    {tags : List (List Char)} {force : Bool} {time : ℤ}
    (hrem : ∀ s a, P s → P (s.removeEntry a).1)
    (htr : ∀ (s : Store) e now, P s → e ∈ s.entries → e.interval.stillValid = true →
      P (s.truncateUnboundedInterval e.addr now time))
    (hext : ∀ (s : Store) e, P s → e ∈ s.entries →
      P { s.modifyEntry e.addr (fun e ↦
            { e with interval := { e.interval with upper := interval.upper } }) with
          lru := e.addr :: s.lru.erase e.addr })
    (hadd : ∀ (s : Store) (iv : Interval), P s → key ∈ s.lines.map (·.1) →
      iv.stillValid = interval.stillValid → P (s.add key iv data tags time).1)
    (hs : P st) (hkey : key ∈ st.lines.map (·.1)) :
    P (st.putInVSet key interval data tags force time).1 := by
  obtain ⟨hP₁, hk₁, hr₁⟩ := putFound_spec key interval force hrem hs
  obtain ⟨hP₂, hk₂, hr₂⟩ := putTruncate_spec interval htr hP₁ hr₁
  rw [putInVSet_eq]
  dsimp only
  have hext' : P ((putTruncate (st.putFound key interval force) interval time).1.tryExtendInterval
      (putTruncate (st.putFound key interval force) interval time).2 interval data).1 ∧
      key ∈ ((putTruncate (st.putFound key interval force) interval time).1.tryExtendInterval
        (putTruncate (st.putFound key interval force) interval time).2 interval data).1.lines.map
          (·.1) := by
    rcases tryExtendInterval_cases _ _ interval data with h | ⟨e, he, h⟩
    · rw [h]
      exact ⟨hP₂, hk₂ ▸ hk₁ ▸ hkey⟩
    · rw [h]
      exact ⟨hext _ e hP₂ (hr₂ e he), by rw [keys_modifyEntry, hk₂, hk₁]; exact hkey⟩
  split
  · exact hext'.1
  · exact putAdd_spec (fun iv hiv ↦ hadd _ iv hext'.1 hext'.2 hiv) hext'.1

/-- The part of `Store_Put` that gives a new key its line, empty, and counts its copy. -/
def putLine (st : Store) (key : List UInt8) : Store :=
  if (st.vset key).isSome then st
  else { st.insertLine key with keyBytes := st.keyBytes + mallocSize key.length }

/-- The interval `Store_Put` goes on with: a still-valid one is checked against the buffered
invalidations. -/
def putInterval (st : Store) (interval : Interval) (tags : List (List Char)) : Interval :=
  if interval.stillValid then st.truncateIfAlreadyInvalidated interval tags else interval

theorem put_eq (st : Store) (key : List UInt8) (interval : Interval) (data : List UInt8)
    (tags : List (List Char)) (force : Bool) (time : ℤ) :
    st.put key interval data tags force time =
      if interval.stillValid ∧ tags = [] then (st, false)
      else ((st.removeUseless time).putLine key).putInVSet key (st.putInterval interval tags) data
        (if (st.putInterval interval tags).stillValid then tags else []) force time :=
  rfl

theorem putLine_spec {key : List UInt8}
    (hline : ∀ s : Store, P s → s.vset key = none →
      P { s.insertLine key with keyBytes := s.keyBytes + mallocSize key.length })
    (hs : P st) : P (st.putLine key) ∧ key ∈ (st.putLine key).lines.map (·.1) := by
  unfold putLine
  split_ifs with hsome
  · exact ⟨hs, vset_isSome_iff.mp hsome⟩
  · refine ⟨hline st hs (Option.not_isSome_iff_eq_none.mp hsome), ?_⟩
    show key ∈ (st.insertLine key).lines.map (·.1)
    rw [keys_insertLine]
    exact List.mem_append_right _ (List.mem_singleton_self key)

theorem put_induction {key : List UInt8} {interval : Interval} {data : List UInt8}
    {tags : List (List Char)} {force : Bool} {time : ℤ}
    (hus : ∀ s : Store, P s → P (s.removeUseless time))
    (hline : ∀ s : Store, P s → s.vset key = none →
      P { s.insertLine key with keyBytes := s.keyBytes + mallocSize key.length })
    (hput : ∀ (s : Store) (iv : Interval), P s → key ∈ s.lines.map (·.1) →
      P (s.putInVSet key iv data (if iv.stillValid then tags else []) force time).1)
    (hs : P st) : P (st.put key interval data tags force time).1 := by
  rw [put_eq]
  by_cases h : interval.stillValid ∧ tags = []
  · rw [if_pos h]
    exact hs
  · rw [if_neg h]
    obtain ⟨hP, hkey⟩ := putLine_spec hline (hus st hs)
    exact hput _ _ hP hkey


end Store

end TxCache
