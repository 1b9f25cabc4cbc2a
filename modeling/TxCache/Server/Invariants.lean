import TxCache.Server.LatePut
import TxCache.Server.Bookkeeping

/-!
# The store over whole runs

`Store_Add` assumes that the entries of a version set have disjoint intervals, and
`LatestAcceptable_Lookup` relies on it: it looks at one entry only, the one with the greatest lower
bound below the requested upper bound. `Store_Put` keeps the new entry off its neighbour by
clipping its lower bound to the neighbour's upper bound, but the neighbour may be still valid, and a
still-valid entry's upper bound moves when it is truncated. A put that is clipped against a
still-valid entry is overlapped by it after the next invalidation of the entry's tags, and a lookup
after the clipped entry then misses the entry that holds the value (`clipped_entry_overlaps`).
-/

namespace TxCache

namespace Store

/-! ## The invariants -/

variable (st : Store)

/-- The bookkeeping of the store: the shape of the table, an index that only names live,
still-valid entries with their tags, the two byte counts that `Store_AssertSize` checks under
`PARANOID`, and the two lists of the eviction policy and of truncated entries. -/
structure Valid : Prop extends st.WellFormed where
  /-- The index is a search tree: sorted by tag and then by address. -/
  invalMap_sorted : OrdList.Sorted StoreInvalTree.compareValue st.invalMap
  /-- Every pair of the index is a tag of a live, still-valid entry. -/
  invalMap_sound : ∀ x ∈ st.invalMap, ∃ e ∈ st.entries,
    e.addr = x.entry ∧ e.interval.stillValid = true ∧ x.tag ∈ e.invalTags
  /-- `entryBytes` is the footprint of the live entries. -/
  entryBytes_eq :
    st.entryBytes = (st.entries.map fun e ↦ st.entryFootprint e.data.length e.invalTagsLen).sum
  /-- `keyBytes` is the footprint of the copies of the keys. -/
  keyBytes_eq : st.keyBytes = ((st.lines.map (·.1)).map fun k ↦ mallocSize k.length).sum
  /-- The LRU list holds every live entry once. -/
  lru_perm : st.lru.Perm (st.entries.map (·.addr))
  /-- The truncation list holds every live entry that is not still valid, once. -/
  invTimeOrder_perm :
    st.invTimeOrder.Perm ((st.entries.filter fun e ↦ !e.interval.stillValid).map (·.addr))

/-- The index names every tag of every live, still-valid entry. -/
def Indexed : Prop :=
  ∀ e ∈ st.entries, e.interval.stillValid = true → ∀ t ∈ e.invalTags, ⟨t, e.addr⟩ ∈ st.invalMap

/-- The truncation list is ordered from the most recently truncated entry, and no entry was
truncated after `T`. -/
structure TimeOrdered (T : ℤ) : Prop where
  /-- No entry was truncated, or added truncated, after `T`. -/
  time_le : ∀ e ∈ st.entries, e.interval.stillValid = false → e.timeInvalidated ≤ T
  /-- An entry earlier in the list was truncated no earlier than a later one. -/
  sorted : st.invTimeOrder.Pairwise fun a b ↦ ∀ e ∈ st.entries, ∀ f ∈ st.entries,
    e.addr = a → f.addr = b → f.timeInvalidated ≤ e.timeInvalidated

variable {st}

theorem Valid.sorted_nodup (hv : st.Valid) : st.invalMap.Nodup := hv.invalMap_sorted.nodup

theorem Valid.stillValid_of_mem_invTimeOrder (hv : st.Valid) {b : ℕ} {f : Entry}
    (hb : b ∈ st.invTimeOrder) (hf : f ∈ st.entries) (hfb : f.addr = b) :
    f.interval.stillValid = false := by
  obtain ⟨g, hg, hgb⟩ := List.mem_map.mp (hv.invTimeOrder_perm.subset hb)
  obtain ⟨hg, hgsv⟩ := List.mem_filter.mp hg
  have : g = f := List.inj_on_of_nodup_map hv.addrs_nodup hg hf (hgb.trans hfb.symm)
  subst this
  simpa using hgsv

theorem Valid.not_mem_invTimeOrder (hv : st.Valid) {e : Entry} (he : e ∈ st.entries)
    (hsv : e.interval.stillValid = true) : e.addr ∉ st.invTimeOrder := by
  intro hmem
  obtain ⟨f, hf, hfa⟩ := List.mem_map.mp (hv.invTimeOrder_perm.subset hmem)
  obtain ⟨hf, hfsv⟩ := List.mem_filter.mp hf
  have : f = e := List.inj_on_of_nodup_map hv.addrs_nodup hf he hfa
  subst this
  simp [hsv] at hfsv

theorem Valid.of_eq {st' : Store} (hv : st.Valid) (hlines : st'.lines = st.lines)
    (hnext : st'.nextAddr = st.nextAddr) (hmap : st'.invalMap = st.invalMap)
    (hentry : st'.entryBytes = st.entryBytes) (hlayout : st'.layout = st.layout)
    (hkey : st'.keyBytes = st.keyBytes) (hlru : st'.lru = st.lru)
    (horder : st'.invTimeOrder = st.invTimeOrder) : st'.Valid := by
  have hents : st'.entries = st.entries := by
    unfold entries
    rw [hlines]
  refine ⟨hv.toWellFormed.of_lines hlines hnext, ?_, ?_, ?_, ?_, ?_, ?_⟩
  · rw [hmap]
    exact hv.invalMap_sorted
  · rw [hmap, hents]
    exact hv.invalMap_sound
  · rw [hentry, hents, entryFootprint_congr st hlayout]
    exact hv.entryBytes_eq
  · rw [hkey, hlines]
    exact hv.keyBytes_eq
  · rw [hlru, hents]
    exact hv.lru_perm
  · rw [horder, hents]
    exact hv.invTimeOrder_perm

theorem Indexed.of_eq {st' : Store} (hi : st.Indexed) (hents : st'.entries = st.entries)
    (hmap : st'.invalMap = st.invalMap) : st'.Indexed := by
  unfold Indexed
  rw [hents, hmap]
  exact hi

theorem TimeOrdered.of_eq {st' : Store} {T : ℤ} (ht : st.TimeOrdered T)
    (hents : st'.entries = st.entries) (horder : st'.invTimeOrder = st.invTimeOrder) :
    st'.TimeOrdered T := by
  exact ⟨hents ▸ ht.time_le, by rw [horder, hents]; exact ht.sorted⟩

theorem TimeOrdered.mono {T T' : ℤ} (ht : st.TimeOrdered T) (hT : T ≤ T') : st.TimeOrdered T' :=
  ⟨fun e he hsv ↦ (ht.time_le e he hsv).trans hT, ht.sorted⟩

/-! ## Removing entries -/

variable {a : ℕ} {e : Entry}

theorem Valid.removeEntry (hv : st.Valid) (a : ℕ) : (st.removeEntry a).1.Valid := by
  cases h : st.findEntry a with
  | none => rw [removeEntry_of_none st h]; exact hv
  | some e =>
    obtain ⟨he, rfl⟩ := (st.findEntry_eq_some_iff hv.addrs_nodup).mp h
    have hperm := hv.entries_removeEntry h
    obtain ⟨hmap, hbytes, horder, hlru, -⟩ := st.removeEntry_fields h
    have hfp := entryFootprint_congr st (st.layout_removeEntry (a := e.addr))
    refine ⟨hv.toWellFormed.removeEntry e.addr, ?_, ?_, ?_, ?_, ?_, ?_⟩
    · rw [hmap]
      exact hv.invalMap_sorted.sublist (unregisterTags_sublist _ _)
    · intro x hx
      rw [hmap, mem_unregisterTags hv.sorted_nodup] at hx
      obtain ⟨hx, hnot⟩ := hx
      obtain ⟨e', he', haddr, hsv, htag⟩ := hv.invalMap_sound x hx
      have hne : e' ≠ e := by
        rintro rfl
        exact hnot ⟨haddr.symm, htag⟩
      exact ⟨e', (List.mem_cons.mp (hperm.subset he')).resolve_left hne, haddr, hsv, htag⟩
    · have hsum := (hperm.map fun e ↦ st.entryFootprint e.data.length e.invalTagsLen).sum_eq
      rw [List.map_cons, List.sum_cons] at hsum
      rw [hbytes, hfp, hv.entryBytes_eq, hsum]
      omega
    · rw [keyBytes_removeEntry, keys_removeEntry]
      exact hv.keyBytes_eq
    · rw [hlru]
      have herase := (hv.lru_perm.trans (hperm.map _)).erase e.addr
      rwa [List.map_cons, List.erase_cons_head] at herase
    · rw [horder]
      have hfilter := hperm.filter fun e ↦ !e.interval.stillValid
      split_ifs with hsv
      · rw [List.filter_cons_of_neg (by simp [hsv])] at hfilter
        exact hv.invTimeOrder_perm.trans (hfilter.map _)
      · rw [List.filter_cons_of_pos (by simpa using hsv)] at hfilter
        have herase := (hv.invTimeOrder_perm.trans (hfilter.map _)).erase e.addr
        rwa [List.map_cons, List.erase_cons_head] at herase

theorem Indexed.removeEntry (hv : st.Valid) (hi : st.Indexed) (a : ℕ) :
    (st.removeEntry a).1.Indexed := by
  cases h : st.findEntry a with
  | none => rw [removeEntry_of_none st h]; exact hi
  | some e =>
    obtain ⟨he, rfl⟩ := (st.findEntry_eq_some_iff hv.addrs_nodup).mp h
    have hperm := hv.entries_removeEntry h
    intro e' he' hsv t ht
    rw [(st.removeEntry_fields h).1, mem_unregisterTags hv.sorted_nodup]
    have he'old := hperm.symm.subset (List.mem_cons_of_mem e he')
    have hne : e'.addr ≠ e.addr := by
      intro haddr
      have heq := List.inj_on_of_nodup_map hv.addrs_nodup he'old he haddr
      subst heq
      exact (List.nodup_cons.mp ((hperm.nodup_iff).mp (List.Nodup.of_map _ hv.addrs_nodup))).1 he'
    exact ⟨hi e' he'old hsv t ht, fun h ↦ hne h.1⟩

theorem TimeOrdered.removeEntry {T : ℤ} (hv : st.Valid) (ht : st.TimeOrdered T) (a : ℕ) :
    (st.removeEntry a).1.TimeOrdered T := by
  cases h : st.findEntry a with
  | none => rw [removeEntry_of_none st h]; exact ht
  | some e =>
    have hsub : ∀ f ∈ (st.removeEntry a).1.entries, f ∈ st.entries := fun f hf ↦
      (hv.entries_removeEntry h).symm.subset (List.mem_cons_of_mem e hf)
    refine ⟨fun f hf ↦ ht.time_le f (hsub f hf), ?_⟩
    rw [(st.removeEntry_fields h).2.2.1]
    have hsorted := ht.sorted.imp fun hab e₁ he₁ e₂ he₂ ↦ hab e₁ (hsub e₁ he₁) e₂ (hsub e₂ he₂)
    split_ifs
    · exact hsorted
    · exact hsorted.sublist List.erase_sublist

/-! ## Truncating a still-valid entry -/

section Truncate

variable {now : ℕ} {time : ℤ}

theorem Valid.mem_truncate (hv : st.Valid) (h : st.findEntry a = some e) {f : Entry}
    (hf : f ∈ (st.truncateUnboundedInterval a now time).entries) :
    f = truncatedEntry now time e ∨ (f ∈ st.entries ∧ f.addr ≠ e.addr) := by
  obtain ⟨he, -⟩ := (st.findEntry_eq_some_iff hv.addrs_nodup).mp h
  rcases List.mem_cons.mp
      ((st.entries_truncateUnboundedInterval hv.addrs_nodup h now time).subset hf) with rfl | hf
  · exact .inl rfl
  · exact .inr ⟨List.erase_sublist.subset hf, st.addr_ne_of_mem_erase hv.addrs_nodup he hf⟩

theorem Valid.truncate (hv : st.Valid) (h : st.findEntry a = some e)
    (hsv : e.interval.stillValid = true) : (st.truncateUnboundedInterval a now time).Valid := by
  obtain ⟨he, rfl⟩ := (st.findEntry_eq_some_iff hv.addrs_nodup).mp h
  have hnew := st.entries_truncateUnboundedInterval hv.addrs_nodup h now time
  have hold := List.perm_cons_erase he
  obtain ⟨hmap, horder⟩ := st.truncateUnboundedInterval_fields h now time
  refine ⟨hv.toWellFormed.truncateUnboundedInterval e.addr now time, ?_, ?_, ?_, ?_, ?_, ?_⟩
  · rw [hmap]
    exact hv.invalMap_sorted.sublist (unregisterTags_sublist _ _)
  · intro x hx
    rw [hmap, mem_unregisterTags hv.sorted_nodup] at hx
    obtain ⟨hx, hnot⟩ := hx
    obtain ⟨f, hf, haddr, hfsv, htag⟩ := hv.invalMap_sound x hx
    have hne : f ≠ e := by
      rintro rfl
      exact hnot ⟨haddr.symm, htag⟩
    exact ⟨f, hnew.symm.subset (List.mem_cons_of_mem _ ((List.mem_erase_of_ne hne).mpr hf)),
      haddr, hfsv, htag⟩
  · rw [entryFootprint_congr st (st.layout_truncateUnboundedInterval (a := e.addr)),
      entryBytes_truncateUnboundedInterval, hv.entryBytes_eq, (hold.map _).sum_eq,
      (hnew.map _).sum_eq]
    rfl
  · rw [keyBytes_truncateUnboundedInterval, keys_truncateUnboundedInterval]
    exact hv.keyBytes_eq
  · rw [lru_truncateUnboundedInterval]
    exact hv.lru_perm.trans ((hold.map _).trans (hnew.map Entry.addr).symm)
  · rw [horder]
    have hfilter := hnew.filter fun e ↦ !e.interval.stillValid
    have hfilter' := hold.filter fun e ↦ !e.interval.stillValid
    rw [List.filter_cons_of_pos (by simp [truncatedEntry])] at hfilter
    rw [List.filter_cons_of_neg (by simp [hsv])] at hfilter'
    exact ((hv.invTimeOrder_perm.trans (hfilter'.map _)).cons _).trans (hfilter.map Entry.addr).symm

theorem Indexed.truncate (hv : st.Valid) (hi : st.Indexed) (h : st.findEntry a = some e) :
    (st.truncateUnboundedInterval a now time).Indexed := by
  obtain ⟨-, rfl⟩ := (st.findEntry_eq_some_iff hv.addrs_nodup).mp h
  intro f hf hfsv t ht
  rw [(st.truncateUnboundedInterval_fields h now time).1, mem_unregisterTags hv.sorted_nodup]
  rcases hv.mem_truncate h hf with rfl | ⟨hf, hne⟩
  · simp [truncatedEntry] at hfsv
  · exact ⟨hi f hf hfsv t ht, fun h ↦ hne h.1⟩

theorem TimeOrdered.truncate {T : ℤ} (hv : st.Valid) (ht : st.TimeOrdered T) (hT : T ≤ time)
    (h : st.findEntry a = some e) (hsv : e.interval.stillValid = true) :
    (st.truncateUnboundedInterval a now time).TimeOrdered time := by
  obtain ⟨he, rfl⟩ := (st.findEntry_eq_some_iff hv.addrs_nodup).mp h
  have hlisted : ∀ b ∈ st.invTimeOrder, ∀ f ∈ (st.truncateUnboundedInterval e.addr now time).entries,
      f.addr = b → f ∈ st.entries ∧ f.interval.stillValid = false := by
    intro b hb f hf hfb
    obtain ⟨g, hg, hgb⟩ := List.mem_map.mp (hv.invTimeOrder_perm.subset hb)
    obtain ⟨hg, hgsv⟩ := List.mem_filter.mp hg
    rcases hv.mem_truncate h hf with rfl | ⟨hf, -⟩
    · exact absurd (hfb ▸ hb) (hv.not_mem_invTimeOrder he hsv)
    · have : g = f := List.inj_on_of_nodup_map hv.addrs_nodup hg hf (hgb.trans hfb.symm)
      subst this
      exact ⟨hg, by simpa using hgsv⟩
  refine ⟨fun f hf hfsv ↦ ?_, ?_⟩
  · rcases hv.mem_truncate h hf with rfl | ⟨hf, -⟩
    · exact le_rfl
    · exact (ht.time_le f hf hfsv).trans hT
  · rw [(st.truncateUnboundedInterval_fields h now time).2]
    refine List.Pairwise.cons (fun b hb e₁ he₁ e₂ he₂ h₁ h₂ ↦ ?_) ?_
    · obtain ⟨he₂, hsv₂⟩ := hlisted b hb e₂ he₂ h₂
      rcases hv.mem_truncate h he₁ with rfl | ⟨-, hne⟩
      · exact (ht.time_le e₂ he₂ hsv₂).trans hT
      · exact absurd h₁ hne
    · exact ht.sorted.imp_of_mem fun {b c} hb hc hbc e₁ he₁ e₂ he₂ h₁ h₂ ↦
        hbc e₁ (hlisted b hb e₁ he₁ h₁).1 e₂ (hlisted c hc e₂ he₂ h₂).1 h₁ h₂

end Truncate

/-! ## Invalidations -/

section Invalidate

variable {tag : List Char} {descendants : Bool} {time : ℤ}

theorem Valid.findEntry_of_mem (hv : st.Valid) {x : InvalMapEntry} (hx : x ∈ st.invalMap) :
    ∃ e, st.findEntry x.entry = some e ∧ e.interval.stillValid = true ∧ x.tag ∈ e.invalTags := by
  obtain ⟨e, he, haddr, hsv, htag⟩ := hv.invalMap_sound x hx
  exact ⟨e, (st.findEntry_eq_some_iff hv.addrs_nodup).mpr ⟨he, haddr⟩, hsv, htag⟩

theorem Valid.invalidateTag (hv : st.Valid) (tag : List Char) (descendants : Bool) (time : ℤ) :
    (st.invalidateTag tag descendants time).Valid :=
  invalidateTag_induction
    (fun st x hv hx ↦ by
      obtain ⟨e, h, hsv, -⟩ := hv.findEntry_of_mem hx
      exact hv.truncate h hsv)
    (fun _ _ h ↦ h.of_eq rfl rfl rfl rfl rfl rfl rfl rfl) hv

theorem Indexed.invalidateTag (hv : st.Valid) (hi : st.Indexed) (tag : List Char)
    (descendants : Bool) (time : ℤ) : (st.invalidateTag tag descendants time).Indexed :=
  (invalidateTag_induction (P := fun st ↦ st.Valid ∧ st.Indexed)
    (fun st x h hx ↦ by
      obtain ⟨e, he, hsv, -⟩ := h.1.findEntry_of_mem hx
      exact ⟨h.1.truncate he hsv, h.2.truncate h.1 he⟩)
    (fun _ _ h ↦ ⟨h.1.of_eq rfl rfl rfl rfl rfl rfl rfl rfl, h.2.of_eq rfl rfl⟩) ⟨hv, hi⟩).2

theorem TimeOrdered.invalidateTag {T : ℤ} (hv : st.Valid) (ht : st.TimeOrdered T) (hT : T ≤ time)
    (tag : List Char) (descendants : Bool) :
    (st.invalidateTag tag descendants time).TimeOrdered time :=
  (invalidateTag_induction (P := fun st ↦ st.Valid ∧ st.TimeOrdered time)
    (fun st x h hx ↦ by
      obtain ⟨e, he, hsv, -⟩ := h.1.findEntry_of_mem hx
      exact ⟨h.1.truncate he hsv, h.2.truncate h.1 le_rfl he hsv⟩)
    (fun _ _ h ↦ ⟨h.1.of_eq rfl rfl rfl rfl rfl rfl rfl rfl, h.2.of_eq rfl rfl⟩)
    ⟨hv, ht.mono hT⟩).2

variable {ts : ℕ} {tags : List (List Char)} {st' : Store}

theorem Valid.invalidate (hv : st.Valid) (h : st.invalidate ts tags time = some st') :
    st'.Valid :=
  invalidate_induction (fun _ h ↦ h.of_eq rfl rfl rfl rfl rfl rfl rfl rfl)
    (fun _ t d h ↦ h.invalidateTag t d time)
    (fun s h ↦ by
      obtain ⟨buffer, validFrom, he⟩ := expireBufferRounds_eq s.invalBuffer.length s time
      rw [expireBuffer, he]
      exact h.of_eq rfl rfl rfl rfl rfl rfl rfl rfl) h hv

theorem Indexed.invalidate (hv : st.Valid) (hi : st.Indexed)
    (h : st.invalidate ts tags time = some st') : st'.Indexed :=
  (invalidate_induction (P := fun st ↦ st.Valid ∧ st.Indexed)
    (fun _ h ↦ ⟨h.1.of_eq rfl rfl rfl rfl rfl rfl rfl rfl, h.2.of_eq rfl rfl⟩)
    (fun _ t d h ↦ ⟨h.1.invalidateTag t d time, h.2.invalidateTag h.1 t d time⟩)
    (fun s h ↦ by
      obtain ⟨buffer, validFrom, he⟩ := expireBufferRounds_eq s.invalBuffer.length s time
      rw [expireBuffer, he]
      exact ⟨h.1.of_eq rfl rfl rfl rfl rfl rfl rfl rfl, h.2.of_eq rfl rfl⟩) h ⟨hv, hi⟩).2

theorem TimeOrdered.invalidate {T : ℤ} (hv : st.Valid) (ht : st.TimeOrdered T) (hT : T ≤ time)
    (h : st.invalidate ts tags time = some st') : st'.TimeOrdered time :=
  (invalidate_induction (P := fun st ↦ st.Valid ∧ st.TimeOrdered time)
    (fun _ h ↦ ⟨h.1.of_eq rfl rfl rfl rfl rfl rfl rfl rfl, h.2.of_eq rfl rfl⟩)
    (fun _ t d h ↦ ⟨h.1.invalidateTag t d time, h.2.invalidateTag h.1 le_rfl t d⟩)
    (fun s h ↦ by
      obtain ⟨buffer, validFrom, he⟩ := expireBufferRounds_eq s.invalBuffer.length s time
      rw [expireBuffer, he]
      exact ⟨h.1.of_eq rfl rfl rfl rfl rfl rfl rfl rfl, h.2.of_eq rfl rfl⟩) h
    ⟨hv, ht.mono hT⟩).2

end Invalidate

/-! ## Changing an entry in place and moving it in the LRU list -/

section Modify

variable {f : Entry → Entry}

/-- `f` leaves everything the bookkeeping reads: an extension only moves the upper end. -/
def KeepsBookkeeping (f : Entry → Entry) : Prop :=
  ∀ e, (f e).addr = e.addr ∧ (f e).key = e.key ∧ (f e).interval.lower = e.interval.lower ∧
    (f e).interval.stillValid = e.interval.stillValid ∧ (f e).invalTags = e.invalTags ∧
    (f e).data = e.data ∧ (f e).invalTagsLen = e.invalTagsLen ∧
    (f e).timeInvalidated = e.timeInvalidated

theorem KeepsBookkeeping.at (hf : KeepsBookkeeping f) (a : ℕ) :
    KeepsBookkeeping fun e ↦ if e.addr = a then f e else e := by
  intro e
  by_cases h : e.addr = a
  · simpa [h] using hf e
  · simp [h]

theorem Valid.modifyEntry (hv : st.Valid) (hf : KeepsBookkeeping f) (a : ℕ) :
    (st.modifyEntry a f).Valid := by
  have hg := hf.at a
  have hents := st.entries_modifyEntry (a := a) f
  have haddrs : ((st.modifyEntry a f).entries.map (·.addr)) = st.entries.map (·.addr) := by
    rw [hents, List.map_map]
    exact List.map_congr_left fun e _ ↦ (hg e).1
  refine ⟨hv.toWellFormed.modifyEntry (fun e ↦ ⟨(hf e).1, (hf e).2.1, (hf e).2.2.1⟩) a,
    hv.invalMap_sorted, fun x hx ↦ ?_, ?_, ?_, ?_, ?_⟩
  · obtain ⟨e, he, h₁, h₂, h₃⟩ := hv.invalMap_sound x hx
    obtain ⟨g₁, -, -, g₄, g₅, -⟩ := hg e
    exact ⟨_, hents ▸ List.mem_map_of_mem he, g₁.trans h₁, g₄.trans h₂, g₅ ▸ h₃⟩
  · rw [hents, List.map_map, entryFootprint_congr st (show (st.modifyEntry a f).layout = st.layout from rfl)]
    refine hv.entryBytes_eq.trans (congrArg List.sum (List.map_congr_left fun e _ ↦ ?_))
    simp only [Function.comp, (hg e).2.2.2.2.2.1, (hg e).2.2.2.2.2.2.1]
  · rw [keys_modifyEntry]
    exact hv.keyBytes_eq
  · rw [haddrs]
    exact hv.lru_perm
  · rw [hents, List.filter_map, List.map_map]
    have hfilter : st.entries.filter ((fun e ↦ !e.interval.stillValid) ∘
        fun e ↦ if e.addr = a then f e else e) = st.entries.filter fun e ↦ !e.interval.stillValid :=
      List.filter_congr fun e _ ↦ by simp only [Function.comp, (hg e).2.2.2.1]
    have haddr : ((·.addr) ∘ fun e ↦ if e.addr = a then f e else e) = Entry.addr :=
      funext fun e ↦ (hg e).1
    rw [hfilter, haddr]
    exact hv.invTimeOrder_perm

theorem Indexed.modifyEntry (hi : st.Indexed) (hf : KeepsBookkeeping f) (a : ℕ) :
    (st.modifyEntry a f).Indexed := by
  have hg := hf.at a
  intro e' he' hsv t ht
  rw [entries_modifyEntry] at he'
  obtain ⟨e, he, rfl⟩ := List.mem_map.mp he'
  obtain ⟨g₁, -, -, g₄, g₅, -⟩ := hg e
  rw [g₁]
  exact hi e he (g₄ ▸ hsv) t (g₅ ▸ ht)

theorem TimeOrdered.modifyEntry {T : ℤ} (ht : st.TimeOrdered T) (hf : KeepsBookkeeping f)
    (a : ℕ) : (st.modifyEntry a f).TimeOrdered T := by
  have hg := hf.at a
  refine ⟨fun e' he' hsv ↦ ?_, ht.sorted.imp fun hbc e₁ he₁ e₂ he₂ h₁ h₂ ↦ ?_⟩
  · rw [entries_modifyEntry] at he'
    obtain ⟨e, he, rfl⟩ := List.mem_map.mp he'
    rw [(hg e).2.2.2.2.2.2.2]
    exact ht.time_le e he ((hg e).2.2.2.1 ▸ hsv)
  · rw [entries_modifyEntry] at he₁ he₂
    obtain ⟨f₁, hf₁, rfl⟩ := List.mem_map.mp he₁
    obtain ⟨f₂, hf₂, rfl⟩ := List.mem_map.mp he₂
    rw [(hg f₁).2.2.2.2.2.2.2, (hg f₂).2.2.2.2.2.2.2]
    exact hbc f₁ hf₁ f₂ hf₂ ((hg f₁).1 ▸ h₁) ((hg f₂).1 ▸ h₂)

theorem Valid.moveToFront (hv : st.Valid) (he : e ∈ st.entries) :
    ({ st with lru := e.addr :: st.lru.erase e.addr } : Store).Valid :=
  { hv with
    lru_perm := (List.perm_cons_erase (hv.lru_perm.symm.subset (List.mem_map_of_mem he))).symm.trans
      hv.lru_perm }

theorem keepsBookkeeping_extend (u : ℕ) :
    KeepsBookkeeping fun e ↦ { e with interval := { e.interval with upper := u } } :=
  fun _ ↦ ⟨rfl, rfl, rfl, rfl, rfl, rfl, rfl, rfl⟩

theorem Valid.extend (hv : st.Valid) (he : e ∈ st.entries) (u : ℕ) :
    ({ st.modifyEntry e.addr (fun e ↦ { e with interval := { e.interval with upper := u } }) with
        lru := e.addr :: st.lru.erase e.addr } : Store).Valid := by
  have hmod := hv.modifyEntry (keepsBookkeeping_extend u) e.addr
  have hlive : (st.modifyEntry e.addr fun e ↦
      { e with interval := { e.interval with upper := u } }).entries.map (·.addr) =
      st.entries.map (·.addr) := by
    rw [entries_modifyEntry, List.map_map]
    exact List.map_congr_left fun f _ ↦ ((keepsBookkeeping_extend u).at e.addr f).1
  obtain ⟨e', he', he'a⟩ := List.mem_map.mp (hlive ▸ List.mem_map_of_mem he)
  exact he'a ▸ hmod.moveToFront he'

theorem Indexed.extend (hi : st.Indexed) (a u : ℕ) :
    ({ st.modifyEntry a (fun e ↦ { e with interval := { e.interval with upper := u } }) with
        lru := a :: st.lru.erase a } : Store).Indexed :=
  (hi.modifyEntry (keepsBookkeeping_extend u) a).of_eq rfl rfl

theorem TimeOrdered.extend {T : ℤ} (ht : st.TimeOrdered T) (a u : ℕ) :
    ({ st.modifyEntry a (fun e ↦ { e with interval := { e.interval with upper := u } }) with
        lru := a :: st.lru.erase a } : Store).TimeOrdered T :=
  (ht.modifyEntry (keepsBookkeeping_extend u) a).of_eq rfl rfl

end Modify

theorem Valid.evict (hv : st.Valid) (toFree : ℕ) : (st.evict toFree).1.Valid :=
  evictRounds_induction (fun _ a h ↦ h.removeEntry a) _ _ _ _ hv

theorem Valid.removeUseless (hv : st.Valid) (time : ℤ) : (st.removeUseless time).Valid :=
  removeUselessRounds_induction (fun _ a h ↦ h.removeEntry a) _ _ _ hv

theorem Indexed.evict (hv : st.Valid) (hi : st.Indexed) (toFree : ℕ) :
    (st.evict toFree).1.Indexed :=
  (evictRounds_induction (P := fun st ↦ st.Valid ∧ st.Indexed)
    (fun _ a h ↦ ⟨h.1.removeEntry a, h.2.removeEntry h.1 a⟩) _ _ _ _ ⟨hv, hi⟩).2

theorem Indexed.removeUseless (hv : st.Valid) (hi : st.Indexed) (time : ℤ) :
    (st.removeUseless time).Indexed :=
  (removeUselessRounds_induction (P := fun st ↦ st.Valid ∧ st.Indexed)
    (fun _ a h ↦ ⟨h.1.removeEntry a, h.2.removeEntry h.1 a⟩) _ _ _ ⟨hv, hi⟩).2

theorem TimeOrdered.evict {T : ℤ} (hv : st.Valid) (ht : st.TimeOrdered T) (toFree : ℕ) :
    (st.evict toFree).1.TimeOrdered T :=
  (evictRounds_induction (P := fun st ↦ st.Valid ∧ st.TimeOrdered T)
    (fun _ a h ↦ ⟨h.1.removeEntry a, h.2.removeEntry h.1 a⟩) _ _ _ _ ⟨hv, ht⟩).2

theorem TimeOrdered.removeUseless {T : ℤ} (hv : st.Valid) (ht : st.TimeOrdered T) (time : ℤ) :
    (st.removeUseless time).TimeOrdered T :=
  (removeUselessRounds_induction (P := fun st ↦ st.Valid ∧ st.TimeOrdered T)
    (fun _ a h ↦ ⟨h.1.removeEntry a, h.2.removeEntry h.1 a⟩) _ _ _ ⟨hv, ht⟩).2

/-! ## Adding an entry

`Store_Add` takes the next address for the new entry, so the entry is fresh: no live entry, no
pair of the index and no address on the truncation list names it. -/

section AddEntry

variable {key : List UInt8} {vs₀ vs : List Entry} {fp : ℕ}

theorem perm_of_insert_vset
    (hins : OrdList.insert StoreVSet.compareValue (fun _ ↦ e) vs₀ e.interval.lower = some vs) :
    vs.Perm (e :: vs₀) ∧ e.interval.lower ∉ vs₀.map (·.interval.lower) := by
  refine ⟨OrdList.perm_of_insert _ hins, fun hmem ↦ ?_⟩
  obtain ⟨v, hv, hlow⟩ := List.mem_map.mp hmem
  have hnone : OrdList.insert StoreVSet.compareValue (fun _ ↦ e) vs₀ e.interval.lower = none :=
    (OrdList.insert_eq_none_iff _).mpr ⟨v, hv, by rw [StoreVSet.compareValue, hlow, Nat.compare_eq_eq]⟩
  rw [hins] at hnone
  cases hnone

theorem WellFormed.entries_addEntry (hw : st.WellFormed) (hvs : st.vset key = some vs₀)
    (hins : OrdList.insert StoreVSet.compareValue (fun _ ↦ e) vs₀ e.interval.lower = some vs)
    (fp : ℕ) : (st.addEntry key vs e fp).entries.Perm (e :: st.entries) := by
  obtain ⟨rest, hold, hnew⟩ := st.entries_setVSet hw.keys_nodup hvs vs
  have hents : (st.addEntry key vs e fp).entries = (st.setVSet key vs).entries := by
    unfold entries
    rw [(st.addEntry_fields key vs e fp).1]
  rw [hents]
  exact hnew.trans (((perm_of_insert_vset hins).1.append_right rest).trans (hold.symm.cons e))

theorem WellFormed.addEntry (hw : st.WellFormed) (hvs : st.vset key = some vs₀)
    (hins : OrdList.insert StoreVSet.compareValue (fun _ ↦ e) vs₀ e.interval.lower = some vs)
    (haddr : e.addr = st.nextAddr) (hkey : e.key = key) : (st.addEntry key vs e fp).WellFormed := by
  obtain ⟨hperm, hlow⟩ := perm_of_insert_vset hins
  have hents := hw.entries_addEntry hvs hins fp
  obtain ⟨hlines, hnext, -⟩ := st.addEntry_fields key vs e fp
  have hold := (st.vset_eq_some_iff hw.keys_nodup).mp hvs
  have hnd : (e.addr :: st.entries.map (·.addr)).Nodup := by
    refine List.nodup_cons.mpr ⟨fun h ↦ ?_, hw.addrs_nodup⟩
    obtain ⟨f, hf, hfa⟩ := List.mem_map.mp h
    exact absurd (hw.addr_lt f hf) (by omega)
  refine ⟨?_, ?_, ?_, (hents.map _).nodup_iff.mpr hnd, fun f hf ↦ ?_⟩
  · rw [hlines, keys_setVSet]
    exact hw.keys_nodup
  · intro l hl f hf
    rw [hlines] at hl
    rcases st.mem_lines_setVSet hl with hl | rfl
    · exact hw.key_eq l hl f hf
    · rcases List.mem_cons.mp (hperm.subset hf) with rfl | hf
      · exact hkey
      · exact hw.key_eq _ hold f hf
  · intro l hl
    rw [hlines] at hl
    rcases st.mem_lines_setVSet hl with hl | rfl
    · exact hw.lowers_nodup l hl
    · exact (hperm.map _).nodup_iff.mpr (List.nodup_cons.mpr ⟨hlow, hw.lowers_nodup _ hold⟩)
  · rw [hnext]
    rcases List.mem_cons.mp (hents.subset hf) with rfl | hf
    · simp [haddr]
    · exact (hw.addr_lt f hf).trans (Nat.lt_succ_self _)

theorem Valid.lt_nextAddr_of_mem_invTimeOrder (hv : st.Valid) {b : ℕ} (hb : b ∈ st.invTimeOrder) :
    b < st.nextAddr := by
  obtain ⟨f, hf, rfl⟩ := List.mem_map.mp (hv.invTimeOrder_perm.subset hb)
  exact hv.addr_lt f (List.mem_filter.mp hf).1

theorem Valid.addEntry (hv : st.Valid) (hvs : st.vset key = some vs₀)
    (hins : OrdList.insert StoreVSet.compareValue (fun _ ↦ e) vs₀ e.interval.lower = some vs)
    (haddr : e.addr = st.nextAddr) (hkey : e.key = key)
    (htags : e.interval.stillValid = true ∨ e.invalTags = [])
    (hfp : fp = st.entryFootprint e.data.length e.invalTagsLen) :
    (st.addEntry key vs e fp).Valid := by
  have hperm := hv.entries_addEntry hvs hins fp
  obtain ⟨hlines, -, hmap, hbytes, hlayout, hkeyb, hlru, horder⟩ := st.addEntry_fields key vs e fp
  refine ⟨hv.toWellFormed.addEntry hvs hins haddr hkey, ?_, fun x hx ↦ ?_, ?_, ?_, ?_, ?_⟩
  · rw [hmap]
    exact sorted_registerTags hv.invalMap_sorted _
  · rw [hmap] at hx
    rcases mem_registerTags hx with hx | ⟨hxa, hxt⟩
    · obtain ⟨f, hf, h⟩ := hv.invalMap_sound x hx
      exact ⟨f, hperm.symm.subset (List.mem_cons_of_mem e hf), h⟩
    · have hsv : e.interval.stillValid = true := htags.resolve_right fun h ↦ by simp [h] at hxt
      exact ⟨e, hperm.symm.subset List.mem_cons_self, hxa.symm, hsv, hxt⟩
  · rw [hbytes, entryFootprint_congr st hlayout, (hperm.map _).sum_eq, List.map_cons,
      List.sum_cons, hv.entryBytes_eq, hfp]
    omega
  · rw [hkeyb, hlines, keys_setVSet]
    exact hv.keyBytes_eq
  · rw [hlru]
    exact (hv.lru_perm.cons e.addr).trans (hperm.map Entry.addr).symm
  · rw [horder]
    refine List.Perm.trans ?_ ((hperm.filter _).map Entry.addr).symm
    cases hsv : e.interval.stillValid
    · simpa [List.filter_cons, hsv] using hv.invTimeOrder_perm.cons e.addr
    · simpa [List.filter_cons, hsv] using hv.invTimeOrder_perm

theorem Indexed.addEntry (hv : st.Valid) (hi : st.Indexed) (hvs : st.vset key = some vs₀)
    (hins : OrdList.insert StoreVSet.compareValue (fun _ ↦ e) vs₀ e.interval.lower = some vs)
    (haddr : e.addr = st.nextAddr) (hnd : e.invalTags.Nodup) :
    (st.addEntry key vs e fp).Indexed := by
  have hperm := hv.entries_addEntry hvs hins fp
  have hno : ∀ x ∈ st.invalMap, x.entry = e.addr → x.tag ∉ e.invalTags := by
    intro x hx hxa
    obtain ⟨f, hf, hfx, -⟩ := hv.invalMap_sound x hx
    exact absurd (hv.addr_lt f hf) (by omega)
  obtain ⟨m', hm', -, hmem⟩ := registerTags_eq hv.sorted_nodup hnd hno
  have hmap : (st.addEntry key vs e fp).invalMap = m' := by
    rw [(st.addEntry_fields key vs e fp).2.2.1, hm']
  intro f hf hsv t ht
  rw [hmap, hmem]
  rcases List.mem_cons.mp (hperm.subset hf) with rfl | hf
  · exact .inr ⟨rfl, ht⟩
  · exact .inl (hi f hf hsv t ht)

theorem TimeOrdered.addEntry {T time : ℤ} (hv : st.Valid) (ht : st.TimeOrdered T)
    (hvs : st.vset key = some vs₀)
    (hins : OrdList.insert StoreVSet.compareValue (fun _ ↦ e) vs₀ e.interval.lower = some vs)
    (haddr : e.addr = st.nextAddr) (hT : T ≤ time)
    (htime : e.interval.stillValid = false → e.timeInvalidated = time) :
    (st.addEntry key vs e fp).TimeOrdered time := by
  have hmem : ∀ f, f ∈ (st.addEntry key vs e fp).entries ↔ f = e ∨ f ∈ st.entries := fun f ↦
    (hv.entries_addEntry hvs hins _).mem_iff.trans List.mem_cons
  have hold : ∀ b ∈ st.invTimeOrder, ∀ f ∈ (st.addEntry key vs e fp).entries, f.addr = b →
      f ∈ st.entries ∧ f.interval.stillValid = false := by
    intro b hb f hf hfb
    rcases (hmem f).mp hf with rfl | hf
    · exact absurd (hv.lt_nextAddr_of_mem_invTimeOrder hb) (by omega)
    · exact ⟨hf, hv.stillValid_of_mem_invTimeOrder hb hf hfb⟩
  have hsorted : st.invTimeOrder.Pairwise fun a b ↦ ∀ e₁ ∈ (st.addEntry key vs e fp).entries,
      ∀ e₂ ∈ (st.addEntry key vs e fp).entries, e₁.addr = a → e₂.addr = b →
        e₂.timeInvalidated ≤ e₁.timeInvalidated :=
    ht.sorted.imp_of_mem fun ha hb hab e₁ he₁ e₂ he₂ h₁ h₂ ↦
      hab e₁ (hold _ ha e₁ he₁ h₁).1 e₂ (hold _ hb e₂ he₂ h₂).1 h₁ h₂
  refine ⟨fun f hf hsv ↦ ?_, ?_⟩
  · rcases (hmem f).mp hf with rfl | hf
    · exact (htime hsv).le
    · exact (ht.time_le f hf hsv).trans hT
  · rw [(st.addEntry_fields key vs e fp).2.2.2.2.2.2.2]
    split_ifs with hsv
    · exact hsorted
    · refine List.Pairwise.cons (fun b hb e₁ he₁ e₂ he₂ h₁ h₂ ↦ ?_) hsorted
      obtain ⟨he₂, hsv₂⟩ := hold b hb e₂ he₂ h₂
      have he₁e : e₁ = e := by
        rcases (hmem e₁).mp he₁ with h | h
        · exact h
        · exact absurd (hv.addr_lt e₁ h) (by omega)
      rw [he₁e, htime (by simpa using hsv)]
      exact (ht.time_le e₂ he₂ hsv₂).trans hT

theorem vset_of_mem_keys (h : key ∈ st.lines.map (·.1)) : ∃ vs₀, st.vset key = some vs₀ :=
  Option.isSome_iff_exists.mp (vset_isSome_iff.mpr h)

@[simp] theorem keys_addEntry (e : Entry) (fp : ℕ) :
    (st.addEntry key vs e fp).lines.map (·.1) = st.lines.map (·.1) := by
  rw [(st.addEntry_fields key vs e fp).1, keys_setVSet]

theorem addedEntry_timeInvalidated {addr : ℕ} {interval : Interval} {data : List UInt8}
    {tags : List (List Char)} {n : ℕ} {time : ℤ} (h : interval.stillValid = false) :
    (addedEntry addr key interval data tags n time).timeInvalidated = time := by
  simp [addedEntry, h]

end AddEntry

/-! ## Puts -/

section Put

variable {key : List UInt8} {interval : Interval} {data : List UInt8} {tags : List (List Char)}
  {force : Bool} {time : ℤ}

theorem Valid.insertLine (hv : st.Valid) (h : st.vset key = none) :
    ({ st.insertLine key with keyBytes := st.keyBytes + mallocSize key.length } : Store).Valid := by
  have hents : ({ st.insertLine key with keyBytes := st.keyBytes + mallocSize key.length } :
      Store).entries = st.entries := st.entries_insertLine
  refine ⟨(hv.toWellFormed.insertLine h).of_lines rfl rfl, hv.invalMap_sorted, ?_, ?_, ?_, ?_, ?_⟩
  · rw [hents]
    exact hv.invalMap_sound
  · rw [hents]
    exact hv.entryBytes_eq
  · show st.keyBytes + mallocSize key.length =
      (((st.insertLine key).lines.map (·.1)).map fun k ↦ mallocSize k.length).sum
    rw [keys_insertLine, List.map_append, List.sum_append, hv.keyBytes_eq]
    simp
  · rw [hents]
    exact hv.lru_perm
  · rw [hents]
    exact hv.invTimeOrder_perm

theorem Indexed.insertLine (hi : st.Indexed) :
    ({ st.insertLine key with keyBytes := st.keyBytes + mallocSize key.length } : Store).Indexed :=
  hi.of_eq st.entries_insertLine rfl

theorem TimeOrdered.insertLine {T : ℤ} (ht : st.TimeOrdered T) :
    ({ st.insertLine key with keyBytes := st.keyBytes + mallocSize key.length } :
      Store).TimeOrdered T :=
  ht.of_eq st.entries_insertLine rfl

theorem Valid.add_induction {Q : Store → Prop} (hv : st.Valid) (hkey : key ∈ st.lines.map (·.1))
    (htags : interval.stillValid = true ∨ tags = [])
    (hev : ∀ (s : Store) n, s.Valid → Q s → Q (s.evict n).1)
    (hadd : ∀ (s : Store) vs₀ vs fp, s.Valid → Q s → s.vset key = some vs₀ →
      OrdList.insert StoreVSet.compareValue
        (fun _ ↦ addedEntry s.nextAddr key interval data tags (st.copyInvalTagsLen tags) time) vs₀
        interval.lower = some vs →
      Q (s.addEntry key vs
        (addedEntry s.nextAddr key interval data tags (st.copyInvalTagsLen tags) time) fp))
    (hq : Q st) :
    (st.add key interval data tags time).1.Valid ∧ Q (st.add key interval data tags time).1 := by
  refine (Store.add_induction (P := fun s ↦ (s.Valid ∧ Q s) ∧ key ∈ s.lines.map (·.1))
    (fun s n h ↦ ⟨⟨h.1.1.evict n, hev s n h.1.1 h.1.2⟩, by rw [keys_evict]; exact h.2⟩)
    (fun s vs h hlayout hins ↦ ?_) ⟨⟨hv, hq⟩, hkey⟩).1
  obtain ⟨vs₀, hvs⟩ := vset_of_mem_keys h.2
  rw [hvs, Option.getD_some] at hins
  refine ⟨⟨h.1.1.addEntry hvs hins rfl rfl htags ?_, hadd s vs₀ vs _ h.1.1 h.1.2 hvs hins⟩, ?_⟩
  · -- the footprint is counted before eviction, in the same layout
    rw [entryFootprint_congr st hlayout]
    rfl
  · rw [keys_addEntry]
    exact h.2

theorem Valid.add (hv : st.Valid) (hkey : key ∈ st.lines.map (·.1))
    (htags : interval.stillValid = true ∨ tags = []) :
    (st.add key interval data tags time).1.Valid :=
  (hv.add_induction (Q := fun _ ↦ True) hkey htags (fun _ _ _ _ ↦ trivial)
    (fun _ _ _ _ _ _ _ _ ↦ trivial) trivial).1

theorem Indexed.add (hv : st.Valid) (hi : st.Indexed) (hkey : key ∈ st.lines.map (·.1))
    (htags : interval.stillValid = true ∨ tags = []) (hnd : tags.Nodup) :
    (st.add key interval data tags time).1.Indexed :=
  (hv.add_induction hkey htags (fun _ n hs hq ↦ hq.evict hs n)
    (fun _ _ _ _ hs hq hvs hins ↦ hq.addEntry hs hvs hins rfl hnd) hi).2

theorem TimeOrdered.add {T : ℤ} (hv : st.Valid) (ht : st.TimeOrdered T) (hT : T ≤ time)
    (hkey : key ∈ st.lines.map (·.1)) (htags : interval.stillValid = true ∨ tags = []) :
    (st.add key interval data tags time).1.TimeOrdered time :=
  (hv.add_induction (Q := fun s ↦ s.TimeOrdered time) hkey htags (fun _ n hs hq ↦ hq.evict hs n)
    (fun _ _ _ _ hs hq hvs hins ↦
      hq.addEntry hs hvs hins rfl le_rfl fun h ↦ addedEntry_timeInvalidated h) (ht.mono hT)).2

theorem Valid.put_induction {Q : Store → Prop} (hv : st.Valid)
    (hus : ∀ s : Store, s.Valid → Q s → Q (s.removeUseless time))
    (hline : ∀ s : Store, s.Valid → Q s → s.vset key = none →
      Q { s.insertLine key with keyBytes := s.keyBytes + mallocSize key.length })
    (hrem : ∀ (s : Store) a, s.Valid → Q s → Q (s.removeEntry a).1)
    (htr : ∀ (s : Store) e now, s.Valid → Q s → s.findEntry e.addr = some e →
      e.interval.stillValid = true → Q (s.truncateUnboundedInterval e.addr now time))
    (hext : ∀ (s : Store) e u, s.Valid → Q s → e ∈ s.entries →
      Q { s.modifyEntry e.addr (fun e ↦ { e with interval := { e.interval with upper := u } }) with
          lru := e.addr :: s.lru.erase e.addr })
    (hadd : ∀ (s : Store) iv tags', s.Valid → Q s → key ∈ s.lines.map (·.1) →
      (iv.stillValid = true ∨ tags' = []) → (tags' = tags ∨ tags' = []) →
      Q (s.add key iv data tags' time).1)
    (hq : Q st) :
    (st.put key interval data tags force time).1.Valid ∧
      Q (st.put key interval data tags force time).1 := by
  refine Store.put_induction (P := fun s ↦ s.Valid ∧ Q s)
    (fun s h ↦ ⟨h.1.removeUseless time, hus s h.1 h.2⟩)
    (fun s h hn ↦ ⟨h.1.insertLine hn, hline s h.1 h.2 hn⟩) (fun s iv h hk ↦ ?_) ⟨hv, hq⟩
  have htags : iv.stillValid = true ∨ (if iv.stillValid then tags else []) = [] := by
    cases iv.stillValid <;> simp
  have htags' : (if iv.stillValid then tags else []) = tags ∨
      (if iv.stillValid then tags else []) = [] := by
    split_ifs <;> simp
  refine Store.putInVSet_induction (P := fun s ↦ s.Valid ∧ Q s)
    (fun s a h ↦ ⟨h.1.removeEntry a, hrem s a h.1 h.2⟩) (fun s e now h he hsv ↦ ?_)
    (fun s e h he ↦ ⟨h.1.extend he _, hext s e _ h.1 h.2 he⟩)
    (fun s iv' h hk hiv ↦ ?_) h hk
  · have hf := (s.findEntry_eq_some_iff h.1.addrs_nodup).mpr ⟨he, rfl⟩
    exact ⟨h.1.truncate hf hsv, htr s e now h.1 h.2 hf hsv⟩
  · have htags₁ : iv'.stillValid = true ∨ (if iv.stillValid then tags else []) = [] := by
      rw [hiv]
      exact htags
    exact ⟨h.1.add hk htags₁, hadd s iv' _ h.1 h.2 hk htags₁ htags'⟩

theorem Valid.put (hv : st.Valid) : (st.put key interval data tags force time).1.Valid :=
  (hv.put_induction (Q := fun _ ↦ True) (fun _ _ _ ↦ trivial) (fun _ _ _ _ ↦ trivial)
    (fun _ _ _ _ ↦ trivial) (fun _ _ _ _ _ _ _ ↦ trivial) (fun _ _ _ _ _ _ ↦ trivial)
    (fun _ _ _ _ _ _ _ _ ↦ trivial) trivial).1

theorem Indexed.put (hv : st.Valid) (hi : st.Indexed) (hnd : tags.Nodup) :
    (st.put key interval data tags force time).1.Indexed :=
  (hv.put_induction (fun _ hs hq ↦ hq.removeUseless hs time) (fun _ _ hq _ ↦ hq.insertLine)
    (fun _ a hs hq ↦ hq.removeEntry hs a) (fun _ _ _ hs hq hf _ ↦ hq.truncate hs hf)
    (fun _ e u _ hq _ ↦ hq.extend e.addr u)
    (fun _ _ _ hs hq hk htg htg' ↦ hq.add hs hk htg (by rcases htg' with rfl | rfl <;> simp [hnd]))
    hi).2

theorem TimeOrdered.put {T : ℤ} (hv : st.Valid) (ht : st.TimeOrdered T) (hT : T ≤ time) :
    (st.put key interval data tags force time).1.TimeOrdered time :=
  (hv.put_induction (Q := fun s ↦ s.TimeOrdered time) (fun _ hs hq ↦ hq.removeUseless hs time)
    (fun _ _ hq _ ↦ hq.insertLine) (fun _ a hs hq ↦ hq.removeEntry hs a)
    (fun _ _ _ hs hq hf hsv ↦ hq.truncate hs le_rfl hf hsv) (fun _ e u _ hq _ ↦ hq.extend e.addr u)
    (fun _ _ _ hs hq hk htg _ ↦ hq.add hs le_rfl hk htg) (ht.mono hT)).2

end Put

/-! ## Lookups -/

section Lookup

variable (key : List UInt8) (interval : Interval) (earliestPin : ℕ) (policy : StoreLookupPolicyId)

theorem Valid.lookup (hv : st.Valid) : (st.lookup key interval earliestPin policy).1.Valid := by
  rcases st.lookup_cases key interval earliestPin policy with h | ⟨vs, e, hvs, he, h⟩
  · rw [h]
    exact hv
  · rw [h]
    exact hv.moveToFront (mem_entries_of_vset hvs he)

theorem lookup_fields :
    (st.lookup key interval earliestPin policy).1.entries = st.entries ∧
      (st.lookup key interval earliestPin policy).1.invalMap = st.invalMap ∧
      (st.lookup key interval earliestPin policy).1.invTimeOrder = st.invTimeOrder := by
  rcases st.lookup_cases key interval earliestPin policy with h | ⟨vs, e, -, -, h⟩ <;> rw [h] <;>
    exact ⟨rfl, rfl, rfl⟩

theorem Indexed.lookup (hi : st.Indexed) : (st.lookup key interval earliestPin policy).1.Indexed :=
  hi.of_eq (lookup_fields ..).1 (lookup_fields ..).2.1

theorem TimeOrdered.lookup {T : ℤ} (ht : st.TimeOrdered T) :
    (st.lookup key interval earliestPin policy).1.TimeOrdered T :=
  ht.of_eq (lookup_fields ..).1 (lookup_fields ..).2.2

end Lookup

end Store

/-! ## Single operations and runs -/

/-- The reading of `time(NULL)` an operation is made with, if it reads the clock. -/
def StoreOp.clock : StoreOp → Option ℤ
  | .put _ _ _ _ _ time => some time
  | .invalidate _ _ time => some time
  | .lookup .. => none
  | .removeUseless time => some time
  | .evict _ => none

/-- A put's tags are distinct, as the client sends them from a set. -/
def StoreOp.TagsNodup : StoreOp → Prop
  | .put _ _ _ tags _ _ => tags.Nodup
  | _ => True

instance (op : StoreOp) : Decidable op.TagsNodup := by
  cases op <;> unfold StoreOp.TagsNodup <;> infer_instance

namespace Store

variable {st st' : Store} {op : StoreOp}

theorem Valid.step (hv : st.Valid) (h : st.step op = some st') : st'.Valid := by
  cases op with
  | put key interval data tags force time => exact Option.some.inj h ▸ hv.put
  | invalidate ts tags time => exact hv.invalidate h
  | lookup key interval earliestPin policy => exact Option.some.inj h ▸ hv.lookup ..
  | removeUseless time => exact Option.some.inj h ▸ hv.removeUseless time
  | evict toFree => exact Option.some.inj h ▸ hv.evict toFree

theorem Indexed.step (hv : st.Valid) (hi : st.Indexed) (hop : op.TagsNodup)
    (h : st.step op = some st') : st'.Indexed := by
  cases op with
  | put key interval data tags force time => exact Option.some.inj h ▸ hi.put hv hop
  | invalidate ts tags time => exact hi.invalidate hv h
  | lookup key interval earliestPin policy =>
    exact Option.some.inj h ▸ hi.lookup key interval earliestPin policy
  | removeUseless time => exact Option.some.inj h ▸ hi.removeUseless hv time
  | evict toFree => exact Option.some.inj h ▸ hi.evict hv toFree

theorem TimeOrdered.step {T : ℤ} (hv : st.Valid) (ht : st.TimeOrdered T)
    (hT : ∀ t ∈ op.clock, T ≤ t) (h : st.step op = some st') :
    st'.TimeOrdered (op.clock.getD T) := by
  cases op with
  | put key interval data tags force time =>
    exact Option.some.inj h ▸ ht.put hv (hT time rfl)
  | invalidate ts tags time => exact ht.invalidate hv (hT time rfl) h
  | lookup key interval earliestPin policy => exact Option.some.inj h ▸ ht.lookup ..
  | removeUseless time =>
    exact Option.some.inj h ▸ (ht.removeUseless hv time).mono (hT time rfl)
  | evict toFree => exact Option.some.inj h ▸ ht.evict hv toFree

theorem run_induction {Q : Store → Prop} :
    ∀ {ops : List StoreOp}, (∀ op ∈ ops, ∀ s s', s.step op = some s' → Q s → Q s') →
      ∀ {st st'}, st.run ops = some st' → Q st → Q st' :=
  fun hstep _ _ h hs ↦ Fold.foldlM_induction_of_mem hstep h hs

theorem Valid.run {ops : List StoreOp} (hv : st.Valid) (h : st.run ops = some st') : st'.Valid :=
  run_induction (fun _ _ _ _ hs hv ↦ hv.step hs) h hv

theorem Indexed.run {ops : List StoreOp} (hv : st.Valid) (hi : st.Indexed)
    (hops : ∀ op ∈ ops, op.TagsNodup) (h : st.run ops = some st') : st'.Indexed :=
  (run_induction (Q := fun s ↦ s.Valid ∧ s.Indexed)
    (fun op hop _ _ hs h ↦ ⟨h.1.step hs, h.2.step h.1 (hops op hop) hs⟩) h ⟨hv, hi⟩).2

theorem TimeOrdered.run {T : ℤ} :
    ∀ {ops : List StoreOp} {st st' : Store}, st.Valid → st.TimeOrdered T →
      (∀ t ∈ ops.filterMap StoreOp.clock, T ≤ t) → (ops.filterMap StoreOp.clock).Pairwise (· ≤ ·) →
      st.run ops = some st' → st'.TimeOrdered ((ops.filterMap StoreOp.clock).getLast?.getD T) := by
  intro ops st st' hv ht hT hmono h
  rw [List.filterMap_eq_flatMap_toList] at hT hmono ⊢
  -- an operation reads the clock at most once
  refine (Fold.foldlM_clock_induction (Q := fun s T ↦ s.Valid ∧ s.TimeOrdered T)
    (fun s op s' T hs h hT _ ↦ ⟨h.1.step hs, ?_⟩) ops st st' T h ⟨hv, ht⟩ hT hmono).2
  have hlast : op.clock.toList.getLast?.getD T = op.clock.getD T := by
    cases op.clock <;> rfl
  rw [hlast]
  exact h.2.step h.1 (fun t ht ↦ hT t (Option.mem_toList.mpr ht)) hs

/-! ## The initial store -/

section Init

variable (layout : Layout) (maxBytes : ℕ) (uselessBound : ℤ)

@[simp] theorem entries_init : (Store.init layout maxBytes uselessBound).entries = [] := rfl

theorem valid_init : (Store.init layout maxBytes uselessBound).Valid where
  keys_nodup := List.nodup_nil
  key_eq := by simp [Store.init]
  lowers_nodup := by simp [Store.init]
  addrs_nodup := by simp
  addr_lt := by simp
  invalMap_sorted := List.Pairwise.nil
  invalMap_sound := fun _ hx ↦ absurd hx List.not_mem_nil
  entryBytes_eq := rfl
  keyBytes_eq := rfl
  lru_perm := List.Perm.nil
  invTimeOrder_perm := List.Perm.nil

theorem indexed_init : (Store.init layout maxBytes uselessBound).Indexed := by
  simp [Indexed]

theorem timeOrdered_init (T : ℤ) : (Store.init layout maxBytes uselessBound).TimeOrdered T :=
  ⟨by simp, List.Pairwise.nil⟩

end Init

end Store

/-- The entries of a version set, in order of `lower`, have pairwise disjoint intervals
`[lower, upper)`. -/
def VSetDisjoint (vs : List Entry) : Prop :=
  vs.Pairwise fun e f ↦ e.interval.upper ≤ f.interval.lower

instance (vs : List Entry) : Decidable (VSetDisjoint vs) :=
  inferInstanceAs (Decidable (List.Pairwise _ _))

/-! ## A clipped put is overlapped later -/

/-- An invalidation of an unrelated tag at 4, a still-valid put `[5, 10)+` of `[7]` with the tag
`"a:"`, a bounded put `[3, 30)` of the same data, and an invalidation of `"a:"` at 40. -/
def clipRun : List StoreOp :=
  [.invalidate 4 ["z:".toList] 0,
   .put [1] ⟨5, 10, true⟩ [7] ["a:".toList] false 0,
   .put [1] ⟨3, 30, false⟩ [7] [] false 0,
   .invalidate 40 ["a:".toList] 0]

/-- **Version sets do not stay disjoint.** Every put of `clipRun` carries the one value `[7]` of
the key, and the store stays sound for it. The bounded put overlaps the still-valid entry and starts
below it, so it is not an extension: it is clipped to `[10, 30)`. The invalidation at 40 truncates
the still-valid entry to `[5, 40)`, over the clipped one. A lookup of `[32, 35)` then looks at the
clipped entry only, which ends at 30, and misses, although `[5, 40)` holds the value there. -/
theorem clipped_entry_overlaps :
    ∃ st, freshStore.run clipRun = some st ∧ Sound (fun _ _ ↦ [7]) st ∧
      st.intervalsOf [1] = [⟨5, 40, false⟩, ⟨10, 30, false⟩] ∧
      ¬ VSetDisjoint ((st.vset [1]).getD []) ∧
      (st.lookup [1] ⟨32, 35, false⟩ 0 .latest).2 = none ∧
      ∃ e ∈ st.entries, e.interval.overlaps ⟨32, 35, false⟩ st.lastInvalTime = true := by
  have hrun : (freshStore.run clipRun).map (fun st ↦
      (st.entries.map (·.data), st.intervalsOf [1], decide (VSetDisjoint ((st.vset [1]).getD [])),
        (st.lookup [1] ⟨32, 35, false⟩ 0 .latest).2,
        st.entries.any fun e ↦ e.interval.overlaps ⟨32, 35, false⟩ st.lastInvalTime)) =
      some ([[7], [7]], [⟨5, 40, false⟩, ⟨10, 30, false⟩], false, none, true) := by
    decide
  obtain ⟨st, hst, hfacts⟩ := Option.map_eq_some_iff.mp hrun
  simp only [Prod.mk.injEq, decide_eq_false_iff_not, List.any_eq_true] at hfacts
  obtain ⟨hdata, hint, hdisj, hlookup, hover⟩ := hfacts
  have hsound : Sound (fun _ _ ↦ [7]) st := by
    intro e he t _ _
    have hmem : e.data ∈ st.entries.map (·.data) := List.mem_map_of_mem he
    rw [hdata] at hmem
    simp only [List.mem_cons, List.not_mem_nil, or_false, or_self] at hmem
    exact hmem.symm
  exact ⟨st, hst, hsound, hint, hdisj, hlookup, hover⟩

end TxCache
