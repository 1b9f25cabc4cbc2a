import TxCache.Server.Walk
import TxCache.Server.Marshal
import TxCache.Server.Eviction

/-!
# The store over whole runs of a cache server

A cache server calls its store in seven ways: a put, an invalidation, a lookup, an eviction, the
removal of useless entries, a flush, and a load from a dump at start-up. `StoreCall` is one such
call and `runCalls` a run of them.

Every run from `Store_Init` keeps the bookkeeping (`Valid`). When the puts carry distinct tags, as
the client sends them from a set, the invalidation index holds exactly the tags of the still-valid
entries, and an invalidation leaves no still-valid entry with a matching tag
(`invalMap_iff_stillValid_tag`). When `time(NULL)` never goes back, the truncation list is
ordered by the time of truncation (`TimeOrdered.runCalls`).
-/

namespace TxCache

/-- A call of the cache server to its store. -/
inductive StoreCall
  | op (o : StoreOp)
  | flush
  | load (items : List (DumpedEntry × ℤ))

namespace StoreCall

/-- The readings of `time(NULL)` a call makes, in order. -/
def clocks : StoreCall → List ℤ
  | .op o => o.clock.toList
  | .flush => []
  | .load items => items.map (·.2)

/-- The puts of a call carry distinct tags. -/
def TagsNodup : StoreCall → Prop
  | .op o => o.TagsNodup
  | .flush => True
  | .load items => ∀ it ∈ items, it.1.tags.Nodup

instance (c : StoreCall) : Decidable c.TagsNodup := by
  cases c <;> unfold TagsNodup <;> infer_instance

end StoreCall

namespace Store

/-- One call; `none` when it panics. -/
def call (st : Store) : StoreCall → Option Store
  | .op o => st.step o
  | .flush => some st.flush
  | .load items => st.load items

/-- A run of calls. -/
def runCalls (st : Store) (calls : List StoreCall) : Option Store := calls.foldlM call st

variable {st st' : Store}

/-! ## Loads -/

section Load

variable {d : DumpedEntry} {time T : ℤ} {items : List (DumpedEntry × ℤ)}

theorem loadEntry_eq (h : st.loadEntry d time = some st') :
    st' = (st.put d.key unboundedInterval d.data d.tags false time).1 := by
  unfold loadEntry at h
  dsimp only at h
  split_ifs at h
  exact (Option.some.inj h).symm

theorem load_eq (h : st.load items = some st') :
    items.foldlM (fun st it ↦ st.loadEntry it.1 it.2) st = some st' := by
  unfold load at h
  split_ifs at h
  exact h

theorem Valid.load (hv : st.Valid) (h : st.load items = some st') : st'.Valid :=
  Fold.foldlM_induction (fun _ _ _ hs hv ↦ loadEntry_eq hs ▸ hv.put) items st st' (load_eq h) hv

theorem Indexed.load (hv : st.Valid) (hi : st.Indexed) (hnd : ∀ it ∈ items, it.1.tags.Nodup)
    (h : st.load items = some st') : st'.Indexed :=
  (Fold.foldlM_induction_of_mem (Q := fun s ↦ s.Valid ∧ s.Indexed)
    (fun it hit _ _ hs h ↦ loadEntry_eq hs ▸ ⟨h.1.put, h.2.put h.1 (hnd it hit)⟩)
    (load_eq h) ⟨hv, hi⟩).2

theorem TimeOrdered.load (hv : st.Valid) (ht : st.TimeOrdered T) (hT : ∀ t ∈ items.map (·.2), T ≤ t)
    (hmono : (items.map (·.2)).Pairwise (· ≤ ·)) (h : st.load items = some st') :
    st'.TimeOrdered ((items.map (·.2)).getLast?.getD T) := by
  have hclk : items.flatMap (fun it ↦ [it.2]) = items.map (·.2) :=
    List.flatMap_pure_eq_map (fun it : DumpedEntry × ℤ ↦ it.2) items
  rw [← hclk] at hT hmono ⊢
  exact (Fold.foldlM_clock_induction (Q := fun s T ↦ s.Valid ∧ s.TimeOrdered T)
    (fun _ _ _ _ hs h hT _ ↦ loadEntry_eq hs ▸
      ⟨h.1.put, h.2.put h.1 (hT _ List.mem_cons_self)⟩) items st st' T (load_eq h) ⟨hv, ht⟩ hT
    hmono).2

end Load

/-! ## Calls and runs of calls -/

section Run

variable {c : StoreCall} {calls : List StoreCall} {T : ℤ}

theorem Valid.call (hv : st.Valid) (h : st.call c = some st') : st'.Valid := by
  cases c with
  | op o => exact hv.step h
  | flush => exact Option.some.inj h ▸ hv.evict _
  | load items => exact hv.load h

theorem Indexed.call (hv : st.Valid) (hi : st.Indexed) (hc : c.TagsNodup)
    (h : st.call c = some st') : st'.Indexed := by
  cases c with
  | op o => exact hi.step hv hc h
  | flush => exact Option.some.inj h ▸ hi.evict hv _
  | load items => exact hi.load hv hc h

theorem TimeOrdered.call (hv : st.Valid) (ht : st.TimeOrdered T) (hT : ∀ t ∈ c.clocks, T ≤ t)
    (hmono : c.clocks.Pairwise (· ≤ ·)) (h : st.call c = some st') :
    st'.TimeOrdered (c.clocks.getLast?.getD T) := by
  cases c with
  | op o =>
    have hlast : o.clock.toList.getLast?.getD T = o.clock.getD T := by
      cases o.clock <;> rfl
    rw [StoreCall.clocks, hlast]
    exact ht.step hv (fun t ht ↦ hT t (Option.mem_toList.mpr ht)) h
  | flush => exact Option.some.inj h ▸ ht.evict hv _
  | load items => exact ht.load hv hT hmono h

theorem Valid.runCalls (hv : st.Valid) (h : st.runCalls calls = some st') : st'.Valid :=
  Fold.foldlM_induction (fun _ _ _ hs hv ↦ hv.call hs) calls st st' h hv

theorem Indexed.runCalls (hv : st.Valid) (hi : st.Indexed) (hcalls : ∀ c ∈ calls, c.TagsNodup)
    (h : st.runCalls calls = some st') : st'.Indexed :=
  (Fold.foldlM_induction_of_mem (Q := fun s ↦ s.Valid ∧ s.Indexed)
    (fun c hc _ _ hs h ↦ ⟨h.1.call hs, h.2.call h.1 (hcalls c hc) hs⟩) h ⟨hv, hi⟩).2

theorem TimeOrdered.runCalls (hv : st.Valid) (ht : st.TimeOrdered T)
    (hT : ∀ t ∈ calls.flatMap StoreCall.clocks, T ≤ t)
    (hmono : (calls.flatMap StoreCall.clocks).Pairwise (· ≤ ·)) (h : st.runCalls calls = some st') :
    st'.TimeOrdered ((calls.flatMap StoreCall.clocks).getLast?.getD T) :=
  (Fold.foldlM_clock_induction (Q := fun s T ↦ s.Valid ∧ s.TimeOrdered T)
    (fun _ _ _ _ hs h hT hmono ↦ ⟨h.1.call hs, h.2.call h.1 hT hmono hs⟩) calls st st' T h
    ⟨hv, ht⟩ hT hmono).2

end Run

/-! ## The invalidation index over runs -/

/-- **The invalidation index is exact.** In every store reachable from `Store_Init` by calls whose
puts carry distinct tags, a pair `(t, e)` is in the index exactly when `e` is the address of a live,
still-valid entry that carries `t`. So every entry the walk of an invalidation reaches is live and
still valid, and after an invalidation no still-valid entry carries a tag that one of the
invalidated tags matches. -/
theorem invalMap_iff_stillValid_tag {layout : Layout} {maxBytes : ℕ} {uselessBound : ℤ}
    {calls : List StoreCall} (hrun : (Store.init layout maxBytes uselessBound).runCalls calls = some st)
    (hcalls : ∀ c ∈ calls, c.TagsNodup) :
    (∀ x : InvalMapEntry, x ∈ st.invalMap ↔
      ∃ e ∈ st.entries, e.addr = x.entry ∧ e.interval.stillValid = true ∧ x.tag ∈ e.invalTags) ∧
    (∀ x ∈ st.invalMap, ∃ e, st.findEntry x.entry = some e ∧ e.interval.stillValid = true) ∧
    (∀ ts tags time st', st.invalidate ts tags time = some st' →
      ∀ e ∈ st'.entries, e.interval.stillValid = true →
        ∀ t ∈ tags, ∀ x ∈ e.invalTags, invalTagMatches t x = false) := by
  have hv := (valid_init layout maxBytes uselessBound).runCalls hrun
  have hi := Indexed.runCalls (valid_init _ _ _) (indexed_init _ _ _) hcalls hrun
  refine ⟨fun x ↦ ⟨hv.invalMap_sound x, ?_⟩, fun x hx ↦ ?_,
    fun _ _ _ _ h ↦ hv.invalidate_leaves_no_match hi h⟩
  · rintro ⟨e, he, hx, hsv, ht⟩
    have hpair := hi e he hsv x.tag ht
    rw [hx] at hpair
    exact hpair
  · obtain ⟨e, hfe, hsv, -⟩ := hv.findEntry_of_mem hx
    exact ⟨e, hfe, hsv⟩

/-! ## The accounting and the two lists over runs -/

theorem head_le_of_pairwise {l : List ℤ} (h : l.Pairwise (· ≤ ·)) :
    ∀ t ∈ l, l.head?.getD 0 ≤ t := by
  intro t ht
  cases l with
  | nil => cases ht
  | cons c rest =>
    rcases List.mem_cons.mp ht with rfl | ht
    · exact le_rfl
    · exact List.rel_of_pairwise_cons h ht

/-- **The accounting and the eviction lists are exact.** In every store reachable from
`Store_Init` by calls that read a clock that never goes back: `entryBytes` is the footprint of the
live entries and `keyBytes` that of the keys; the LRU list holds the address of every live entry
once; the truncation list holds exactly the live entries that are not still valid, the later
truncated first. So the removal of useless entries removes exactly the entries truncated more than
`uselessBound` seconds ago, and eviction removes the shortest run from the tail of the LRU list
whose footprints reach the bytes to free, succeeding exactly when they do. -/
theorem bookkeeping_of_runCalls {layout : Layout} {maxBytes : ℕ} {uselessBound : ℤ}
    {calls : List StoreCall} (hrun : (Store.init layout maxBytes uselessBound).runCalls calls = some st)
    (hmono : (calls.flatMap StoreCall.clocks).Pairwise (· ≤ ·)) :
    st.entryBytes = (st.entries.map fun e ↦ st.entryFootprint e.data.length e.invalTagsLen).sum ∧
    st.keyBytes = ((st.lines.map (·.1)).map fun k ↦ mallocSize k.length).sum ∧
    st.lru.Nodup ∧ st.lru.Perm (st.entries.map (·.addr)) ∧
    st.invTimeOrder.Perm ((st.entries.filter fun e ↦ !e.interval.stillValid).map (·.addr)) ∧
    st.invTimeOrder.Pairwise (fun a b ↦ ∀ e ∈ st.entries, ∀ f ∈ st.entries,
      e.addr = a → f.addr = b → f.timeInvalidated ≤ e.timeInvalidated) ∧
    (∀ time e, e ∈ (st.removeUseless time).entries ↔
      e ∈ st.entries ∧ ¬(e.interval.stillValid = false ∧ e.timeInvalidated < time - st.uselessBound)) ∧
    (∀ toFree, ∃ V, V <+: st.lru.reverse ∧
      (∀ j < V.length, ((st.lru.reverse.take j).map st.addrFootprint).sum < toFree) ∧
      (V = st.lru.reverse ∨ toFree ≤ (V.map st.addrFootprint).sum) ∧
      (st.evict toFree).1.lru = (st.lru.reverse.drop V.length).reverse ∧
      (∀ e, e ∈ (st.evict toFree).1.entries ↔ e ∈ st.entries ∧ e.addr ∉ V) ∧
      ((st.evict toFree).2 = true ↔ toFree ≤ (V.map st.addrFootprint).sum)) := by
  have hv := (valid_init layout maxBytes uselessBound).runCalls hrun
  have ht := TimeOrdered.runCalls (valid_init _ _ _) (timeOrdered_init _ _ _ _)
    (head_le_of_pairwise hmono) hmono hrun
  refine ⟨hv.entryBytes_eq, hv.keyBytes_eq, hv.lru_perm.nodup_iff.mpr hv.addrs_nodup, hv.lru_perm,
    hv.invTimeOrder_perm, ht.sorted, fun time _ ↦ hv.mem_removeUseless ht time, fun toFree ↦ ?_⟩
  -- the run that eviction removes is the shortest one from the tail that frees enough
  obtain ⟨hlru, hents, hok⟩ := hv.evict_eq toFree
  have hstop := @takeUntilFreed_eq_or_le ℕ st.addrFootprint toFree 0 st.lru.reverse
  rw [Nat.zero_add] at hstop
  refine ⟨_, takeUntilFreed_isPrefix 0 _, fun j hj ↦ ?_, hstop, hlru, hents, ?_⟩
  · have := lt_of_lt_length_takeUntilFreed 0 st.lru.reverse j hj
    rwa [Nat.zero_add] at this
  · rw [hok, decide_eq_true_iff]

/-- The store after one put of `[1]` on `[2, 5)+` with the tag `"a:"`. -/
def onePutStore : Store := (freshStore.put [1] ⟨2, 5, true⟩ [7] ["a:".toList] false 0).1

theorem onePutStore_index_exact :
    (∀ x : InvalMapEntry, x ∈ onePutStore.invalMap ↔
      ∃ e ∈ onePutStore.entries, e.addr = x.entry ∧ e.interval.stillValid = true ∧
        x.tag ∈ e.invalTags) ∧
    (∀ x ∈ onePutStore.invalMap, ∃ e, onePutStore.findEntry x.entry = some e ∧
      e.interval.stillValid = true) ∧
    (∀ ts tags time st', onePutStore.invalidate ts tags time = some st' →
      ∀ e ∈ st'.entries, e.interval.stillValid = true →
        ∀ t ∈ tags, ∀ x ∈ e.invalTags, invalTagMatches t x = false) :=
  @invalMap_iff_stillValid_tag _ _ _ _ [.op (.put [1] ⟨2, 5, true⟩ [7] ["a:".toList] false 0)] rfl
    (by decide)

theorem onePutStore_bookkeeping :
    onePutStore.entryBytes =
      (onePutStore.entries.map fun e ↦ onePutStore.entryFootprint e.data.length e.invalTagsLen).sum ∧
    onePutStore.keyBytes = ((onePutStore.lines.map (·.1)).map fun k ↦ mallocSize k.length).sum ∧
    onePutStore.lru.Nodup ∧ onePutStore.lru.Perm (onePutStore.entries.map (·.addr)) ∧
    onePutStore.invTimeOrder.Perm
      ((onePutStore.entries.filter fun e ↦ !e.interval.stillValid).map (·.addr)) ∧
    onePutStore.invTimeOrder.Pairwise (fun a b ↦ ∀ e ∈ onePutStore.entries,
      ∀ f ∈ onePutStore.entries, e.addr = a → f.addr = b → f.timeInvalidated ≤ e.timeInvalidated) ∧
    (∀ time e, e ∈ (onePutStore.removeUseless time).entries ↔ e ∈ onePutStore.entries ∧
      ¬(e.interval.stillValid = false ∧ e.timeInvalidated < time - onePutStore.uselessBound)) ∧
    (∀ toFree, ∃ V, V <+: onePutStore.lru.reverse ∧
      (∀ j < V.length, ((onePutStore.lru.reverse.take j).map onePutStore.addrFootprint).sum < toFree) ∧
      (V = onePutStore.lru.reverse ∨ toFree ≤ (V.map onePutStore.addrFootprint).sum) ∧
      (onePutStore.evict toFree).1.lru = (onePutStore.lru.reverse.drop V.length).reverse ∧
      (∀ e, e ∈ (onePutStore.evict toFree).1.entries ↔ e ∈ onePutStore.entries ∧ e.addr ∉ V) ∧
      ((onePutStore.evict toFree).2 = true ↔ toFree ≤ (V.map onePutStore.addrFootprint).sum)) :=
  @bookkeeping_of_runCalls _ _ _ _ [.op (.put [1] ⟨2, 5, true⟩ [7] ["a:".toList] false 0)] rfl
    (by decide)

end Store

end TxCache
