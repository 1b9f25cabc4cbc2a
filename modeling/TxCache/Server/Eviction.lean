import TxCache.Server.Invariants

/-!
# What eviction and the removal of useless entries remove

`Store_Evict` removes the least recently used entry, the tail of the LRU list, while less than
`toFree` bytes are freed; `Store_RemoveUseless` removes the entry truncated longest ago, the tail
of the truncation list, while it was truncated before the bound.

Under the bookkeeping each round removes one live entry and takes its address off both lists, so
the loops are specified by the lists alone:

* eviction removes the addresses of `takeUntilFreed`, the shortest run from the tail of the LRU
  list whose footprints reach `toFree` (`Valid.evict_eq`), and it fails only when that run is the
  whole list and still short;
* when the truncation list is ordered by the time of truncation, the removal of useless entries
  removes exactly the entries truncated before the bound (`Valid.mem_removeUseless`): the loop
  stops at the first tail entry truncated late enough, and every entry before it in the list was
  truncated no earlier.
-/

namespace TxCache

/-! ## Freeing bytes from the front of a list -/

section TakeUntilFreed

variable {α : Type*} (fp : α → ℕ) (toFree : ℕ)

/-- The elements a loop takes from the front of `l` while less than `toFree` is freed, when
`freed` is freed already and each element frees `fp` of it. -/
def takeUntilFreed : ℕ → List α → List α
  | _, [] => []
  | freed, a :: l => if toFree > freed then a :: takeUntilFreed (freed + fp a) l else []

variable {fp toFree} {freed : ℕ} {a : α} {l : List α}

@[simp] theorem takeUntilFreed_nil : takeUntilFreed fp toFree freed ([] : List α) = [] := rfl

theorem takeUntilFreed_cons_of_lt (h : freed < toFree) :
    takeUntilFreed fp toFree freed (a :: l) = a :: takeUntilFreed fp toFree (freed + fp a) l := by
  rw [takeUntilFreed, if_pos h]

theorem takeUntilFreed_of_le (h : toFree ≤ freed) : takeUntilFreed fp toFree freed l = [] := by
  cases l with
  | nil => rfl
  | cons a l => rw [takeUntilFreed, if_neg (by omega)]

theorem takeUntilFreed_isPrefix : ∀ (freed : ℕ) (l : List α), takeUntilFreed fp toFree freed l <+: l
  | _, [] => List.nil_prefix
  | freed, a :: l => by
    by_cases h : freed < toFree
    · rw [takeUntilFreed_cons_of_lt h]
      exact (List.prefix_cons_inj a).mpr (takeUntilFreed_isPrefix _ l)
    · rw [takeUntilFreed_of_le (by omega)]
      exact List.nil_prefix

theorem lt_of_lt_length_takeUntilFreed :
    ∀ (freed : ℕ) (l : List α) (j : ℕ), j < (takeUntilFreed fp toFree freed l).length →
      freed + ((l.take j).map fp).sum < toFree
  | _, [], _, hj => by simp at hj
  | freed, a :: l, j, hj => by
    by_cases h : freed < toFree
    · rw [takeUntilFreed_cons_of_lt h] at hj
      cases j with
      | zero => simpa using h
      | succ j =>
        have ih := lt_of_lt_length_takeUntilFreed (freed + fp a) l j (by simpa using hj)
        simp only [List.take_succ_cons, List.map_cons, List.sum_cons]
        omega
    · rw [takeUntilFreed_of_le (by omega)] at hj
      simp at hj

theorem takeUntilFreed_eq_or_le : ∀ (freed : ℕ) (l : List α),
    takeUntilFreed fp toFree freed l = l ∨
      toFree ≤ freed + ((takeUntilFreed fp toFree freed l).map fp).sum
  | _, [] => .inl rfl
  | freed, a :: l => by
    by_cases h : freed < toFree
    · rw [takeUntilFreed_cons_of_lt h]
      rcases takeUntilFreed_eq_or_le (freed + fp a) l with heq | hle
      · exact .inl (by rw [heq])
      · right
        simp only [List.map_cons, List.sum_cons]
        omega
    · rw [takeUntilFreed_of_le (by omega)]
      right
      simp only [List.map_nil, List.sum_nil]
      omega

end TakeUntilFreed

namespace Store

/-- The bytes of the live entry at an address: what `Store_RemoveEntry` frees for it. -/
def addrFootprint (st : Store) (a : ℕ) : ℕ :=
  ((st.findEntry a).map fun e ↦ st.entryFootprint e.data.length e.invalTagsLen).getD 0

variable {st : Store} {a b : ℕ} {e : Entry}

theorem removeEntry_snd (st : Store) (a : ℕ) : (st.removeEntry a).2 = st.addrFootprint a := by
  unfold removeEntry addrFootprint
  cases st.findEntry a <;> rfl

/-! ## One removal under the bookkeeping -/

theorem Valid.mem_removeEntry (hv : st.Valid) (a : ℕ) :
    e ∈ (st.removeEntry a).1.entries ↔ e ∈ st.entries ∧ e.addr ≠ a := by
  cases h : st.findEntry a with
  | none =>
    rw [removeEntry_of_none st h]
    exact ⟨fun he ↦ ⟨he, (st.findEntry_eq_none_iff.mp h) e he⟩, And.left⟩
  | some f =>
    obtain ⟨hf, rfl⟩ := (st.findEntry_eq_some_iff hv.addrs_nodup).mp h
    have hperm := hv.entries_removeEntry h
    have hfresh : f.addr ∉ (st.removeEntry f.addr).1.entries.map (·.addr) := by
      have hnd := (hperm.map (·.addr)).nodup_iff.mp hv.addrs_nodup
      rw [List.map_cons] at hnd
      exact (List.nodup_cons.mp hnd).1
    constructor
    · intro he
      exact ⟨hperm.symm.subset (List.mem_cons_of_mem f he),
        fun hea ↦ hfresh (List.mem_map.mpr ⟨e, he, hea⟩)⟩
    · rintro ⟨he, hea⟩
      rcases List.mem_cons.mp (hperm.subset he) with rfl | he
      · exact absurd rfl hea
      · exact he

theorem Valid.findEntry_removeEntry (hv : st.Valid) (hne : b ≠ a) :
    (st.removeEntry a).1.findEntry b = st.findEntry b := by
  have hv₁ := hv.removeEntry a
  refine Option.ext fun f ↦ ?_
  rw [(_ : Store).findEntry_eq_some_iff hv₁.addrs_nodup, st.findEntry_eq_some_iff hv.addrs_nodup,
    hv.mem_removeEntry]
  constructor
  · rintro ⟨⟨hf, -⟩, hfb⟩
    exact ⟨hf, hfb⟩
  · rintro ⟨hf, rfl⟩
    exact ⟨⟨hf, hne⟩, rfl⟩

theorem Valid.addrFootprint_removeEntry (hv : st.Valid) (hne : b ≠ a) :
    (st.removeEntry a).1.addrFootprint b = st.addrFootprint b := by
  unfold addrFootprint
  rw [hv.findEntry_removeEntry hne, entryFootprint_congr st (st.layout_removeEntry (a := a))]

theorem Valid.lru_removeEntry (hv : st.Valid) (a : ℕ) :
    (st.removeEntry a).1.lru = st.lru.erase a := by
  cases h : st.findEntry a with
  | none =>
    rw [removeEntry_of_none st h, List.erase_of_not_mem]
    intro ha
    obtain ⟨f, hf, hfa⟩ := List.mem_map.mp (hv.lru_perm.subset ha)
    exact st.findEntry_eq_none_iff.mp h f hf hfa
  | some f => exact (st.removeEntry_fields h).2.2.2.1

theorem Valid.invTimeOrder_removeEntry (hv : st.Valid) (a : ℕ) :
    (st.removeEntry a).1.invTimeOrder = st.invTimeOrder.erase a := by
  cases h : st.findEntry a with
  | none =>
    rw [removeEntry_of_none st h, List.erase_of_not_mem]
    intro ha
    obtain ⟨f, hf, hfa⟩ := List.mem_map.mp (hv.invTimeOrder_perm.subset ha)
    exact st.findEntry_eq_none_iff.mp h f (List.mem_filter.mp hf).1 hfa
  | some f =>
    obtain ⟨hf, rfl⟩ := (st.findEntry_eq_some_iff hv.addrs_nodup).mp h
    rw [(st.removeEntry_fields h).2.2.1]
    split_ifs with hsv
    · exact (List.erase_of_not_mem (hv.not_mem_invTimeOrder hf hsv)).symm
    · rfl

theorem erase_last_of_nodup {l ys : List ℕ} (hnd : l.Nodup) (hl : l = ys ++ [a]) :
    l.erase a = ys := by
  subst hl
  have ha : a ∉ ys := fun h ↦ (List.nodup_append.mp hnd).2.2 a h a (List.mem_singleton_self a) rfl
  rw [List.erase_append_right _ ha, List.erase_cons_head, List.append_nil]

/-! ## Eviction -/

theorem evictRounds_eq (fp : ℕ → ℕ) (toFree : ℕ) : ∀ (n : ℕ) (s : Store) (freed : ℕ), s.Valid →
    s.lru.length < n → (∀ b ∈ s.lru, s.addrFootprint b = fp b) →
    (evictRounds n s toFree freed).1.lru =
        (s.lru.reverse.drop (takeUntilFreed fp toFree freed s.lru.reverse).length).reverse ∧
      (∀ e, e ∈ (evictRounds n s toFree freed).1.entries ↔
        e ∈ s.entries ∧ e.addr ∉ takeUntilFreed fp toFree freed s.lru.reverse) ∧
      (evictRounds n s toFree freed).2 =
        decide (toFree ≤ freed + ((takeUntilFreed fp toFree freed s.lru.reverse).map fp).sum)
  | 0, _, _, _, hn, _ => absurd hn (Nat.not_lt_zero _)
  | n + 1, s, freed, hv, hn, hfp => by
    rw [evictRounds]
    by_cases hf : toFree > freed
    · rw [if_pos hf]
      cases hl : s.lru.getLast? with
      | none =>
        have hnil : s.lru = [] := List.getLast?_eq_none_iff.mp hl
        simp [hnil, hf]
      | some a =>
        obtain ⟨ys, hys⟩ := List.getLast?_eq_some_iff.mp hl
        have hnd : (ys ++ [a]).Nodup := hys ▸ hv.lru_perm.nodup_iff.mpr hv.addrs_nodup
        have hv₁ := hv.removeEntry a
        have hlru₁ : (s.removeEntry a).1.lru = ys := by
          rw [hv.lru_removeEntry, erase_last_of_nodup (hys ▸ hnd) hys]
        have hfree : (s.removeEntry a).2 = fp a := by
          rw [removeEntry_snd, hfp a (hys ▸ List.mem_append_right ys (List.mem_singleton_self a))]
        have hfp₁ : ∀ b ∈ (s.removeEntry a).1.lru, (s.removeEntry a).1.addrFootprint b = fp b := by
          intro b hb
          rw [hlru₁] at hb
          have hba : b ≠ a := fun hba ↦
            (List.nodup_append.mp hnd).2.2 b hb a (List.mem_singleton_self a) hba
          rw [hv.addrFootprint_removeEntry hba, hfp b (hys ▸ List.mem_append_left [a] hb)]
        have hlen : (s.removeEntry a).1.lru.length < n := by
          rw [hlru₁]
          rw [hys, List.length_append, List.length_singleton] at hn
          omega
        obtain ⟨ih₁, ih₂, ih₃⟩ := evictRounds_eq fp toFree n _ (freed + fp a) hv₁ hlen hfp₁
        dsimp only
        rw [hfree]
        rw [hlru₁] at ih₁ ih₂ ih₃
        rw [hys, List.reverse_concat, takeUntilFreed_cons_of_lt hf]
        refine ⟨by rw [ih₁, List.length_cons, List.drop_succ_cons], fun e ↦ ?_, ?_⟩
        · rw [ih₂, hv.mem_removeEntry, List.mem_cons]
          tauto
        · rw [ih₃, List.map_cons, List.sum_cons, Nat.add_assoc]
    · rw [if_neg hf, takeUntilFreed_of_le (by omega)]
      simp only [not_lt] at hf
      simp [hf]

/-- **What `Store_Evict` removes.** From a store that keeps its bookkeeping, eviction removes the
entries at the run `takeUntilFreed` from the tail of the LRU list, the least recently used first,
while less than `toFree` bytes are freed; the LRU list keeps its front, and eviction succeeds
exactly when the run frees `toFree` bytes. -/
theorem Valid.evict_eq (hv : st.Valid) (toFree : ℕ) :
    (st.evict toFree).1.lru =
        (st.lru.reverse.drop (takeUntilFreed st.addrFootprint toFree 0 st.lru.reverse).length).reverse ∧
      (∀ e, e ∈ (st.evict toFree).1.entries ↔
        e ∈ st.entries ∧ e.addr ∉ takeUntilFreed st.addrFootprint toFree 0 st.lru.reverse) ∧
      (st.evict toFree).2 = decide (toFree ≤
        ((takeUntilFreed st.addrFootprint toFree 0 st.lru.reverse).map st.addrFootprint).sum) := by
  have h := evictRounds_eq st.addrFootprint toFree _ st 0 hv (Nat.lt_succ_self _) fun _ _ ↦ rfl
  rwa [Nat.zero_add] at h

/-! ## The removal of useless entries -/

theorem Valid.invTimeOrder_nodup (hv : st.Valid) : st.invTimeOrder.Nodup :=
  hv.invTimeOrder_perm.nodup_iff.mpr (hv.addrs_nodup.sublist (List.filter_sublist.map _))

theorem Valid.mem_invTimeOrder (hv : st.Valid) (he : e ∈ st.entries)
    (hsv : e.interval.stillValid = false) : e.addr ∈ st.invTimeOrder :=
  hv.invTimeOrder_perm.symm.subset (List.mem_map_of_mem (List.mem_filter.mpr ⟨he, by simp [hsv]⟩))

/-- An entry the removal drops: truncated, before the bound. -/
def Useless (bound : ℤ) (e : Entry) : Prop :=
  e.interval.stillValid = false ∧ e.timeInvalidated < bound

theorem Valid.not_useless_of_nil (hv : st.Valid) (h : st.invTimeOrder = []) (bound : ℤ)
    (he : e ∈ st.entries) : ¬Useless bound e := by
  rintro ⟨hsv, -⟩
  have := hv.mem_invTimeOrder he hsv
  rw [h] at this
  exact List.not_mem_nil this

theorem Valid.not_useless_of_last {T bound : ℤ} {ys : List ℕ} {f : Entry} (hv : st.Valid)
    (ht : st.TimeOrdered T) (hys : st.invTimeOrder = ys ++ [f.addr]) (hf : f ∈ st.entries)
    (hle : bound ≤ f.timeInvalidated) (he : e ∈ st.entries) : ¬Useless bound e := by
  rintro ⟨hsv, hlt⟩
  have hmem := hv.mem_invTimeOrder he hsv
  rw [hys] at hmem
  rcases List.mem_append.mp hmem with hys' | hlast
  · have hord := ht.sorted
    rw [hys] at hord
    have := (List.pairwise_append.mp hord).2.2 e.addr hys' f.addr (List.mem_singleton_self _) e
      he f hf rfl rfl
    omega
  · obtain rfl : e = f := List.inj_on_of_nodup_map hv.addrs_nodup he hf
      (List.mem_singleton.mp hlast)
    omega

theorem mem_removeUselessRounds {T : ℤ} (bound : ℤ) : ∀ (n : ℕ) (s : Store), s.Valid →
    s.TimeOrdered T → s.invTimeOrder.length ≤ n →
    ∀ e, e ∈ (removeUselessRounds n s bound).entries ↔ e ∈ s.entries ∧ ¬Useless bound e
  | 0, s, hv, _, hn, e => by
    rw [removeUselessRounds]
    exact ⟨fun he ↦ ⟨he, hv.not_useless_of_nil (List.eq_nil_of_length_eq_zero (by omega)) bound he⟩,
      And.left⟩
  | n + 1, s, hv, ht, hn, e => by
    rw [removeUselessRounds]
    cases hl : s.invTimeOrder.getLast? with
    | none =>
      exact ⟨fun he ↦ ⟨he, hv.not_useless_of_nil (List.getLast?_eq_none_iff.mp hl) bound he⟩,
        And.left⟩
    | some a =>
      obtain ⟨ys, hys⟩ := List.getLast?_eq_some_iff.mp hl
      have ha : a ∈ s.invTimeOrder := hys ▸ List.mem_append_right ys (List.mem_singleton_self a)
      cases hf : s.findEntry a with
      | none =>
        obtain ⟨f, hf', hfa⟩ := List.mem_map.mp (hv.invTimeOrder_perm.subset ha)
        exact absurd hfa (s.findEntry_eq_none_iff.mp hf f (List.mem_filter.mp hf').1)
      | some f =>
        obtain ⟨hfmem, rfl⟩ := (s.findEntry_eq_some_iff hv.addrs_nodup).mp hf
        dsimp only
        rw [hf]
        dsimp only
        split_ifs with hlt
        · -- the tail is useless: it goes, and the rest of the list is shorter
          have hord₁ : (s.removeEntry f.addr).1.invTimeOrder = ys := by
            rw [hv.invTimeOrder_removeEntry, erase_last_of_nodup hv.invTimeOrder_nodup hys]
          have hlen : (s.removeEntry f.addr).1.invTimeOrder.length ≤ n := by
            rw [hord₁]
            rw [hys, List.length_append, List.length_singleton] at hn
            omega
          have hfu : Useless bound f := ⟨hv.stillValid_of_mem_invTimeOrder ha hfmem rfl, hlt⟩
          rw [mem_removeUselessRounds bound n _ (hv.removeEntry _) (ht.removeEntry hv _) hlen e,
            hv.mem_removeEntry]
          constructor
          · rintro ⟨⟨he, -⟩, hu⟩
            exact ⟨he, hu⟩
          · rintro ⟨he, hu⟩
            refine ⟨⟨he, fun hea ↦ ?_⟩, hu⟩
            obtain rfl : e = f := List.inj_on_of_nodup_map hv.addrs_nodup he hfmem hea
            exact hu hfu
        · exact ⟨fun he ↦ ⟨he, hv.not_useless_of_last ht hys hfmem (by omega) he⟩, And.left⟩

/-- **What `Store_RemoveUseless` removes.** From a store that keeps its bookkeeping and whose
truncation list is ordered by the time of truncation, the removal at `time` keeps exactly the
entries that are still valid or were truncated no earlier than `uselessBound` seconds before. -/
theorem Valid.mem_removeUseless {T : ℤ} (hv : st.Valid) (ht : st.TimeOrdered T) (time : ℤ) :
    e ∈ (st.removeUseless time).entries ↔
      e ∈ st.entries ∧ ¬(e.interval.stillValid = false ∧ e.timeInvalidated < time - st.uselessBound) :=
  mem_removeUselessRounds _ _ st hv ht le_rfl e

end Store

end TxCache
