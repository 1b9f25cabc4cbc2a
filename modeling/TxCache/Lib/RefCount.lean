import Mathlib

/-!
# Reference counts, and eviction from the old end of a list

A table that hands out references to its entries keeps a count of holders for each entry, and
frees room only by evicting its oldest entry, and only when that entry's count is zero. Two facts
carry the safety of such a table.

* **Counts.** What client `i` holds is `owner i`, if anything, and the clients holding `k` are
  `holders owner k`. `CountedBy owner k n` says that they are finitely many, `n` of them. A client
  that acquires or releases moves the count of its own resource by one and leaves every other
  count alone; a resource with a holder has a positive count, so an eviction that demands a zero
  count never takes it.
* **Positions.** `Precedes l a b` says that `a` stands strictly before `b` in `l`. It survives an
  insertion anywhere (`l` grows to a list it is a sublist of), and the removal of the last element
  of `l` when that is not `b`. In a list whose last element is its oldest, whatever stands before a
  held entry is therefore never the one evicted while the entry is held.
-/

namespace RefCount

open Function

section Counts

variable {ι κ : Type*} {owner : ι → Option κ} {i : ι} {k : κ} {n : ℕ}

/-- The clients that hold `k`. -/
def holders (owner : ι → Option κ) (k : κ) : Set ι := {i | owner i = some k}

@[simp] theorem mem_holders : i ∈ holders owner k ↔ owner i = some k := Iff.rfl

/-- `k` is held by exactly `n` clients. -/
def CountedBy (owner : ι → Option κ) (k : κ) (n : ℕ) : Prop :=
  (holders owner k).Finite ∧ (holders owner k).ncard = n

theorem countedBy_zero (h : ∀ i, owner i ≠ some k) : CountedBy owner k 0 := by
  have hempty : holders owner k = ∅ := Set.eq_empty_of_forall_notMem h
  simp [CountedBy, hempty]

theorem CountedBy.pos (h : CountedBy owner k n) (hi : owner i = some k) : 0 < n := by
  rw [← h.2]
  exact (Set.ncard_pos h.1).mpr ⟨i, hi⟩

theorem CountedBy.ne_of_zero (h : CountedBy owner k 0) (i : ι) : owner i ≠ some k :=
  fun hi ↦ (h.pos hi).false

variable [DecidableEq ι] {v : Option κ}

theorem holders_update_of_ne (hv : v ≠ some k) (hi : owner i ≠ some k) :
    holders (update owner i v) k = holders owner k := by
  ext j
  by_cases hj : j = i
  · subst hj
    simp [hv, hi]
  · simp [update_of_ne hj]

theorem holders_acquire (hi : owner i = none) :
    holders (update owner i (some k)) k = insert i (holders owner k) := by
  ext j
  by_cases hj : j = i
  · subst hj
    simp
  · simp [hj]

theorem holders_release (hi : owner i = some k) :
    holders (update owner i none) k = holders owner k \ {i} := by
  ext j
  by_cases hj : j = i
  · subst hj
    simp
  · simp [hj]

theorem CountedBy.update_of_ne (h : CountedBy owner k n) (hv : v ≠ some k)
    (hi : owner i ≠ some k) : CountedBy (update owner i v) k n := by
  rwa [CountedBy, holders_update_of_ne hv hi]

theorem CountedBy.acquire (h : CountedBy owner k n) (hi : owner i = none) :
    CountedBy (update owner i (some k)) k (n + 1) := by
  have hnot : i ∉ holders owner k := by simp [hi]
  refine ⟨?_, ?_⟩
  · rw [holders_acquire hi]
    exact h.1.insert i
  · rw [holders_acquire hi, Set.ncard_insert_of_notMem hnot h.1, h.2]

theorem CountedBy.release (h : CountedBy owner k n) (hi : owner i = some k) :
    CountedBy (update owner i none) k (n - 1) := by
  have hmem : i ∈ holders owner k := hi
  have hcard := Set.ncard_sdiff_singleton_add_one hmem h.1
  refine ⟨?_, ?_⟩
  · rw [holders_release hi]
    exact h.1.sdiff
  · have hn := h.2
    rw [holders_release hi]
    omega

end Counts

section Positions

variable {α : Type*} {l l' : List α} {a b : α}

/-- `a` stands strictly before `b` in `l`. -/
def Precedes (l : List α) (a b : α) : Prop := [a, b].Sublist l

theorem Precedes.mem_left (h : Precedes l a b) : a ∈ l :=
  h.subset List.mem_cons_self

theorem Precedes.sublist (h : Precedes l a b) (hl : l.Sublist l') : Precedes l' a b :=
  List.Sublist.trans h hl

theorem precedes_cons_of_mem (hb : b ∈ l) : Precedes (a :: l) a b :=
  List.Sublist.cons_cons a (List.singleton_sublist.mpr hb)

theorem Precedes.cons (h : Precedes l a b) (c : α) : Precedes (c :: l) a b :=
  List.Sublist.cons c h

theorem precedes_of_mem_take {n : ℕ} (ha : a ∈ l.take n) (hn : n < l.length) :
    Precedes l a l[n] := by
  have hsplit : l.take n ++ l[n] :: l.drop (n + 1) = l := by
    rw [← List.drop_eq_getElem_cons hn, List.take_append_drop]
  have hsub : ([a] ++ [l[n]]).Sublist (l.take n ++ l[n] :: l.drop (n + 1)) :=
    List.Sublist.append (List.singleton_sublist.mpr ha)
      (List.Sublist.cons_cons _ (List.nil_sublist _))
  rw [hsplit] at hsub
  exact hsub

theorem precedes_getElem {i j : ℕ} (hij : i < j) (hj : j < l.length) :
    Precedes l l[i] l[j] :=
  precedes_of_mem_take (List.mem_take_iff_getElem.mpr ⟨i, by omega, rfl⟩) hj

theorem eq_or_precedes_of_mem_take {n : ℕ} (ha : a ∈ l.take (n + 1)) (hn : n < l.length) :
    a = l[n] ∨ Precedes l a l[n] := by
  rw [List.take_add_one, List.getElem?_eq_getElem hn, Option.toList_some,
    List.mem_append, List.mem_singleton] at ha
  rcases ha with ha | rfl
  · exact Or.inr (precedes_of_mem_take ha hn)
  · exact Or.inl rfl

theorem Precedes.dropLast (h : Precedes l a b) (hb : l.getLast? ≠ some b) :
    Precedes l.dropLast a b := by
  have hne : l ≠ [] := List.ne_nil_of_mem h.mem_left
  rw [Precedes, ← List.dropLast_concat_getLast hne, List.sublist_append_iff] at h
  obtain ⟨l₁, l₂, hsplit, h₁, h₂⟩ := h
  rcases List.sublist_singleton.mp h₂ with rfl | rfl
  · rw [List.append_nil] at hsplit
    rw [Precedes, hsplit]
    exact h₁
  · have hlast := congrArg List.getLast? hsplit
    simp only [List.getLast?_cons_cons, List.getLast?_singleton, List.getLast?_concat] at hlast
    exact absurd (by rw [List.getLast?_eq_some_getLast hne, hlast]) hb

theorem Precedes.getLast?_ne (h : Precedes l a b) (hl : l.Nodup) : l.getLast? ≠ some a := by
  intro hlast
  obtain ⟨l₀, rfl⟩ := List.getLast?_eq_some_iff.mp hlast
  have ha : a ∉ l₀ := by
    rw [List.nodup_append] at hl
    exact fun ha ↦ hl.2.2 a ha a List.mem_cons_self rfl
  rw [Precedes, List.sublist_append_iff] at h
  obtain ⟨l₁, l₂, hsplit, h₁, h₂⟩ := h
  rcases List.sublist_singleton.mp h₂ with rfl | rfl
  · rw [List.append_nil] at hsplit
    exact ha (h₁.subset (hsplit ▸ List.mem_cons_self))
  · rcases List.cons_eq_append_iff.mp hsplit with ⟨-, hab⟩ | ⟨l₁', rfl, -⟩
    · simp at hab
    · exact ha (h₁.subset List.mem_cons_self)

end Positions

end RefCount
