import Mathlib

/-!
# Reading and writing elements of a list

A program that writes through a pointer into an array changes one element and leaves the rest.
Modelled on a list, the write is `List.modify` or `List.set`, and what the proofs need to know is
what it leaves alone: a field the write does not touch reads the same in every element, a
key that was unique still tells the written element from the others, and a list in order stays in
order when the value written lies between its two neighbours.

A loop that reads one element per step and fails on a bad index is a `mapM` into `Option`; it
succeeds with the list of what it read when each read succeeds (`mapM_eq_some_of_forall₂`).
-/

namespace List

variable {α β : Type*} {l : List α} {i : ℕ} {f : α → α} {g : α → β}

theorem map_modify_of_forall (hf : ∀ a, g (f a) = g a) (l : List α) (i : ℕ) :
    (l.modify i f).map g = l.map g := by
  apply List.ext_getElem (by simp)
  intro j hj _
  simp only [getElem_map, getElem_modify]
  split <;> simp [hf]

theorem map_modify_of_const {b : β} (hf : ∀ a, g (f a) = b) (l : List α) (i : ℕ) :
    (l.modify i f).map g = (l.map g).set i b := by
  apply List.ext_getElem (by simp)
  intro j hj _
  simp only [getElem_map, getElem_modify, getElem_set]
  split <;> simp [hf]

theorem mem_modify_of_nodup {a : α} (hnd : (l.map g).Nodup) (hi : i < l.length)
    (ha : a ∈ l.modify i f) : a = f l[i] ∨ a ∈ l ∧ g a ≠ g l[i] := by
  obtain ⟨j, hj, rfl⟩ := List.mem_iff_getElem.mp ha
  rw [length_modify] at hj
  rw [getElem_modify]
  split
  next hij =>
    subst hij
    exact Or.inl rfl
  next hij =>
    refine Or.inr ⟨getElem_mem hj, fun hg ↦ hij ?_⟩
    have hj' : j < (l.map g).length := by simpa using hj
    have hi' : i < (l.map g).length := by simpa using hi
    have hinj : (l.map g)[j] = (l.map g)[i] → j = i := hnd.getElem_inj_iff.mp
    simp only [getElem_map] at hinj
    exact (hinj hg).symm

theorem mapM_eq_some_of_forall₂ {γ : Type*} {f : α → Option γ} {l : List α} {l' : List γ}
    (h : List.Forall₂ (fun x y ↦ f x = some y) l l') : l.mapM f = some l' := by
  induction h with
  | nil => rfl
  | cons hxy _ ih =>
    rw [List.mapM_cons, hxy, ih]
    rfl

theorem forall₂_of_mapM_eq_ok {ε γ : Type*} {f : α → Except ε γ} {l : List α} {l' : List γ}
    (h : l.mapM f = .ok l') : List.Forall₂ (fun x y ↦ f x = .ok y) l l' := by
  induction l generalizing l' with
  | nil =>
    cases h
    exact .nil
  | cons x l ih =>
    rw [List.mapM_cons] at h
    cases hx : f x with
    | error e => simp [hx, bind, Except.bind] at h
    | ok y =>
      cases hl : l.mapM f with
      | error e => simp [hx, hl, bind, Except.bind] at h
      | ok ys =>
        simp only [hx, hl, bind, Except.bind, pure, Except.pure, Except.ok.injEq] at h
        subst h
        exact .cons hx (ih hl)

theorem pairwise_set {R : α → α → Prop} (htr : ∀ a b c, R a b → R b c → R a c) {x : α}
    (h : l.Pairwise R) (hprev : ∀ j (hj : j < l.length), j + 1 = i → R l[j] x)
    (hnext : ∀ j (hj : j < l.length), j = i + 1 → R x l[j]) : (l.set i x).Pairwise R := by
  have hR := List.pairwise_iff_getElem.mp h
  rw [List.pairwise_iff_getElem]
  intro a b ha hb hab
  rw [length_set] at ha hb
  simp only [getElem_set]
  by_cases hia : i = a
  · subst hia
    rw [if_pos rfl, if_neg (by omega)]
    by_cases hb' : b = i + 1
    · exact hnext b hb hb'
    · exact htr _ _ _ (hnext (i + 1) (by omega) rfl) (hR (i + 1) b (by omega) hb (by omega))
  · by_cases hib : i = b
    · subst hib
      rw [if_neg hia, if_pos rfl]
      by_cases ha' : a + 1 = i
      · exact hprev a ha ha'
      · exact htr _ _ _ (hR a (i - 1) ha (by omega) (by omega)) (hprev (i - 1) (by omega) (by omega))
    · rw [if_neg hia, if_neg hib]
      exact hR a b ha hb hab

end List
