import Mathlib

/-!
# Trimming an ordered list at both ends

A scan that advances a pointer from the front of an array while the element lies below a bound,
or moves a pointer back from the end while the element lies above one, keeps a contiguous
window. On a list ordered by a key the window is a filter: trimming the front while `p` holds
keeps exactly the elements where `p` fails, as long as `p` holds on an initial segment, and
likewise at the back.

The order is stated through the trimming predicate itself: `p` holds on an initial segment when
`p b → p a` for every `a` before `b`, which is what `Pairwise` of that implication says.

The next lemmas count the front trim: a pointer moved forward past `k` elements rests at offset
`k`, and the window it starts is the list dropped by `k`. The last ones bound an ordered list by
its first and last elements.
-/

namespace List

variable {α : Type*}

theorem dropWhile_eq_filter_of_pairwise {p : α → Bool} :
    ∀ {l : List α}, l.Pairwise (fun a b ↦ p b → p a) → l.dropWhile p = l.filter fun a ↦ !p a
  | [], _ => rfl
  | a :: t, h => by
    rw [List.pairwise_cons] at h
    obtain ⟨hhead, htail⟩ := h
    by_cases ha : p a
    · simp [ha, dropWhile_eq_filter_of_pairwise htail]
    · have hall : ∀ b ∈ t, (!p b) = true := fun b hb ↦ by
        cases hpb : p b
        · rfl
        · exact absurd (hhead b hb hpb) ha
      simp [ha, List.filter_eq_self.mpr hall]

theorem takeWhile_eq_filter_of_pairwise {p : α → Bool} :
    ∀ {l : List α}, l.Pairwise (fun a b ↦ p b → p a) → l.takeWhile p = l.filter p
  | [], _ => rfl
  | a :: t, h => by
    rw [List.pairwise_cons] at h
    obtain ⟨hhead, htail⟩ := h
    by_cases ha : p a
    · simp [ha, takeWhile_eq_filter_of_pairwise htail]
    · have hnone : t.filter p = [] := List.filter_eq_nil_iff.mpr fun b hb hpb ↦ ha (hhead b hb hpb)
      simp [ha, hnone]

theorem rdropWhile_eq_filter_of_pairwise {p : α → Bool} {l : List α}
    (h : l.Pairwise fun a b ↦ p a → p b) : l.rdropWhile p = l.filter fun a ↦ !p a := by
  have hrev : l.reverse.Pairwise fun a b ↦ p b → p a := List.pairwise_reverse.mpr h
  rw [List.rdropWhile, dropWhile_eq_filter_of_pairwise hrev, List.filter_reverse,
    List.reverse_reverse]

theorem drop_length_takeWhile (p : α → Bool) :
    ∀ l : List α, l.drop (l.takeWhile p).length = l.dropWhile p
  | [] => rfl
  | a :: t => by
    by_cases ha : p a
    · simp [ha, drop_length_takeWhile p t]
    · simp [ha]

theorem length_takeWhile_le (p : α → Bool) (l : List α) : (l.takeWhile p).length ≤ l.length :=
  (List.takeWhile_prefix p).length_le

theorem rel_headD_of_pairwise {R : α → α → Prop} (hR : ∀ a, R a a) {l : List α}
    (h : l.Pairwise R) (d : α) {x : α} (hx : x ∈ l) : R (l.headD d) x := by
  cases l with
  | nil => cases hx
  | cons a t =>
    rcases List.mem_cons.mp hx with rfl | hx
    · exact hR x
    · exact List.rel_of_pairwise_cons h hx

theorem getLastD_mem_of_ne_nil {l : List α} (h : l ≠ []) (d : α) : l.getLastD d ∈ l := by
  rw [List.getLastD_eq_getLast?, List.getLast?_eq_some_getLast h]
  exact List.getLast_mem h

theorem rel_getLastD_of_pairwise {R : α → α → Prop} (hR : ∀ a, R a a) {l : List α}
    (h : l.Pairwise R) (d : α) {x : α} (hx : x ∈ l) : R x (l.getLastD d) := by
  have hlast : l.getLastD d = l.reverse.headD d := by
    rw [List.getLastD_eq_getLast?, List.headD_eq_head?_getD, List.getLast?_eq_head?_reverse]
  rw [hlast]
  exact rel_headD_of_pairwise (R := fun a b ↦ R b a) hR (List.pairwise_reverse.mpr h) d
    (List.mem_reverse.mpr hx)

end List
