import Mathlib

/-!
# Induction over folds

A loop of the source that calls a fallible step on each item of a list is a fold in `Option`;
these are its induction rules. A property kept by every step is kept by the fold, also when the
step only keeps it at the items of the list. A property indexed by the last reading of a clock is
kept by a fold whose steps read the clock in order and never go back.
-/

namespace TxCache

namespace Fold

theorem foldlM_induction {σ β : Type*} {f : σ → β → Option σ} {Q : σ → Prop}
    (hf : ∀ s b s', f s b = some s' → Q s → Q s') :
    ∀ (l : List β) (s s' : σ), l.foldlM f s = some s' → Q s → Q s'
  | [], s, s', h, hs => by
    rw [List.foldlM_nil] at h
    exact Option.some.inj h ▸ hs
  | b :: l, s, s', h, hs => by
    rw [List.foldlM_cons] at h
    cases hb : f s b with
    | none => rw [hb] at h; cases h
    | some s₁ =>
      rw [hb] at h
      exact foldlM_induction hf l s₁ s' h (hf s b s₁ hb hs)

theorem foldlM_induction_of_mem {σ β : Type*} {f : σ → β → Option σ} {Q : σ → Prop} :
    ∀ {l : List β}, (∀ b ∈ l, ∀ s s', f s b = some s' → Q s → Q s') →
      ∀ {s s' : σ}, l.foldlM f s = some s' → Q s → Q s'
  | [], _, _, _, h, hs => by
    rw [List.foldlM_nil] at h
    exact Option.some.inj h ▸ hs
  | b :: l, hf, s, _, h, hs => by
    rw [List.foldlM_cons] at h
    cases hb : f s b with
    | none => rw [hb] at h; cases h
    | some s₁ =>
      rw [hb] at h
      exact foldlM_induction_of_mem (fun b' hb' ↦ hf b' (List.mem_cons_of_mem b hb')) h
        (hf b List.mem_cons_self s s₁ hb hs)

theorem foldlM_eq_some_of_step {σ β : Type*} {f : σ → β → Option σ} (I : List β → σ → Prop)
    (step : ∀ b l s, I (b :: l) s → ∃ s', f s b = some s' ∧ I l s') :
    ∀ (l : List β) (s : σ), I l s → ∃ s', l.foldlM f s = some s' ∧ I [] s'
  | [], s, hs => ⟨s, rfl, hs⟩
  | b :: l, s, hs => by
    obtain ⟨s₁, hb, hs₁⟩ := step b l s hs
    rw [List.foldlM_cons, hb]
    exact foldlM_eq_some_of_step I step l s₁ hs₁

theorem getLast?_getD_append (l l' : List ℤ) (T : ℤ) :
    (l ++ l').getLast?.getD T = l'.getLast?.getD (l.getLast?.getD T) := by
  rw [List.getLast?_append]
  cases l'.getLast? <;> rfl

theorem foldlM_clock_induction {σ β : Type*} {f : σ → β → Option σ} {clk : β → List ℤ}
    {Q : σ → ℤ → Prop}
    (hf : ∀ s b s' T, f s b = some s' → Q s T → (∀ t ∈ clk b, T ≤ t) →
      (clk b).Pairwise (· ≤ ·) → Q s' ((clk b).getLast?.getD T)) :
    ∀ (l : List β) (s s' : σ) (T : ℤ), l.foldlM f s = some s' → Q s T →
      (∀ t ∈ l.flatMap clk, T ≤ t) → (l.flatMap clk).Pairwise (· ≤ ·) →
      Q s' ((l.flatMap clk).getLast?.getD T)
  | [], _, _, _, h, hs, _, _ => by
    rw [List.foldlM_nil] at h
    exact Option.some.inj h ▸ hs
  | b :: l, s, s', T, h, hs, hT, hmono => by
    rw [List.foldlM_cons] at h
    cases hb : f s b with
    | none => rw [hb] at h; cases h
    | some s₁ =>
      rw [hb] at h
      rw [List.flatMap_cons] at hT hmono ⊢
      obtain ⟨hmb, hml, hbl⟩ := List.pairwise_append.mp hmono
      have h₁ := hf s b s₁ T hb hs (fun t ht ↦ hT t (List.mem_append_left _ ht)) hmb
      -- the rest of the run reads the clock no earlier than the last reading of `b`
      have hT₁ : ∀ t ∈ l.flatMap clk, (clk b).getLast?.getD T ≤ t := by
        intro t ht
        cases hlast : (clk b).getLast? with
        | none => exact hT t (List.mem_append_right _ ht)
        | some c => exact hbl c (List.mem_of_getLast? hlast) t ht
      rw [getLast?_getD_append]
      exact foldlM_clock_induction hf l s₁ s' _ h h₁ hT₁ hml

theorem foldl_induction {σ β : Type*} {f : σ → β → σ} {Q : σ → Prop}
    (hf : ∀ s b, Q s → Q (f s b)) : ∀ (l : List β) (s : σ), Q s → Q (l.foldl f s)
  | [], _, hs => hs
  | b :: l, s, hs => foldl_induction hf l (f s b) (hf s b hs)

end Fold

end TxCache
