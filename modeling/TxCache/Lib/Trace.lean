import Mathlib

/-!
# Properties of every event of a log

A system that reports what it does as a list of events is specified by an *observer*: a state
machine `step : σ → ε → σ` that reads the events one by one, and a condition `P s e` that every
event `e` must meet in the state `s` the observer reached before it. `Trace.Always step P s log`
says that every event of `log` meets `P`, the observer started in `s`.

The lemmas split a log at its first event and at any point, so that a property of the whole log
of a run is proved one step of the run at a time, the observer's state carried from one to the
next.

## Runs

A system whose step `sys : σ → α → Option (σ × List ε)` takes an input, reports events and may
fail is run over a list of inputs by `run`, which stops at the first failure. `Obeys sys A s ops`
is what the environment promises: each input meets `A` in the state it is applied to. The run
rule `always_run` is the one induction over runs: a relation between the system's state and the
observer's that every allowed step keeps, with `P` met by the step's own events, holds after the
whole run, and `P` over its whole log.
-/

namespace Trace

variable {σ ε : Type*} (step : σ → ε → σ) (P : σ → ε → Prop)

/-- Every event of `log` meets `P` in the state the observer reached before it, from `s`. -/
def Always (s : σ) (log : List ε) : Prop :=
  ∀ pre e post, log = pre ++ e :: post → P (pre.foldl step s) e

variable {step P}

theorem always_nil (s : σ) : Always step P s [] := by
  intro pre e post h
  simp at h

theorem always_cons {s : σ} {e : ε} {log : List ε} :
    Always step P s (e :: log) ↔ P s e ∧ Always step P (step s e) log := by
  constructor
  · intro h
    refine ⟨h [] e log rfl, fun pre e' post hlog ↦ ?_⟩
    simpa using h (e :: pre) e' post (by simp [hlog])
  · rintro ⟨he, hlog⟩ pre e' post h
    cases pre with
    | nil =>
      obtain ⟨rfl, -⟩ := List.cons.inj h
      exact he
    | cons x pre =>
      simp only [List.cons_append, List.cons.injEq] at h
      obtain ⟨rfl, h⟩ := h
      exact hlog pre e' post h

theorem always_append {s : σ} {l₁ l₂ : List ε} :
    Always step P s (l₁ ++ l₂) ↔ Always step P s l₁ ∧ Always step P (l₁.foldl step s) l₂ := by
  induction l₁ generalizing s with
  | nil => simp [always_nil]
  | cons e l₁ ih => simp only [List.cons_append, always_cons, ih, List.foldl_cons, and_assoc]

theorem always_singleton {s : σ} {e : ε} : Always step P s [e] ↔ P s e := by
  simp [always_cons, always_nil]

/-- `Always` is decided event by event. -/
instance decidableAlways [∀ s e, Decidable (P s e)] : ∀ s log, Decidable (Always step P s log)
  | s, [] => isTrue (always_nil s)
  | s, e :: log =>
    haveI := decidableAlways (step s e) log
    decidable_of_iff _ always_cons.symm

section Run

variable {α ω : Type*} (sys : σ → α → Option (σ × List ε))

/-- Runs `sys` over `ops` from `s`, gathering the events of every step in order; `none` as soon
as a step fails. -/
def run (s : σ) : List α → Option (σ × List ε)
  | [] => some (s, [])
  | a :: ops =>
    match sys s a with
    | none => none
    | some (s', es) => (run s' ops).map fun (s'', es') ↦ (s'', es ++ es')

/-- Every input of `ops` meets `A` in the state it is applied to. -/
def Obeys (A : σ → α → Prop) : σ → List α → Prop
  | _, [] => True
  | s, a :: ops =>
    A s a ∧ match sys s a with
      | some (s', _) => Obeys A s' ops
      | none => True

instance decidableObeys (A : σ → α → Prop) [∀ s a, Decidable (A s a)] :
    ∀ s ops, Decidable (Obeys sys A s ops)
  | _, [] => isTrue trivial
  | s, a :: ops =>
    match h : sys s a with
    | some (s', _) =>
      haveI := decidableObeys A s' ops
      decidable_of_iff (A s a ∧ Obeys sys A s' ops) (by simp [Obeys, h])
    | none => decidable_of_iff (A s a) (by simp [Obeys, h])

variable {sys} {s s' : σ} {a : α} {ops : List α} {log : List ε}

theorem run_cons_eq_some :
    run sys s (a :: ops) = some (s', log) ↔
      ∃ s₁ es log', sys s a = some (s₁, es) ∧ run sys s₁ ops = some (s', log') ∧
        log = es ++ log' := by
  simp only [run]
  split
  · simp_all
  · simp_all [eq_comm]

/-- **The run rule.** -/
theorem always_run {obs : ω → ε → ω} {P : ω → ε → Prop} {R : σ → ω → Prop} {A : σ → α → Prop}
    (hstep : ∀ s w a s' es, R s w → A s a → sys s a = some (s', es) →
      Always obs P w es ∧ R s' (es.foldl obs w)) :
    ∀ {s s' : σ} {w : ω} {ops : List α} {log : List ε}, R s w → Obeys sys A s ops →
      run sys s ops = some (s', log) → Always obs P w log ∧ R s' (log.foldl obs w)
  | s, s', w, [], log, hR, _, hrun => by
    simp only [run, Option.some.injEq, Prod.mk.injEq] at hrun
    obtain ⟨rfl, rfl⟩ := hrun
    exact ⟨always_nil w, hR⟩
  | s, s', w, a :: ops, log, hR, hA, hrun => by
    obtain ⟨s₁, es, log', hs₁, hrun', rfl⟩ := run_cons_eq_some.mp hrun
    have hA' : Obeys sys A s₁ ops := by
      simpa [Obeys, hs₁] using hA.2
    obtain ⟨hes, hR₁⟩ := hstep s w a s₁ es hR hA.1 hs₁
    obtain ⟨hlog', hR'⟩ := always_run hstep hR₁ hA' hrun'
    exact ⟨always_append.mpr ⟨hes, hlog'⟩, by simpa [List.foldl_append] using hR'⟩

theorem invariant_run {I : σ → Prop} (hstep : ∀ s a s' es, I s → sys s a = some (s', es) → I s') :
    ∀ {s s' : σ} {ops : List α} {log : List ε}, I s → run sys s ops = some (s', log) → I s'
  | s, s', [], log, hI, hrun => by
    simp only [run, Option.some.injEq, Prod.mk.injEq] at hrun
    exact hrun.1 ▸ hI
  | s, s', a :: ops, log, hI, hrun => by
    obtain ⟨s₁, es, log', hs₁, hrun', -⟩ := run_cons_eq_some.mp hrun
    exact invariant_run hstep (hstep s a s₁ es hI hs₁) hrun'

end Run

end Trace
