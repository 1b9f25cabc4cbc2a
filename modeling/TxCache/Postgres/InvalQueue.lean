import Mathlib

/-!
# The invalidation queue

Committed invalidations reach the cache nodes through a queue in shared memory
(`commands/inval.c`). A committing write transaction appends one entry per tag of its
`pendingInvalidations` hash, all under its commit xstamp (`AtCommit_Invalidate`). A `PIN`
appends a *null* invalidation, an entry without a tag, for the xstamp before its snapshot's: it
tells the caches that nothing up to that xstamp is still to come (`SendNullInvalidation`).
`lastInvalidation` is the xstamp of the last entry appended. A commit asserts that its xstamp is
later, and a null invalidation that is not later is dropped. The view `pg_invalidations` reads
the queue to its end and empties it (`pg_get_and_clear_invalidations`). Each of the three works
under `InvalidationLock`, so each is one step here.

The queue is its list of entries; the free list holds the rest of the `MAX_PENDING_INVALIDATIONS`
entries, so an append raises the `ERROR` "invalidation queue full" (`none`) when the list is that
long. The `pendingInvalidations` hash is the list of its tags in the order `hash_seq_search`
visits them; it is created by the first tag entered, so it is `NULL` exactly when it is empty.
-/

namespace TxCache

/-- `MAX_PENDING_INVALIDATIONS`. -/
def maxPendingInvalidations : ℕ := 16384

/-- `XStampMinusInfinity`. -/
def xstampMinusInfinity : ℕ := 1

/-- The shared `InvalidationQueue`: its entries in order, each an xstamp and a tag, which is
`none` for a null invalidation (`ent->null`), and `lastInvalidation`. -/
structure InvalQueue where
  queue : List (ℕ × Option (List Char))
  lastInvalidation : ℕ
deriving DecidableEq, Repr

/-- A row of `pg_invalidations`: the xstamp, stored by `UInt32GetDatum`, read back as the `int4`
the view declares it to be, and the tag, `NULL` for a null invalidation. -/
def int4Row (e : ℕ × Option (List Char)) : ℤ × Option (List Char) :=
  ((BitVec.ofNat 32 e.1).toInt, e.2)

namespace InvalQueue

/-- `InvalidationInit`: no entry, and `lastInvalidation` at `XStampMinusInfinity`. -/
def init : InvalQueue := ⟨[], xstampMinusInfinity⟩

variable (q : InvalQueue)

/-- `AddInvalidationToQueue`: an entry from the free list goes to the end of the queue. -/
def addInvalidationToQueue (xstamp : ℕ) (tag : Option (List Char)) : Option InvalQueue :=
  if q.queue.length < maxPendingInvalidations then
    some { q with queue := q.queue ++ [(xstamp, tag)] }
  else none

/-- `AtCommit_Invalidate`: nothing without pending invalidations; otherwise the `Assert` that the
xstamp is later than `lastInvalidation`, then one entry per pending tag. -/
def atCommitInvalidate (xstamp : ℕ) (pending : List (List Char)) : Option InvalQueue :=
  if pending = [] then some q
  else if xstamp ≤ q.lastInvalidation then none
  else
    pending.foldlM (fun q tag ↦ q.addInvalidationToQueue xstamp (some tag))
      { q with lastInvalidation := xstamp }

/-- `SendNullInvalidation`: dropped unless the xstamp is later than `lastInvalidation`. -/
def sendNullInvalidation (xstamp : ℕ) : Option InvalQueue :=
  if q.lastInvalidation ≥ xstamp then some q
  else { q with lastInvalidation := xstamp }.addInvalidationToQueue xstamp none

/-- `SELECT xstamp, tag FROM pg_invalidations`: the queue is emptied, and its entries come back
in order, each as a row of the view. -/
def getAndClearInvalidations : InvalQueue × List (ℤ × Option (List Char)) :=
  ({ q with queue := [] }, q.queue.map int4Row)

/-! ## What each call does -/

variable {q} {q' : InvalQueue} {xstamp : ℕ}

theorem addInvalidationToQueue_eq {tag : Option (List Char)}
    (h : q.queue.length < maxPendingInvalidations) :
    q.addInvalidationToQueue xstamp tag = some { q with queue := q.queue ++ [(xstamp, tag)] } :=
  if_pos h

theorem foldlM_addInvalidationToQueue : ∀ {pending : List (List Char)} {q : InvalQueue},
    q.queue.length + pending.length ≤ maxPendingInvalidations →
    pending.foldlM (fun q tag ↦ q.addInvalidationToQueue xstamp (some tag)) q =
      some { q with queue := q.queue ++ pending.map fun t ↦ (xstamp, some t) }
  | [], q, _ => by simp
  | t :: rest, q, hroom => by
    rw [List.foldlM_cons, addInvalidationToQueue_eq (by simp at hroom; omega)]
    simp only [Option.bind_eq_bind, Option.bind_some]
    rw [foldlM_addInvalidationToQueue (by simp at hroom ⊢; omega)]
    simp

theorem eq_of_foldlM_addInvalidationToQueue : ∀ {pending : List (List Char)} {q q' : InvalQueue},
    pending.foldlM (fun q tag ↦ q.addInvalidationToQueue xstamp (some tag)) q = some q' →
    q' = { q with queue := q.queue ++ pending.map fun t ↦ (xstamp, some t) }
  | [], q, q', h => by simpa using h.symm
  | t :: rest, q, q', h => by
    rw [List.foldlM_cons] at h
    by_cases hroom : q.queue.length < maxPendingInvalidations
    · rw [addInvalidationToQueue_eq hroom] at h
      simp only [Option.bind_eq_bind, Option.bind_some] at h
      rw [eq_of_foldlM_addInvalidationToQueue h]
      simp
    · rw [addInvalidationToQueue, if_neg hroom] at h
      cases h

theorem atCommitInvalidate_eq {pending : List (List Char)} (hne : pending ≠ [])
    (hlt : q.lastInvalidation < xstamp)
    (hroom : q.queue.length + pending.length ≤ maxPendingInvalidations) :
    q.atCommitInvalidate xstamp pending =
      some ⟨q.queue ++ pending.map fun t ↦ (xstamp, some t), xstamp⟩ := by
  rw [atCommitInvalidate, if_neg hne, if_neg (by omega),
    foldlM_addInvalidationToQueue (q := { q with lastInvalidation := xstamp }) hroom]

theorem atCommitInvalidate_nil : q.atCommitInvalidate xstamp [] = some q := if_pos rfl

theorem atCommitInvalidate_cases {pending : List (List Char)}
    (h : q.atCommitInvalidate xstamp pending = some q') :
    (pending = [] ∧ q' = q) ∨
      (pending ≠ [] ∧ q.lastInvalidation < xstamp ∧
        q' = ⟨q.queue ++ pending.map fun t ↦ (xstamp, some t), xstamp⟩) := by
  unfold atCommitInvalidate at h
  by_cases hne : pending = []
  · rw [if_pos hne] at h
    exact .inl ⟨hne, (Option.some.inj h).symm⟩
  · rw [if_neg hne] at h
    by_cases hle : xstamp ≤ q.lastInvalidation
    · rw [if_pos hle] at h
      cases h
    · rw [if_neg hle] at h
      exact .inr ⟨hne, by omega, eq_of_foldlM_addInvalidationToQueue h⟩

theorem sendNullInvalidation_of_le (h : xstamp ≤ q.lastInvalidation) :
    q.sendNullInvalidation xstamp = some q := if_pos h

theorem sendNullInvalidation_cases (h : q.sendNullInvalidation xstamp = some q') :
    (xstamp ≤ q.lastInvalidation ∧ q' = q) ∨
      (q.lastInvalidation < xstamp ∧ q' = ⟨q.queue ++ [(xstamp, none)], xstamp⟩) := by
  unfold sendNullInvalidation at h
  by_cases hle : q.lastInvalidation ≥ xstamp
  · rw [if_pos hle] at h
    exact .inl ⟨hle, (Option.some.inj h).symm⟩
  · rw [if_neg hle] at h
    by_cases hroom : q.queue.length < maxPendingInvalidations
    · rw [addInvalidationToQueue_eq (q := { q with lastInvalidation := xstamp }) hroom] at h
      exact .inr ⟨by omega, (Option.some.inj h).symm⟩
    · rw [addInvalidationToQueue, if_neg hroom] at h
      cases h

theorem sendNullInvalidation_eq (hlt : q.lastInvalidation < xstamp)
    (hroom : q.queue.length < maxPendingInvalidations) :
    q.sendNullInvalidation xstamp = some ⟨q.queue ++ [(xstamp, none)], xstamp⟩ := by
  rw [sendNullInvalidation, if_neg (by omega),
    addInvalidationToQueue_eq (q := { q with lastInvalidation := xstamp }) hroom]

end InvalQueue

end TxCache
