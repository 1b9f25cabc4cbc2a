import TxCache.Invald.Invald
import TxCache.Postgres.SSnap
import TxCache.Server.Walk

/-!
# Invalidations from the commit to the cache

A write transaction that commits takes its xstamp and queues its tags under it in one step:
`GetCommitXStamp` calls `AtCommit_Invalidate` with `SSnapHashLock` held. A `PIN` saves its
snapshot under `NextXStamp` (`SaveSnapshot`) and then, in a step of its own, queues a null
invalidation for the xstamp before it (`SendNullInvalidation`), which tells the caches that
nothing up to it is still to come. Whenever it is notified, `invald` empties the queue and sends
what it read to every cache node (`InvaldProcessNotification`), whose `Store_Invalidate` asserts
that each pin is a real one, later than the last. The steps of the backends and of the daemon
interleave in any order; `InvalStep` is one of them and `InvalSystem.step` what it does.

## The construction

`InvalAbs` is what the commits and the `PIN`s announce: each commit with tags at its xstamp, and
each null invalidation later than everything announced before it. `Refines s a r` says that the
registry keeps `SSnap.Registry` for what the run asked of it, `r`, that the cache nodes have
received a prefix of what was announced, and that the queue holds the rows of the rest. Every
step that goes through keeps it while `NextXStamp` stays below `XStampInfinity` (`Refines.step`):
the registry because a call that goes through had the room it needs (`SSnap.Registry.of_call`),
and the rows of the queue because they are read back as the notices they came from, no two
notices in a row sharing a pin (`processNotification_rows`).

## The invariant

What is announced is strictly increasing in its pins, each between `FirstXStamp` and the last
pin announced, which is below `NextXStamp` (`InvalAbs.Ordered`): a commit takes `NextXStamp`, and
a `PIN` saved its snapshot under an xstamp that `NextXStamp` has not gone below since. Hence:

* `runSteps_sent_ordered`: the notices the cache nodes receive have strictly increasing real
  pins, and are what was announced, less what the queue holds;
* `runSteps_step_isSome`: no `Assert` on the path fails in any interleaving; a step fails only
  when the table of saved snapshots, the commit map or the queue is full, and an `UNPIN` never;
* `runSteps_receiveInvalidations_isSome`: a cache node that receives the notices in order never
  fails an `Assert` of `Store_Invalidate`, as long as every tag ends in `':'`;
* `runSteps_delivers_commits`: the notices with tags are the commits with tags, in the order they
  committed and each at its xstamp, all of them once the queue is empty.
-/

namespace TxCache

/-! ## The steps -/

/-- The shared state of the invalidation path: the saved-snapshot registry, the invalidation
queue, the ids of the `PIN`s that have saved their snapshot and not yet sent their null
invalidation, and the notices `invald` has sent to every cache node, in order. -/
structure InvalSystem where
  ssnap : SSnap
  queue : InvalQueue
  pins : List ℕ
  sent : List Notice

/-- A step of a backend or of the daemon. -/
inductive InvalStep
  /-- A write transaction commits with the tags of its `pendingInvalidations`. -/
  | commit (xid : ℕ) (tags : List (List Char))
  /-- A `PIN` saves its snapshot (`AssignAndPinTransactionSnapshot`). -/
  | pin
  /-- The `i`-th of the `PIN`s still to send their null invalidation sends it. -/
  | pinSent (i : ℕ)
  /-- An `UNPIN` removes a saved snapshot. -/
  | unpin (id : ℕ)
  /-- `invald` is notified and reads `pg_invalidations`. -/
  | notify
deriving DecidableEq, Repr

namespace InvalSystem

/-- The shared memory when it is new, and nothing sent. -/
def init (mem : CommitMap) : InvalSystem := ⟨SSnap.init mem, InvalQueue.init, [], []⟩

/-- One step. An `UNPIN` of a snapshot that is not saved raises its `ERROR` after the call, so it
changes the registry as one that is. -/
def step (s : InvalSystem) : InvalStep → Option InvalSystem
  | .commit xid tags =>
    -- the registry and the xstamp `GetCommitXStamp` returns
    (s.ssnap.getCommitXStamp xid).bind fun r ↦
      (s.queue.atCommitInvalidate r.2 tags).map fun queue ↦ { s with ssnap := r.1, queue := queue }
  | .pin =>
    -- the registry and the id `SaveSnapshot` returns
    s.ssnap.saveSnapshot.map fun r ↦ { s with ssnap := r.1, pins := s.pins ++ [r.2] }
  | .pinSent i =>
    s.pins[i]?.bind fun ssnap ↦
      (if ssnap > firstXStamp then s.queue.sendNullInvalidation (ssnap - 1) else some s.queue).map
        fun queue ↦ { s with queue := queue, pins := s.pins.eraseIdx i }
  | .unpin id => (s.ssnap.removeSavedSnapshot id).map fun r ↦ { s with ssnap := r.1 }
  | .notify =>
    (processNotification s.queue.getAndClearInvalidations.2).map fun ns ↦
      { s with queue := s.queue.getAndClearInvalidations.1, sent := s.sent ++ ns }

/-- A run of steps, in the order they happen. -/
def runSteps (s : InvalSystem) (steps : List InvalStep) : Option InvalSystem := steps.foldlM step s

/-- What a step asks of the saved-snapshot registry: a commit's `GetCommitXStamp`, a `PIN`'s
`SaveSnapshot` from a transaction that has not snapshotted, an `UNPIN`'s `RemoveSavedSnapshot`. -/
def registryStep (r : SSnapAbs) : InvalStep → SSnapAbs
  | .commit xid _ => r.apply (.commit xid)
  | .pin => r.apply (.save false)
  | .pinSent _ => r
  | .unpin id => r.apply (.remove id)
  | .notify => r

/-- What a run asks of the registry. -/
def registryAfter (steps : List InvalStep) : SSnapAbs :=
  steps.foldl registryStep (SSnapAbs.after [])

/-- Whether a step has the room it takes, `r` being what the run has asked of the registry: a
commit an entry of the commit map beyond the commits some saved snapshot cannot see, and room in
the queue for its tags; a `PIN` room in the table of saved snapshots; a null invalidation its
`PIN` and room in the queue. -/
def hasRoom (s : InvalSystem) (r : SSnapAbs) : InvalStep → Bool
  | .commit _ tags =>
    decide (r.liveCommits.length < maxCommitMapEntries) &&
      decide (s.queue.queue.length + tags.length ≤ maxPendingInvalidations)
  | .pin => decide (s.ssnap.saved.length < maxSavedSnapshots)
  | .pinSent i => decide (i < s.pins.length ∧ s.queue.queue.length < maxPendingInvalidations)
  | .unpin _ => true
  | .notify => true

end InvalSystem

/-- A cache node's `HandleInval` of each notice, in the order they arrive and each at the time it
arrives: `Store_Invalidate`. -/
def Store.receiveInvalidations (st : Store) (calls : List (Notice × ℤ)) : Option Store :=
  calls.foldlM (fun st c ↦ st.invalidate c.1.1 c.1.2 c.2) st

/-! ## What is announced -/

/-- What the commits and the `PIN`s have announced: `NextXStamp`, the last pin announced, the
`PIN`s still to announce theirs, and every notice announced, in order. -/
structure InvalAbs where
  next : ℕ
  last : ℕ
  pins : List ℕ
  history : List Notice

namespace InvalAbs

/-- What a step announces. -/
def apply (a : InvalAbs) : InvalStep → InvalAbs
  | .commit _ tags =>
    if tags = [] then { a with next := a.next + 1 }
    else { a with next := a.next + 1, last := a.next, history := a.history ++ [(a.next, tags)] }
  | .pin => { a with pins := a.pins ++ [a.next] }
  | .pinSent i =>
    match a.pins[i]? with
    | none => a
    | some p =>
      if firstXStamp < p ∧ a.last < p - 1 then
        { a with pins := a.pins.eraseIdx i, last := p - 1, history := a.history ++ [(p - 1, [])] }
      else { a with pins := a.pins.eraseIdx i }
  | .unpin _ => a
  | .notify => a

/-- Nothing announced, `NextXStamp` at `FirstXStamp`. -/
def start : InvalAbs := ⟨firstXStamp, xstampMinusInfinity, [], []⟩

/-- What a run announces. -/
def after (steps : List InvalStep) : InvalAbs := steps.foldl apply start

/-- The commits with tags of a run from the xstamp `x`, each at its xstamp: the commits take
`NextXStamp` in turn. -/
def commitNotices : ℕ → List InvalStep → List Notice
  | _, [] => []
  | x, .commit _ tags :: rest => (if tags = [] then [] else [(x, tags)]) ++ commitNotices (x + 1) rest
  | x, .pin :: rest => commitNotices x rest
  | x, .pinSent _ :: rest => commitNotices x rest
  | x, .unpin _ :: rest => commitNotices x rest
  | x, .notify :: rest => commitNotices x rest

/-- **What is announced is in order**: strictly increasing pins, each from `FirstXStamp` to the
last one, which is below `NextXStamp`, and every `PIN` still to announce saved under an xstamp
`NextXStamp` has not gone below. -/
structure Ordered (a : InvalAbs) : Prop where
  sorted : a.history.Pairwise fun m n ↦ m.1 < n.1
  range : ∀ n ∈ a.history, firstXStamp ≤ n.1 ∧ n.1 ≤ a.last
  last_lt : a.last < a.next
  pins_le : ∀ p ∈ a.pins, p ≤ a.next
  first_le : firstXStamp ≤ a.next

variable {a : InvalAbs}

theorem ordered_start : start.Ordered where
  sorted := List.Pairwise.nil
  range := by simp [start]
  last_lt := by decide
  pins_le := by simp [start]
  first_le := le_rfl

theorem Ordered.announce (h : a.Ordered) {x : ℕ} (tags : List (List Char)) (hlast : a.last < x)
    (hfirst : firstXStamp ≤ x) :
    (a.history ++ [(x, tags)]).Pairwise (fun m n ↦ m.1 < n.1) ∧
      ∀ n ∈ a.history ++ [(x, tags)], firstXStamp ≤ n.1 ∧ n.1 ≤ x := by
  refine ⟨List.pairwise_append.mpr ⟨h.sorted, List.pairwise_singleton _ _, ?_⟩, ?_⟩
  · intro m hm n hn
    rw [List.mem_singleton] at hn
    subst hn
    exact (h.range m hm).2.trans_lt hlast
  · intro n hn
    rcases List.mem_append.mp hn with hn | hn
    · exact ⟨(h.range n hn).1, (h.range n hn).2.trans hlast.le⟩
    · rw [List.mem_singleton] at hn
      subst hn
      exact ⟨hfirst, le_rfl⟩

theorem Ordered.apply (h : a.Ordered) : ∀ c, (a.apply c).Ordered
  | .commit _ tags => by
    have hpins : ∀ p ∈ a.pins, p ≤ a.next + 1 := fun p hp ↦ (h.pins_le p hp).trans (Nat.le_succ _)
    by_cases ht : tags = []
    · rw [InvalAbs.apply, if_pos ht]
      exact ⟨h.sorted, h.range, h.last_lt.trans (Nat.lt_succ_self _), hpins,
        h.first_le.trans (Nat.le_succ _)⟩
    · rw [InvalAbs.apply, if_neg ht]
      obtain ⟨hs, hr⟩ := h.announce tags h.last_lt h.first_le
      exact ⟨hs, hr, Nat.lt_succ_self _, hpins, h.first_le.trans (Nat.le_succ _)⟩
  | .pin => by
    refine ⟨h.sorted, h.range, h.last_lt, fun p hp ↦ ?_, h.first_le⟩
    rcases List.mem_append.mp hp with hp | hp
    · exact h.pins_le p hp
    · exact (List.mem_singleton.mp hp).le
  | .pinSent i => by
    rw [InvalAbs.apply]
    cases hp : a.pins[i]? with
    | none => exact h
    | some p =>
      have hple : p ≤ a.next := h.pins_le p (List.mem_of_getElem? hp)
      have herase : ∀ q ∈ a.pins.eraseIdx i, q ≤ a.next :=
        fun q hq ↦ h.pins_le q (List.mem_of_mem_eraseIdx hq)
      simp only []
      by_cases hc : firstXStamp < p ∧ a.last < p - 1
      · rw [if_pos hc]
        obtain ⟨hs, hr⟩ := h.announce [] hc.2 (by omega)
        exact ⟨hs, hr, show p - 1 < a.next by omega, herase, h.first_le⟩
      · rw [if_neg hc]
        exact ⟨h.sorted, h.range, h.last_lt, herase, h.first_le⟩
  | .unpin _ => h
  | .notify => h

theorem Ordered.bounds (h : a.Ordered) (hnext : a.next < xstampInfinity) {n : Notice}
    (hn : n ∈ a.history) : firstXStamp ≤ n.1 ∧ n.1 < xstampInfinity :=
  ⟨(h.range n hn).1, (h.range n hn).2.trans_lt (h.last_lt.trans hnext)⟩

theorem next_apply_commit (a : InvalAbs) (xid : ℕ) (tags : List (List Char)) :
    (a.apply (.commit xid tags)).next = a.next + 1 := by
  rw [InvalAbs.apply]
  split_ifs <;> rfl

theorem next_apply_pinSent (a : InvalAbs) (i : ℕ) : (a.apply (.pinSent i)).next = a.next := by
  rw [InvalAbs.apply]
  cases a.pins[i]? with
  | none => rfl
  | some p =>
    simp only []
    split_ifs <;> rfl

theorem next_le_apply (a : InvalAbs) : ∀ c, a.next ≤ (a.apply c).next
  | .commit xid tags => (next_apply_commit a xid tags).symm ▸ Nat.le_succ _
  | .pin => le_rfl
  | .pinSent i => (next_apply_pinSent a i).ge
  | .unpin _ => le_rfl
  | .notify => le_rfl

theorem next_le_foldl : ∀ (steps : List InvalStep) (a : InvalAbs),
    a.next ≤ (steps.foldl apply a).next
  | [], _ => le_rfl
  | c :: rest, a => (next_le_apply a c).trans (next_le_foldl rest (a.apply c))

theorem history_filter_foldl : ∀ (steps : List InvalStep) (a : InvalAbs),
    (steps.foldl apply a).history.filter (fun n ↦ n.2 ≠ []) =
      a.history.filter (fun n ↦ n.2 ≠ []) ++ commitNotices a.next steps
  | [], a => by simp [commitNotices]
  | .commit xid tags :: rest, a => by
    have hhist : (a.apply (.commit xid tags)).history.filter (fun n ↦ n.2 ≠ []) =
        a.history.filter (fun n ↦ n.2 ≠ []) ++ if tags = [] then [] else [(a.next, tags)] := by
      by_cases ht : tags = [] <;> simp [InvalAbs.apply, ht]
    rw [List.foldl_cons, history_filter_foldl rest, commitNotices, next_apply_commit, hhist,
      List.append_assoc]
  | .pin :: rest, a => by
    rw [List.foldl_cons, history_filter_foldl rest, commitNotices]
    rfl
  | .pinSent i :: rest, a => by
    rw [List.foldl_cons, history_filter_foldl rest, commitNotices]
    have hhist : (a.apply (.pinSent i)).history.filter (fun n ↦ n.2 ≠ []) =
        a.history.filter (fun n ↦ n.2 ≠ []) := by
      rw [InvalAbs.apply]
      cases a.pins[i]? with
      | none => rfl
      | some p =>
        simp only []
        split_ifs <;> simp
    rw [next_apply_pinSent, hhist]
  | .unpin _ :: rest, a => by
    rw [List.foldl_cons, history_filter_foldl rest, commitNotices]
    rfl
  | .notify :: rest, a => by
    rw [List.foldl_cons, history_filter_foldl rest, commitNotices]
    rfl

end InvalAbs

/-! ## The refinement -/

theorem pinSpecial_eq_false_of_bounds {x : ℕ} (h₁ : firstXStamp ≤ x) (h₂ : x < xstampInfinity) :
    pinSpecial x = false := by
  unfold pinSpecial pinInvalid pinNegInf pinInf
  unfold firstXStamp at h₁
  unfold xstampInfinity at h₂
  simp only [Bool.or_eq_false_iff, beq_eq_false_iff_ne, ne_eq]
  omega

namespace InvalSystem

open InvalAbs

/-- **The refinement**: the registry stands for what the run asked of it, `r`, which is at the
`NextXStamp` of `a`; the queue is at the last pin announced, and the state at the `PIN`s still to
announce; the cache nodes have received a prefix of what was announced, and the queue holds the
rows of the rest. -/
structure Refines (s : InvalSystem) (a : InvalAbs) (r : SSnapAbs) : Prop where
  registry : s.ssnap.Registry r
  next : r.next = a.next
  last : s.queue.lastInvalidation = a.last
  pins : s.pins = a.pins
  stream : ∃ pend, a.history = s.sent ++ pend ∧ s.queue.queue = pend.flatMap noticeRows

variable {s s' : InvalSystem} {a : InvalAbs} {r : SSnapAbs}

theorem Refines.nextXStamp (hR : s.Refines a r) : s.ssnap.nextXStamp = a.next :=
  hR.registry.next.trans hR.next

theorem refines_init (mem : CommitMap) : (init mem).Refines start (SSnapAbs.after []) :=
  ⟨SSnap.registry_init mem, rfl, rfl, rfl, [], rfl, rfl⟩

theorem Refines.processNotification (hR : s.Refines a r) (hO : a.Ordered)
    (hnext : a.next < xstampInfinity) :
    ∃ pend, a.history = s.sent ++ pend ∧
      processNotification s.queue.getAndClearInvalidations.2 = some pend := by
  obtain ⟨pend, hh, hq⟩ := hR.stream
  have hmem : ∀ n ∈ pend, firstXStamp ≤ n.1 ∧ n.1 < xstampInfinity :=
    fun n hn ↦ hO.bounds hnext (hh ▸ List.mem_append_right _ hn)
  have hsorted : pend.Pairwise fun m n ↦ m.1 < n.1 :=
    (List.pairwise_append.mp (hh ▸ hO.sorted)).2.1
  refine ⟨pend, hh, ?_⟩
  rw [InvalQueue.getAndClearInvalidations, hq]
  refine processNotification_rows (hsorted.imp Nat.ne_of_lt).isChain
    (fun n hn ↦ pinSpecial_eq_false_of_bounds (hmem n hn).1 (hmem n hn).2) (fun n hn ↦ ?_)
  have := (hmem n hn).2
  unfold xstampInfinity at this
  omega

theorem Refines.commit (hR : s.Refines a r) (hnext : a.next + 1 < xstampInfinity) {xid : ℕ}
    {tags : List (List Char)} (h : s.step (.commit xid tags) = some s') :
    s'.Refines (a.apply (.commit xid tags)) (registryStep r (.commit xid tags)) := by
  obtain ⟨⟨ss, x⟩, hg, hmap⟩ := Option.bind_eq_some_iff.mp h
  obtain ⟨q, hq, rfl⟩ := Option.map_eq_some_iff.mp hmap
  obtain ⟨rfl, -⟩ := SSnap.getCommitXStamp_eq_some hg
  replace hq : s.queue.atCommitInvalidate s.ssnap.nextXStamp tags = some q := hq
  have hreg : ss.Registry (r.apply (.commit xid)) :=
    hR.registry.of_call (by simpa [SSnapAbs.apply, hR.next] using hnext) (by simp [SSnap.call, hg])
  have hnext' : (registryStep r (.commit xid tags)).next = a.next + 1 := by
    simp [registryStep, SSnapAbs.apply, hR.next]
  obtain ⟨pend, hh, hqueue⟩ := hR.stream
  rcases InvalQueue.atCommitInvalidate_cases hq with ⟨rfl, rfl⟩ | ⟨hne, -, rfl⟩
  · -- no tags: only `NextXStamp` moves
    rw [InvalAbs.apply, if_pos rfl]
    exact ⟨hreg, hnext', hR.last, hR.pins, pend, hh, hqueue⟩
  · rw [InvalAbs.apply, if_neg hne]
    refine ⟨hreg, hnext', hR.nextXStamp, hR.pins, pend ++ [(a.next, tags)], ?_, ?_⟩
    · rw [hh, List.append_assoc]
    · simp only [List.flatMap_append, List.flatMap_singleton, noticeRows_of_ne_nil hne, hqueue,
        hR.nextXStamp]

theorem Refines.pin (hR : s.Refines a r) (hnext : a.next < xstampInfinity)
    (h : s.step .pin = some s') : s'.Refines (a.apply .pin) (registryStep r .pin) := by
  obtain ⟨⟨ss, id⟩, hsv, rfl⟩ := Option.map_eq_some_iff.mp h
  obtain ⟨rfl, -⟩ := SSnap.saveSnapshot_eq_some hsv
  have hreg : ss.Registry (r.apply (.save false)) :=
    hR.registry.of_call (by simpa [SSnapAbs.apply, hR.next] using hnext) (by simp [SSnap.call, hsv])
  exact ⟨hreg, hR.next, hR.last, by rw [InvalAbs.apply, hR.pins, hR.nextXStamp], hR.stream⟩

theorem Refines.pinSent (hR : s.Refines a r) {i : ℕ} (h : s.step (.pinSent i) = some s') :
    s'.Refines (a.apply (.pinSent i)) (registryStep r (.pinSent i)) := by
  obtain ⟨p, hp, hmap⟩ := Option.bind_eq_some_iff.mp h
  obtain ⟨q, hq, rfl⟩ := Option.map_eq_some_iff.mp hmap
  obtain ⟨pend, hh, hqueue⟩ := hR.stream
  have hpins : s.pins.eraseIdx i = a.pins.eraseIdx i := by rw [hR.pins]
  have hp' : a.pins[i]? = some p := hR.pins ▸ hp
  rw [InvalAbs.apply, hp']
  simp only []
  by_cases hgt : p > firstXStamp
  · rw [if_pos hgt] at hq
    rcases InvalQueue.sendNullInvalidation_cases hq with ⟨hle, rfl⟩ | ⟨hlt, rfl⟩
    · -- not later than the last pin announced: dropped
      rw [if_neg (fun hc ↦ by rw [← hR.last] at hc; omega)]
      exact ⟨hR.registry, hR.next, hR.last, hpins, pend, hh, hqueue⟩
    · rw [if_pos ⟨hgt, hR.last ▸ hlt⟩]
      refine ⟨hR.registry, hR.next, rfl, hpins, pend ++ [(p - 1, [])], ?_, ?_⟩
      · rw [hh, List.append_assoc]
      · rw [List.flatMap_append, List.flatMap_singleton, noticeRows_null, hqueue]
  · rw [if_neg hgt] at hq
    cases hq
    rw [if_neg (fun hc ↦ hgt hc.1)]
    exact ⟨hR.registry, hR.next, hR.last, hpins, pend, hh, hqueue⟩

theorem Refines.unpin (hR : s.Refines a r) (hnext : a.next < xstampInfinity) {id : ℕ}
    (h : s.step (.unpin id) = some s') :
    s'.Refines (a.apply (.unpin id)) (registryStep r (.unpin id)) := by
  obtain ⟨⟨ss, found⟩, hrm, rfl⟩ := Option.map_eq_some_iff.mp h
  have hreg : ss.Registry (r.apply (.remove id)) :=
    hR.registry.of_call (by simpa [SSnapAbs.apply, hR.next] using hnext) (by simp [SSnap.call, hrm])
  exact ⟨hreg, hR.next, hR.last, hR.pins, hR.stream⟩

theorem Refines.notify (hR : s.Refines a r) (hO : a.Ordered) (hnext : a.next < xstampInfinity)
    (h : s.step .notify = some s') : s'.Refines (a.apply .notify) (registryStep r .notify) := by
  obtain ⟨pend, hh, hproc⟩ := hR.processNotification hO hnext
  rw [step, hproc, Option.map_some] at h
  cases h
  exact ⟨hR.registry, hR.next, hR.last, hR.pins, [],
    by rw [InvalAbs.apply, hh, List.append_nil], rfl⟩

/-- **One step keeps the refinement**, while `NextXStamp` stays below `XStampInfinity`. -/
theorem Refines.step (hR : s.Refines a r) (hO : a.Ordered) {c : InvalStep}
    (hnext : (a.apply c).next < xstampInfinity) (h : s.step c = some s') :
    s'.Refines (a.apply c) (registryStep r c) := by
  cases c with
  | commit xid tags => exact hR.commit (next_apply_commit a xid tags ▸ hnext) h
  | pin => exact hR.pin hnext h
  | pinSent i => exact hR.pinSent h
  | unpin id => exact hR.unpin hnext h
  | notify => exact hR.notify hO hnext h

/-- **A run keeps the refinement**, and what it announces is in order. -/
theorem Refines.runSteps :
    ∀ (steps : List InvalStep) {s s' : InvalSystem} {a : InvalAbs} {r : SSnapAbs},
    s.Refines a r → a.Ordered → (steps.foldl InvalAbs.apply a).next < xstampInfinity →
      s.runSteps steps = some s' →
        s'.Refines (steps.foldl InvalAbs.apply a) (steps.foldl registryStep r) ∧
          (steps.foldl InvalAbs.apply a).Ordered
  | [], _, _, _, _, hR, hO, _, h => by
    cases h
    exact ⟨hR, hO⟩
  | c :: rest, s, s', a, r, hR, hO, hnext, h => by
    rw [InvalSystem.runSteps, List.foldlM_cons] at h
    obtain ⟨s₁, h₁, hrest⟩ := Option.bind_eq_some_iff.mp h
    have hnext₁ : (a.apply c).next < xstampInfinity :=
      (next_le_foldl rest (a.apply c)).trans_lt hnext
    exact Refines.runSteps rest (hR.step hO hnext₁ h₁) (hO.apply c) hnext hrest

variable {mem : CommitMap} {steps : List InvalStep}

theorem refines_after (hrun : (init mem).runSteps steps = some s)
    (hnext : (after steps).next < xstampInfinity) :
    s.Refines (after steps) (registryAfter steps) ∧ (after steps).Ordered :=
  Refines.runSteps steps (refines_init mem) ordered_start hnext hrun

theorem Refines.sent_ordered (hR : s.Refines a r) (hO : a.Ordered)
    (hnext : a.next < xstampInfinity) :
    s.sent.Pairwise (fun m n ↦ m.1 < n.1) ∧
      ∀ n ∈ s.sent, firstXStamp ≤ n.1 ∧ pinSpecial n.1 = false := by
  obtain ⟨pend, hh, -⟩ := hR.stream
  refine ⟨(List.pairwise_append.mp (hh ▸ hO.sorted)).1, fun n hn ↦ ?_⟩
  have hr := hO.bounds hnext (hh ▸ List.mem_append_left _ hn)
  exact ⟨hr.1, pinSpecial_eq_false_of_bounds hr.1 hr.2⟩

theorem Refines.commitNotices_eq (hR : s.Refines a r) (ha : a = after steps) :
    ∃ pend : List Notice, commitNotices firstXStamp steps =
      s.sent.filter (fun n ↦ n.2 ≠ []) ++ pend.filter (fun n ↦ n.2 ≠ []) ∧
        s.queue.queue = pend.flatMap noticeRows := by
  obtain ⟨pend, hh, hq⟩ := hR.stream
  refine ⟨pend, ?_, hq⟩
  have hfilter := history_filter_foldl steps start
  rw [← after, ← ha, hh, List.filter_append] at hfilter
  rw [hfilter]
  rfl

/-! ## The invalidation stream -/

/-- **The stream of invalidations is in order.** In every interleaving of commits, `PIN`s, their
null invalidations, `UNPIN`s and notifications of `invald` from the start, while `NextXStamp`
stays below `XStampInfinity`: the notices every cache node has received carry strictly
increasing real pins from `FirstXStamp` on, and are the notices announced but for the last few,
whose rows the queue holds. -/
theorem runSteps_sent_ordered (hrun : (init mem).runSteps steps = some s)
    (hnext : (after steps).next < xstampInfinity) :
    s.sent.Pairwise (fun m n ↦ m.1 < n.1) ∧
      (∀ n ∈ s.sent, firstXStamp ≤ n.1 ∧ pinSpecial n.1 = false) ∧
      ∃ pend, (after steps).history = s.sent ++ pend ∧ s.queue.queue = pend.flatMap noticeRows := by
  obtain ⟨hR, hO⟩ := refines_after hrun hnext
  obtain ⟨hsorted, hpins⟩ := hR.sent_ordered hO hnext
  exact ⟨hsorted, hpins, hR.stream⟩

/-- The commit map untouched by a run: no commit while a snapshot is saved, and no `UNPIN` of
the earliest snapshot. -/
def sampleMem : CommitMap :=
  ⟨fun _ ↦ ⟨0, 0, none, none, none, none⟩, fun _ ↦ ⟨none, none⟩, none, none, none⟩

/-- A commit with a tag, one without, a `PIN` and its null invalidation, then `invald`. -/
def sampleSteps : List InvalStep :=
  [.commit 8 [['1', 'f', ':']], .commit 7 [], .pin, .pinSent 0, .notify]

theorem sampleSteps_runs : ((init sampleMem).runSteps sampleSteps).isSome = true := by decide

theorem sampleSteps_sent_ordered :
    ∃ s, (init sampleMem).runSteps sampleSteps = some s ∧
      s.sent.Pairwise (fun m n ↦ m.1 < n.1) ∧
      (∀ n ∈ s.sent, firstXStamp ≤ n.1 ∧ pinSpecial n.1 = false) ∧
      ∃ pend, (after sampleSteps).history = s.sent ++ pend ∧
        s.queue.queue = pend.flatMap noticeRows :=
  have hrun := Option.eq_some_of_isSome sampleSteps_runs
  ⟨_, hrun, runSteps_sent_ordered hrun (by decide)⟩

/-- **No `Assert` on the path fails.** From every state an interleaving reaches while
`NextXStamp` stays below `XStampInfinity`, a step fails only when it finds no room: a commit an
entry of the commit map beyond the commits some saved snapshot cannot see, or room in the queue
for its tags; a `PIN` room in the table of saved snapshots; a null invalidation its `PIN`, or room
in the queue. An `UNPIN` never fails; neither do the `Assert` of `CommitMapAddEntry` that a commit
is later than those the map holds, that of `AtCommit_Invalidate` that it is later than the last
invalidation, nor those of `invald` that every pin is a real one and a null invalidation is alone
under its pin. -/
theorem runSteps_step_isSome (hrun : (init mem).runSteps steps = some s)
    (hnext : (after steps).next < xstampInfinity) {c : InvalStep}
    (hroom : s.hasRoom (registryAfter steps) c = true) : (s.step c).isSome := by
  obtain ⟨hR, hO⟩ := refines_after hrun hnext
  have hnext' : (registryAfter steps).next < xstampInfinity := hR.next ▸ hnext
  cases c with
  | commit xid tags =>
    simp only [hasRoom, Bool.and_eq_true, decide_eq_true_eq] at hroom
    have hsome : (s.ssnap.getCommitXStamp xid).isSome := by
      simpa [SSnap.call] using hR.registry.commit_isSome hroom.1 xid
    obtain ⟨⟨ss, x⟩, hg⟩ := Option.isSome_iff_exists.mp hsome
    obtain ⟨rfl, -⟩ := SSnap.getCommitXStamp_eq_some hg
    have hlt : s.queue.lastInvalidation < s.ssnap.nextXStamp := by
      rw [hR.last, hR.nextXStamp]
      exact hO.last_lt
    by_cases ht : tags = []
    · subst ht
      simp [step, hg, InvalQueue.atCommitInvalidate_nil]
    · simp [step, hg, InvalQueue.atCommitInvalidate_eq ht hlt hroom.2]
  | pin =>
    have hlen : (registryAfter steps).saved.length < maxSavedSnapshots := by
      simpa [hasRoom, hR.registry.saved] using hroom
    obtain ⟨ss, hcall, -⟩ := hR.registry.save hnext' fun _ ↦ hlen
    simpa [step, SSnap.call] using congrArg Option.isSome hcall
  | pinSent i =>
    simp only [hasRoom, decide_eq_true_eq] at hroom
    rw [step, List.getElem?_eq_getElem hroom.1, Option.bind_some]
    split_ifs
    · by_cases hle : s.pins[i] - 1 ≤ s.queue.lastInvalidation
      · simp [InvalQueue.sendNullInvalidation_of_le hle]
      · simp [InvalQueue.sendNullInvalidation_eq (Nat.lt_of_not_le hle) hroom.2]
    · rfl
  | unpin id =>
    obtain ⟨ss, hcall, -⟩ := hR.registry.remove hnext' id
    simpa [step, SSnap.call] using congrArg Option.isSome hcall
  | notify =>
    obtain ⟨pend, -, hproc⟩ := hR.processNotification hO hnext
    simp [step, hproc]

theorem sampleSteps_step_isSome :
    ∃ s, (init sampleMem).runSteps [.commit 8 [['1', 'f', ':']], .commit 7 [], .pin] = some s ∧
      s.hasRoom (registryAfter [.commit 8 [['1', 'f', ':']], .commit 7 [], .pin])
        (.commit 9 [['2', ':']]) = true ∧
      (s.step (.commit 9 [['2', ':']])).isSome :=
  have hrun := Option.eq_some_of_isSome
    (by decide : ((init sampleMem).runSteps [.commit 8 [['1', 'f', ':']], .commit 7 [], .pin]).isSome)
  ⟨_, hrun, by decide, runSteps_step_isSome hrun (by decide) (by decide)⟩

theorem receiveInvalidations_isSome : ∀ (ns : List Notice) (times : List ℤ) (st : Store),
    ns.Pairwise (fun m n ↦ m.1 < n.1) →
    (∀ n ∈ ns, pinSpecial n.1 = false ∧ st.lastInvalTime < n.1 ∧ ∀ t ∈ n.2, t.getLast? = some ':') →
      (st.receiveInvalidations (ns.zip times)).isSome
  | [], _, _, _, _ => rfl
  | _ :: _, [], _, _, _ => rfl
  | n :: ns, t :: times, st, hsorted, hns => by
    obtain ⟨hspecial, hlt, htags⟩ := hns n List.mem_cons_self
    obtain ⟨st', hinv, hclock⟩ : ∃ st', st.invalidate n.1 n.2 t = some st' ∧ st'.lastInvalTime = n.1 :=
      Store.invalidate_eq_some_of_provisos hspecial hlt htags
    rw [List.zip_cons_cons, Store.receiveInvalidations, List.foldlM_cons, hinv]
    simp only [Option.bind_eq_bind, Option.bind_some]
    refine receiveInvalidations_isSome ns times st' (List.pairwise_cons.mp hsorted).2
      fun m hm ↦ ⟨(hns m (List.mem_cons_of_mem _ hm)).1, ?_, (hns m (List.mem_cons_of_mem _ hm)).2.2⟩
    rw [hclock]
    exact (List.pairwise_cons.mp hsorted).1 m hm

/-- **A cache node never fails on the stream.** In every interleaving from the start, while
`NextXStamp` stays below `XStampInfinity` and every commit's tags end in `':'`: a cache node whose
clock starts below `FirstXStamp`, as `Store_Init` leaves it, that receives the notices `invald`
has sent, in order and at any times, goes through every `Store_Invalidate` of them. -/
theorem runSteps_receiveInvalidations_isSome (hrun : (init mem).runSteps steps = some s)
    (hnext : (after steps).next < xstampInfinity)
    (htags : ∀ n ∈ commitNotices firstXStamp steps, ∀ t ∈ n.2, t.getLast? = some ':')
    {st : Store} (hst : st.lastInvalTime < firstXStamp) (times : List ℤ) :
    (st.receiveInvalidations (s.sent.zip times)).isSome := by
  obtain ⟨hR, hO⟩ := refines_after hrun hnext
  obtain ⟨hsorted, hpins⟩ := hR.sent_ordered hO hnext
  obtain ⟨pend, hcommits, -⟩ := hR.commitNotices_eq rfl
  refine receiveInvalidations_isSome s.sent times st hsorted fun n hn ↦
    ⟨(hpins n hn).2, hst.trans_le (hpins n hn).1, fun t ht ↦ ?_⟩
  have hmem : n ∈ commitNotices firstXStamp steps := by
    rw [hcommits]
    exact List.mem_append_left _ (List.mem_filter.mpr ⟨hn, by simpa using List.ne_nil_of_mem ht⟩)
  exact htags n hmem t ht

theorem sampleSteps_receiveInvalidations_isSome :
    ∃ s, (init sampleMem).runSteps sampleSteps = some s ∧
      ((Store.init ⟨8, 8, 8, 8⟩ 0 0).receiveInvalidations (s.sent.zip [0, 1])).isSome :=
  have hrun := Option.eq_some_of_isSome sampleSteps_runs
  ⟨_, hrun, runSteps_receiveInvalidations_isSome hrun (by decide) (by decide) (by decide) [0, 1]⟩

/-- **Every commit's invalidation is delivered once, in order.** In every interleaving from the
start, while `NextXStamp` stays below `XStampInfinity`: the notices with tags that every cache
node has received are the first of the commits with tags, in the order they committed, each
under its xstamp, which is `FirstXStamp` and the number of commits before it; none is lost,
repeated, merged with another or split, and once the queue is empty all of them are there. -/
theorem runSteps_delivers_commits (hrun : (init mem).runSteps steps = some s)
    (hnext : (after steps).next < xstampInfinity) :
    s.sent.filter (fun n ↦ n.2 ≠ []) <+: commitNotices firstXStamp steps ∧
      (s.queue.queue = [] → s.sent.filter (fun n ↦ n.2 ≠ []) = commitNotices firstXStamp steps) := by
  obtain ⟨hR, -⟩ := refines_after hrun hnext
  obtain ⟨pend, hcommits, hq⟩ := hR.commitNotices_eq rfl
  refine ⟨hcommits ▸ List.prefix_append _ _, fun hempty ↦ ?_⟩
  have hpend : pend = [] := by
    rw [hempty, eq_comm, List.flatMap_eq_nil_iff] at hq
    exact List.eq_nil_iff_forall_not_mem.mpr fun n hn ↦ noticeRows_ne_nil n (hq n hn)
  rw [hcommits, hpend, List.filter_nil, List.append_nil]

theorem sampleSteps_delivers_commits :
    ∃ s, (init sampleMem).runSteps sampleSteps = some s ∧
      s.sent.filter (fun n ↦ n.2 ≠ []) <+: commitNotices firstXStamp sampleSteps ∧
      (s.queue.queue = [] → s.sent.filter (fun n ↦ n.2 ≠ []) = commitNotices firstXStamp sampleSteps) :=
  have hrun := Option.eq_some_of_isSome sampleSteps_runs
  ⟨_, hrun, runSteps_delivers_commits hrun (by decide)⟩

end InvalSystem

end TxCache
