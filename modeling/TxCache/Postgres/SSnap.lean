import TxCache.Postgres.CommitMapLayout

/-!
# The saved-snapshot registry of `ssnap.c`

`ssnap.c` gives out xstamps. `GetCommitXStamp` stamps each committing write transaction with
`NextXStamp` and moves it on; `SaveSnapshot` saves the snapshot of a transaction under the id
`NextXStamp`, so that a saved snapshot `s` sees exactly the transactions with xstamps below `s`.
Beside the table of saved snapshots the shared memory keeps `LastSSnapXStamp`, the id saved last,
which lets a second pin at the same `NextXStamp` share the first one's snapshot, and
`EarliestSSnapXStamp`, the least saved id. The commit map then only needs the commits no older than
that: `GetCommitXStamp` adds a commit to it only while a snapshot is saved, and
`RemoveSavedSnapshot` of the earliest snapshot rescans the table for the next one and expires the
commit map up to it.

## The model

`SSnap` is the shared state: the three `XStamp`s, the keys of `SSnapHash` and `TheCommitMap`.
The snapshot data a saved entry holds (`xmin`, `xmax`, the `xip` arrays) is PostgreSQL's and read
only by `GetSavedSnapshot`; it is left out, and so are the time stamp `SaveSnapshot` reads and
the invalidation `GetCommitXStamp` sends. `PrepareCommitXStamp` takes the lock that
`GetCommitXStamp` releases, so the two are one call here.

## What it is for

`SSnapAbs` keeps what the calls have asked for: the ids saved, the next xstamp and the commits
with their xstamps. `Registry s a` says the shared state `s` stands for `a`: `EarliestSSnapXStamp`
is the least saved id, `LastSSnapXStamp` a saved one, and the commit map holds, laid out as
`CommitMap.Layout` says, exactly the commits no older than the earliest saved snapshot. Every run
of calls from `SSnapInit` keeps it, and from it `XidToXStamp` answers for every commit that some
saved snapshot cannot see.
-/

namespace TxCache

/-! ## The model -/

/-- `MAX_SAVED_SNAPSHOTS`: the size of `SSnapHash`. -/
def maxSavedSnapshots : ℕ := 1024

/-- `FirstXStamp`, the first xstamp handed out. -/
def firstXStamp : ℕ := 2

/-- `XStampInfinity`, `(XStamp) -1` of the 32-bit `XStamp`. -/
def xstampInfinity : ℕ := 2 ^ 32 - 1

/-- The shared state of `ssnap.c`: `SSnapSharedData`, the keys of `SSnapHash` in the order they
were entered, and `TheCommitMap`. -/
structure SSnap where
  nextXStamp : ℕ
  lastSSnapXStamp : ℕ
  earliestSSnapXStamp : ℕ
  saved : List ℕ
  commitMap : CommitMap

namespace SSnap

/-- `SSnapInit` when the shared memory is new: `NextXStamp` at `FirstXStamp`, no snapshot saved,
and the commit map initialised by `CommitMapShmemAlloc` over the memory as it was. -/
def init (mem : CommitMap) : SSnap :=
  ⟨firstXStamp, invalidXStamp, invalidXStamp, [], CommitMap.init mem⟩

/-- `SaveSnapshot` from a transaction that has not snapshotted yet: the id is `NextXStamp`. An id
saved last is shared; otherwise it becomes `LastSSnapXStamp`, and `EarliestSSnapXStamp` when none
is saved, and `hash_search(HASH_ENTER)` finds it in the table or enters it. `none` when the table
is full. -/
def saveSnapshot (s : SSnap) : Option (SSnap × ℕ) :=
  let ssnapId := s.nextXStamp
  if ssnapId = s.lastSSnapXStamp then some (s, ssnapId)
  else
    let s := { s with
      lastSSnapXStamp := ssnapId
      earliestSSnapXStamp :=
        if s.earliestSSnapXStamp ≠ invalidXStamp then s.earliestSSnapXStamp else ssnapId }
    if ssnapId ∈ s.saved then some (s, ssnapId)
    else if s.saved.length < maxSavedSnapshots then
      some ({ s with saved := s.saved ++ [ssnapId] }, ssnapId)
    else none

/-- The scan of `RemoveSavedSnapshot` for the least tag of the table, from `XStampInfinity`. -/
def leastTag (saved : List ℕ) : ℕ :=
  saved.foldl (fun e tag ↦ if tag < e then tag else e) xstampInfinity

/-- `RemoveSavedSnapshot(id)`: the entry is removed if there is one, and `LastSSnapXStamp` is
cleared if it was the id. When the id was the earliest, the table is scanned for the least tag
left, the commit map expired up to it, and `EarliestSSnapXStamp` set to it, or cleared when the
table is empty. Returns whether an entry was found. -/
def removeSavedSnapshot (s : SSnap) (id : ℕ) : Option (SSnap × Bool) :=
  let found := id ∈ s.saved
  let s := { s with saved := s.saved.erase id }
  let s := if s.lastSSnapXStamp = id then { s with lastSSnapXStamp := invalidXStamp } else s
  if s.earliestSSnapXStamp = id then
    let earliest := leastTag s.saved
    (s.commitMap.expire earliest).map fun cm ↦
      ({ s with
        commitMap := cm
        earliestSSnapXStamp := if earliest = xstampInfinity then invalidXStamp else earliest },
        found)
  else some (s, found)

/-- `PrepareCommitXStamp` then `GetCommitXStamp(xid)`: the xstamp is `NextXStamp`, which moves on
by one as a 32-bit `XStamp`, and the commit goes in the commit map while a snapshot is saved. -/
def getCommitXStamp (s : SSnap) (xid : ℕ) : Option (SSnap × ℕ) :=
  let xstamp := s.nextXStamp
  let s := { s with nextXStamp := (s.nextXStamp + 1) % 2 ^ 32 }
  if s.earliestSSnapXStamp ≠ invalidXStamp then
    (s.commitMap.add xid xstamp).map fun cm ↦ ({ s with commitMap := cm }, xstamp)
  else some (s, xstamp)

/-- `XidToXStamp`. -/
def xidToXStamp (s : SSnap) (xid : ℕ) : Option ℕ := s.commitMap.lookup xid

/-- `XidIsInvisibleToSomeSavedSnapshot`: whether the commit map knows the xid. -/
def xidIsInvisibleToSomeSavedSnapshot (s : SSnap) (xid : ℕ) : Option Bool :=
  (s.commitMap.lookup xid).map fun x ↦ x != invalidXStamp

end SSnap

/-- A call on the registry. -/
inductive SSnapCall
  /-- `SaveSnapshot` (`PIN`), from a transaction that has or has not snapshotted already. -/
  | save (snapshotted : Bool)
  /-- `RemoveSavedSnapshot` (`UNPIN`). -/
  | remove (id : ℕ)
  /-- The commit of a write transaction: `PrepareCommitXStamp`, then `GetCommitXStamp`. -/
  | commit (xid : ℕ)
deriving DecidableEq, Repr

namespace SSnap

/-- One call. `SaveSnapshot` from a transaction that has snapshotted raises its `ERROR` before it
writes anything. -/
def call (s : SSnap) : SSnapCall → Option SSnap
  | .save true => some s
  | .save false => s.saveSnapshot.map Prod.fst
  | .remove id => (s.removeSavedSnapshot id).map Prod.fst
  | .commit xid => (s.getCommitXStamp xid).map Prod.fst

/-- A run of calls, one after another. -/
def runCalls (s : SSnap) (cs : List SSnapCall) : Option SSnap := cs.foldlM call s

end SSnap

/-! ## What the registry is for -/

/-- The ids saved, in the order they were saved, the next xstamp, and the commits with their
xstamps, oldest first. -/
structure SSnapAbs where
  next : ℕ
  saved : List ℕ
  commits : List (ℕ × ℕ)

namespace SSnapAbs

/-- What a call asks of the registry. -/
def apply (a : SSnapAbs) : SSnapCall → SSnapAbs
  | .save true => a
  | .save false => { a with saved := if a.next ∈ a.saved then a.saved else a.saved ++ [a.next] }
  | .remove id => { a with saved := a.saved.erase id }
  | .commit xid => { a with next := a.next + 1, commits := a.commits ++ [(xid, a.next)] }

/-- What a run of calls asks, from nothing saved and `NextXStamp` at `FirstXStamp`. -/
def after (cs : List SSnapCall) : SSnapAbs := cs.foldl apply ⟨firstXStamp, [], []⟩

/-- The commits the commit map must hold: those no older than some saved snapshot. -/
def liveCommits (a : SSnapAbs) : List (ℕ × ℕ) :=
  a.commits.filter fun p ↦ ∃ id ∈ a.saved, id ≤ p.2

end SSnapAbs

/-! ## The least tag -/

namespace SSnap

theorem leastTag_step_le (e tag : ℕ) : (if tag < e then tag else e) ≤ e ∧
    (if tag < e then tag else e) ≤ tag := by
  split_ifs with h <;> omega

theorem foldl_leastTag_le (l : List ℕ) (e : ℕ) :
    l.foldl (fun e tag ↦ if tag < e then tag else e) e ≤ e ∧
      ∀ id ∈ l, l.foldl (fun e tag ↦ if tag < e then tag else e) e ≤ id := by
  induction l generalizing e with
  | nil => simp
  | cons tag l ih =>
    obtain ⟨hle, hid⟩ := ih (if tag < e then tag else e)
    have hstep := leastTag_step_le e tag
    refine ⟨hle.trans hstep.1, fun id hmem ↦ ?_⟩
    rcases List.mem_cons.mp hmem with rfl | hmem
    · exact hle.trans hstep.2
    · exact hid id hmem

theorem foldl_leastTag_mem (l : List ℕ) (e : ℕ) :
    l.foldl (fun e tag ↦ if tag < e then tag else e) e = e ∨
      l.foldl (fun e tag ↦ if tag < e then tag else e) e ∈ l := by
  induction l generalizing e with
  | nil => simp
  | cons tag l ih =>
    rcases ih (if tag < e then tag else e) with h | h
    · rw [List.foldl_cons, h]
      split_ifs
      · exact .inr (List.mem_cons_self ..)
      · exact .inl rfl
    · exact .inr (List.mem_cons_of_mem tag h)

@[simp]
theorem leastTag_nil : leastTag [] = xstampInfinity := rfl

theorem leastTag_le {l : List ℕ} {id : ℕ} (h : id ∈ l) : leastTag l ≤ id :=
  (foldl_leastTag_le l xstampInfinity).2 id h

theorem leastTag_mem {l : List ℕ} (hl : ∀ id ∈ l, id < xstampInfinity) (hne : l ≠ []) :
    leastTag l ∈ l := by
  rcases foldl_leastTag_mem l xstampInfinity with h | h
  · obtain ⟨id, hid⟩ := List.exists_mem_of_ne_nil l hne
    have := leastTag_le hid
    unfold leastTag at this
    rw [h] at this
    exact absurd (hl id hid) (Nat.not_lt.mpr this)
  · exact h

theorem exists_le_iff_leastTag_le {l : List ℕ} {x : ℕ} (hl : ∀ id ∈ l, id < xstampInfinity)
    (hx : x < xstampInfinity) : (∃ id ∈ l, id ≤ x) ↔ leastTag l ≤ x := by
  constructor
  · rintro ⟨id, hid, hle⟩
    exact (leastTag_le hid).trans hle
  · intro h
    by_cases hne : l = []
    · subst hne
      exact absurd h (by simpa using hx)
    · exact ⟨leastTag l, leastTag_mem hl hne, h⟩

theorem leastTag_erase_of_ne {l : List ℕ} {id : ℕ} (hl : ∀ id ∈ l, id < xstampInfinity)
    (h : leastTag l ≠ id) : leastTag (l.erase id) = leastTag l := by
  by_cases hne : l = []
  · subst hne
    rfl
  have hmem : leastTag l ∈ l.erase id := List.mem_erase_of_ne h |>.mpr (leastTag_mem hl hne)
  have hsub : ∀ t ∈ l.erase id, t ∈ l := fun t ht ↦ List.mem_of_mem_erase ht
  have hle : leastTag (l.erase id) ≤ leastTag l := leastTag_le hmem
  have hge : leastTag l ≤ leastTag (l.erase id) :=
    leastTag_le (hsub _ (leastTag_mem (fun t ht ↦ hl t (hsub t ht)) (List.ne_nil_of_mem hmem)))
  omega

theorem leastTag_concat_of_le {l : List ℕ} {x : ℕ} (h : leastTag l ≤ x) :
    leastTag (l ++ [x]) = leastTag l := by
  unfold leastTag at h ⊢
  rw [List.foldl_append, List.foldl_cons, List.foldl_nil, if_neg (Nat.not_lt.mpr h)]

end SSnap

/-! ## The abstract run -/

namespace SSnapAbs

theorem after_concat (cs : List SSnapCall) (c : SSnapCall) :
    after (cs ++ [c]) = (after cs).apply c := List.foldl_concat _ _ _ _

theorem next_le_apply (a : SSnapAbs) (c : SSnapCall) : a.next ≤ (a.apply c).next := by
  cases c with
  | save b => cases b <;> simp [apply]
  | remove id => simp [apply]
  | commit xid => simp [apply]

theorem next_le_after_append (cs ds : List SSnapCall) :
    (after cs).next ≤ (after (cs ++ ds)).next := by
  induction ds using List.reverseRecOn with
  | nil => simp
  | append_singleton ds d ih =>
    rw [← List.append_assoc, after_concat]
    exact ih.trans (next_le_apply _ d)

theorem length_commits_after_le (cs : List SSnapCall) : (after cs).commits.length ≤ cs.length := by
  induction cs using List.reverseRecOn with
  | nil => simp [after]
  | append_singleton cs c ih =>
    rw [after_concat]
    cases c with
    | save b => cases b <;> simp [apply] <;> omega
    | remove id => simp [apply]; omega
    | commit xid => simp [apply]; omega

theorem length_saved_after_le (cs : List SSnapCall) : (after cs).saved.length ≤ cs.length := by
  induction cs using List.reverseRecOn with
  | nil => simp [after]
  | append_singleton cs c ih =>
    rw [after_concat]
    cases c with
    | save b =>
      cases b
      · simp only [apply]
        split_ifs <;> simp <;> omega
      · simp [apply]; omega
    | remove id =>
      have := List.length_erase_le (a := id) (l := (after cs).saved)
      simp [apply]; omega
    | commit xid => simp [apply]; omega

end SSnapAbs

/-! ## The invariant -/

namespace SSnap

open SSnapAbs

/-- **The registry invariant**: the shared state `s` stands for what the calls asked, `a`. -/
structure Registry (s : SSnap) (a : SSnapAbs) : Prop where
  /-- `NextXStamp` is the next xstamp. -/
  next : s.nextXStamp = a.next
  /-- The table holds the ids saved. -/
  saved : s.saved = a.saved
  /-- Each id once. -/
  nodup : a.saved.Nodup
  /-- `NextXStamp` never goes below `FirstXStamp`. -/
  nextGe : firstXStamp ≤ a.next
  /-- The ids saved are valid xstamps given out so far. -/
  savedRange : ∀ id ∈ a.saved, firstXStamp ≤ id ∧ id ≤ a.next
  /-- The commits so far are older than `NextXStamp`. -/
  commitsBelow : ∀ p ∈ a.commits, p.2 < a.next
  /-- `EarliestSSnapXStamp` is the least id saved, or `InvalidXStamp` when none is. -/
  earliest : s.earliestSSnapXStamp = if a.saved = [] then invalidXStamp else leastTag a.saved
  /-- `LastSSnapXStamp`, when valid, is saved. -/
  last : s.lastSSnapXStamp ≠ invalidXStamp → s.lastSSnapXStamp ∈ a.saved
  /-- The commit map is laid out over the commits that some saved snapshot cannot see. -/
  commitMap : ∃ live free, s.commitMap.Layout live free ∧ s.commitMap.pairs live = a.liveCommits

variable {s : SSnap} {a : SSnapAbs}

@[simp]
theorem commitMap_init (mem : CommitMap) : (init mem).commitMap = CommitMap.init mem := by
  simp only [init]

theorem registry_init (mem : CommitMap) : (init mem).Registry (after []) where
  next := rfl
  saved := rfl
  nodup := List.nodup_nil
  nextGe := le_rfl
  savedRange := by simp [after]
  commitsBelow := by simp [after]
  earliest := rfl
  last h := absurd rfl h
  commitMap := by
    rw [commitMap_init]
    exact ⟨[], _, CommitMap.layout_init mem, by simp [CommitMap.pairs, liveCommits, after]⟩

theorem Registry.lt_infinity (hR : s.Registry a) (hnext : a.next < xstampInfinity) :
    ∀ id ∈ a.saved, id < xstampInfinity :=
  fun id hid ↦ (hR.savedRange id hid).2.trans_lt hnext

theorem Registry.next_ne_invalid (hR : s.Registry a) : s.nextXStamp ≠ invalidXStamp := by
  have := hR.nextGe
  rw [hR.next]
  unfold firstXStamp at this
  unfold invalidXStamp
  omega

theorem Registry.earliest_ne (hR : s.Registry a) (hnext : a.next < xstampInfinity)
    (hne : a.saved ≠ []) : s.earliestSSnapXStamp ≠ invalidXStamp := by
  rw [hR.earliest, if_neg hne]
  have := (hR.savedRange _ (leastTag_mem (hR.lt_infinity hnext) hne)).1
  unfold firstXStamp at this
  unfold invalidXStamp
  omega

/-! ### `SaveSnapshot` -/

/-- **`SaveSnapshot`** keeps the registry while the table has room: the id saved last is shared,
an id in the table is found, and a new one is entered after all the others. -/
theorem Registry.save (hR : s.Registry a) (hnext : a.next < xstampInfinity)
    (hlen : a.next ∉ a.saved → a.saved.length < maxSavedSnapshots) :
    ∃ s', s.call (.save false) = some s' ∧ s'.Registry (a.apply (.save false)) := by
  by_cases hl : s.nextXStamp = s.lastSSnapXStamp
  · -- the id saved last: its snapshot is shared and nothing changes
    have hmem : a.next ∈ a.saved := by
      rw [← hR.next, hl]
      exact hR.last (hl ▸ hR.next_ne_invalid)
    refine ⟨s, by simp [call, saveSnapshot, hl], ?_⟩
    simpa [apply, hmem] using hR
  by_cases hm : a.next ∈ a.saved
  · -- found in the table: it becomes the id saved last, and the earliest one stays
    have hne : a.saved ≠ [] := List.ne_nil_of_mem hm
    have he := hR.earliest_ne hnext hne
    have hm' : s.nextXStamp ∈ s.saved := by rwa [hR.saved, hR.next]
    have hR' : Registry { s with lastSSnapXStamp := s.nextXStamp } a :=
      { hR with last := fun _ ↦ hR.next ▸ hm }
    refine ⟨{ s with lastSSnapXStamp := s.nextXStamp }, ?_, by simpa [apply, hm] using hR'⟩
    simp [call, saveSnapshot, hl, hm', he]
  · -- entered after all the others: the earliest one stays, or it is the first
    have hlen' : s.saved.length < maxSavedSnapshots := hR.saved ▸ hlen hm
    have hm' : s.nextXStamp ∉ s.saved := by rwa [hR.saved, hR.next]
    refine ⟨{ s with
        lastSSnapXStamp := s.nextXStamp
        earliestSSnapXStamp :=
          if s.earliestSSnapXStamp ≠ invalidXStamp then s.earliestSSnapXStamp else s.nextXStamp
        saved := s.saved ++ [s.nextXStamp] }, ?_, ?_⟩
    · simp [call, saveSnapshot, hl, hm', hlen']
    simp only [apply, if_neg hm]
    refine
      { next := hR.next
        saved := by simp [hR.saved, hR.next]
        nodup := ?_
        nextGe := hR.nextGe
        savedRange := ?_
        commitsBelow := hR.commitsBelow
        earliest := ?_
        last := fun _ ↦ by simp [hR.next]
        commitMap := ?_ }
    · exact List.nodup_append.mpr ⟨hR.nodup, List.nodup_singleton _,
        fun x hx y hy ↦ by rw [List.mem_singleton.mp hy]; exact ne_of_mem_of_not_mem hx hm⟩
    · intro id hid
      rcases List.mem_append.mp hid with hid | hid
      · exact hR.savedRange id hid
      · rw [List.mem_singleton.mp hid]
        exact ⟨hR.nextGe, le_rfl⟩
    · by_cases hne : a.saved = []
      · have he : s.earliestSSnapXStamp = invalidXStamp := by rw [hR.earliest, if_pos hne]
        simp [he, hne, hR.next, leastTag, hnext]
      · have hle : leastTag a.saved ≤ a.next :=
          (leastTag_le (leastTag_mem (hR.lt_infinity hnext) hne)).trans
            (hR.savedRange _ (leastTag_mem (hR.lt_infinity hnext) hne)).2
        have hne0 : leastTag a.saved ≠ invalidXStamp := by
          have := hR.earliest_ne hnext hne
          rwa [hR.earliest, if_neg hne] at this
        simp [hR.earliest, hne, hne0, leastTag_concat_of_le hle]
    · obtain ⟨live, free, hL, hp⟩ := hR.commitMap
      refine ⟨live, free, hL, hp.trans (List.filter_congr fun p hp' ↦ ?_)⟩
      have := hR.commitsBelow p hp'
      simp only [List.mem_append, List.mem_singleton, decide_eq_decide]
      constructor
      · rintro ⟨id, hid, hle⟩
        exact ⟨id, .inl hid, hle⟩
      · rintro ⟨id, hid | rfl, hle⟩
        · exact ⟨id, hid, hle⟩
        · omega

theorem Registry.room_of_save (hR : s.Registry a) (h : (s.call (.save false)).isSome) :
    a.next ∉ a.saved → a.saved.length < maxSavedSnapshots := by
  intro hm
  have hl : s.nextXStamp ≠ s.lastSSnapXStamp := by
    intro hl
    have hmem := hR.last (hl ▸ hR.next_ne_invalid)
    rw [← hl, hR.next] at hmem
    exact hm hmem
  have hm' : s.nextXStamp ∉ s.saved := by rwa [hR.saved, hR.next]
  rw [← hR.saved]
  by_contra hlen
  simp [call, saveSnapshot, hl, hm', hlen] at h

/-! ### `RemoveSavedSnapshot` -/

/-- **`RemoveSavedSnapshot`**, as a state: the table loses the id, `LastSSnapXStamp` is cleared if
it was the id, and, when the id was the earliest, the commit map is expired up to the least tag
left, which becomes the earliest. -/
theorem removeSavedSnapshot_eq (s : SSnap) (id : ℕ) :
    (s.removeSavedSnapshot id).map Prod.fst =
      if s.earliestSSnapXStamp = id then
        (s.commitMap.expire (leastTag (s.saved.erase id))).map fun cm ↦
          ⟨s.nextXStamp, if s.lastSSnapXStamp = id then invalidXStamp else s.lastSSnapXStamp,
            if leastTag (s.saved.erase id) = xstampInfinity then invalidXStamp
            else leastTag (s.saved.erase id), s.saved.erase id, cm⟩
      else
        some ⟨s.nextXStamp, if s.lastSSnapXStamp = id then invalidXStamp else s.lastSSnapXStamp,
          s.earliestSSnapXStamp, s.saved.erase id, s.commitMap⟩ := by
  unfold removeSavedSnapshot
  by_cases hl : s.lastSSnapXStamp = id <;> by_cases he : s.earliestSSnapXStamp = id <;>
    simp [hl, he, Option.map_map, Function.comp_def]

theorem Registry.last_erase (hR : s.Registry a) (id : ℕ) :
    (if s.lastSSnapXStamp = id then invalidXStamp else s.lastSSnapXStamp) ≠ invalidXStamp →
      (if s.lastSSnapXStamp = id then invalidXStamp else s.lastSSnapXStamp) ∈ a.saved.erase id := by
  split_ifs with h
  · exact fun h' ↦ absurd rfl h'
  · exact fun hv ↦ (List.mem_erase_of_ne h).mpr (hR.last hv)

theorem Registry.erase_fields (hR : s.Registry a) (id : ℕ) :
    (a.saved.erase id).Nodup ∧
      ∀ t ∈ a.saved.erase id, firstXStamp ≤ t ∧ t ≤ a.next :=
  ⟨hR.nodup.erase id, fun t ht ↦ hR.savedRange t (List.mem_of_mem_erase ht)⟩

/-- **`RemoveSavedSnapshot`** keeps the registry. Removing the earliest id expires the commit map up
to the next one, which leaves it the commits that the snapshots still saved cannot see; removing
another id changes neither. -/
theorem Registry.remove (hR : s.Registry a) (hnext : a.next < xstampInfinity) (id : ℕ) :
    ∃ s', s.call (.remove id) = some s' ∧ s'.Registry (a.apply (.remove id)) := by
  have hlt := hR.lt_infinity hnext
  have hlt' : ∀ t ∈ a.saved.erase id, t < xstampInfinity :=
    fun t ht ↦ hlt t (List.mem_of_mem_erase ht)
  obtain ⟨hnd, hrange⟩ := hR.erase_fields id
  obtain ⟨live, free, hL, hp⟩ := hR.commitMap
  have hbelow : ∀ p ∈ a.commits, p.2 < xstampInfinity := fun p hp ↦ (hR.commitsBelow p hp).trans hnext
  have hlive : ∀ l : List ℕ, (∀ t ∈ l, t < xstampInfinity) →
      a.commits.filter (fun p ↦ ∃ t ∈ l, t ≤ p.2) =
        a.commits.filter fun p ↦ leastTag l ≤ p.2 := fun l hl ↦
    List.filter_congr fun p hp ↦ by
      rw [decide_eq_decide]
      exact exists_le_iff_leastTag_le hl (hbelow p hp)
  simp only [call, apply]
  rw [removeSavedSnapshot_eq, hR.saved]
  by_cases he : s.earliestSSnapXStamp = id
  · -- the earliest snapshot goes: expire the commit map up to the least tag left
    obtain ⟨m', hexp, hL', hp'⟩ := hL.expire (leastTag (a.saved.erase id))
    rw [if_pos he, hexp]
    refine ⟨_, rfl, ?_⟩
    refine
      { next := hR.next
        saved := rfl
        nodup := hnd
        nextGe := hR.nextGe
        savedRange := hrange
        commitsBelow := hR.commitsBelow
        earliest := ?_
        last := hR.last_erase id
        commitMap := ⟨_, _, hL', ?_⟩ }
    · by_cases hne : a.saved.erase id = []
      · simp [hne]
      · have hmem := leastTag_mem hlt' hne
        simp [hne, Nat.ne_of_lt (hlt' _ hmem)]
    · change m'.pairs _ = (SSnapAbs.mk a.next (a.saved.erase id) a.commits).liveCommits
      rw [hp', hp, liveCommits, liveCommits, List.filter_filter, hlive _ hlt']
      refine List.filter_congr fun p hp ↦ ?_
      by_cases hle : leastTag (a.saved.erase id) ≤ p.2
      · have hne : a.saved.erase id ≠ [] := by
          intro h
          rw [h, leastTag_nil] at hle
          exact absurd (hbelow p hp) (Nat.not_lt.mpr hle)
        have hex : ∃ t ∈ a.saved, t ≤ p.2 :=
          ⟨_, List.mem_of_mem_erase (leastTag_mem hlt' hne), hle⟩
        simp [hle, hex]
      · simp [hle]
  · -- another id goes: the least tag stays, and the commit map with it
    rw [if_neg he]
    have hleast : leastTag (a.saved.erase id) = leastTag a.saved := by
      by_cases hne : a.saved = []
      · simp [hne]
      · refine leastTag_erase_of_ne hlt fun h ↦ he ?_
        rw [hR.earliest, if_neg hne, h]
    refine ⟨_, rfl, ?_⟩
    refine
      { next := hR.next
        saved := rfl
        nodup := hnd
        nextGe := hR.nextGe
        savedRange := hrange
        commitsBelow := hR.commitsBelow
        earliest := ?_
        last := hR.last_erase id
        commitMap := ⟨live, free, hL, ?_⟩ }
    · rw [hR.earliest]
      by_cases hne : a.saved = []
      · simp [hne]
      · have hne' : a.saved.erase id ≠ [] := by
          intro h
          have := leastTag_mem hlt hne
          rw [← hleast, h, leastTag_nil] at this
          exact absurd (hlt _ this) (lt_irrefl _)
        simp [hne, hne', hleast]
    · change s.commitMap.pairs live = (SSnapAbs.mk a.next (a.saved.erase id) a.commits).liveCommits
      rw [hp, liveCommits, liveCommits, hlive _ hlt, hlive _ hlt', hleast]

/-! ### Commits -/

/-- **The `Assert` of `CommitMapAddEntry` holds**: every commit the map holds is older than
`NextXStamp`, which the new one takes, so it goes in at the end while the map has room. -/
theorem Registry.commitMap_add (hR : s.Registry a)
    (hroom : a.liveCommits.length < maxCommitMapEntries) (xid : ℕ) :
    ∃ m' live free, s.commitMap.add xid s.nextXStamp = some m' ∧ m'.Layout live free ∧
      m'.pairs live = a.liveCommits ++ [(xid, a.next)] := by
  obtain ⟨live, free, hL, hp⟩ := hR.commitMap
  have hroom' : live.length < maxCommitMapEntries := by
    rwa [← hp, CommitMap.pairs, List.length_map] at hroom
  have hnew : ∀ i ∈ live, (s.commitMap.entries i).xstamp < s.nextXStamp := by
    intro i hi
    have hmem : ((s.commitMap.entries i).xid, (s.commitMap.entries i).xstamp) ∈ a.liveCommits :=
      hp ▸ List.mem_map.mpr ⟨i, hi, rfl⟩
    rw [hR.next]
    exact hR.commitsBelow _ (List.mem_of_mem_filter hmem)
  obtain ⟨m', e, free', hadd, -, hL', hp'⟩ := hL.add hroom' xid hnew
  exact ⟨m', live ++ [e], free', hadd, hL', by rw [hp', hp, hR.next]⟩

/-- **`GetCommitXStamp`** keeps the registry while the commit map has room: the commit takes
`NextXStamp`, and goes at the end of the commit map when a snapshot is saved, which cannot see it. -/
theorem Registry.commit (hR : s.Registry a) (hnext : a.next + 1 < xstampInfinity)
    (hroom : a.liveCommits.length < maxCommitMapEntries) (xid : ℕ) :
    ∃ s', s.call (.commit xid) = some s' ∧ s'.Registry (a.apply (.commit xid)) := by
  have hmod : (s.nextXStamp + 1) % 2 ^ 32 = a.next + 1 := by
    rw [hR.next]
    apply Nat.mod_eq_of_lt
    unfold xstampInfinity at hnext
    omega
  have hnext' : a.next < xstampInfinity := by omega
  have hbelow : ∀ p ∈ a.commits ++ [(xid, a.next)], p.2 < a.next + 1 := by
    intro p hp
    rcases List.mem_append.mp hp with hp | hp
    · exact (hR.commitsBelow p hp).trans (Nat.lt_succ_self _)
    · rw [List.mem_singleton.mp hp]
      exact Nat.lt_succ_self _
  simp only [call, getCommitXStamp, apply]
  by_cases hne : a.saved = []
  · -- no snapshot saved: the commit does not go in the commit map, which stays empty
    have he : s.earliestSSnapXStamp = invalidXStamp := by rw [hR.earliest, if_pos hne]
    obtain ⟨live, free, hL, hp⟩ := hR.commitMap
    refine ⟨{ s with nextXStamp := (s.nextXStamp + 1) % 2 ^ 32 }, by simp [he], ?_⟩
    refine
      { next := hmod
        saved := hR.saved
        nodup := hR.nodup
        nextGe := hR.nextGe.trans (Nat.le_succ _)
        savedRange := by simp [hne]
        commitsBelow := hbelow
        earliest := by simpa [hne] using he
        last := hR.last
        commitMap := ⟨live, free, hL, ?_⟩ }
    change s.commitMap.pairs live = (SSnapAbs.mk _ a.saved _).liveCommits
    rw [hp]
    simp [liveCommits, hne]
  · -- a snapshot is saved: the commit goes at the end of the commit map
    have he := hR.earliest_ne hnext' hne
    obtain ⟨m', live, free, hadd, hL', hp'⟩ := hR.commitMap_add hroom xid
    refine ⟨{ s with nextXStamp := (s.nextXStamp + 1) % 2 ^ 32, commitMap := m' },
      by simp [he, hadd], ?_⟩
    have hseen : ∃ t ∈ a.saved, t ≤ a.next :=
      ⟨_, leastTag_mem (hR.lt_infinity hnext') hne,
        (hR.savedRange _ (leastTag_mem (hR.lt_infinity hnext') hne)).2⟩
    refine
      { next := hmod
        saved := hR.saved
        nodup := hR.nodup
        nextGe := hR.nextGe.trans (Nat.le_succ _)
        savedRange := fun t ht ↦ ⟨(hR.savedRange t ht).1, (hR.savedRange t ht).2.trans (Nat.le_succ _)⟩
        commitsBelow := hbelow
        earliest := hR.earliest
        last := hR.last
        commitMap := ⟨live, free, hL', ?_⟩ }
    change m'.pairs _ = (SSnapAbs.mk _ a.saved (a.commits ++ [(xid, a.next)])).liveCommits
    rw [hp']
    simp [liveCommits, List.filter_append, hseen]

theorem Registry.commit_isSome (hR : s.Registry a)
    (hroom : a.liveCommits.length < maxCommitMapEntries) (xid : ℕ) :
    (s.call (.commit xid)).isSome := by
  obtain ⟨m', -, -, hadd, -⟩ := hR.commitMap_add hroom xid
  by_cases he : s.earliestSSnapXStamp = invalidXStamp <;> simp [call, getCommitXStamp, he, hadd]

theorem Registry.room_of_commit (hR : s.Registry a) (hnext : a.next < xstampInfinity) {xid : ℕ}
    (h : (s.call (.commit xid)).isSome) : a.liveCommits.length < maxCommitMapEntries := by
  obtain ⟨live, free, hL, hp⟩ := hR.commitMap
  by_cases hne : a.saved = []
  · simp [liveCommits, hne, maxCommitMapEntries]
  · have he := hR.earliest_ne hnext hne
    have hadd : (s.commitMap.add xid s.nextXStamp).isSome := by
      simpa [call, getCommitXStamp, he] using h
    rw [← hp, CommitMap.pairs, List.length_map]
    exact hL.room_of_add hadd

theorem Registry.call (hR : s.Registry a) (c : SSnapCall)
    (hnext : (a.apply c).next < xstampInfinity)
    (hroom : ∀ xid, c = .commit xid → a.liveCommits.length < maxCommitMapEntries)
    (hfull : c = .save false → a.next ∉ a.saved → a.saved.length < maxSavedSnapshots) :
    ∃ s', s.call c = some s' ∧ s'.Registry (a.apply c) := by
  cases c with
  | save b =>
    cases b with
    | true => exact ⟨s, rfl, hR⟩
    | false => exact hR.save hnext (hfull rfl)
  | remove id => exact hR.remove hnext id
  | commit xid => exact hR.commit hnext (hroom xid rfl) xid

/-- **A call that goes through keeps the registry**, while `NextXStamp` stays below
`XStampInfinity`: that it went through is all the room it needs. -/
theorem Registry.of_call (hR : s.Registry a) {c : SSnapCall} {s' : SSnap}
    (hnext : (a.apply c).next < xstampInfinity) (h : s.call c = some s') :
    s'.Registry (a.apply c) := by
  have hnext' : a.next < xstampInfinity := (next_le_apply a c).trans_lt hnext
  have hsome : (s.call c).isSome := by rw [h]; rfl
  obtain ⟨s'', hs'', hR'⟩ := hR.call c hnext
    (fun xid hc ↦ hR.room_of_commit hnext' (hc ▸ hsome)) (fun hc ↦ hR.room_of_save (hc ▸ hsome))
  rwa [Option.some.inj (h.symm.trans hs'')]

/-! ### What the callers read back

The invalidation path reads only the xstamps the calls return; these say what they are, whatever
the registry holds. -/

theorem saveSnapshot_eq_some {s' : SSnap} {id : ℕ} (h : s.saveSnapshot = some (s', id)) :
    id = s.nextXStamp ∧ s'.nextXStamp = s.nextXStamp := by
  simp only [saveSnapshot] at h
  split_ifs at h <;> simp only [Option.some.injEq, Prod.mk.injEq] at h <;>
    exact ⟨h.2.symm, h.1 ▸ rfl⟩

theorem getCommitXStamp_eq_some {s' : SSnap} {xid x : ℕ} (h : s.getCommitXStamp xid = some (s', x)) :
    x = s.nextXStamp ∧ s'.nextXStamp = (s.nextXStamp + 1) % 2 ^ 32 := by
  simp only [getCommitXStamp] at h
  split_ifs at h
  · obtain ⟨cm, -, hcm⟩ := Option.map_eq_some_iff.mp h
    cases hcm
    exact ⟨rfl, rfl⟩
  · cases h
    exact ⟨rfl, rfl⟩

/-! ## Runs of calls -/

/-- **The registry along a run.** From `SSnapInit`, every run of calls goes through while the table
and the commit map have room and `NextXStamp` stays below `XStampInfinity`, and keeps the
registry. -/
theorem runCalls_registry (mem : CommitMap) (calls : List SSnapCall)
    (hnext : (after calls).next < xstampInfinity)
    (hroom : ∀ pre xid rest, calls = pre ++ SSnapCall.commit xid :: rest →
      (after pre).liveCommits.length < maxCommitMapEntries)
    (hfull : ∀ pre rest, calls = pre ++ SSnapCall.save false :: rest →
      (after pre).saved.length < maxSavedSnapshots) :
    ∃ s, (init mem).runCalls calls = some s ∧ s.Registry (after calls) := by
  induction calls using List.reverseRecOn with
  | nil => exact ⟨init mem, rfl, registry_init mem⟩
  | append_singleton calls c ih =>
    obtain ⟨s, hrun, hR⟩ := ih ((next_le_after_append calls [c]).trans_lt hnext)
      (fun pre xid rest h ↦ hroom pre xid (rest ++ [c]) (by simp [h]))
      (fun pre rest h ↦ hfull pre (rest ++ [c]) (by simp [h]))
    rw [after_concat] at hnext ⊢
    obtain ⟨s', hcall, hR'⟩ := hR.call c hnext
      (fun xid h ↦ hroom calls xid [] (by simp [h])) (fun h _ ↦ hfull calls [] (by simp [h]))
    refine ⟨s', ?_, hR'⟩
    simp only [runCalls] at hrun ⊢
    rw [List.foldlM_append, hrun]
    simpa using hcall

/-- **The saved-snapshot registry.** From `SSnapInit`, after any run of `SaveSnapshot`,
`RemoveSavedSnapshot` and commits with distinct xids, while the table and the commit map have room
and `NextXStamp` stays below `XStampInfinity`: `EarliestSSnapXStamp` is the least id saved, or
`InvalidXStamp` when none is; `LastSSnapXStamp`, when valid, is a saved id no later than
`NextXStamp`; every commit the commit map holds is no older than `EarliestSSnapXStamp`;
`XidToXStamp` returns the xstamp of every commit that some saved snapshot cannot see; and an xid
`XidIsInvisibleToSomeSavedSnapshot` reports is such a commit. -/
theorem runCalls_registry_invariants (mem : CommitMap) (calls : List SSnapCall)
    (hxid : ((after calls).commits.map Prod.fst).Nodup)
    (hnext : (after calls).next < xstampInfinity)
    (hroom : ∀ pre xid rest, calls = pre ++ SSnapCall.commit xid :: rest →
      (after pre).liveCommits.length < maxCommitMapEntries)
    (hfull : ∀ pre rest, calls = pre ++ SSnapCall.save false :: rest →
      (after pre).saved.length < maxSavedSnapshots) :
    ∃ s, (init mem).runCalls calls = some s ∧
      (s.saved = [] → s.earliestSSnapXStamp = invalidXStamp) ∧
      (s.saved ≠ [] → s.earliestSSnapXStamp ∈ s.saved ∧ ∀ id ∈ s.saved, s.earliestSSnapXStamp ≤ id) ∧
      (s.lastSSnapXStamp ≠ invalidXStamp →
        s.lastSSnapXStamp ∈ s.saved ∧ s.lastSSnapXStamp ≤ s.nextXStamp) ∧
      (∃ live free, s.commitMap.Layout live free ∧
        ∀ p ∈ s.commitMap.pairs live, s.earliestSSnapXStamp ≤ p.2) ∧
      (∀ xid x, (xid, x) ∈ (after calls).commits → (∃ id ∈ s.saved, id ≤ x) →
        s.xidToXStamp xid = some x) ∧
      (∀ xid, s.xidIsInvisibleToSomeSavedSnapshot xid = some true →
        ∃ x, (xid, x) ∈ (after calls).commits ∧ ∃ id ∈ s.saved, id ≤ x) := by
  obtain ⟨s, hrun, hR⟩ := runCalls_registry mem calls hnext hroom hfull
  have hlt := hR.lt_infinity hnext
  obtain ⟨live, free, hL, hp⟩ := hR.commitMap
  have hnd : ((s.commitMap.pairs live).map Prod.fst).Nodup := by
    rw [hp]
    exact hxid.sublist (List.filter_sublist.map _)
  refine ⟨s, hrun, fun h ↦ ?_, fun h ↦ ?_, fun h ↦ ?_, ⟨live, free, hL, fun p hmem ↦ ?_⟩,
    fun xid x hmem hseen ↦ ?_, fun xid h ↦ ?_⟩
  · rw [hR.earliest, if_pos (hR.saved ▸ h)]
  · rw [hR.saved] at h ⊢
    rw [hR.earliest, if_neg h]
    exact ⟨leastTag_mem hlt h, fun id hid ↦ leastTag_le hid⟩
  · have hmem := hR.last h
    rw [hR.saved, hR.next]
    exact ⟨hmem, (hR.savedRange _ hmem).2⟩
  · rw [hp] at hmem
    obtain ⟨t, ht, hle⟩ := of_decide_eq_true (List.mem_filter.mp hmem).2
    rw [hR.earliest, if_neg (List.ne_nil_of_mem ht)]
    exact (leastTag_le ht).trans hle
  · have hlive : (xid, x) ∈ s.commitMap.pairs live := by
      rw [hp]
      exact List.mem_filter.mpr ⟨hmem, decide_eq_true (hR.saved ▸ hseen)⟩
    exact hL.lookup_of_mem hnd hlive
  · obtain ⟨x, hx, hb⟩ := Option.map_eq_some_iff.mp h
    have hlive := hL.mem_of_lookup hx (by simpa using hb)
    rw [hp] at hlive
    obtain ⟨hmem, hseen⟩ := List.mem_filter.mp hlive
    exact ⟨x, hmem, hR.saved ▸ of_decide_eq_true hseen⟩

theorem room_of_length {calls : List SSnapCall} (h : calls.length ≤ maxSavedSnapshots) :
    (∀ pre xid rest, calls = pre ++ SSnapCall.commit xid :: rest →
      (after pre).liveCommits.length < maxCommitMapEntries) ∧
    (∀ pre rest, calls = pre ++ SSnapCall.save false :: rest →
      (after pre).saved.length < maxSavedSnapshots) := by
  constructor
  · rintro pre xid rest rfl
    have hc := length_commits_after_le pre
    have hf := (List.filter_sublist (p := fun p ↦ decide (∃ id ∈ (after pre).saved, id ≤ p.2))
      (l := (after pre).commits)).length_le
    simp only [List.length_append, List.length_cons] at h
    unfold liveCommits
    unfold maxSavedSnapshots at h
    unfold maxCommitMapEntries
    omega
  · rintro pre rest rfl
    have hs := length_saved_after_le pre
    simp only [List.length_append, List.length_cons] at h
    omega

/-- Two pins and an unpin of the first around commits of two xids of one bucket: the older
commit is expired with the first snapshot, and the newer ones are known to the second. -/
theorem runCalls_registry_two_pins :
    ∃ s, (init ⟨fun _ ↦ ⟨0, 0, none, none, none, none⟩, fun _ ↦ ⟨none, none⟩, none, none,
        none⟩).runCalls
        [.save false, .commit 7, .save false, .commit 8199, .remove 2, .commit 11] = some s ∧
      (s.saved = [] → s.earliestSSnapXStamp = invalidXStamp) ∧
      (s.saved ≠ [] → s.earliestSSnapXStamp ∈ s.saved ∧ ∀ id ∈ s.saved, s.earliestSSnapXStamp ≤ id) ∧
      (s.lastSSnapXStamp ≠ invalidXStamp →
        s.lastSSnapXStamp ∈ s.saved ∧ s.lastSSnapXStamp ≤ s.nextXStamp) ∧
      (∃ live free, s.commitMap.Layout live free ∧
        ∀ p ∈ s.commitMap.pairs live, s.earliestSSnapXStamp ≤ p.2) ∧
      (∀ xid x, (xid, x) ∈ (after [SSnapCall.save false, .commit 7, .save false, .commit 8199,
          .remove 2, .commit 11]).commits → (∃ id ∈ s.saved, id ≤ x) →
        s.xidToXStamp xid = some x) ∧
      (∀ xid, s.xidIsInvisibleToSomeSavedSnapshot xid = some true →
        ∃ x, (xid, x) ∈ (after [SSnapCall.save false, .commit 7, .save false, .commit 8199,
          .remove 2, .commit 11]).commits ∧ ∃ id ∈ s.saved, id ≤ x) :=
  runCalls_registry_invariants _ _ (by decide) (by decide) (room_of_length (by decide)).1
    (room_of_length (by decide)).2

end SSnap

end TxCache
