import TxCache.Lib.Links
import TxCache.Lib.SortedTrim

/-!
# The commit map

`utils/time/xstamp.c` maps the xid of each write transaction committed since the earliest saved
snapshot to its xstamp. The map lives in shared memory as a fixed array of entries. An entry is in
use when it is on the *expire chain*, which lists the entries in the order they were added, and
then also on the doubly linked list of its bucket, `HashXid(xid)`. Otherwise it is on the *free
list*, whose link is the expire chain's `expireNext`.

* `CommitMapAdd` takes the first free entry and appends it to the expire chain and to its bucket.
* `CommitMapExpire` removes entries from the head of the chain while they are older than the
  xstamp to keep. Each goes back to the free list, its `expireNext` read before the free list
  reuses it, and the chain's head moves past them at the end.
* `CommitMapLookup` walks the bucket of the xid.

## The refinement

Abstractly the map is a list of pairs `(xid, xstamp)`, oldest first: an add appends a pair, and an
expiry keeps the pairs whose xstamp is at least the one to keep (`liveAfter`). `Layout` says how the
entry array represents such a list: the expire chain visits its entries, each bucket's list holds
those of its hash in the same order, and the chain and the free list share out the array. Every
call keeps a layout (`Layout.add`, `Layout.expire`). From `CommitMapInit`, for calls that add
distinct xids with increasing xstamps and never fill the map, `CommitMapLookup` answers what the
abstract list holds.

Entries are named by their index in the array. The spin locks are not modelled, and the calls are
taken one at a time.
-/

namespace TxCache

open Links

/-- `MAX_COMMIT_MAP_ENTRIES`. -/
def maxCommitMapEntries : ℕ := 262144

/-- `COMMIT_MAP_BUCKETS`. -/
def commitMapBuckets : ℕ := 8192

/-- `InvalidXStamp`. -/
def invalidXStamp : ℕ := 0

/-- `HashXid`. -/
def hashXid (xid : ℕ) : ℕ := xid % commitMapBuckets

/-- `struct CommitMapEntry`: an xid, its xstamp, and the entry's links in its bucket and in the
expire chain, which are indices of the entry array. -/
structure CommitMapEntry where
  xid : ℕ
  xstamp : ℕ
  bucketPrev : Option ℕ
  bucketNext : Option ℕ
  expirePrev : Option ℕ
  expireNext : Option ℕ

/-- `CommitMapBucket`: the first and the last entry of a bucket. -/
structure CommitMapBucket where
  head : Option ℕ
  tail : Option ℕ

/-- `struct CommitMap`: what each index of the entry array and of the bucket array holds, and the
ends of the expire chain and of the free list. -/
structure CommitMap where
  entries : ℕ → CommitMapEntry
  buckets : ℕ → CommitMapBucket
  expireHead : Option ℕ
  expireTail : Option ℕ
  freeHead : Option ℕ

namespace CommitMap

/-- The entry at index `i` changed by `f`. -/
def modifyEntry (m : CommitMap) (i : ℕ) (f : CommitMapEntry → CommitMapEntry) : CommitMap :=
  { m with entries := Function.update m.entries i (f (m.entries i)) }

/-- The bucket `h` changed by `f`. -/
def modifyBucket (m : CommitMap) (h : ℕ) (f : CommitMapBucket → CommitMapBucket) : CommitMap :=
  { m with buckets := Function.update m.buckets h (f (m.buckets h)) }

/-- `CommitMapEntryAlloc`: the first entry of the free list, which moves on to the next one;
`none` for the `PANIC` of a full map. -/
def entryAlloc (m : CommitMap) : Option (CommitMap × ℕ) :=
  match m.freeHead with
  | none => none
  | some e => some ({ m with freeHead := (m.entries e).expireNext }, e)

/-- `CommitMapEntryFree`: the entry goes to the head of the free list. -/
def entryFree (m : CommitMap) (e : ℕ) : CommitMap :=
  { m.modifyEntry e (fun x ↦ { x with expireNext := m.freeHead }) with freeHead := some e }

/-- `CommitMapInit`, on the shared memory as it was: every bucket empty, the expire chain empty,
and every entry pushed on the free list in turn. -/
def init (m : CommitMap) : CommitMap :=
  let m := (List.range commitMapBuckets).foldl (fun m h ↦ m.modifyBucket h fun _ ↦ ⟨none, none⟩) m
  let m := { m with expireHead := none, expireTail := none, freeHead := none }
  (List.range maxCommitMapEntries).foldl entryFree m

/-- The first half of `CommitMapAddEntry`, "add to expire chain": the entry goes after the
chain's tail. -/
def addToExpireChain (m : CommitMap) (e : ℕ) : CommitMap :=
  let tail := m.expireTail
  let m := m.modifyEntry e fun x ↦ { x with expirePrev := tail, expireNext := none }
  let m := match tail with
    | some t => m.modifyEntry t fun x ↦ { x with expireNext := some e }
    | none => m
  { m with expireTail := some e, expireHead := m.expireHead.or (some e) }

/-- The second half of `CommitMapAddEntry`, "add to bucket": the entry goes after the tail of the
bucket its xid hashes to. -/
def addToBucket (m : CommitMap) (e : ℕ) : CommitMap :=
  let h := hashXid (m.entries e).xid
  let btail := (m.buckets h).tail
  let m := m.modifyEntry e fun x ↦ { x with bucketPrev := btail, bucketNext := none }
  let m := match btail with
    | some t => m.modifyEntry t fun x ↦ { x with bucketNext := some e }
    | none => m
  m.modifyBucket h fun b ↦ ⟨b.head.or (some e), some e⟩

/-- `CommitMapAddEntry`: the entry goes at the end of the expire chain and at the end of its
bucket; `none` when the `Assert` that the chain stays ordered fails. -/
def addEntry (m : CommitMap) (e : ℕ) : Option CommitMap :=
  if m.expireTail.all fun t ↦ (m.entries t).xstamp < (m.entries e).xstamp then
    some ((m.addToExpireChain e).addToBucket e)
  else none

/-- `CommitMapRemove`: the entry is unlinked from its bucket and goes back to the free list. The
expire chain is left as it is, for `CommitMapExpire` moves its head past the entry. -/
def remove (m : CommitMap) (e : ℕ) : CommitMap :=
  let h := hashXid (m.entries e).xid
  let m := match (m.entries e).bucketNext with
    | some n => m.modifyEntry n fun y ↦ { y with bucketPrev := (m.entries e).bucketPrev }
    | none => m.modifyBucket h fun b ↦ { b with tail := (m.entries e).bucketPrev }
  let m := match (m.entries e).bucketPrev with
    | some p => m.modifyEntry p fun y ↦ { y with bucketNext := (m.entries e).bucketNext }
    | none => m.modifyBucket h fun b ↦ { b with head := (m.entries e).bucketNext }
  m.entryFree e

/-- The loop of `CommitMapLookup` along a bucket from `ptr`: the xstamp of the first entry with
the xid, `InvalidXStamp` at the end of the bucket, `none` when it has not ended after `fuel`
entries. -/
def lookupLoop (m : CommitMap) (xid : ℕ) : ℕ → Option ℕ → Option ℕ
  | _, none => some invalidXStamp
  | 0, some _ => none
  | n + 1, some i =>
    if (m.entries i).xid = xid then some (m.entries i).xstamp
    else m.lookupLoop xid n (m.entries i).bucketNext

/-- `CommitMapLookup`. A bucket holds distinct entries of the array, so the walk is given as many
steps as the array has entries. -/
def lookup (m : CommitMap) (xid : ℕ) : Option ℕ :=
  m.lookupLoop xid maxCommitMapEntries (m.buckets (hashXid xid)).head

/-- `CommitMapAdd`. -/
def add (m : CommitMap) (xid xstamp : ℕ) : Option CommitMap :=
  m.entryAlloc.bind fun (m, e) ↦
    (m.modifyEntry e fun x ↦ { x with xid := xid, xstamp := xstamp }).addEntry e

/-- The loop of `CommitMapExpire` from `entry`: while it is older than `earliestToKeep` it is
removed, its `expireNext` read first. `none` when the chain has not ended after `fuel` entries. -/
def expireLoop (earliestToKeep : ℕ) : ℕ → CommitMap → Option ℕ → Option (CommitMap × Option ℕ)
  | _, m, none => some (m, none)
  | 0, _, some _ => none
  | n + 1, m, some i =>
    if (m.entries i).xstamp < earliestToKeep then
      expireLoop earliestToKeep n (m.remove i) (m.entries i).expireNext
    else some (m, some i)

/-- `CommitMapExpire`: the head moves to the first entry kept, and the tail is cleared when none
is. -/
def expire (m : CommitMap) (earliestToKeep : ℕ) : Option CommitMap :=
  (expireLoop earliestToKeep maxCommitMapEntries m m.expireHead).map fun (m, entry) ↦
    { m with expireHead := entry, expireTail := entry.bind fun _ ↦ m.expireTail }

end CommitMap

/-- A call on the commit map. -/
inductive CommitMapCall
  | add (xid xstamp : ℕ)
  | expire (earliestToKeep : ℕ)
deriving DecidableEq, Repr

namespace CommitMap

/-- One call. -/
def call (m : CommitMap) : CommitMapCall → Option CommitMap
  | .add xid xstamp => m.add xid xstamp
  | .expire e => m.expire e

/-- A run of calls, one after another. -/
def runCalls (m : CommitMap) (cs : List CommitMapCall) : Option CommitMap := cs.foldlM call m

end CommitMap

/-! ## What each write changes

The links of the entries seen as functions of the index, and one lemma per write for how they
change, so that the invariant proofs below never unfold a write. -/

namespace CommitMap

/-- The `expireNext` links, which the expire chain and the free list share. -/
def expireNexts (m : CommitMap) (i : ℕ) : Option ℕ := (m.entries i).expireNext

/-- The `bucketNext` links. -/
def bucketNexts (m : CommitMap) (i : ℕ) : Option ℕ := (m.entries i).bucketNext

/-- The `bucketPrev` links. -/
def bucketPrevs (m : CommitMap) (i : ℕ) : Option ℕ := (m.entries i).bucketPrev

/-- The entries of `live` whose xid hashes to `h`, in order. -/
def inBucket (m : CommitMap) (live : List ℕ) (h : ℕ) : List ℕ :=
  live.filter fun i ↦ hashXid (m.entries i).xid = h

/-- The pairs the entries of `live` hold. -/
def pairs (m : CommitMap) (live : List ℕ) : List (ℕ × ℕ) :=
  live.map fun i ↦ ((m.entries i).xid, (m.entries i).xstamp)

variable {m : CommitMap} {e i : ℕ}

theorem entries_modifyEntry (f : CommitMapEntry → CommitMapEntry) (j : ℕ) :
    (m.modifyEntry i f).entries j = if j = i then f (m.entries i) else m.entries j := by
  simp [modifyEntry, Function.update_apply]

@[simp] theorem buckets_modifyEntry (f : CommitMapEntry → CommitMapEntry) :
    (m.modifyEntry i f).buckets = m.buckets := rfl

@[simp] theorem expireHead_modifyEntry (f : CommitMapEntry → CommitMapEntry) :
    (m.modifyEntry i f).expireHead = m.expireHead := rfl

@[simp] theorem expireTail_modifyEntry (f : CommitMapEntry → CommitMapEntry) :
    (m.modifyEntry i f).expireTail = m.expireTail := rfl

@[simp] theorem freeHead_modifyEntry (f : CommitMapEntry → CommitMapEntry) :
    (m.modifyEntry i f).freeHead = m.freeHead := rfl

theorem inBucket_congr {m' : CommitMap} {live : List ℕ}
    (h : ∀ j ∈ live, (m'.entries j).xid = (m.entries j).xid) : m'.inBucket live = m.inBucket live := by
  funext b
  exact List.filter_congr fun j hj ↦ by rw [h j hj]

theorem pairs_congr {m' : CommitMap} {live : List ℕ}
    (h : ∀ j ∈ live, (m'.entries j).xid = (m.entries j).xid ∧
      (m'.entries j).xstamp = (m.entries j).xstamp) : m'.pairs live = m.pairs live :=
  List.map_congr_left fun j hj ↦ by rw [(h j hj).1, (h j hj).2]

/-- **`CommitMapEntryFree`**: the entry's `expireNext` is the old head of the free list. -/
theorem entryFree_spec (m : CommitMap) (e : ℕ) :
    (m.entryFree e).expireNexts = Function.update m.expireNexts e m.freeHead ∧
      (m.entryFree e).bucketNexts = m.bucketNexts ∧ (m.entryFree e).bucketPrevs = m.bucketPrevs ∧
      (∀ j, ((m.entryFree e).entries j).xid = (m.entries j).xid ∧
        ((m.entryFree e).entries j).xstamp = (m.entries j).xstamp) ∧
      (m.entryFree e).buckets = m.buckets ∧ (m.entryFree e).freeHead = some e ∧
      (m.entryFree e).expireHead = m.expireHead ∧ (m.entryFree e).expireTail = m.expireTail := by
  refine ⟨funext fun j ↦ ?_, funext fun j ↦ ?_, funext fun j ↦ ?_, fun j ↦ ?_, rfl, rfl, rfl, rfl⟩
  all_goals
    simp only [entryFree, expireNexts, bucketNexts, bucketPrevs, entries_modifyEntry,
      Function.update_apply]
    split_ifs <;> simp_all

theorem entries_remove (m : CommitMap) (e j : ℕ) (hn : (m.entries e).bucketNext ≠ some e) :
    (m.remove e).entries j = { m.entries j with
      bucketPrev := if some j = (m.entries e).bucketNext then (m.entries e).bucketPrev
        else (m.entries j).bucketPrev,
      bucketNext := if some j = (m.entries e).bucketPrev then (m.entries e).bucketNext
        else (m.entries j).bucketNext,
      expireNext := if j = e then m.freeHead else (m.entries j).expireNext } := by
  cases hN : (m.entries e).bucketNext with
  | none =>
    cases hP : (m.entries e).bucketPrev <;>
      simp only [remove, hN, hP, entryFree, modifyEntry, modifyBucket, Function.update_apply] <;>
      split_ifs <;> simp_all
  | some n =>
    have hne : e ≠ n := fun h ↦ hn (by rw [hN, h])
    cases hP : (m.entries e).bucketPrev <;>
      simp only [remove, hN, hP, entryFree, modifyEntry, modifyBucket, Function.update_apply,
        if_neg hne] <;> split_ifs <;> simp_all

theorem buckets_remove (m : CommitMap) (e b : ℕ) : (m.remove e).buckets b =
    if b = hashXid (m.entries e).xid then
      ⟨if (m.entries e).bucketPrev = none then (m.entries e).bucketNext else (m.buckets b).head,
        if (m.entries e).bucketNext = none then (m.entries e).bucketPrev else (m.buckets b).tail⟩
    else m.buckets b := by
  cases hN : (m.entries e).bucketNext <;> cases hP : (m.entries e).bucketPrev <;>
    simp only [remove, hN, hP, entryFree, modifyEntry, modifyBucket, Function.update_apply] <;>
    split_ifs <;> simp_all

/-- **`CommitMapRemove`**, link by link: the neighbours of the entry in its bucket are pointed at
each other, the entry goes to the head of the free list, and no xid or xstamp changes. -/
theorem remove_spec (m : CommitMap) (e : ℕ) (hn : (m.entries e).bucketNext ≠ some e) :
    (m.remove e).bucketNexts =
        updateAt m.bucketNexts (m.entries e).bucketPrev (m.entries e).bucketNext ∧
      (m.remove e).bucketPrevs =
        updateAt m.bucketPrevs (m.entries e).bucketNext (m.entries e).bucketPrev ∧
      (m.remove e).expireNexts = Function.update m.expireNexts e m.freeHead ∧
      (∀ j, ((m.remove e).entries j).xid = (m.entries j).xid ∧
        ((m.remove e).entries j).xstamp = (m.entries j).xstamp) ∧
      (m.remove e).freeHead = some e ∧ (m.remove e).expireHead = m.expireHead ∧
      (m.remove e).expireTail = m.expireTail := by
  have key := fun j ↦ entries_remove m e j hn
  refine ⟨funext fun j ↦ ?_, funext fun j ↦ ?_, funext fun j ↦ ?_, fun j ↦ by simp [key], ?_, ?_, ?_⟩
  · cases hP : (m.entries e).bucketPrev <;> simp [bucketNexts, key, hP, updateAt, Function.update_apply, eq_comm]
  · cases hN : (m.entries e).bucketNext <;> simp [bucketPrevs, key, hN, updateAt, Function.update_apply, eq_comm]
  · simp [expireNexts, key, Function.update_apply]
  · simp only [remove, entryFree]
  all_goals
    simp only [remove, entryFree]
    split <;> split <;> rfl

theorem entries_addToExpireChain (j : ℕ) :
    (m.addToExpireChain e).entries j = { m.entries j with
      expirePrev := if j = e then m.expireTail else (m.entries j).expirePrev,
      expireNext := if some j = m.expireTail then some e
        else if j = e then none else (m.entries j).expireNext } := by
  cases hT : m.expireTail <;>
    simp only [addToExpireChain, hT, modifyEntry, Function.update_apply] <;>
    split_ifs <;> simp_all

@[simp]
theorem buckets_addToExpireChain : (m.addToExpireChain e).buckets = m.buckets := by
  simp only [addToExpireChain]
  split <;> rfl

@[simp]
theorem freeHead_addToExpireChain : (m.addToExpireChain e).freeHead = m.freeHead := by
  simp only [addToExpireChain]
  split <;> rfl

@[simp]
theorem expireHead_addToExpireChain :
    (m.addToExpireChain e).expireHead = m.expireHead.or (some e) := by
  simp only [addToExpireChain]
  split <;> rfl

@[simp]
theorem expireTail_addToExpireChain : (m.addToExpireChain e).expireTail = some e := by
  simp only [addToExpireChain]

theorem entries_addToBucket (j : ℕ) :
    (m.addToBucket e).entries j = { m.entries j with
      bucketPrev := if j = e then (m.buckets (hashXid (m.entries e).xid)).tail
        else (m.entries j).bucketPrev,
      bucketNext := if some j = (m.buckets (hashXid (m.entries e).xid)).tail then some e
        else if j = e then none else (m.entries j).bucketNext } := by
  cases hB : (m.buckets (hashXid (m.entries e).xid)).tail <;>
    simp only [addToBucket, hB, modifyEntry, modifyBucket, Function.update_apply] <;>
    split_ifs <;> simp_all

theorem buckets_addToBucket (b : ℕ) :
    (m.addToBucket e).buckets b = if b = hashXid (m.entries e).xid then
      ⟨(m.buckets b).head.or (some e), some e⟩ else m.buckets b := by
  simp only [addToBucket]
  split <;> simp [modifyEntry, modifyBucket, Function.update_apply] <;> split_ifs <;> simp_all

@[simp]
theorem expireHead_addToBucket : (m.addToBucket e).expireHead = m.expireHead := by
  simp only [addToBucket]
  split <;> rfl

@[simp]
theorem expireTail_addToBucket : (m.addToBucket e).expireTail = m.expireTail := by
  simp only [addToBucket]
  split <;> rfl

@[simp]
theorem freeHead_addToBucket : (m.addToBucket e).freeHead = m.freeHead := by
  simp only [addToBucket]
  split <;> rfl

/-- **`CommitMapAddEntry`**: when the chain stays ordered, `e` is appended to the expire chain and
to its bucket, link by link, and no xid or xstamp changes. -/
theorem addEntry_spec (hA : m.expireTail.all fun t ↦ (m.entries t).xstamp < (m.entries e).xstamp) :
    ∃ m', m.addEntry e = some m' ∧
      m'.expireNexts = updateAt (Function.update m.expireNexts e none) m.expireTail (some e) ∧
      m'.bucketNexts = updateAt (Function.update m.bucketNexts e none)
        (m.buckets (hashXid (m.entries e).xid)).tail (some e) ∧
      m'.bucketPrevs = Function.update m.bucketPrevs e
        (m.buckets (hashXid (m.entries e).xid)).tail ∧
      (∀ j, (m'.entries j).xid = (m.entries j).xid ∧ (m'.entries j).xstamp = (m.entries j).xstamp) ∧
      (∀ b, m'.buckets b = if b = hashXid (m.entries e).xid then
          ⟨(m.buckets b).head.or (some e), some e⟩ else m.buckets b) ∧
      m'.expireHead = m.expireHead.or (some e) ∧ m'.expireTail = some e ∧
      m'.freeHead = m.freeHead := by
  have hx : ((m.addToExpireChain e).entries e).xid = (m.entries e).xid := by
    simp [entries_addToExpireChain]
  refine ⟨_, if_pos hA, funext fun j ↦ ?_, funext fun j ↦ ?_, funext fun j ↦ ?_, fun j ↦ ?_,
    fun b ↦ ?_, by simp, by simp, by simp⟩
  · cases hT : m.expireTail <;>
      simp [expireNexts, entries_addToBucket, entries_addToExpireChain, hT, updateAt,
        Function.update_apply, eq_comm]
  · cases hB : (m.buckets (hashXid (m.entries e).xid)).tail <;>
      simp [bucketNexts, entries_addToBucket, entries_addToExpireChain, hB, updateAt,
        Function.update_apply, eq_comm]
  · simp [bucketPrevs, entries_addToBucket, entries_addToExpireChain, Function.update_apply]
  · simp [entries_addToBucket, entries_addToExpireChain]
  · simp [buckets_addToBucket, hx]

/-- **`CommitMapEntryAlloc`** takes the head of the free list. -/
theorem entryAlloc_eq (h : m.freeHead = some e) :
    m.entryAlloc = some ({ m with freeHead := (m.entries e).expireNext }, e) := by
  simp [entryAlloc, h]

end CommitMap

/-! ## The abstract map -/

namespace CommitMapCall

/-- What a call does to the pairs the map holds, oldest first. -/
def apply (l : List (ℕ × ℕ)) : CommitMapCall → List (ℕ × ℕ)
  | .add xid xstamp => l ++ [(xid, xstamp)]
  | .expire e => l.filter fun p ↦ e ≤ p.2

/-- The pairs a run of calls leaves in the map. -/
def liveAfter (cs : List CommitMapCall) : List (ℕ × ℕ) := cs.foldl apply []

/-- The pairs a run of calls adds, in order. -/
def added (cs : List CommitMapCall) : List (ℕ × ℕ) :=
  cs.filterMap fun
    | .add xid xstamp => some (xid, xstamp)
    | .expire _ => none

end CommitMapCall

end TxCache
