import Mathlib
import TxCache.Lib.Lookup3

/-!
# The hash-table template

`lib/tmpl/hashtable-impl.h` keeps its values in intrusive chains. Each value holds a link field
`FIELD` with `next`, the value after it in its bucket, and `pprev`, the address of the pointer that
points to it: the bucket itself for the first value of a chain, the `next` field of the value
before it otherwise. `HT_Insert` puts a value at the head of its bucket and repoints the old head's
`pprev` to the new value's `next`; `HT_Expand` does the same for every value, chain after chain,
into an array twice as large, once the count passes three quarters of the buckets.

## What `HT_Unlink` leaves behind

`HT_Unlink` writes the value's `next` through its `pprev` and decrements the count. It does not
repoint the `pprev` of the value after it, which still names the `next` field of the value just
unlinked. Unlinking two neighbours, the first and then the second, so writes the second one's
successor into the first one's `next`, and the bucket keeps pointing to the second
(`unlink_unlink_head`). `Store_ClearStats` unlinks every value of the class-statistics table as it
iterates over it, which is exactly that order: once two classes share a bucket, the table counts no
value but still finds the statistics of one of them, and a second `Store_ClearStats` takes the
count below zero.

`HT_Iter` tests `*bucket` before `bucket < end`, so on a table whose buckets are all empty it reads
`buckets[hashsize(power)]`, one past the array (`iterScan_replicate`).

## The model

Values are their addresses, and the link fields of the values in memory are a function of them. A
`VALUE_t **` is a `Slot`: a bucket of the current array, or the `next` field of a value. The loops
that follow a chain take fuel and give `none` when it runs out, as a chain with a cycle makes them
do whatever the fuel. `PARANOID` is `0`, so `HT_Insert` does not look for the key first.
-/

namespace TxCache

/-- A `VALUE_t **` of the template: a bucket of the table's array, or the `next` field of the link
of the value at an address. -/
inductive HT.Slot where
  | bucket (i : ℕ)
  | next (v : ℕ)
deriving DecidableEq, Repr

/-- `HT_Link_t`, the link field of a value, with the key it was inserted under (`key` and
`keyLen`). -/
structure HT.Link where
  next : Option ℕ
  pprev : HT.Slot
  key : List UInt8
deriving DecidableEq, Repr

/-- `HT_t` at the address `addr`, with the link fields of the values in memory. -/
structure HT where
  addr : ℕ
  power : ℕ
  count : ℤ
  buckets : List (Option ℕ)
  links : ℕ → HT.Link

namespace HT

/-- `hashsize(n)`. -/
def hashsize (n : ℕ) : ℕ := 2 ^ n

/-- `INITIAL_POWER`. -/
def initialPower : ℕ := 10

/-- `HT_Init` of the table at `addr`: `INITIAL_POWER`, no value, every bucket `NULL`. -/
def init (addr : ℕ) (links : ℕ → Link) : HT :=
  ⟨addr, initialPower, 0, List.replicate (hashsize initialPower) none, links⟩

/-- The bucket `HT_GetBucket` picks for `key` in a table at `addr` with `power`:
`hash(key, keyLen, seed) & hashmask(power)`, the seed being the address cut to 32 bits. -/
def bucketOf (addr power : ℕ) (key : List UInt8) : ℕ :=
  (hash key addr.toUInt32 &&& (hashsize power - 1).toUInt32).toNat

/-- `HT_GetBucket`. -/
def getBucket (ht : HT) (key : List UInt8) : ℕ := bucketOf ht.addr ht.power key

/-- `*bucket` for the bucket `i` of the array. -/
def bucketAt (ht : HT) (i : ℕ) : Option ℕ := ht.buckets.getD i none

/-- `HT_KeyCmp`: the same length and the same bytes. -/
def keyCmp (l : Link) (key : List UInt8) : Bool := l.key.length == key.length && l.key == key

/-- The link field of `v` changed by `f`. -/
def modifyLink (ht : HT) (v : ℕ) (f : Link → Link) : HT :=
  { ht with links := Function.update ht.links v (f (ht.links v)) }

/-- `*slot = p`. -/
def writeSlot (ht : HT) : Slot → Option ℕ → HT
  | .bucket i, p => { ht with buckets := ht.buckets.set i p }
  | .next v, p => ht.modifyLink v fun l ↦ { l with next := p }

/-- The loop of `HT_Get` from `link`: the first value of the chain with the key, `some none` at
the end of the chain, `none` when it has not ended after `fuel` values. -/
def findLoop (ht : HT) (key : List UInt8) : ℕ → Option ℕ → Option (Option ℕ)
  | _, none => some none
  | 0, some _ => none
  | n + 1, some v =>
    if keyCmp (ht.links v) key then some (some v) else ht.findLoop key n (ht.links v).next

/-- `HT_Get`. -/
def get (ht : HT) (key : List UInt8) (fuel : ℕ) : Option (Option ℕ) :=
  ht.findLoop key fuel (ht.bucketAt (ht.getBucket key))

/-- The linking-in that `HT_Insert` and `HT_Expand` share: `v` goes to the head of bucket `b`,
and the old head's `pprev` to `v`'s `next`. -/
def pushFront (ht : HT) (v b : ℕ) : HT :=
  let head := ht.bucketAt b
  let ht := match head with
    | some h => ht.modifyLink h fun l ↦ { l with pprev := .next v }
    | none => ht
  let ht := ht.modifyLink v fun l ↦ { l with next := head, pprev := .bucket b }
  { ht with buckets := ht.buckets.set b (some v) }

/-- One chain of the old array in `HT_Expand`: each value, its `next` read first, goes to the head
of its bucket in the new array. -/
def relinkChain : ℕ → HT → Option ℕ → Option HT
  | _, t, none => some t
  | 0, _, some _ => none
  | n + 1, t, some v => relinkChain n (t.pushFront v (t.getBucket (t.links v).key)) (t.links v).next

/-- `HT_Expand`: `power` goes up by one, the new array is empty, and the chains of the old array
are walked bucket by bucket. -/
def expand (fuel : ℕ) (ht : HT) : Option HT :=
  let old := ht.buckets
  let ht := { ht with power := ht.power + 1,
                      buckets := List.replicate (hashsize (ht.power + 1)) none }
  (List.range (hashsize (ht.power - 1))).foldlM (fun t i ↦ relinkChain fuel t (old.getD i none)) ht

/-- `HT_Insert`: the key goes into the link, the value to the head of its bucket, and the table
expands once `hashsize(power) * LOAD_FACTOR < count`, `LOAD_FACTOR` being three quarters. -/
def insert (fuel : ℕ) (ht : HT) (v : ℕ) (key : List UInt8) : Option HT :=
  let b := ht.getBucket key
  let ht := ht.modifyLink v fun l ↦ { l with key := key }
  let ht := ht.pushFront v b
  let ht := { ht with count := ht.count + 1 }
  if (3 * hashsize ht.power : ℤ) < 4 * ht.count then ht.expand fuel else some ht

/-- `HT_Unlink`: `*value->FIELD.pprev = value->FIELD.next`, and one value less. The `pprev` of
the value after it is left as it was. -/
def unlink (ht : HT) (v : ℕ) : HT :=
  let l := ht.links v
  { ht.writeSlot l.pprev l.next with count := ht.count - 1 }

/-- `HT_Iter_t`: the bucket of the value to be returned next, and that value. -/
structure Iter where
  bucket : ℕ
  next : Option ℕ
deriving DecidableEq, Repr

/-- The scan of `HT_Iter` over the buckets from the index `i`. `while (!(*bucket) && bucket <
end)` reads `*bucket` before it compares `bucket` with `end`, so a scan past every bucket reads
one beyond the array: `.error` with the index it reads. -/
def iterScan : List (Option ℕ) → ℕ → Except ℕ ℕ
  | [], i => .error i
  | some _ :: _, i => .ok i
  | none :: bs, i => iterScan bs (i + 1)

/-- `HT_Iter`. -/
def iter (ht : HT) : Except ℕ Iter :=
  (iterScan ht.buckets 0).map fun i ↦ ⟨i, if i = hashsize ht.power then none else ht.bucketAt i⟩

/-- `do ++iter->bucket; while (iter->bucket < end && !(*iter->bucket));` over the buckets after
the current one, from the index `i`: the next bucket with a value, or the end. -/
def skipEmpty : List (Option ℕ) → ℕ → ℕ
  | [], i => i
  | some _ :: _, i => i
  | none :: bs, i => skipEmpty bs (i + 1)

/-- `HT_IterNext`: the value returned, and the iterator moved past it. -/
def iterNext (ht : HT) (it : Iter) : Option ℕ × Iter :=
  match it.next with
  | none => (none, it)
  | some res =>
    match (ht.links res).next with
    | some n => (some res, { it with next := some n })
    | none =>
      let b := skipEmpty (ht.buckets.drop (it.bucket + 1)) (it.bucket + 1)
      (some res, ⟨b, if b < hashsize ht.power then ht.bucketAt b else none⟩)

/-! ## What each operation writes

One lemma for each field an operation changes, so that the runs below never unfold it again. -/

section Fields

variable {ht : HT} {v w b i : ℕ}

theorem bucketOf_lt {addr power : ℕ} (key : List UInt8) (h : power ≤ 32) :
    bucketOf addr power key < hashsize power := by
  have hpos : 0 < hashsize power := Nat.two_pow_pos _
  have hle : hashsize power ≤ 2 ^ 32 := Nat.pow_le_pow_right (by decide) h
  have hmask : (hashsize power - 1).toUInt32.toNat = hashsize power - 1 := by
    rw [Nat.toUInt32_eq, UInt32.toNat_ofNat', Nat.mod_eq_of_lt (by omega)]
  unfold bucketOf
  rw [UInt32.toNat_and, hmask]
  have := @Nat.and_le_right (hash key addr.toUInt32).toNat (hashsize power - 1)
  omega

@[simp] theorem getBucket_modifyLink (f : Link → Link) :
    (ht.modifyLink v f).getBucket = ht.getBucket := rfl

@[simp] theorem buckets_modifyLink (f : Link → Link) : (ht.modifyLink v f).buckets = ht.buckets :=
  rfl

@[simp] theorem count_modifyLink (f : Link → Link) : (ht.modifyLink v f).count = ht.count := rfl

@[simp] theorem power_modifyLink (f : Link → Link) : (ht.modifyLink v f).power = ht.power := rfl

@[simp] theorem addr_modifyLink (f : Link → Link) : (ht.modifyLink v f).addr = ht.addr := rfl

@[simp] theorem bucketAt_modifyLink (f : Link → Link) : (ht.modifyLink v f).bucketAt = ht.bucketAt :=
  rfl

theorem links_modifyLink (f : Link → Link) :
    (ht.modifyLink v f).links w = if w = v then f (ht.links v) else ht.links w := by
  simp [modifyLink, Function.update_apply]

@[simp] theorem getBucket_pushFront : (ht.pushFront v b).getBucket = ht.getBucket := by
  simp only [pushFront]
  cases ht.bucketAt b <;> rfl

@[simp] theorem count_pushFront : (ht.pushFront v b).count = ht.count := by
  simp only [pushFront]
  cases ht.bucketAt b <;> rfl

@[simp] theorem addr_pushFront : (ht.pushFront v b).addr = ht.addr := by
  simp only [pushFront]
  cases ht.bucketAt b <;> rfl

@[simp] theorem power_pushFront : (ht.pushFront v b).power = ht.power := by
  simp only [pushFront]
  cases ht.bucketAt b <;> rfl

theorem buckets_pushFront : (ht.pushFront v b).buckets = ht.buckets.set b (some v) := by
  simp only [pushFront]
  cases ht.bucketAt b <;> rfl


theorem links_pushFront_self :
    (ht.pushFront v b).links v = { ht.links v with next := ht.bucketAt b, pprev := .bucket b } := by
  simp only [pushFront]
  cases ht.bucketAt b with
  | none => simp [links_modifyLink]
  | some h =>
    by_cases hv : v = h
    · subst hv
      simp [links_modifyLink]
    · simp [links_modifyLink, hv]

theorem links_pushFront_head {h : ℕ} (hh : ht.bucketAt b = some h) (hne : h ≠ v) :
    (ht.pushFront v b).links h = { ht.links h with pprev := .next v } := by
  simp [pushFront, hh, links_modifyLink, hne]

theorem links_pushFront_of_ne (hw : w ≠ v) (hh : ht.bucketAt b ≠ some w) :
    (ht.pushFront v b).links w = ht.links w := by
  simp only [pushFront]
  cases hb : ht.bucketAt b with
  | none => simp [links_modifyLink, hw]
  | some h =>
    have hhw : w ≠ h := fun e ↦ hh (by rw [hb, e])
    simp [links_modifyLink, hw, hhw]

theorem insert_eq (h : 4 * (ht.count + 1) ≤ 3 * (hashsize ht.power : ℤ)) (fuel : ℕ)
    (key : List UInt8) :
    ht.insert fuel v key =
      some ⟨ht.addr, ht.power, ht.count + 1, ht.buckets.set (ht.getBucket key) (some v),
        ((ht.modifyLink v fun l ↦ { l with key := key }).pushFront v (ht.getBucket key)).links⟩ := by
  unfold insert
  rw [if_neg (by simpa using h)]
  simp [addr_pushFront, buckets_pushFront]

/-- **`HT_Insert` when the count stays within three quarters of the buckets**, field by field:
the value goes to the head of its bucket with the old head as its `next`, the old head's `pprev`
moves to the value, and every other link is as it was. -/
theorem insert_spec (fuel v : ℕ) (key : List UInt8)
    (h : 4 * (ht.count + 1) ≤ 3 * (hashsize ht.power : ℤ)) :
    ∃ ht', ht.insert fuel v key = some ht' ∧ ht'.addr = ht.addr ∧ ht'.power = ht.power ∧
      ht'.count = ht.count + 1 ∧ ht'.buckets = ht.buckets.set (ht.getBucket key) (some v) ∧
      ht'.links v = ⟨ht.bucketAt (ht.getBucket key), .bucket (ht.getBucket key), key⟩ ∧
      (∀ u, ht.bucketAt (ht.getBucket key) = some u → u ≠ v →
        ht'.links u = { ht.links u with pprev := .next v }) ∧
      ∀ u, u ≠ v → ht.bucketAt (ht.getBucket key) ≠ some u → ht'.links u = ht.links u := by
  refine ⟨_, insert_eq h fuel key, rfl, rfl, rfl, rfl, ?_, fun u hu huv ↦ ?_, fun u huv hu ↦ ?_⟩
  · rw [links_pushFront_self, links_modifyLink, if_pos rfl]
    rfl
  · rw [links_pushFront_head (by simpa using hu) huv, links_modifyLink, if_neg huv]
  · rw [links_pushFront_of_ne huv (by simpa using hu), links_modifyLink, if_neg huv]

theorem unlink_of_bucket (h : (ht.links v).pprev = .bucket b) :
    ht.unlink v = ⟨ht.addr, ht.power, ht.count - 1, ht.buckets.set b (ht.links v).next, ht.links⟩ := by
  simp [unlink, h, writeSlot]

theorem unlink_of_next (h : (ht.links v).pprev = .next w) :
    ht.unlink v = ⟨ht.addr, ht.power, ht.count - 1, ht.buckets,
      Function.update ht.links w { ht.links w with next := (ht.links v).next }⟩ := by
  simp [unlink, h, writeSlot, modifyLink]

end Fields

/-! ## What `HT_Get` finds -/

section Get

variable {ht : HT} {v : ℕ} {key : List UInt8}

theorem keyCmp_iff {l : Link} : keyCmp l key = true ↔ l.key = key := by
  simp only [keyCmp, Bool.and_eq_true, beq_iff_eq, and_iff_right_iff_imp]
  rintro rfl
  rfl

theorem get_of_empty (h : ht.bucketAt (ht.getBucket key) = none) (fuel : ℕ) :
    ht.get key fuel = some none := by
  unfold get
  rw [h]
  cases fuel <;> rfl

theorem get_of_head (h : ht.bucketAt (ht.getBucket key) = some v) (hk : (ht.links v).key = key)
    (n : ℕ) : ht.get key (n + 1) = some (some v) := by
  unfold get
  rw [h, findLoop, if_pos (keyCmp_iff.mpr hk)]

theorem get_of_head_ne (h : ht.bucketAt (ht.getBucket key) = some v) (hk : (ht.links v).key ≠ key)
    (hn : (ht.links v).next = none) (n : ℕ) : ht.get key (n + 1) = some none := by
  unfold get
  rw [h, findLoop, if_neg (by simpa [keyCmp_iff] using hk), hn]
  cases n <;> rfl

/-- **A value just inserted is found**: `HT_Insert` puts it at the head of its bucket. -/
theorem get_insert {fuel n : ℕ} {ht' : HT} (hb : ht.getBucket key < ht.buckets.length)
    (h : 4 * (ht.count + 1) ≤ 3 * (hashsize ht.power : ℤ)) (hi : ht.insert fuel v key = some ht') :
    ht'.get key (n + 1) = some (some v) := by
  rw [insert_eq h, Option.some.injEq] at hi
  subst hi
  apply get_of_head
  · show (ht.buckets.set (ht.getBucket key) (some v)).getD (ht.getBucket key) none = some v
    simp [List.getD_eq_getElem?_getD, hb]
  · show (((ht.modifyLink v _).pushFront v _).links v).key = key
    rw [links_pushFront_self, links_modifyLink, if_pos rfl]

end Get

/-! ## The iteration

`HT_Iter` and `HT_IterNext` over arrays with at most one bucket in use, which is all the runs below
need. -/

section Iter

/-- **`HT_Iter` on empty buckets reads one past them**: the scan tests `*bucket` first. -/
theorem iterScan_replicate (n i : ℕ) : iterScan (List.replicate n none) i = .error (i + n) := by
  induction n generalizing i with
  | zero => rfl
  | succ n ih =>
    rw [List.replicate_succ, iterScan, ih]
    congr 1
    omega

theorem iterScan_set_replicate {n b : ℕ} (v : ℕ) (hb : b < n) (i : ℕ) :
    iterScan ((List.replicate n none).set b (some v)) i = .ok (i + b) := by
  induction b generalizing n i with
  | zero =>
    obtain ⟨m, rfl⟩ := Nat.exists_eq_add_of_lt hb
    rfl
  | succ b ih =>
    obtain ⟨m, rfl⟩ := Nat.exists_eq_add_of_le' (Nat.one_le_of_lt hb)
    rw [List.replicate_succ, List.set_cons_succ, iterScan, ih (by omega)]
    congr 1
    omega

theorem skipEmpty_replicate (n i : ℕ) : skipEmpty (List.replicate n none) i = i + n := by
  induction n generalizing i with
  | zero => rfl
  | succ n ih =>
    rw [List.replicate_succ, skipEmpty, ih]
    omega

theorem skipEmpty_after_set {n b : ℕ} (p : Option ℕ) (hb : b < n) :
    skipEmpty (((List.replicate n none).set b p).drop (b + 1)) (b + 1) = n := by
  rw [List.drop_set, if_pos (Nat.lt_succ_self b), List.drop_replicate, skipEmpty_replicate]
  omega

end Iter

/-! ## What `HT_Unlink` leaves behind -/

/-- **Unlinking the first two values of a chain, the first and then the second, leaves the second
in the bucket.** The second one's `pprev` still names the first one's `next`, and that is where
`HT_Unlink` writes its successor; the bucket keeps the second, whose link is as it was. -/
theorem unlink_unlink_head {ht : HT} {b v₁ v₂ : ℕ} (hv : v₁ ≠ v₂)
    (hpp₂ : (ht.links v₂).pprev = .bucket b) (hn₂ : (ht.links v₂).next = some v₁)
    (hpp₁ : (ht.links v₁).pprev = .next v₂) :
    ((ht.unlink v₂).unlink v₁).buckets = ht.buckets.set b (some v₁) ∧
      ((ht.unlink v₂).unlink v₁).links v₁ = ht.links v₁ ∧
      ((ht.unlink v₂).unlink v₁).count = ht.count - 2 := by
  -- the first unlink wrote the bucket only: the second value's `pprev` still names `v₂`'s `next`
  have hpp₁' : ((ht.unlink v₂).links v₁).pprev = .next v₂ := by
    rw [unlink_of_bucket hpp₂]
    exact hpp₁
  rw [unlink_of_next hpp₁', unlink_of_bucket hpp₂, hn₂]
  refine ⟨rfl, ?_, ?_⟩
  · simp [hv]
  · show ht.count - 1 - 1 = ht.count - 2
    omega

end HT

namespace Store

/-- The loop of `Store_ClearStats`: each value `HT_IterNext` returns is unlinked. -/
def clearStatsLoop : ℕ → HT → HT.Iter → Option HT
  | 0, _, _ => none
  | n + 1, cs, it =>
    match cs.iterNext it with
    | (none, _) => some cs
    | (some v, it) => clearStatsLoop n (cs.unlink v) it

/-- `Store_ClearStats` on the class-statistics table (the totals it zeroes are not modelled):
`.error` with the index of a bucket read outside the array. -/
def clearStats (fuel : ℕ) (cs : HT) : Except ℕ (Option HT) :=
  cs.iter.map (clearStatsLoop fuel cs)

/-- `Store_GetClassStats` for the class name `cls`: the statistics found under it, or new ones at
`fresh`, where `malloc` put them, inserted under it. -/
def getClassStats (fuel : ℕ) (cs : HT) (cls : List UInt8) (fresh : ℕ) : Option (HT × ℕ) :=
  (cs.get cls fuel).bind fun
    | some v => some (cs, v)
    | none => (cs.insert fuel fresh cls).map fun cs ↦ (cs, fresh)

/-! ## Clearing the class statistics

Two classes whose names share a bucket are enough: `Store_ClearStats` unlinks the second, which
heads the chain, and then the first, whose `pprev` still names the second's `next`. -/

section ClearStats

variable {n : ℕ} {cs : HT} {it : HT.Iter} {v : ℕ}

theorem clearStatsLoop_next {m : ℕ} (hit : it.next = some v) (hn : (cs.links v).next = some m) :
    clearStatsLoop (n + 1) cs it = clearStatsLoop n (cs.unlink v) { it with next := some m } := by
  simp [clearStatsLoop, HT.iterNext, hit, hn]

theorem clearStatsLoop_last (hit : it.next = some v) (hn : (cs.links v).next = none)
    (hrest : HT.skipEmpty (cs.buckets.drop (it.bucket + 1)) (it.bucket + 1) = HT.hashsize cs.power) :
    clearStatsLoop (n + 1) cs it = clearStatsLoop n (cs.unlink v) ⟨HT.hashsize cs.power, none⟩ := by
  simp [clearStatsLoop, HT.iterNext, hit, hn, hrest]

theorem clearStatsLoop_done (i : ℕ) : clearStatsLoop (n + 1) cs ⟨i, none⟩ = some cs := rfl

theorem iter_of_set {b : ℕ} (hb : b < HT.hashsize cs.power)
    (hbs : cs.buckets = (List.replicate (HT.hashsize cs.power) none).set b (some v)) :
    cs.iter = .ok ⟨b, some v⟩ := by
  have hhead : cs.bucketAt b = some v := by
    simp [HT.bucketAt, hbs, List.getD_eq_getElem?_getD, hb]
  simp only [HT.iter, hbs, HT.iterScan_set_replicate v hb, Nat.zero_add, Except.map,
    if_neg (Nat.ne_of_lt hb)]
  rw [hhead]

theorem clearStats_pair {b v₁ v₂ : ℕ} (hv : v₁ ≠ v₂) (hb : b < HT.hashsize cs.power)
    (hbs : cs.buckets = (List.replicate (HT.hashsize cs.power) none).set b (some v₂))
    (hpp₂ : (cs.links v₂).pprev = .bucket b) (hn₂ : (cs.links v₂).next = some v₁)
    (hpp₁ : (cs.links v₁).pprev = .next v₂) (hn₁ : (cs.links v₁).next = none) :
    ∃ cs', clearStats (n + 3) cs = .ok (some cs') ∧ cs'.addr = cs.addr ∧ cs'.power = cs.power ∧
      cs'.buckets = (List.replicate (HT.hashsize cs.power) none).set b (some v₁) ∧
      cs'.links v₁ = cs.links v₁ ∧ cs'.count = cs.count - 2 := by
  obtain ⟨hbs', hl', hc'⟩ := HT.unlink_unlink_head hv hpp₂ hn₂ hpp₁
  refine ⟨(cs.unlink v₂).unlink v₁, ?_, ?_, ?_, by rw [hbs', hbs, List.set_set], hl', hc'⟩
  · have hl₁ : (cs.unlink v₂).links v₁ = cs.links v₁ := by rw [HT.unlink_of_bucket hpp₂]
    have hbs₁ : (cs.unlink v₂).buckets = (List.replicate (HT.hashsize cs.power) none).set b (some v₁) := by
      rw [HT.unlink_of_bucket hpp₂, hn₂, hbs]
      exact List.set_set _
    have hrest : HT.skipEmpty ((cs.unlink v₂).buckets.drop (b + 1)) (b + 1) =
        HT.hashsize (cs.unlink v₂).power := by
      rw [hbs₁, HT.skipEmpty_after_set _ hb]
      rw [HT.unlink_of_bucket hpp₂]
    simp only [clearStats, iter_of_set hb hbs, Except.map]
    rw [clearStatsLoop_next rfl hn₂, clearStatsLoop_last rfl (by rw [hl₁, hn₁]) hrest,
      clearStatsLoop_done]
  all_goals rw [HT.unlink_of_next (w := v₂) (by rw [HT.unlink_of_bucket hpp₂]; exact hpp₁),
      HT.unlink_of_bucket hpp₂]

theorem clearStats_single {b v₁ w : ℕ} (hb : b < HT.hashsize cs.power)
    (hbs : cs.buckets = (List.replicate (HT.hashsize cs.power) none).set b (some v₁))
    (hpp₁ : (cs.links v₁).pprev = .next w) (hn₁ : (cs.links v₁).next = none) :
    ∃ cs', clearStats (n + 3) cs = .ok (some cs') ∧ cs'.count = cs.count - 1 := by
  have hrest : HT.skipEmpty (cs.buckets.drop (b + 1)) (b + 1) = HT.hashsize cs.power := by
    rw [hbs, HT.skipEmpty_after_set _ hb]
  refine ⟨cs.unlink v₁, ?_, by rw [HT.unlink_of_next hpp₁]⟩
  simp only [clearStats, iter_of_set hb hbs, Except.map]
  rw [clearStatsLoop_last rfl hn₁ hrest, clearStatsLoop_done]

theorem getClassStats_collide (addr : ℕ) (links : ℕ → HT.Link) {k₁ k₂ : List UInt8} {v₁ v₂ : ℕ}
    (hk : k₁ ≠ k₂) (hv : v₁ ≠ v₂)
    (hb : HT.bucketOf addr HT.initialPower k₁ = HT.bucketOf addr HT.initialPower k₂) (n : ℕ) :
    ∃ cs₁ cs₂, getClassStats (n + 1) (HT.init addr links) k₁ v₁ = some (cs₁, v₁) ∧
      getClassStats (n + 1) cs₁ k₂ v₂ = some (cs₂, v₂) ∧ cs₂.addr = addr ∧
      cs₂.power = HT.initialPower ∧ cs₂.count = 2 ∧
      cs₂.buckets = (List.replicate (HT.hashsize HT.initialPower) none).set
        (HT.bucketOf addr HT.initialPower k₁) (some v₂) ∧
      cs₂.links v₂ = ⟨some v₁, .bucket (HT.bucketOf addr HT.initialPower k₁), k₂⟩ ∧
      cs₂.links v₁ = ⟨none, .next v₂, k₁⟩ := by
  have hbl : HT.bucketOf addr HT.initialPower k₁ < HT.hashsize HT.initialPower :=
    HT.bucketOf_lt k₁ (by decide)
  have hempty : (HT.init addr links).bucketAt ((HT.init addr links).getBucket k₁) = none := by
    simp [HT.init, HT.bucketAt, List.getD_eq_getElem?_getD]
  obtain ⟨cs₁, hi₁, ha₁, hp₁, hc₁, hbs₁, hl₁, -, -⟩ :=
    (HT.init addr links).insert_spec (n + 1) v₁ k₁
      (show (4 : ℤ) * (0 + 1) ≤ 3 * (HT.hashsize HT.initialPower : ℤ) by decide)
  have h₁ : getClassStats (n + 1) (HT.init addr links) k₁ v₁ = some (cs₁, v₁) := by
    simp [getClassStats, HT.get_of_empty hempty, hi₁]
  have hgb : cs₁.getBucket k₂ = HT.bucketOf addr HT.initialPower k₁ := by
    rw [HT.getBucket, ha₁, hp₁, hb]
    rfl
  have hhead : cs₁.bucketAt (cs₁.getBucket k₂) = some v₁ := by
    rw [hgb]
    simp [HT.bucketAt, hbs₁, List.getD_eq_getElem?_getD, HT.init, hbl, HT.getBucket]
  have hl₁' : cs₁.links v₁ = ⟨none, .bucket (HT.bucketOf addr HT.initialPower k₁), k₁⟩ := by
    rw [hl₁, hempty]
    rfl
  obtain ⟨cs₂, hi₂, ha₂, hp₂, hc₂, hbs₂, hl₂, hh₂, -⟩ :=
    cs₁.insert_spec (n + 1) v₂ k₂ (by
      rw [hc₁, hp₁]
      show (4 : ℤ) * (0 + 1 + 1) ≤ 3 * (HT.hashsize HT.initialPower : ℤ)
      decide)
  have h₂ : getClassStats (n + 1) cs₁ k₂ v₂ = some (cs₂, v₂) := by
    have hg : cs₁.get k₂ (n + 1) = some none :=
      HT.get_of_head_ne hhead (by rw [hl₁']; exact hk) (by rw [hl₁']) n
    simp [getClassStats, hg, hi₂]
  refine ⟨cs₁, cs₂, h₁, h₂, by rw [ha₂, ha₁]; rfl, by rw [hp₂, hp₁]; rfl, by rw [hc₂, hc₁]; rfl,
    ?_, ?_, ?_⟩
  · rw [hbs₂, hgb, hbs₁]
    exact List.set_set _
  · rw [hl₂, hhead, hgb]
  · rw [hh₂ v₁ hhead hv, hl₁']

end ClearStats

/-- **`Store_ClearStats` leaves a value it unlinked in the table.** From `HT_Init`, two classes
whose names share a bucket are looked up and inserted; `Store_ClearStats` then unlinks both and
the count is `0`, but `HT_Get` of the first class still returns its statistics, and a second
`Store_ClearStats` unlinks them again and takes the count to `-1`. On a table that has seen no
class, `Store_ClearStats` reads the bucket one past the array. -/
theorem clearStats_keeps_unlinked_stats (addr : ℕ) (links : ℕ → HT.Link) {k₁ k₂ : List UInt8}
    {v₁ v₂ : ℕ} (hk : k₁ ≠ k₂) (hv : v₁ ≠ v₂)
    (hb : HT.bucketOf addr HT.initialPower k₁ = HT.bucketOf addr HT.initialPower k₂) (n : ℕ) :
    clearStats (n + 3) (HT.init addr links) = .error (HT.hashsize HT.initialPower) ∧
    ∃ cs₁ cs₂ cs₃ cs₄, getClassStats (n + 3) (HT.init addr links) k₁ v₁ = some (cs₁, v₁) ∧
      getClassStats (n + 3) cs₁ k₂ v₂ = some (cs₂, v₂) ∧
      clearStats (n + 3) cs₂ = .ok (some cs₃) ∧ cs₃.count = 0 ∧
      cs₃.get k₁ (n + 3) = some (some v₁) ∧
      clearStats (n + 3) cs₃ = .ok (some cs₄) ∧ cs₄.count = -1 := by
  have hbl : HT.bucketOf addr HT.initialPower k₁ < HT.hashsize HT.initialPower :=
    HT.bucketOf_lt k₁ (by decide)
  refine ⟨?_, ?_⟩
  · -- no class yet: the scan of `HT_Iter` runs off the array
    simp [clearStats, HT.iter, HT.init, HT.iterScan_replicate, Except.map]
  obtain ⟨cs₁, cs₂, h₁, h₂, ha₂, hp₂, hc₂, hbs₂, hl₂, hl₁⟩ :=
    getClassStats_collide addr links hk hv hb (n + 2)
  -- the first `Store_ClearStats` unlinks `v₂` and then `v₁`, and the bucket keeps `v₁`
  obtain ⟨cs₃, hcl₃, ha₃, hp₃, hbs₃, hl₃, hc₃⟩ := clearStats_pair (n := n) hv
    (by rw [hp₂]; exact hbl) (by rw [hp₂]; exact hbs₂) (by rw [hl₂]) (by rw [hl₂]) (by rw [hl₁])
    (by rw [hl₁])
  obtain ⟨cs₄, hcl₄, hc₄⟩ := clearStats_single (n := n) (by rw [hp₃, hp₂]; exact hbl)
    (by rw [hbs₃, hp₃]) (by rw [hl₃, hl₁]) (by rw [hl₃, hl₁])
  refine ⟨cs₁, cs₂, cs₃, cs₄, h₁, h₂, hcl₃, by rw [hc₃, hc₂]; rfl, ?_, hcl₄,
    by rw [hc₄, hc₃, hc₂]; rfl⟩
  apply HT.get_of_head
  · rw [HT.getBucket, ha₃, hp₃, ha₂, hp₂]
    simp [HT.bucketAt, hbs₃, hp₂, List.getD_eq_getElem?_getD, hbl]
  · rw [hl₃, hl₁]

/-- Memory whose every link field holds zeroes. -/
def zeroLinks : ℕ → HT.Link := fun _ ↦ ⟨none, .bucket 0, []⟩

/-- The class names `"j"` and `"y"` share bucket 426 of a table at address `0x10000`. -/
theorem clearStats_j_y :
    [106] ≠ ([121] : List UInt8) ∧ (1 : ℕ) ≠ 2 ∧
    HT.bucketOf 0x10000 HT.initialPower [106] = HT.bucketOf 0x10000 HT.initialPower [121] ∧
    (clearStats 3 (HT.init 0x10000 zeroLinks) = .error (HT.hashsize HT.initialPower) ∧
      ∃ cs₁ cs₂ cs₃ cs₄, getClassStats 3 (HT.init 0x10000 zeroLinks) [106] 1 = some (cs₁, 1) ∧
        getClassStats 3 cs₁ [121] 2 = some (cs₂, 2) ∧
        clearStats 3 cs₂ = .ok (some cs₃) ∧ cs₃.count = 0 ∧
        cs₃.get [106] 3 = some (some 1) ∧
        clearStats 3 cs₃ = .ok (some cs₄) ∧ cs₄.count = -1) :=
  ⟨by decide, by decide, by decide,
    clearStats_keeps_unlinked_stats 0x10000 zeroLinks (by decide) (by decide) (by decide) 0⟩

end Store

end TxCache
