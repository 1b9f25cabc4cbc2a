import TxCache.Postgres.CommitMap

/-!
# The commit map refines a finite map with prefix expiry

`CommitMapAdd` and `CommitMapExpire` keep the entries of `xstamp.c` in three linked structures at
once: the expire chain from `expireHead`, the free list from `freeHead`, which share the
`expireNext` links, and the doubly linked list of each bucket. This module says how they lie in a
commit map that the calls have built from `CommitMapInit`, and what the map then holds.

## The invariant

`Layout m live free` relates the map to two lists of entry indices, the live entries in the order
of the expire chain and the free list in its order:

* the free list and the chain visit `free` and `live` and end in `NULL`;
* `live` and `free` together are the entry array, each index once;
* bucket `h` links, both ways, exactly the live entries whose xid hashes to `h`, in chain order;
* the chain's xstamps increase, and `expireHead` and `expireTail` are its ends.

`Lists` is the same without the two ends: `CommitMapExpire` moves `expireHead` only after its
loop, and inside the loop the entries not yet visited are laid out by `Lists`.

## The refinement

The pairs `(xid, xstamp)` of the live entries, in chain order, are `CommitMapCall.liveAfter` of the
calls: each `add` appends its pair, each `expire e` keeps the pairs with `e ≤ xstamp`. Since the
chain is ordered, the prefix that `CommitMapExpire` walks is exactly the pairs that filter drops.
With distinct xids, `CommitMapLookup` then finds a pair's xstamp by its xid.
-/

namespace TxCache

open Links

/-! ## The abstract map -/

namespace CommitMapCall

@[simp]
theorem liveAfter_nil : liveAfter [] = [] := rfl

theorem liveAfter_concat (cs : List CommitMapCall) (c : CommitMapCall) :
    liveAfter (cs ++ [c]) = apply (liveAfter cs) c := List.foldl_concat _ _ _ _

@[simp]
theorem added_concat_add (cs : List CommitMapCall) (xid x : ℕ) :
    added (cs ++ [.add xid x]) = added cs ++ [(xid, x)] := by
  simp [added]

@[simp]
theorem added_concat_expire (cs : List CommitMapCall) (e : ℕ) :
    added (cs ++ [.expire e]) = added cs := by
  simp [added]

theorem liveAfter_sublist_added (cs : List CommitMapCall) : (liveAfter cs).Sublist (added cs) := by
  induction cs using List.reverseRecOn with
  | nil => exact List.Sublist.slnil
  | append_singleton cs c ih =>
    rw [liveAfter_concat]
    cases c with
    | add xid x => simpa [apply] using ih
    | expire e => simpa [apply] using List.filter_sublist.trans ih

theorem concat_eq_append_add_iff {cs pre rest : List CommitMapCall} {c : CommitMapCall}
    {xid x : ℕ} : cs ++ [c] = pre ++ .add xid x :: rest ↔
      (rest = [] ∧ pre = cs ∧ c = .add xid x) ∨
      ∃ rest', rest = rest' ++ [c] ∧ cs = pre ++ .add xid x :: rest' := by
  induction rest using List.reverseRecOn with
  | nil =>
    rw [← List.concat_eq_append, ← List.concat_eq_append, List.concat_inj]
    constructor
    · rintro ⟨rfl, rfl⟩
      exact .inl ⟨rfl, rfl, rfl⟩
    · rintro (⟨-, rfl, rfl⟩ | ⟨rest', h, -⟩)
      · exact ⟨rfl, rfl⟩
      · simp at h
  | append_singleton rest d _ =>
    rw [← List.cons_append, ← List.append_assoc, ← List.concat_eq_append,
      ← List.concat_eq_append, List.concat_inj]
    constructor
    · rintro ⟨rfl, rfl⟩
      exact .inr ⟨rest, rfl, rfl⟩
    · rintro (⟨h, -⟩ | ⟨rest', h, rfl⟩)
      · simp at h
      · rw [← List.concat_eq_append, ← List.concat_eq_append, List.concat_inj] at h
        obtain ⟨rfl, rfl⟩ := h
        exact ⟨rfl, rfl⟩

/-- **Prefix expiry.** A pair is held after a run exactly when it was added and no later
`expire` asked for a larger xstamp. -/
theorem mem_liveAfter_iff (cs : List CommitMapCall) (xid x : ℕ) :
    (xid, x) ∈ liveAfter cs ↔
      ∃ pre rest, cs = pre ++ .add xid x :: rest ∧ ∀ e, .expire e ∈ rest → e ≤ x := by
  induction cs using List.reverseRecOn with
  | nil => simp
  | append_singleton cs c ih =>
    simp only [liveAfter_concat, concat_eq_append_add_iff]
    cases c with
    | add a b =>
      simp only [apply, List.mem_append, ih, List.mem_singleton]
      constructor
      · rintro (⟨pre, rest, rfl, hr⟩ | h)
        · exact ⟨pre, rest ++ [.add a b], .inr ⟨rest, rfl, rfl⟩, by simpa using hr⟩
        · obtain ⟨rfl, rfl⟩ := Prod.mk.inj h
          exact ⟨cs, [], .inl ⟨rfl, rfl, rfl⟩, by simp⟩
      · rintro ⟨pre, rest, (⟨rfl, rfl, h⟩ | ⟨rest', rfl, rfl⟩), hr⟩
        · cases h
          exact .inr rfl
        · exact .inl ⟨pre, rest', rfl, fun e he ↦ hr e (by simp [he])⟩
    | expire e =>
      simp only [apply, List.mem_filter, ih, decide_eq_true_eq]
      constructor
      · rintro ⟨⟨pre, rest, rfl, hr⟩, he⟩
        refine ⟨pre, rest ++ [.expire e], .inr ⟨rest, rfl, rfl⟩, fun e' he' ↦ ?_⟩
        rcases List.mem_append.mp he' with h | h
        · exact hr e' h
        · cases List.mem_singleton.mp h
          exact he
      · rintro ⟨pre, rest, (⟨-, -, h⟩ | ⟨rest', rfl, rfl⟩), hr⟩
        · cases h
        · exact ⟨⟨pre, rest', rfl, fun e' he' ↦ hr e' (by simp [he'])⟩, hr e (by simp)⟩

end CommitMapCall

/-! ## The invariant -/

namespace CommitMap

/-- Bucket `h` links, both ways, the entries of `live` whose xid hashes to `h`, in order, from its
head to its tail. -/
def BucketLinked (m : CommitMap) (live : List ℕ) (h : ℕ) : Prop :=
  DLinked m.bucketNexts m.bucketPrevs none (m.inBucket live h) none ∧
    (m.buckets h).head = (m.inBucket live h).head? ∧
    (m.buckets h).tail = (m.inBucket live h).getLast?

/-- The free list, the chain of live entries and the buckets, laid out over `live` and `free`. -/
structure Lists (m : CommitMap) (live free : List ℕ) : Prop where
  /-- The free list visits `free`. -/
  freeList : Seg m.expireNexts m.freeHead free none
  /-- Following `expireNext` from the first live entry visits the live entries. -/
  chain : Seg m.expireNexts live.head? live none
  /-- The live entries and the free list are the entry array, each entry once. -/
  partition : (live ++ free).Perm (List.range maxCommitMapEntries)
  /-- Each bucket links its live entries. -/
  buckets : ∀ h < commitMapBuckets, m.BucketLinked live h
  /-- The chain is ordered by xstamp. -/
  sorted : (live.map fun i ↦ (m.entries i).xstamp).Pairwise (· < ·)

/-- **The layout of a commit map**: `Lists`, with the chain's ends in `expireHead` and
`expireTail`. -/
structure Layout (m : CommitMap) (live free : List ℕ) : Prop extends m.Lists live free where
  /-- `expireHead` is the first live entry. -/
  head : m.expireHead = live.head?
  /-- `expireTail` is the last live entry. -/
  tail : m.expireTail = live.getLast?

variable {m : CommitMap} {live free : List ℕ}

theorem Lists.nodup (hL : m.Lists live free) : (live ++ free).Nodup :=
  hL.partition.nodup_iff.mpr List.nodup_range

theorem Lists.length_add (hL : m.Lists live free) :
    live.length + free.length = maxCommitMapEntries := by
  simpa using hL.partition.length_eq

/-! ## `CommitMapInit` -/

theorem buckets_foldl_clear (l : List ℕ) (m : CommitMap) (h : ℕ) :
    (l.foldl (fun m h ↦ m.modifyBucket h fun _ ↦ ⟨none, none⟩) m).buckets h =
      if h ∈ l then ⟨none, none⟩ else m.buckets h := by
  induction l generalizing m with
  | nil => simp
  | cons b l ih =>
    rw [List.foldl_cons, ih]
    by_cases hl : h ∈ l
    · simp [hl]
    · by_cases hb : h = b
      · simp [hb, modifyBucket]
      · simp [hl, hb, modifyBucket]

theorem foldl_entryFree (l F : List ℕ) (m : CommitMap) (hF : Seg m.expireNexts m.freeHead F none)
    (hnd : (l ++ F).Nodup) :
    Seg (l.foldl entryFree m).expireNexts (l.foldl entryFree m).freeHead (l.reverse ++ F) none ∧
      (l.foldl entryFree m).buckets = m.buckets ∧
      (l.foldl entryFree m).expireHead = m.expireHead ∧
      (l.foldl entryFree m).expireTail = m.expireTail := by
  induction l generalizing m F with
  | nil => exact ⟨hF, rfl, rfl, rfl⟩
  | cons e l ih =>
    obtain ⟨hnext, -, -, -, hb, hfree, hhead, htail⟩ := entryFree_spec m e
    have heF : e ∉ F := fun h ↦ (List.nodup_cons.mp hnd).1 (List.mem_append_right l h)
    have hF' : Seg (m.entryFree e).expireNexts (m.entryFree e).freeHead (e :: F) none := by
      rw [hfree, hnext]
      refine .cons e ?_
      rw [Function.update_self]
      exact hF.congr fun q hq ↦ Function.update_of_ne (ne_of_mem_of_not_mem hq heF) _ _
    have hnd' : (l ++ e :: F).Nodup := List.perm_middle.nodup_iff.mpr hnd
    obtain ⟨hs, hbs, hhs, hts⟩ := ih (e :: F) (m.entryFree e) hF' hnd'
    exact ⟨by simpa using hs, hbs.trans hb, hhs.trans hhead, hts.trans htail⟩

/-- **`CommitMapInit`** lays out an empty map over any memory: no live entry, and every entry on
the free list, the last one first. -/
theorem layout_init (m : CommitMap) :
    (init m).Layout [] (List.range maxCommitMapEntries).reverse := by
  unfold init
  obtain ⟨hfree, hbuckets, hhead, htail⟩ := foldl_entryFree (List.range maxCommitMapEntries) []
    { (List.range commitMapBuckets).foldl (fun m h ↦ m.modifyBucket h fun _ ↦ ⟨none, none⟩) m with
      expireHead := none, expireTail := none, freeHead := none } (.nil none)
    (by simpa using List.nodup_range)
  refine ⟨⟨by simpa using hfree, .nil none, by rw [List.nil_append]; exact List.reverse_perm _,
    fun h hh ↦ ?_, List.Pairwise.nil⟩, hhead, htail⟩
  have hclear : ((List.range maxCommitMapEntries).foldl entryFree
      { (List.range commitMapBuckets).foldl (fun m h ↦ m.modifyBucket h fun _ ↦ ⟨none, none⟩) m with
        expireHead := none, expireTail := none, freeHead := none }).buckets h = ⟨none, none⟩ := by
    rw [hbuckets, buckets_foldl_clear, if_pos (List.mem_range.mpr hh)]
  simp [BucketLinked, inBucket, hclear]

/-! ## `CommitMapAdd` -/

theorem mem_inBucket {live : List ℕ} {h i : ℕ} :
    i ∈ m.inBucket live h ↔ i ∈ live ∧ hashXid (m.entries i).xid = h := by
  simp [inBucket]

theorem inBucket_concat (live : List ℕ) (e h : ℕ) :
    m.inBucket (live ++ [e]) h =
      m.inBucket live h ++ if hashXid (m.entries e).xid = h then [e] else [] := by
  by_cases he : hashXid (m.entries e).xid = h <;> simp [inBucket, he]

theorem BucketLinked.congr {m' : CommitMap} {h : ℕ} (hb : m.BucketLinked live h)
    (hn : m'.bucketNexts = m.bucketNexts) (hp : m'.bucketPrevs = m.bucketPrevs)
    (hbk : m'.buckets = m.buckets) (hxid : ∀ j ∈ live, (m'.entries j).xid = (m.entries j).xid) :
    m'.BucketLinked live h := by
  rw [BucketLinked, inBucket_congr hxid, hn, hp, hbk]
  exact hb

theorem Lists.alloc (hL : m.Lists live free) (hroom : live.length < maxCommitMapEntries) :
    ∃ e free', free = e :: free' ∧ m.freeHead = some e ∧
      Seg m.expireNexts (m.expireNexts e) free' none := by
  cases free with
  | nil => exact absurd hL.length_add (by simpa using hroom.ne)
  | cons e free' => exact ⟨e, free', rfl, Seg.cons_iff.mp hL.freeList⟩

theorem Lists.room_of_add (hL : m.Lists live free) {xid x : ℕ} (h : (m.add xid x).isSome) :
    live.length < maxCommitMapEntries := by
  cases free with
  | nil =>
    have hfh : m.freeHead = none := Seg.nil_iff.mp hL.freeList
    simp [add, entryAlloc, hfh] at h
  | cons e free' =>
    have hlen := hL.length_add
    rw [List.length_cons] at hlen
    omega

theorem bucketLinked_concat {m' : CommitMap} {e : ℕ}
    (hb : ∀ h < commitMapBuckets, m.BucketLinked live h) (hnd : live.Nodup) (he : e ∉ live)
    (hnext : m'.bucketNexts = updateAt (Function.update m.bucketNexts e none)
      (m.buckets (hashXid (m.entries e).xid)).tail (some e))
    (hprev : m'.bucketPrevs =
      Function.update m.bucketPrevs e (m.buckets (hashXid (m.entries e).xid)).tail)
    (hxid : ∀ j, (m'.entries j).xid = (m.entries j).xid)
    (hbk : ∀ b, m'.buckets b = if b = hashXid (m.entries e).xid then
      ⟨(m.buckets b).head.or (some e), some e⟩ else m.buckets b) :
    ∀ h < commitMapBuckets, m'.BucketLinked (live ++ [e]) h := by
  intro h hh
  obtain ⟨hd, hhead, htail⟩ := hb h hh
  have heb : e ∉ m.inBucket live h := fun hm ↦ he (mem_inBucket.mp hm).1
  rw [BucketLinked, inBucket_congr fun j _ ↦ hxid j, inBucket_concat, hbk h]
  by_cases hx : hashXid (m.entries e).xid = h
  · -- the entry's own bucket: `DLinked.push_back` at its tail
    subst hx
    rw [if_pos rfl, if_pos rfl, hnext, hprev, htail]
    refine ⟨hd.push_back (hnd.filter _) heb, ?_, by simp⟩
    simp [hhead]
  · -- another bucket: the tail written to lies in the entry's bucket, not in this one
    have hhx : hashXid (m.entries e).xid < commitMapBuckets := Nat.mod_lt _ (by decide)
    have hout : ∀ q ∈ (m.buckets (hashXid (m.entries e).xid)).tail, q ∉ m.inBucket live h := by
      intro q hq hqh
      rw [(hb _ hhx).2.2] at hq
      exact hx ((mem_inBucket.mp (List.mem_of_getLast? hq)).2.symm.trans (mem_inBucket.mp hqh).2)
    rw [if_neg (Ne.symm hx), if_neg hx, List.append_nil]
    refine ⟨hd.congr (fun q hq ↦ ?_) (fun q hq ↦ ?_), hhead, htail⟩
    · rw [hnext, updateAt_of_not_mem hout q hq, Function.update_of_ne (ne_of_mem_of_not_mem hq heb)]
    · rw [hprev, Function.update_of_ne (ne_of_mem_of_not_mem hq heb)]

/-- **`CommitMapAdd`** of a pair newer than every live entry, while an entry is free: the head of
the free list is filled with the pair and appended to the chain and to its bucket. -/
theorem Layout.add (hL : m.Layout live free) (hroom : live.length < maxCommitMapEntries)
    (xid : ℕ) {x : ℕ} (hx : ∀ i ∈ live, (m.entries i).xstamp < x) :
    ∃ m' e free', m.add xid x = some m' ∧ free = e :: free' ∧ m'.Layout (live ++ [e]) free' ∧
      m'.pairs (live ++ [e]) = m.pairs live ++ [(xid, x)] := by
  obtain ⟨e, free', rfl, hfh, hfs⟩ := hL.alloc hroom
  have hnd := hL.nodup
  have he : e ∉ live := fun h ↦ List.disjoint_of_nodup_append hnd h (List.mem_cons_self ..)
  have hfree' : ∀ q ∈ free', q ∉ live ∧ q ≠ e := fun q hq ↦
    ⟨fun h ↦ List.disjoint_of_nodup_append hnd h (List.mem_cons_of_mem e hq),
      fun h ↦ (List.nodup_cons.mp (List.Nodup.of_append_right hnd)).1 (h ▸ hq)⟩
  set m₂ := ({ m with freeHead := (m.entries e).expireNext } : CommitMap).modifyEntry e
    fun y ↦ { y with xid := xid, xstamp := x } with hm₂
  have hadd : m.add xid x = m₂.addEntry e := by
    simp only [add, entryAlloc_eq hfh, Option.bind_some, hm₂]
  have hent : ∀ j, m₂.entries j =
      if j = e then { m.entries e with xid := xid, xstamp := x } else m.entries j :=
    fun j ↦ entries_modifyEntry _ j
  have hlinks : m₂.expireNexts = m.expireNexts ∧ m₂.bucketNexts = m.bucketNexts ∧
      m₂.bucketPrevs = m.bucketPrevs := by
    refine ⟨funext fun j ↦ ?_, funext fun j ↦ ?_, funext fun j ↦ ?_⟩ <;>
      by_cases hj : j = e <;> simp [expireNexts, bucketNexts, bucketPrevs, hent, hj]
  have hlive : ∀ j ∈ live, (m₂.entries j).xid = (m.entries j).xid ∧
      (m₂.entries j).xstamp = (m.entries j).xstamp := fun j hj ↦ by
    simp [hent, ne_of_mem_of_not_mem hj he]
  have hA : m₂.expireTail.all fun t ↦ (m₂.entries t).xstamp < (m₂.entries e).xstamp := by
    rw [show m₂.expireTail = live.getLast? from hL.tail]
    cases hlast : live.getLast? with
    | none => rfl
    | some t =>
      have ht := List.mem_of_getLast? hlast
      simp only [Option.all_some, decide_eq_true_eq]
      rw [(hlive t ht).2]
      simpa [hent] using hx t ht
  obtain ⟨m', hm', hexp, hbn, hbp, hkeep, hbk, hhead, htail, hfreeHead⟩ := addEntry_spec hA
  have htail₂ : m₂.expireTail = live.getLast? := hL.tail
  refine ⟨m', e, free', hadd.trans hm', rfl, ⟨⟨?_, ?_, ?_, ?_, ?_⟩, ?_, ?_⟩, ?_⟩
  · rw [hfreeHead, hexp, hlinks.1, htail₂]
    refine hfs.congr fun q hq ↦ ?_
    rw [updateAt_of_ne fun h ↦ (hfree' q hq).1 (List.mem_of_getLast? h),
      Function.update_of_ne (hfree' q hq).2]
  · rw [hexp, hlinks.1, htail₂, List.head?_append]
    exact (hL.chain.push_back (List.Nodup.of_append_left hnd) he)
  · simpa using hL.partition
  · exact bucketLinked_concat (fun h hh ↦ (hL.buckets h hh).congr hlinks.2.1 hlinks.2.2 rfl
      fun j hj ↦ (hlive j hj).1) (List.Nodup.of_append_left hnd) he hbn hbp
      (fun j ↦ (hkeep j).1) hbk
  · have hs : (live.map fun i ↦ (m'.entries i).xstamp) = live.map fun i ↦ (m.entries i).xstamp :=
      List.map_congr_left fun j hj ↦ by rw [(hkeep j).2, (hlive j hj).2]
    rw [List.map_append, hs, List.pairwise_append]
    refine ⟨hL.sorted, by simp, ?_⟩
    simpa [(hkeep e).2, hent] using hx
  · rw [hhead, show m₂.expireHead = live.head? from hL.head, List.head?_append]
    rfl
  · rw [htail, List.getLast?_concat]
  · rw [pairs_congr fun j _ ↦ hkeep j, pairs, List.map_append, ← pairs,
      pairs_congr fun j hj ↦ hlive j hj]
    simp [hent]

/-! ## `CommitMapExpire` -/

theorem inBucket_cons_self (i : ℕ) (rest : List ℕ) :
    m.inBucket (i :: rest) (hashXid (m.entries i).xid) =
      i :: m.inBucket rest (hashXid (m.entries i).xid) := by
  simp [inBucket]

theorem BucketLinked.head_links {i : ℕ} {rest : List ℕ}
    (hb : m.BucketLinked (i :: rest) (hashXid (m.entries i).xid)) :
    (m.entries i).bucketPrev = none ∧
      (m.entries i).bucketNext = (m.inBucket rest (hashXid (m.entries i).xid)).head? := by
  have hd := hb.1
  rw [inBucket_cons_self] at hd
  obtain ⟨hprev, hnext, -⟩ := DLinked.cons_iff.mp hd
  exact ⟨hprev, hnext.trans Option.or_none⟩

theorem bucketLinked_remove {i : ℕ} {rest : List ℕ}
    (hb : ∀ h < commitMapBuckets, m.BucketLinked (i :: rest) h) (hnd : (i :: rest).Nodup)
    (hn : (m.entries i).bucketNext ≠ some i) :
    ∀ h < commitMapBuckets, (m.remove i).BucketLinked rest h := by
  obtain ⟨hbn, hbp, -, hkeep, -, -, -⟩ := remove_spec m i hn
  have hhi : hashXid (m.entries i).xid < commitMapBuckets := Nat.mod_lt _ (by decide)
  obtain ⟨hprev, hnext⟩ := (hb _ hhi).head_links
  intro h hh
  rw [BucketLinked, inBucket_congr fun j _ ↦ (hkeep j).1, buckets_remove]
  by_cases hx : h = hashXid (m.entries i).xid
  · subst hx
    obtain ⟨hd, hhead, htail⟩ := hb _ hhi
    rw [inBucket_cons_self] at hd hhead htail
    have hd' : DLinked m.bucketNexts m.bucketPrevs none
        ([] ++ i :: m.inBucket rest (hashXid (m.entries i).xid)) none := hd
    have hndb : ([] ++ i :: m.inBucket rest (hashXid (m.entries i).xid)).Nodup := by
      rw [List.nil_append, ← inBucket_cons_self]
      exact hnd.filter _
    refine ⟨?_, ?_, ?_⟩
    · have hul := hd'.unlink hndb
      rw [List.nil_append] at hul
      rw [hbn, hbp]
      exact hul
    · simp [hprev, hnext]
    · cases hr : m.inBucket rest (hashXid (m.entries i).xid) with
      | nil => simp [hprev, hnext, hr]
      | cons q l => simp [hnext, hr, htail]
  · have hrest : m.inBucket (i :: rest) h = m.inBucket rest h := by
      simp [inBucket, Ne.symm hx]
    obtain ⟨hd, hhead, htail⟩ := hb h hh
    rw [hrest] at hd hhead htail
    have hout : ∀ q ∈ (m.entries i).bucketNext, q ∉ m.inBucket rest h := by
      intro q hq hqh
      rw [hnext] at hq
      have hq' := mem_inBucket.mp (List.mem_of_mem_head? hq)
      exact hx ((mem_inBucket.mp hqh).2.symm.trans hq'.2)
    rw [if_neg hx]
    refine ⟨hd.congr (fun q _ ↦ ?_) (fun q hq ↦ ?_), hhead, htail⟩
    · rw [hbn, hprev, updateAt_none]
    · rw [hbp, updateAt_of_not_mem hout q hq]

theorem Lists.remove_head {i : ℕ} {rest : List ℕ} (hL : m.Lists (i :: rest) free) :
    (m.entries i).expireNext = rest.head? ∧ (m.remove i).Lists rest (i :: free) ∧
      (∀ j, ((m.remove i).entries j).xid = (m.entries j).xid ∧
        ((m.remove i).entries j).xstamp = (m.entries j).xstamp) ∧
      (m.remove i).expireHead = m.expireHead ∧ (m.remove i).expireTail = m.expireTail := by
  have hnd := hL.nodup
  have hi : i ∉ rest := (List.nodup_cons.mp (List.Nodup.of_append_left hnd)).1
  have hif : i ∉ free := fun h ↦ List.disjoint_of_nodup_append hnd (List.mem_cons_self ..) h
  have hhi : hashXid (m.entries i).xid < commitMapBuckets := Nat.mod_lt _ (by decide)
  have hn : (m.entries i).bucketNext ≠ some i := by
    intro h
    rw [(hL.buckets _ hhi).head_links.2] at h
    exact hi (mem_inBucket.mp (List.mem_of_mem_head? h)).1
  obtain ⟨-, -, hexn, hkeep, hfree, hhead, htail⟩ := remove_spec m i hn
  obtain ⟨-, hchain⟩ := Seg.cons_iff.mp hL.chain
  have hnext : m.expireNexts i = rest.head? := hchain.start.trans Option.or_none
  rw [hnext] at hchain
  refine ⟨hnext, ⟨?_, ?_, ?_, ?_, ?_⟩, hkeep, hhead, htail⟩
  · rw [hfree, hexn]
    refine .cons i ?_
    rw [Function.update_self]
    exact hL.freeList.congr fun q hq ↦ Function.update_of_ne (ne_of_mem_of_not_mem hq hif) _ _
  · rw [hexn]
    exact hchain.congr fun q hq ↦ Function.update_of_ne (ne_of_mem_of_not_mem hq hi) _ _
  · exact List.perm_middle.trans hL.partition
  · exact bucketLinked_remove hL.buckets (List.Nodup.of_append_left hnd) hn
  · have hs := hL.sorted
    rw [List.map_cons, List.pairwise_cons] at hs
    rw [List.map_congr_left fun j _ ↦ (hkeep j).2]
    exact hs.2

/-- **The loop of `CommitMapExpire`** from the first live entry removes the entries older than
`earliestToKeep`, a prefix of the chain, onto the free list, and stops at the first one kept. -/
theorem expireLoop_spec (earliestToKeep : ℕ) (live : List ℕ) :
    ∀ (free : List ℕ) (m : CommitMap) (n : ℕ), m.Lists live free → live.length ≤ n →
      ∃ m', expireLoop earliestToKeep n m live.head? =
          some (m', (live.dropWhile fun i ↦ (m.entries i).xstamp < earliestToKeep).head?) ∧
        m'.Lists (live.dropWhile fun i ↦ (m.entries i).xstamp < earliestToKeep)
          ((live.takeWhile fun i ↦ (m.entries i).xstamp < earliestToKeep).reverse ++ free) ∧
        (∀ j, (m'.entries j).xid = (m.entries j).xid ∧
          (m'.entries j).xstamp = (m.entries j).xstamp) ∧
        m'.expireHead = m.expireHead ∧ m'.expireTail = m.expireTail := by
  -- induction on the live entries left, the fuel going down with them
  induction live with
  | nil =>
    intro free m n hL _
    refine ⟨m, ?_, by simpa using hL, fun _ ↦ ⟨rfl, rfl⟩, rfl, rfl⟩
    cases n <;> rfl
  | cons i rest ih =>
    intro free m n hL hn
    obtain ⟨n, rfl⟩ : ∃ k, n = k + 1 := ⟨n - 1, by simp at hn; omega⟩
    by_cases hold : (m.entries i).xstamp < earliestToKeep
    · obtain ⟨hnext, hL', hkeep, hhead, htail⟩ := hL.remove_head
      have hp : (fun j ↦ decide (((m.remove i).entries j).xstamp < earliestToKeep)) =
          fun j ↦ decide ((m.entries j).xstamp < earliestToKeep) :=
        funext fun j ↦ by rw [(hkeep j).2]
      obtain ⟨m', hloop, hL'', hkeep', hhead', htail'⟩ :=
        ih (i :: free) (m.remove i) n hL' (by simpa using hn)
      rw [hp] at hloop hL''
      refine ⟨m', ?_, ?_, fun j ↦ ?_, hhead'.trans hhead, htail'.trans htail⟩
      · simpa [expireLoop, hold, hnext] using hloop
      · simpa [hold] using hL''
      · rw [(hkeep' j).1, (hkeep' j).2, (hkeep j).1, (hkeep j).2]
        exact ⟨rfl, rfl⟩
    · refine ⟨m, ?_, by simpa [hold] using hL, fun _ ↦ ⟨rfl, rfl⟩, rfl, rfl⟩
      simp [expireLoop, hold]

theorem getLast?_dropWhile {l : List ℕ} {p : ℕ → Bool} (h : l.dropWhile p ≠ []) :
    (l.dropWhile p).getLast? = l.getLast? := by
  conv_rhs => rw [← List.takeWhile_append_dropWhile (p := p) (l := l)]
  rw [List.getLast?_append]
  cases hd : (l.dropWhile p).getLast? with
  | none => exact absurd (List.getLast?_eq_none_iff.mp hd) h
  | some q => rfl

theorem Lists.with_ends (hL : m.Lists live free) (a b : Option ℕ) :
    ({ m with expireHead := a, expireTail := b } : CommitMap).Lists live free :=
  ⟨hL.freeList, hL.chain, hL.partition, hL.buckets, hL.sorted⟩

/-- **`CommitMapExpire`** keeps the layout: the live entries become the suffix of the chain from
the first entry kept, and the pairs held are those with `earliestToKeep ≤ xstamp`. -/
theorem Layout.expire (hL : m.Layout live free) (earliestToKeep : ℕ) :
    ∃ m', m.expire earliestToKeep = some m' ∧
      m'.Layout (live.dropWhile fun i ↦ (m.entries i).xstamp < earliestToKeep)
        ((live.takeWhile fun i ↦ (m.entries i).xstamp < earliestToKeep).reverse ++ free) ∧
      m'.pairs (live.dropWhile fun i ↦ (m.entries i).xstamp < earliestToKeep) =
        (m.pairs live).filter fun p ↦ earliestToKeep ≤ p.2 := by
  have hlen : live.length ≤ maxCommitMapEntries := by
    have := hL.length_add
    omega
  obtain ⟨m', hloop, hL', hkeep, -, htail⟩ :=
    expireLoop_spec earliestToKeep live free m maxCommitMapEntries hL.toLists hlen
  refine ⟨{ m' with
      expireHead := (live.dropWhile fun i ↦ (m.entries i).xstamp < earliestToKeep).head?,
      expireTail := (live.dropWhile fun i ↦ (m.entries i).xstamp < earliestToKeep).head?.bind
        fun _ ↦ m'.expireTail },
    by rw [CommitMap.expire, hL.head, hloop]; rfl, ⟨hL'.with_ends _ _, rfl, ?_⟩, ?_⟩
  · change (List.dropWhile _ live).head?.bind (fun _ ↦ m'.expireTail) = _
    rw [htail, hL.tail]
    by_cases hne : (live.dropWhile fun i ↦ (m.entries i).xstamp < earliestToKeep) = []
    · rw [hne]
      rfl
    · obtain ⟨q, l, hd⟩ := List.exists_cons_of_ne_nil hne
      rw [getLast?_dropWhile hne, hd]
      rfl
  · -- the chain is ordered, so the prefix dropped is what the filter drops
    have hord : live.Pairwise fun a b ↦ decide ((m.entries b).xstamp < earliestToKeep) = true →
        decide ((m.entries a).xstamp < earliestToKeep) = true := by
      refine (List.pairwise_map.mp hL.sorted).imp fun hab hb ↦ ?_
      simp only [decide_eq_true_eq] at hb ⊢
      omega
    show m'.pairs _ = _
    rw [pairs_congr fun j _ ↦ hkeep j, pairs, List.dropWhile_eq_filter_of_pairwise hord, pairs,
      List.filter_map]
    congr 1
    refine List.filter_congr fun j _ ↦ ?_
    by_cases h : (m.entries j).xstamp < earliestToKeep
    · simp [h]
    · simp [h]
      omega

/-! ## `CommitMapLookup` -/

theorem lookupLoop_of_seg (xid : ℕ) {a : Option ℕ} {l : List ℕ} (hs : Seg m.bucketNexts a l none) :
    ∀ n, l.length ≤ n → m.lookupLoop xid n a =
      some (((l.find? fun i ↦ (m.entries i).xid = xid)).elim invalidXStamp
        fun i ↦ (m.entries i).xstamp) := by
  -- induction on the entries the walk visits, with the fuel going down with them
  induction l generalizing a with
  | nil =>
    intro n _
    rw [Seg.nil_iff.mp hs]
    cases n <;> rfl
  | cons p l ih =>
    intro n hn
    obtain ⟨rfl, hs'⟩ := Seg.cons_iff.mp hs
    obtain ⟨n, rfl⟩ : ∃ k, n = k + 1 := ⟨n - 1, by simp at hn; omega⟩
    by_cases hp : (m.entries p).xid = xid
    · simp [lookupLoop, hp]
    · simp only [lookupLoop, hp, if_false, List.find?_cons, decide_false]
      exact ih hs' n (by simpa using hn)

/-- **`CommitMapLookup`** on a laid-out map: the xstamp of the first live entry with the xid, in
chain order, or `InvalidXStamp` when there is none. -/
theorem Lists.lookup (hL : m.Lists live free) (xid : ℕ) :
    m.lookup xid = some (((live.find? fun i ↦ (m.entries i).xid = xid)).elim invalidXStamp
      fun i ↦ (m.entries i).xstamp) := by
  obtain ⟨hd, hhead, -⟩ := hL.buckets (hashXid xid) (Nat.mod_lt _ (by decide))
  have hs := hd.seg
  rw [Option.or_none, ← hhead] at hs
  have hlen : (m.inBucket live (hashXid xid)).length ≤ maxCommitMapEntries := by
    have := hL.length_add
    have := List.length_filter_le (fun i ↦ decide (hashXid (m.entries i).xid = hashXid xid)) live
    simp only [inBucket]
    omega
  rw [CommitMap.lookup, lookupLoop_of_seg xid hs _ hlen, inBucket, List.find?_filter]
  congr 2
  exact List.find?_congr fun j _ ↦ by
    by_cases hj : (m.entries j).xid = xid <;> simp [hj]

theorem Lists.lookup_of_mem (hL : m.Lists live free) (hnd : ((m.pairs live).map Prod.fst).Nodup)
    {xid x : ℕ} (hmem : (xid, x) ∈ m.pairs live) : m.lookup xid = some x := by
  obtain ⟨i, hi, hix⟩ := List.mem_map.mp hmem
  cases hf : live.find? fun j ↦ (m.entries j).xid = xid with
  | none =>
    have := List.find?_eq_none.mp hf i hi
    simp [(Prod.mk.inj hix).1] at this
  | some k =>
    have hk : (m.entries k).xid = xid := by simpa using List.find?_some hf
    have hkm : ((m.entries k).xid, (m.entries k).xstamp) ∈ m.pairs live :=
      List.mem_map.mpr ⟨k, List.mem_of_find?_eq_some hf, rfl⟩
    have hpair := List.inj_on_of_nodup_map hnd hkm hmem (by simp [hk])
    rw [hL.lookup, hf]
    simp [(Prod.mk.inj hpair).2]

theorem Lists.lookup_of_not_mem (hL : m.Lists live free) {xid : ℕ}
    (h : ∀ x, (xid, x) ∉ m.pairs live) : m.lookup xid = some invalidXStamp := by
  cases hf : live.find? fun j ↦ (m.entries j).xid = xid with
  | none => rw [hL.lookup, hf]; rfl
  | some k =>
    have hk : (m.entries k).xid = xid := by simpa using List.find?_some hf
    exact absurd (List.mem_map.mpr ⟨k, List.mem_of_find?_eq_some hf, by simp [hk]⟩)
      (h (m.entries k).xstamp)

theorem Lists.mem_of_lookup (hL : m.Lists live free) {xid x : ℕ} (h : m.lookup xid = some x)
    (hx : x ≠ invalidXStamp) : (xid, x) ∈ m.pairs live := by
  rw [hL.lookup] at h
  cases hf : live.find? fun j ↦ (m.entries j).xid = xid with
  | none =>
    rw [hf] at h
    exact absurd (Option.some.inj h).symm hx
  | some k =>
    rw [hf] at h
    have hk : (m.entries k).xid = xid := by simpa using List.find?_some hf
    rw [← Option.some.inj h, ← hk]
    exact List.mem_map.mpr ⟨k, List.mem_of_find?_eq_some hf, rfl⟩

/-! ## Runs of calls -/

open CommitMapCall

/-- **The layout along a run.** From `CommitMapInit`, a run of calls whose adds come in increasing
xstamp order, each while an entry is free, goes through, and leaves the map laid out over live
entries that hold `liveAfter` of the calls. -/
theorem runCalls_layout (m₀ : CommitMap) (calls : List CommitMapCall)
    (hx : (added calls).Pairwise fun p q ↦ p.2 < q.2)
    (hroom : ∀ pre xid x rest, calls = pre ++ .add xid x :: rest →
      (liveAfter pre).length < maxCommitMapEntries) :
    ∃ m live free, runCalls (init m₀) calls = some m ∧ m.Layout live free ∧
      m.pairs live = liveAfter calls := by
  induction calls using List.reverseRecOn with
  | nil => exact ⟨init m₀, [], _, rfl, layout_init m₀, rfl⟩
  | append_singleton calls c ih =>
    have hsub : (added calls).Sublist (added (calls ++ [c])) := by
      cases c <;> simp
    obtain ⟨m, live, free, hrun, hL, hp⟩ := ih (hx.sublist hsub)
      fun pre xid x rest h ↦ hroom pre xid x (rest ++ [c]) (by simp [h])
    have hstep : runCalls (init m₀) (calls ++ [c]) = m.call c := by
      simp only [runCalls] at hrun ⊢
      rw [List.foldlM_append, hrun]
      simp
    cases c with
    | add xid x =>
      have hroom' : live.length < maxCommitMapEntries := by
        have := hroom calls xid x [] rfl
        rwa [← hp, pairs, List.length_map] at this
      have hnew : ∀ i ∈ live, (m.entries i).xstamp < x := by
        intro i hi
        have hmem : ((m.entries i).xid, (m.entries i).xstamp) ∈ added calls :=
          (liveAfter_sublist_added calls).subset (hp ▸ List.mem_map.mpr ⟨i, hi, rfl⟩)
        rw [added_concat_add, List.pairwise_append] at hx
        exact hx.2.2 _ hmem _ (List.mem_singleton_self _)
      obtain ⟨m', e, free', hadd, -, hL', hp'⟩ := hL.add hroom' xid hnew
      exact ⟨m', live ++ [e], free', hstep.trans hadd, hL', by rw [hp', hp, liveAfter_concat]; rfl⟩
    | expire e =>
      obtain ⟨m', hexp, hL', hp'⟩ := hL.expire e
      exact ⟨m', _, _, hstep.trans hexp, hL', by rw [hp', hp, liveAfter_concat]; rfl⟩

/-- **The commit map refines a finite map with prefix expiry.** From `CommitMapInit`, after a run
of `CommitMapAdd` with distinct xids and increasing xstamps, each while an entry is free, and of
`CommitMapExpire`, the lookup of an xid returns the xstamp it was added with when no later expire
asked for more, and `InvalidXStamp` otherwise; the map is laid out over its live pairs. -/
theorem runCalls_refines_liveAfter (m₀ : CommitMap) (calls : List CommitMapCall)
    (hxid : ((added calls).map Prod.fst).Nodup)
    (hx : (added calls).Pairwise fun p q ↦ p.2 < q.2)
    (hroom : ∀ pre xid x rest, calls = pre ++ .add xid x :: rest →
      (liveAfter pre).length < maxCommitMapEntries) :
    ∃ m, runCalls (init m₀) calls = some m ∧
      (∀ xid x, (∃ pre rest, calls = pre ++ .add xid x :: rest ∧
          ∀ e, CommitMapCall.expire e ∈ rest → e ≤ x) →
        m.lookup xid = some x) ∧
      (∀ xid, (¬∃ x pre rest, calls = pre ++ .add xid x :: rest ∧
          ∀ e, CommitMapCall.expire e ∈ rest → e ≤ x) →
        m.lookup xid = some invalidXStamp) ∧
      ∃ live free, m.Layout live free ∧ m.pairs live = liveAfter calls := by
  obtain ⟨m, live, free, hrun, hL, hp⟩ := runCalls_layout m₀ calls hx hroom
  have hnd : ((m.pairs live).map Prod.fst).Nodup := by
    rw [hp]
    exact hxid.sublist ((liveAfter_sublist_added calls).map _)
  refine ⟨m, hrun, fun xid x h ↦ ?_, fun xid h ↦ ?_, live, free, hL, hp⟩
  · have hmem := (mem_liveAfter_iff calls xid x).mpr h
    rw [← hp] at hmem
    exact hL.lookup_of_mem hnd hmem
  · refine hL.lookup_of_not_mem fun x hmem ↦ h ⟨x, ?_⟩
    rw [hp] at hmem
    exact (mem_liveAfter_iff calls xid x).mp hmem

theorem room_of_added_length {calls : List CommitMapCall}
    (h : (added calls).length ≤ maxCommitMapEntries) :
    ∀ pre xid x rest, calls = pre ++ .add xid x :: rest →
      (liveAfter pre).length < maxCommitMapEntries := by
  rintro pre xid x rest rfl
  have hle := (liveAfter_sublist_added pre).length_le
  simp only [added, List.filterMap_append, List.filterMap_cons, List.length_append,
    List.length_cons] at h
  simp only [added] at hle
  omega

/-- Two xids of one bucket, the older expired: the newer is still found past it, and the older
reads as `InvalidXStamp`. -/
theorem runCalls_refines_bucket_pair :
    ∃ m, runCalls (init ⟨fun _ ↦ ⟨0, 0, none, none, none, none⟩, fun _ ↦ ⟨none, none⟩, none, none,
        none⟩) [CommitMapCall.add 5 1, .add 8197 2, .expire 2, .add 3 4] = some m ∧
      (∀ xid x, (∃ pre rest, [CommitMapCall.add 5 1, .add 8197 2, .expire 2, .add 3 4] =
          pre ++ .add xid x :: rest ∧ ∀ e, CommitMapCall.expire e ∈ rest → e ≤ x) →
        m.lookup xid = some x) ∧
      (∀ xid, (¬∃ x pre rest, [CommitMapCall.add 5 1, .add 8197 2, .expire 2, .add 3 4] =
          pre ++ .add xid x :: rest ∧ ∀ e, CommitMapCall.expire e ∈ rest → e ≤ x) →
        m.lookup xid = some invalidXStamp) ∧
      ∃ live free, m.Layout live free ∧
        m.pairs live = liveAfter [CommitMapCall.add 5 1, .add 8197 2, .expire 2, .add 3 4] :=
  runCalls_refines_liveAfter _ _ (by decide) (by decide) (room_of_added_length (by decide))

end CommitMap

end TxCache
