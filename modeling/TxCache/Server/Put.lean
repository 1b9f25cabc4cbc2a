import TxCache.Server.Invalidate

/-!
# Puts and lookups at the cache store

`Store_Put key interval data tags force` stores one version of a key. A still-valid interval must
come with tags, and is first checked against the invalidations the store has already seen: an
interval whose concrete upper bound is not newer than `lastInvalTime` may have been invalidated
before the put arrived (`Store_TruncateIfAlreadyInvalidated`). The put then looks at the latest
entry of the key that starts below its upper bound; it may implicitly invalidate that entry, extend
it (`Store_TryExtendInterval`), or be clipped so as not to overlap it, before the new entry is
added (`Store_Add`), evicting least recently used entries when the store is over its size.

`Store_Lookup` with the default policy (`LatestAcceptable_Lookup`) answers the latest entry of the
key below the requested upper bound when it overlaps the requested interval.
-/

namespace TxCache

namespace Store

variable (st : Store)

/-- `Store_TruncateIfAlreadyInvalidated`, for a still-valid interval. When the concrete upper bound
is not newer than `lastInvalTime`, the buffer is searched from the key `(upper, NULL)` on, and the
first buffered invalidation matching one of the put's tags ends the interval at its pin; an upper
bound older than the buffer can say anything about is made not still valid. -/
def truncateIfAlreadyInvalidated (interval : Interval) (tags : List (List Char)) : Interval :=
  if interval.upper > st.lastInvalTime then interval
  else if interval.upper ≤ st.bufferValidFrom then { interval with stillValid := false }
  else
    match (OrdList.fromGE StoreInvalBuffer.compareValue st.invalBuffer (interval.upper, none)).find?
        (fun ent ↦ tags.any (tagMatches ent.tag ent.descendants)) with
    | some ent => { interval with stillValid := false, upper := ent.pin }
    | none => interval

/-- `Store_TryExtendInterval`: when the new interval overlaps the existing entry, starts no earlier
and carries the same data, the entry's upper end is raised to the new one (or left alone when it
is not lower), and the put is done (`true`). In every other case the put goes on to add an entry;
a disagreement only produces a warning in C. -/
def tryExtendInterval (existing : Option Entry) (interval : Interval) (data : List UInt8) :
    Store × Bool :=
  match existing with
  | none => (st, false)
  | some e =>
    if !e.interval.overlaps interval st.lastInvalTime then (st, false)
    else if data ≠ e.data ∨ e.interval.lower > interval.lower then (st, false)
    else if e.interval.upper ≥ interval.upper then (st, true)
    else
      let st' := st.modifyEntry e.addr fun e ↦
        { e with interval := { e.interval with upper := interval.upper } }
      ({ st' with lru := e.addr :: st'.lru.erase e.addr }, true)

/-- `Store_Add`: evict if the new entry would take the store over `maxBytes`, then insert the entry
in its version set (which fails when an entry starts at the same pin), index its tags, put it on
the truncation list if it is not still valid, and account for it. -/
def add (key : List UInt8) (interval : Interval) (data : List UInt8) (tags : List (List Char))
    (time : ℤ) : Store × Bool :=
  let invalTagsLen := st.copyInvalTagsLen tags
  let cur := st.footprint
  let fp := st.entryFootprint data.length invalTagsLen
  let r := if cur + fp > st.maxBytes then st.evict (cur + fp - st.maxBytes) else (st, true)
  if !r.2 then (r.1, false)
  else
    let st := r.1
    let e : Entry :=
      { addr := st.nextAddr, key := key, interval := interval, data := data, invalTags := tags,
        invalTagsLen := invalTagsLen,
        timeInvalidated := if interval.stillValid then -1 else time }
    match OrdList.insert StoreVSet.compareValue (fun _ ↦ e) ((st.vset key).getD [])
        interval.lower with
    | none => (st, false)
    | some vs =>
      let st := ({ st.setVSet key vs with nextAddr := st.nextAddr + 1 }.registerInvalTags e).1
      let st := if interval.stillValid then st else { st with invTimeOrder := e.addr :: st.invTimeOrder }
      ({ st with entryBytes := st.entryBytes + fp, lru := e.addr :: st.lru }, true)

/-- The part of `Store_Put` after the version set of the key is known to exist: the latest entry
below the new upper bound is removed (`force`), implicitly invalidated, extended, or avoided. -/
def putInVSet (key : List UInt8) (interval : Interval) (data : List UInt8)
    (tags : List (List Char)) (force : Bool) (time : ℤ) : Store × Bool :=
  let found := OrdList.findLT StoreVSet.compareValue ((st.vset key).getD []) interval.upper
  -- with `force` the old entry is blown away
  let r : Store × Option Entry := match found with
    | some e => if force then ((st.removeEntry e.addr).1, none) else (st, some e)
    | none => (st, none)
  -- a still-valid entry older than the new interval missed an invalidation: truncate it now
  let r : Store × Option Entry := match r.2 with
    | some e =>
      if e.interval.stillValid ∧ interval.lower ≥ r.1.lastInvalTime then
        let st' := r.1.truncateUnboundedInterval e.addr r.1.lastInvalTime time
        (st', st'.findEntry e.addr)
      else r
    | none => r
  let ext := r.1.tryExtendInterval r.2 interval data
  if ext.2 then (ext.1, true)
  else
    let st := ext.1
    match r.2 with
    | some e =>
      if e.interval.upper > interval.lower then
        if e.interval.upper ≥ interval.upper then (st, false)
        else st.add key { interval with lower := e.interval.upper } data tags time
      else st.add key interval data tags time
    | none => st.add key interval data tags time

/-- `Store_Put`. -/
def put (key : List UInt8) (interval : Interval) (data : List UInt8) (tags : List (List Char))
    (force : Bool) (time : ℤ) : Store × Bool :=
  if interval.stillValid ∧ tags = [] then (st, false)
  else
    let interval :=
      if interval.stillValid then st.truncateIfAlreadyInvalidated interval tags else interval
    -- invalidation tags are useless if not still valid
    let tags := if interval.stillValid then tags else []
    let st := st.removeUseless time
    let st := if (st.vset key).isSome then st
      else { st.insertLine key with keyBytes := st.keyBytes + mallocSize key.length }
    st.putInVSet key interval data tags force time

/-! ## Lookups -/

/-- `StoreLookupPolicyId_t`. The id `LOOKUP_POLICY_OLDEST` has no policy registered. -/
inductive StoreLookupPolicyId
  | latest
  | oldest
  | screwConsistency
deriving DecidableEq, Repr

/-- `LookupOutcome_t`. -/
inductive LookupOutcome
  | hit
  | stalenessMiss
  | capacityMiss
  | consistencyMiss
deriving DecidableEq, Repr

/-- `LatestAcceptable_Lookup`: the latest entry below the requested upper bound, when it overlaps
the requested interval. -/
def latestAcceptableLookup (vs : List Entry) (interval : Interval) (earliestPin : ℕ) :
    LookupOutcome × Option Entry :=
  match OrdList.findLT StoreVSet.compareValue vs interval.upper with
  | some e =>
    if e.interval.overlaps interval st.lastInvalTime then (.hit, some e)
    else if e.interval.upper ≥ earliestPin then (.consistencyMiss, none)
    else (.stalenessMiss, none)
  | none => (.stalenessMiss, none)

/-- `ScrewConsistency_Lookup`: the latest entry below the requested upper bound, when it is still
valid or recent enough. -/
def screwConsistencyLookup (vs : List Entry) (interval : Interval) (earliestPin : ℕ) :
    LookupOutcome × Option Entry :=
  match OrdList.findLT StoreVSet.compareValue vs interval.upper with
  | some e =>
    if e.interval.stillValid ∨ e.interval.upper ≥ earliestPin then (.hit, some e)
    else (.stalenessMiss, none)
  | none => (.stalenessMiss, none)

/-- `Store_Lookup`: a hit moves the entry to the front of the LRU list. -/
def lookup (key : List UInt8) (interval : Interval) (earliestPin : ℕ)
    (policy : StoreLookupPolicyId) : Store × Option Entry :=
  match st.vset key with
  | none => (st, none)
  | some vs =>
    let r := match policy with
      | .latest => st.latestAcceptableLookup vs interval earliestPin
      | .oldest => (.stalenessMiss, none)
      | .screwConsistency => screwConsistencyLookup vs interval earliestPin
    match r with
    | (.hit, some e) => ({ st with lru := e.addr :: st.lru.erase e.addr }, some e)
    | _ => (st, none)

end Store

end TxCache
