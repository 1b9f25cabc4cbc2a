import TxCache.Interval
import TxCache.Lib.OrdList

/-!
# The cache store: state and bookkeeping

The cache server keeps, for every key, a *version set*: the entries of that key ordered by the
lower end of their validity intervals (`StoreVSetTree`, a red-black tree keyed by `lower`). Beside
the version sets it keeps three indexes over the entries:

* `invalMap`, the pairs (tag, entry) of the still-valid entries, ordered by tag and then by the
  entry's address, through which an invalidation finds the entries it truncates;
* `invalBuffer`, the invalidations of the last `INVAL_BUFFER_TIME` seconds ordered by pin and then
  by tag, against which a put that arrives late is checked;
* the LRU list of the eviction policy and the list of truncated entries ordered by the time they
  were truncated, from which useless entries are dropped.

This file models the state (`Store_t`, `entry_t` and the index entries), the accounting of its
footprint, and the operations that every store operation is built from: registering and
unregistering an entry's tags, truncating a still-valid entry, removing an entry, eviction and the
removal of useless entries. The trees are ordered lists in the sense of `OrdList`; an entry is
referred to by its address, which the store allocates fresh for every entry it adds.

## What is not modelled

The statistics (`StoreClassStats_t`, `hitCount`, `MODSTAT`) are written by the store but read by
nothing but the statistics dump, and the debug and warning messages have no effect; both are left
out. Allocation never fails. `time(NULL)` is an argument of each operation. The `Assert`s that the
store's own invariants discharge (a truncated entry is still valid, the byte count never goes
negative) are not checked here; the ones that inputs decide are, where the operation is modelled.
-/

namespace TxCache

/-- `MALLOC_SIZE`: the bytes that malloc really takes for a request of `size` bytes. -/
def mallocSize (size : ℕ) : ℕ := if size ≤ 24 then 32 else ((size + 7) ||| 15) + 1

/-- The sizes of the C structures that the store's accounting counts; they depend on the
platform. -/
structure Layout where
  /-- `sizeof (char *)`, also the size of one hash bucket. -/
  ptrSize : ℕ
  /-- `sizeof (StoreHT_t)`. -/
  htSize : ℕ
  /-- `sizeof (StoreVSet_t)`. -/
  vsetSize : ℕ
  /-- `StoreVSetTree_ElemSize ()`, a tree node holding an `entry_t`. -/
  vsetNodeSize : ℕ

/-- A cache entry (`entry_t`): one version of the value of a key over an interval of pins. -/
structure Entry where
  /-- The entry's address. -/
  addr : ℕ
  /-- The key of the version set that holds the entry (`entry->vset`). -/
  key : List UInt8
  interval : Interval
  data : List UInt8
  /-- The invalidation tags the entry was put with, when it was put still valid. -/
  invalTags : List (List Char)
  /-- The bytes of the copy of `invalTags` (`invalTagsLen`). -/
  invalTagsLen : ℕ
  /-- When the entry stopped being still valid, or `-1` while it still is. -/
  timeInvalidated : ℤ
deriving DecidableEq, Repr

/-- An element of the invalidation index (`StoreInvalMapEntry_t`). -/
structure InvalMapEntry where
  tag : List Char
  /-- The address of the entry carrying the tag. -/
  entry : ℕ
deriving DecidableEq, Repr

/-- A buffered invalidation (`StoreInvalBufferEntry_t`). -/
structure InvalBufferEntry where
  pin : ℕ
  time : ℤ
  tag : List Char
  /-- Whether the invalidation also covers the tags that extend `tag`. -/
  descendants : Bool
deriving DecidableEq, Repr

/-- `StoreVSet_CompareValue`: a version set is ordered by the lower ends of the intervals. -/
def StoreVSet.compareValue (e : Entry) (lower : ℕ) : Ordering := compare e.interval.lower lower

/-- `StoreInvalTree_CompareValue`: by tag (`strcmp`), then by the entry's address. -/
def StoreInvalTree.compareValue (v k : InvalMapEntry) : Ordering :=
  (compare v.tag k.tag).then (compare v.entry k.entry)

/-- `StoreInvalBuffer_CompareValue`: by pin, then by tag. A search key without a tag (`NULL`)
compares above every entry of its own pin. -/
def StoreInvalBuffer.compareValue (v : InvalBufferEntry) (k : ℕ × Option (List Char)) :
    Ordering :=
  if v.pin < k.1 then .lt
  else if v.pin > k.1 then .gt
  else match k.2 with
    | none => .lt
    | some t => compare v.tag t

/-- The store (`Store_t`). The hash table of version sets is the association list `lines`; the
statistics are left out. -/
structure Store where
  layout : Layout
  /-- The version sets: each key with its entries in order of `lower`. -/
  lines : List (List UInt8 × List Entry)
  /-- The hash table's `power`: it has `2 ^ linesPower` buckets. -/
  linesPower : ℕ
  keyBytes : ℕ
  entryBytes : ℕ
  maxBytes : ℕ
  lastInvalTime : ℕ
  invalMap : List InvalMapEntry
  invalBuffer : List InvalBufferEntry
  bufferValidFrom : ℕ
  /-- The LRU list of the eviction policy, most recently used first. -/
  lru : List ℕ
  uselessBound : ℤ
  /-- The truncated entries, most recently truncated first (`invTimeOrder`). -/
  invTimeOrder : List ℕ
  /-- The address the next entry gets. -/
  nextAddr : ℕ

namespace Store

/-- `Store_Init`: an empty store whose clock starts at `PIN_NEG_INF`. -/
def init (layout : Layout) (maxBytes : ℕ) (uselessBound : ℤ) : Store where
  layout := layout
  lines := []
  linesPower := 10
  keyBytes := 0
  entryBytes := 0
  maxBytes := maxBytes
  lastInvalTime := pinNegInf
  invalMap := []
  invalBuffer := []
  bufferValidFrom := pinNegInf
  lru := []
  uselessBound := uselessBound
  invTimeOrder := []
  nextAddr := 1

variable (st : Store)

/-- Every live entry, version set by version set. -/
def entries : List Entry := st.lines.flatMap (·.2)

/-- The live entry at an address. -/
def findEntry (a : ℕ) : Option Entry := st.entries.find? (·.addr == a)

/-- The version set of a key (`StoreHT_Get`). -/
def vset (key : List UInt8) : Option (List Entry) := st.lines.lookup key

/-- Change the entry at an address in place. -/
def modifyEntry (a : ℕ) (f : Entry → Entry) : Store :=
  { st with lines := st.lines.map fun kv ↦ (kv.1, kv.2.map fun e ↦ if e.addr = a then f e else e) }

/-- Replace the version set of a key. -/
def setVSet (key : List UInt8) (vs : List Entry) : Store :=
  { st with lines := st.lines.map fun kv ↦ if kv.1 = key then (key, vs) else kv }

/-! ## Accounting -/

/-- `Store_Footprint`: the hash table (`StoreHT_Size`), the key copies and the entries. -/
def footprint : ℕ :=
  st.layout.htSize + 2 ^ st.linesPower * st.layout.ptrSize +
    st.lines.length * mallocSize st.layout.vsetSize + st.keyBytes + st.entryBytes

/-- `Store_EntryFootprint`. -/
def entryFootprint (dataLen invalTagsLen : ℕ) : ℕ :=
  mallocSize st.layout.vsetNodeSize + mallocSize dataLen + mallocSize invalTagsLen

/-- The `invalTagsLen` that `Store_CopyInvalTags` computes: one pointer and one terminated copy
per tag, nothing for no tags. -/
def copyInvalTagsLen (tags : List (List Char)) : ℕ :=
  if tags = [] then 0 else tags.length * st.layout.ptrSize + (tags.map (·.length + 1)).sum

/-- `StoreHT_Insert` of a new key with an empty version set, expanding the table when its load
passes three quarters. -/
def insertLine (key : List UInt8) : Store :=
  let lines := st.lines ++ [(key, [])]
  { st with
    lines := lines
    linesPower := if 3 * 2 ^ st.linesPower < 4 * lines.length then st.linesPower + 1
      else st.linesPower }

/-! ## Tags -/

/-- The loop of `Store_RegisterInvalTags`: insert `(tag, entry)` for each tag in turn, and give up
at the first insertion the tree refuses. -/
def registerTags (a : ℕ) : List InvalMapEntry → List (List Char) → List InvalMapEntry × Bool
  | map, [] => (map, true)
  | map, t :: ts =>
    match OrdList.insert StoreInvalTree.compareValue id map ⟨t, a⟩ with
    | none => (map, false)
    | some map' => registerTags a map' ts

/-- `Store_RegisterInvalTags`. -/
def registerInvalTags (e : Entry) : Store × Bool :=
  let r := registerTags e.addr st.invalMap e.invalTags
  ({ st with invalMap := r.1 }, r.2)

/-- The loop of `Store_UnregisterInvalTags`. `RB_Remove` reports success whether or not the pair
was there, so every tag is removed and the result is always `true`. -/
def unregisterTags (a : ℕ) (map : List InvalMapEntry) (tags : List (List Char)) :
    List InvalMapEntry :=
  tags.foldl (fun m t ↦ OrdList.remove StoreInvalTree.compareValue m ⟨t, a⟩) map

/-- `Store_UnregisterInvalTags`. -/
def unregisterInvalTags (e : Entry) : Store :=
  { st with invalMap := unregisterTags e.addr st.invalMap e.invalTags }

/-- `Store_TruncateUnboundedInterval`: the entry stops being still valid, its upper end is
raised to `now` if that is later, it joins the front of the truncation list, and its tags leave
the invalidation index. -/
def truncateUnboundedInterval (a : ℕ) (now : ℕ) (time : ℤ) : Store :=
  match st.findEntry a with
  | none => st
  | some e =>
    let st' := st.modifyEntry a fun e ↦
      { e with
        interval := { e.interval with
          stillValid := false
          upper := if now > e.interval.upper then now else e.interval.upper }
        timeInvalidated := time }
    { st' with
      invTimeOrder := a :: st'.invTimeOrder
      invalMap := unregisterTags a st'.invalMap e.invalTags }

/-! ## Removal and eviction -/

/-- `Store_RemoveEntry`: the entry leaves the accounting, the invalidation index, the truncation
list (when it is on it), the LRU list and its version set. The result is its footprint. -/
def removeEntry (a : ℕ) : Store × ℕ :=
  match st.findEntry a with
  | none => (st, 0)
  | some e =>
    let fp := st.entryFootprint e.data.length e.invalTagsLen
    let vs := (st.vset e.key).getD []
    let st' := st.setVSet e.key (OrdList.remove StoreVSet.compareValue vs e.interval.lower)
    ({ st' with
        entryBytes := st.entryBytes - fp
        invalMap := unregisterTags a st.invalMap e.invalTags
        invTimeOrder := if e.interval.stillValid then st.invTimeOrder else st.invTimeOrder.erase a
        lru := st.lru.erase a }, fp)

/-- The loop of `Store_Evict`: while less than `toFree` bytes are freed, remove the least recently
used entry. It fails when the LRU list runs empty first. Each round shortens the LRU list, so its
length bounds the rounds. -/
def evictRounds : ℕ → Store → ℕ → ℕ → Store × Bool
  | 0, st, _, _ => (st, false)
  | n + 1, st, toFree, freed =>
    if toFree > freed then
      match st.lru.getLast? with
      | none => (st, false)
      | some a =>
        let r := st.removeEntry a
        evictRounds n r.1 toFree (freed + r.2)
    else (st, true)

/-- `Store_Evict`. -/
def evict (toFree : ℕ) : Store × Bool := evictRounds (st.lru.length + 1) st toFree 0

/-- `Store_Flush`: evict as many bytes as the entries take. Keys are not evicted. -/
def flush : Store := (st.evict st.entryBytes).1

/-- The loop of `Store_RemoveUseless`: drop the entry truncated longest ago while it was truncated
before `bound`. -/
def removeUselessRounds : ℕ → Store → ℤ → Store
  | 0, st, _ => st
  | n + 1, st, bound =>
    match st.invTimeOrder.getLast? with
    | none => st
    | some a =>
      match st.findEntry a with
      | none => st
      | some e =>
        if e.timeInvalidated < bound then removeUselessRounds n (st.removeEntry a).1 bound else st

/-- `Store_RemoveUseless`: drop the entries truncated more than `uselessBound` seconds ago. -/
def removeUseless (time : ℤ) : Store :=
  removeUselessRounds st.invTimeOrder.length st (time - st.uselessBound)

end Store

end TxCache
