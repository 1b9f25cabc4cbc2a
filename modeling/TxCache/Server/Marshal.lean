import TxCache.Server.Put

/-!
# Loading the store from a dump

`Store_Load` fills an empty store from the entries of a dump: each entry read is put back with its
key, data and tags, still valid from `PIN_NEG_INF` to `PIN_MIN`, without `force`. The `Assert`s of
the load panic unless the store is empty and every put succeeds.

Each put reads `time(NULL)` itself, so an entry of the load comes with the clock reading of its
put. The decoding of the dump file is left out: the load starts from the entries it reads.
-/

namespace TxCache

/-- An entry of a dump as `Store_Load` reads it: the key, the data and the invalidation tags. -/
structure DumpedEntry where
  key : List UInt8
  data : List UInt8
  tags : List (List Char)
deriving DecidableEq, Repr

namespace Store

/-- The interval `unbounded` of `Store_Load`: from `PIN_NEG_INF` to `PIN_MIN`, still valid. -/
def unboundedInterval : Interval := ⟨pinNegInf, pinMin, true⟩

/-- One put of `Store_Load`, at the clock reading `time`; its `Assert` panics (`none`) unless the
put succeeds. -/
def loadEntry (st : Store) (d : DumpedEntry) (time : ℤ) : Option Store :=
  let r := st.put d.key unboundedInterval d.data d.tags false time
  if r.2 then some r.1 else none

/-- `Store_Load` of the entries of a dump, each with the clock reading of its put. -/
def load (st : Store) (items : List (DumpedEntry × ℤ)) : Option Store :=
  if st.keyBytes = 0 ∧ st.entryBytes = 0 then
    items.foldlM (fun st it ↦ st.loadEntry it.1 it.2) st
  else none

end Store

end TxCache
