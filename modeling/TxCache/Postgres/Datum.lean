import TxCache.Postgres.Inval
import TxCache.Lib.Bytes

/-!
# By-reference datums in the tag of an index tuple

`MakeInvalTagFromValues` hashes a by-reference column with `hash_any` over the bytes of its datum,
as many as `datumGetSize` finds there: the type's length when it is fixed, the length word of a
varlena, one more than the `strlen` of a cstring. The builders of `TxCache.Postgres.Inval` take
those bytes as a parameter (`datumContents`); here they are read from memory, with the failures
of the reads: `datumGetSize` raises `ERROR: invalid Datum pointer` for a NULL pointer, and a read
through a NULL pointer crashes. When nothing fails, the tag is the one of the abstract builder
whose contents are read from memory (`makeInvalTagFromValuesMem_ok`).

## A NULL column

`FormIndexDatum` gives a NULL column as the datum `(Datum) 0`, with its flag in `isnull`.
`MakeInvalTagFromValues` is passed `isnull` but never reads it. A NULL in a varlena column of an
index then reaches `datumGetSize`, whose `ereport(ERROR, ...)` aborts the whole `INSERT` or
`UPDATE`, and a NULL in a fixed-length by-reference column is hashed through the NULL pointer
(`null_index_column_fails`). Both need only a nullable indexed column and a serializable
transaction, which TxCache requires.
-/

namespace TxCache

open CString

/-- How a backend routine fails: an `ERROR` raised by `ereport` or `elog` with its message, a
failed `Assert`, or a read of memory that is not there, as through a NULL pointer. -/
inductive PgFailure
  | error (msg : List Char)
  | assertFailed
  | badRead
deriving DecidableEq, Repr

/-- A read of `n` bytes at the address `p` of memory, given as its bytes from address `0` on.
Address `0` is the NULL pointer, which cannot be read, and neither can anything past the end. -/
def readMem (mem : List UInt8) (p n : ℕ) : Except PgFailure (List UInt8) :=
  if n = 0 then .ok []
  else if p = 0 ∨ mem.length < p + n then .error .badRead
  else .ok (Bytes.readAt mem p n)

/-- `strlen(s)`: the bytes before the first NUL, which must be there to be read. -/
def strlenMem (mem : List UInt8) (p : ℕ) : Except PgFailure ℕ :=
  if p = 0 then .error .badRead
  else match (mem.drop p).idxOf? 0 with
    | some n => .ok n
    | none => .error .badRead

/-- `VARATT_MASK_SIZE`. -/
def varattMaskSize : ℕ := 0x3fffffff

/-- `datumGetSize`. A varlena's size is its length word `VARATT_SIZE(s)`, read in the machine's
byte order. -/
def datumGetSize (mem : List UInt8) (value : UInt64) (typByVal : Bool) (typLen : ℤ) :
    Except PgFailure ℕ :=
  if typByVal then
    -- pass-by-value types are always fixed-length
    if 0 < typLen ∧ typLen ≤ 8 then .ok typLen.toNat else .error .assertFailed
  else if 0 < typLen then .ok typLen.toNat
  else if typLen = -1 then
    if value = 0 then .error (.error "invalid Datum pointer".toList)
    else do
      let header ← readMem mem value.toNat 4
      return Bytes.ofLE header &&& varattMaskSize
  else if typLen = -2 then
    if value = 0 then .error (.error "invalid Datum pointer".toList)
    else return (← strlenMem mem value.toNat) + 1
  else .error (.error ("invalid typLen: ".toList ++ formatLong typLen))

/-- The bytes of a by-reference datum, as `datumGetSize` and then `hash_any` read them. -/
def datumBytesMem (mem : List UInt8) (value : UInt64) (typLen : ℤ) : Except PgFailure (List UInt8) :=
  do readMem mem value.toNat (← datumGetSize mem value false typLen)

/-- The contents of the datums as the abstract builders take them: what a successful read finds. -/
def memContents (mem : List UInt8) (value : UInt64) (typLen : ℤ) : List UInt8 :=
  match datumBytesMem mem value typLen with
  | .ok bytes => bytes
  | .error _ => []

section Builders

variable (hashAny : List UInt8 → UInt32) (mem : List UInt8)

/-- The hash of one column of an index tuple: a by-value column's is `values[0]` cast to 32
bits, a by-reference column's is `hash_any` over the bytes of its own datum. Reading past the
arrays is a bad read. -/
def columnHashMem (index : RelationData) (values : List UInt64) (i : ℕ) :
    Except PgFailure UInt32 := do
  let att ← (index.attrs[i]?).elim (.error .badRead) .ok
  if att.attbyval then return ((← (values[0]?).elim (.error .badRead) .ok)).toUInt32
  else
    let value ← (values[i]?).elim (.error .badRead) .ok
    return hashAny (← datumBytesMem mem value att.attlen)

/-- `MakeInvalTagFromValues`, reading by-reference datums from memory. The null flags `isnull`,
which the function is passed, are never read, so they are not arguments here. -/
def makeInvalTagFromValuesMem (rel : RelationData) (index : Option RelationData)
    (numIndexAttrs : ℕ) (values : List UInt64) : Except PgFailure (List Char) :=
  match index with
  | none => .ok (makeInvalTagFromRelation rel)
  | some index =>
    if numIndexAttrs = 0 then .error .assertFailed
    else ((List.range numIndexAttrs).mapM (columnHashMem hashAny mem index values)).map
      (keyTag rel index)

/-- `InvalidateTag`, reading by-reference datums from memory. -/
def invalidateTagMem (serializable : Bool) (pending : List (List Char)) (rel : RelationData)
    (index : Option RelationData) (numIndexAttrs : ℕ) (values : List UInt64) :
    Except PgFailure (List (List Char)) :=
  if rel.isSystemRelation ∨ !serializable then .ok pending
  else (makeInvalTagFromValuesMem hashAny mem rel index numIndexAttrs values).map
    (hashSearchEnter pending)

/-- `FormIndexDatum` on a tuple whose index columns hold `cols`, `none` for NULL: a NULL column
gives the datum `(Datum) 0` (`slot_getattr`) and a set flag. -/
def formIndexDatum (cols : List (Option UInt64)) : List UInt64 × List Bool :=
  (cols.map fun c ↦ c.getD 0, cols.map Option.isNone)

/-- The invalidations `ExecInsertIndexTuples` makes for one new tuple: each index the tuple
goes into, given with its number of columns and the tuple's values in them, passes the datums of
`FormIndexDatum` to `InvalidateTag`; a relation without indexes gets the relation's tag. The first
failure aborts the statement. -/
def execInsertIndexTuples (serializable : Bool) (pending : List (List Char)) (rel : RelationData)
    (indexes : List (RelationData × ℕ × List (Option UInt64))) :
    Except PgFailure (List (List Char)) :=
  match indexes with
  | [] => invalidateTagMem hashAny mem serializable pending rel none 0 []
  | _ => indexes.foldlM (fun pending (index, n, cols) ↦
      invalidateTagMem hashAny mem serializable pending rel (some index) n (formIndexDatum cols).1)
      pending

/-! ## The abstract builder reads what memory holds -/

theorem columnHashMem_ok {index : RelationData} {values : List UInt64} {i : ℕ} {h : UInt32}
    (hcol : columnHashMem hashAny mem index values i = .ok h) :
    (do
      let att : PgAttribute ← index.attrs[i]?
      if att.attbyval then return (← values[0]?).toUInt32
      else return hashAny (memContents mem (← values[i]?) att.attlen)) = some h := by
  unfold columnHashMem at hcol
  cases hatt : index.attrs[i]? with
  | none => simp [hatt, Option.elim, bind, Except.bind] at hcol
  | some att =>
    simp only [hatt, Option.elim, bind, Except.bind] at hcol
    simp only [Option.bind_eq_bind, Option.bind_some]
    split at hcol
    · rename_i hbyval
      cases hv : values[0]? with
      | none => simp [hv] at hcol
      | some v =>
        simp [hv, pure, Except.pure] at hcol
        simp [hbyval, hcol]
    · rename_i hbyval
      cases hv : values[i]? with
      | none => simp [hv] at hcol
      | some v =>
        simp only [hv] at hcol
        cases hb : datumBytesMem mem v att.attlen with
        | error e => simp [hb] at hcol
        | ok bytes =>
          simp only [hb, pure, Except.pure, Except.ok.injEq] at hcol
          simp [hbyval, memContents, hb, hcol]

/-- **The tag read from memory is the abstract builder's**, when nothing fails: with the contents
of each datum read from memory, `makeInvalTagFromValues` makes the same tag. -/
theorem makeInvalTagFromValuesMem_ok {rel : RelationData} {index : Option RelationData}
    {numIndexAttrs : ℕ} {values : List UInt64} {tag : List Char}
    (h : makeInvalTagFromValuesMem hashAny mem rel index numIndexAttrs values = .ok tag) :
    makeInvalTagFromValues hashAny (memContents mem) rel index numIndexAttrs values = some tag := by
  cases index with
  | none =>
    simp only [makeInvalTagFromValuesMem, Except.ok.injEq] at h
    simp [makeInvalTagFromValues, h]
  | some index =>
    simp only [makeInvalTagFromValuesMem] at h
    split_ifs at h with hn
    cases hmap : (List.range numIndexAttrs).mapM (columnHashMem hashAny mem index values) with
    | error e => simp [hmap, Except.map] at h
    | ok hashes =>
      simp only [hmap, Except.map, Except.ok.injEq] at h
      have hall := List.forall₂_of_mapM_eq_ok hmap
      simp only [makeInvalTagFromValues, hn, if_false]
      rw [List.mapM_eq_some_of_forall₂ (hall.imp fun _ _ hcol ↦ columnHashMem_ok hashAny mem hcol)]
      simp [h]

end Builders

/-! ## A NULL in an indexed column -/

/-- A user relation `0x4000`; `MakeInvalTagFromValues` reads only its OID. -/
def nullableRel : RelationData := ⟨0x4000, [], false⟩

/-- An index `0x4001` of `nullableRel` on one nullable `text` column, a varlena. -/
def textIndex : RelationData := ⟨0x4001, [⟨-1, false⟩], false⟩

/-- An index `0x4002` of `nullableRel` on one nullable `macaddr` column, six bytes passed by
reference. -/
def macaddrIndex : RelationData := ⟨0x4002, [⟨6, false⟩], false⟩

/-- **A NULL in an indexed by-reference column fails the write**, whatever memory holds and
whatever was pending. A serializable transaction that inserts a tuple whose `text` column under
`textIndex` is NULL has `datumGetSize` raise `ERROR: invalid Datum pointer`, which aborts the
`INSERT`; with the NULL under `macaddrIndex`, `hash_any` reads six bytes at the NULL pointer. -/
theorem null_index_column_fails (hashAny : List UInt8 → UInt32) (mem : List UInt8)
    (pending : List (List Char)) :
    execInsertIndexTuples hashAny mem true pending nullableRel [(textIndex, 1, [none])] =
      .error (.error "invalid Datum pointer".toList) ∧
    execInsertIndexTuples hashAny mem true pending nullableRel [(macaddrIndex, 1, [none])] =
      .error .badRead :=
  ⟨rfl, rfl⟩

end TxCache
