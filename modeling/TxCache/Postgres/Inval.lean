import TxCache.Lib.Printf
import TxCache.Lib.Modify

/-!
# Invalidation tags in the database

A serializable transaction that reads a user relation records an *invalidation tag* for what it
read (`AddInvalidationTag`), and one that writes a tuple version enqueues a tag for what it
changed (`InvalidateTag`). A tag names a relation by its OID, `"%x:"`, or, for a scan with an
equality key on every column of a btree index, the relation, the index and a hash of each key:
`"%x:%x.h₁,…,hₙ:"`. Tags are hierarchical: the relation's tag is a `':'`-terminated prefix of every
key tag of the relation, so that the cache's matching of an invalidation against an entry's tags
reaches the entries of a whole relation.

The read side builds the key tag from the scan keys (`MakeInvalTagFromScanKey`) and the write side
from the datums of the index tuple it inserts (`MakeInvalTagFromValues`). The two must agree for a
write to reach the entries that read what it changed. A by-value column is hashed as its datum cast
to 32 bits, a by-reference column by `hash_any` over the bytes `datumGetSize` finds at the datum;
both are parameters here, `hashAny` and `datumContents`.

A query's tags travel to the client in its command tag: `GetQueryTagSet` prints them after their
number, into a static buffer of 1024 bytes, and `PortalRunSelect` prints the final validity and
that text into a buffer of `COMPLETION_TAG_BUFSIZE` bytes.

## Results

* `keyTag_eq_snprintf`: a key tag is the first `MAX_INVALTAG_LEN - 1` characters of its whole
  text, and the relation's tag is a `':'`-terminated prefix of every tag of the relation
  (`relationTag_prefix_keyTag`).
* `makeInvalTagFromValues_eq_some` and `makeInvalTagFromScanKey_eqScanKeys`: what the two builders
  hash for an index tuple and for a scan with one equality key per column; they agree when every
  by-value column holds the datum of the first (`makeInvalTagFromValues_eq_scanKey`).
* `selectValidityTag_eq_snprintf`: the command tag is the first 1023 characters of its whole text.
-/

namespace TxCache

open CString

/-- `MAX_INVALTAG_LEN`: the size of a tag's buffer. -/
def maxInvalTagLen : ℕ := 64

/-- `BTEqualStrategyNumber`. -/
def btEqualStrategyNumber : ℕ := 3

/-- The fields of an attribute (`FormData_pg_attribute`) that the tag builders read. -/
structure PgAttribute where
  attlen : ℤ
  attbyval : Bool
deriving DecidableEq, Repr

/-- The fields of a relation descriptor (`RelationData`) that the tag builders read: the OID, the
attributes of its tuple descriptor, and whether it is a system relation. -/
structure RelationData where
  rdId : UInt32
  attrs : List PgAttribute
  isSystemRelation : Bool
deriving DecidableEq, Repr

/-- A scan key (`ScanKeyData`): its strategy, the attribute it constrains, numbered from 1, and
its argument. -/
structure ScanKeyData where
  skStrategy : ℕ
  skAttno : ℕ
  skArgument : UInt64
deriving DecidableEq, Repr

/-- `MakeInvalTagFromRelation`. -/
def makeInvalTagFromRelation (rel : RelationData) : List Char :=
  snprintf maxInvalTagLen (formatHex rel.rdId.toNat ++ [':'])

/-- The text both key-tag builders write into their buffer, from the hash of each column:
`"%x:%x."` of the relation and the index, each hash after a comma from the second on, then
`":"`. -/
def keyTag (rel index : RelationData) (hashes : List UInt32) : List Char :=
  let buf := snprintf maxInvalTagLen
    (formatHex rel.rdId.toNat ++ ':' :: formatHex index.rdId.toNat ++ ['.'])
  let buf := hashes.zipIdx.foldl (fun buf (hash, i) ↦
    snprintfcat maxInvalTagLen buf ((if i ≠ 0 then [','] else []) ++ formatHex hash.toNat)) buf
  snprintfcat maxInvalTagLen buf [':']

/-- The whole text of a key tag, before it is cut to its buffer. -/
def keyTagText (rel index : RelationData) (hashes : List UInt32) : List Char :=
  formatHex rel.rdId.toNat ++ ':' :: formatHex index.rdId.toNat ++ '.' ::
    ([','].intercalate (hashes.map fun h ↦ formatHex h.toNat) ++ [':'])

/-- `hash_search(..., HASH_ENTER, ...)` on a hash table of tags. -/
def hashSearchEnter (tags : List (List Char)) (tag : List Char) : List (List Char) :=
  if tag ∈ tags then tags else tags ++ [tag]

section Builders

variable (hashAny : List UInt8 → UInt32) (datumContents : UInt64 → ℤ → List UInt8)

/-- `MakeInvalTagFromScanKey`: without an index or keys, or with a key that is not an equality,
the relation's tag. The keys are asserted to constrain the index's columns in order. -/
def makeInvalTagFromScanKey (rel : RelationData) (index : Option RelationData)
    (keys : Option (List ScanKeyData)) : Option (List Char) :=
  match index, keys with
  | some index, some keys =>
    if keys.any (·.skStrategy ≠ btEqualStrategyNumber) then some (makeInvalTagFromRelation rel)
    else
      (keys.zipIdx.mapM fun ((key, i) : ScanKeyData × ℕ) ↦
        if key.skAttno = i + 1 then
          index.attrs[key.skAttno - 1]?.map fun (att : PgAttribute) ↦
            if att.attbyval then key.skArgument.toUInt32
            else hashAny (datumContents key.skArgument att.attlen)
        else none).map (keyTag rel index)
  | _, _ => some (makeInvalTagFromRelation rel)

/-- `MakeInvalTagFromValues`: without an index, the relation's tag. The index is asserted to have
a column. A by-value column is hashed from `values[0]`, whatever its position; a by-reference
column from its own datum. -/
def makeInvalTagFromValues (rel : RelationData) (index : Option RelationData)
    (numIndexAttrs : ℕ) (values : List UInt64) : Option (List Char) :=
  match index with
  | none => some (makeInvalTagFromRelation rel)
  | some index =>
    if numIndexAttrs = 0 then none
    else
      ((List.range numIndexAttrs).mapM fun i ↦ do
        let att : PgAttribute ← index.attrs[i]?
        if att.attbyval then return (← values[0]?).toUInt32
        else return hashAny (datumContents (← values[i]?) att.attlen)).map (keyTag rel index)

/-- `AddInvalidationTag`: a serializable transaction's scan of a user relation adds its tag to the
query's tag set. -/
def addInvalidationTag (serializable : Bool) (queryTags : List (List Char)) (rel : RelationData)
    (index : Option RelationData) (keys : Option (List ScanKeyData)) :
    Option (List (List Char)) :=
  if rel.isSystemRelation ∨ !serializable then some queryTags
  else (makeInvalTagFromScanKey hashAny datumContents rel index keys).map
    (hashSearchEnter queryTags)

/-- `InvalidateTag`: a serializable transaction's write of a user relation adds its tag to the
transaction's pending invalidations (`EnqueueInvalidate`). -/
def invalidateTag (serializable : Bool) (pending : List (List Char)) (rel : RelationData)
    (index : Option RelationData) (numIndexAttrs : ℕ) (values : List UInt64) :
    Option (List (List Char)) :=
  if rel.isSystemRelation ∨ !serializable then some pending
  else (makeInvalTagFromValues hashAny datumContents rel index numIndexAttrs values).map
    (hashSearchEnter pending)

/-- `GetQueryTagSet`'s static buffer. -/
def queryTagSetBufSize : ℕ := 1024

/-- `COMPLETION_TAG_BUFSIZE`. -/
def completionTagBufsize : ℕ := 1024

/-- `GetQueryTagSet`: `" TAGS %ld"` of the number of tags, then `" %s"` of each tag, in the hash
table's order. -/
def getQueryTagSet (queryTags : List (List Char)) : List Char :=
  queryTags.foldl (fun buf tag ↦ snprintfcat queryTagSetBufSize buf (' ' :: tag))
    (snprintf queryTagSetBufSize (" TAGS ".toList ++ formatLong queryTags.length))

/-- The command tag `PortalRunSelect` sets after a query with an xstamp: the final validity, and the
query's tags when the validity is unbounded. The bounds are `XStamp`s printed with `%ld`. -/
def selectValidityTag (validityStart validityEnd : ℕ) (validityIsUnbounded : Bool)
    (queryTags : List (List Char)) : List Char :=
  snprintf completionTagBufsize ("SELECT VALIDITY ".toList ++ formatLong validityStart ++
    ' ' :: formatLong validityEnd ++ if validityIsUnbounded then getQueryTagSet queryTags else [])

/-- The whole text of the command tag of a query with unbounded validity, before it is cut. -/
def selectValidityText (validityStart validityEnd : ℕ) (queryTags : List (List Char)) :
    List Char :=
  "SELECT VALIDITY ".toList ++ Nat.toDigits 10 validityStart ++ ' ' ::
    Nat.toDigits 10 validityEnd ++ " TAGS ".toList ++ Nat.toDigits 10 queryTags.length ++
    (queryTags.map (' ' :: ·)).flatten

/-! ## The text of a tag -/

theorem intercalate_singleton_cons {α : Type*} (sep : α) (x : List α) :
    ∀ xs : List (List α), [sep].intercalate (x :: xs) = x ++ (xs.map (sep :: ·)).flatten
  | [] => by simp
  | y :: ys => by
    rw [List.intercalate_cons_cons, intercalate_singleton_cons sep y ys]
    simp

private theorem flatten_zipIdx_succ (hashes : List UInt32) : ∀ k : ℕ,
    ((hashes.zipIdx (k + 1)).map fun (p : UInt32 × ℕ) ↦
        (if p.2 ≠ 0 then [','] else []) ++ formatHex p.1.toNat).flatten =
      (hashes.map fun h ↦ ',' :: formatHex h.toNat).flatten := by
  induction hashes with
  | nil => simp
  | cons h hs ih =>
    intro k
    simp only [List.zipIdx_cons, List.map_cons, List.flatten_cons, ih (k + 1),
      if_pos (Nat.succ_ne_zero k), List.singleton_append]

private theorem flatten_zipIdx_sep (hashes : List UInt32) :
    (hashes.zipIdx.map fun (p : UInt32 × ℕ) ↦
        (if p.2 ≠ 0 then [','] else []) ++ formatHex p.1.toNat).flatten =
      [','].intercalate (hashes.map fun h ↦ formatHex h.toNat) := by
  cases hashes with
  | nil => simp
  | cons h hs =>
    rw [List.zipIdx_cons, List.map_cons, List.flatten_cons, flatten_zipIdx_succ hs 0,
      List.map_cons, intercalate_singleton_cons, List.map_map]
    simp [Function.comp_def]

/-- **A key tag is its whole text, cut once to the buffer.** -/
theorem keyTag_eq_snprintf (rel index : RelationData) (hashes : List UInt32) :
    keyTag rel index hashes = snprintf maxInvalTagLen (keyTagText rel index hashes) := by
  -- the loop over the columns is one `snprintfcat` per column
  have hloop : ∀ s : List Char, hashes.zipIdx.foldl (fun buf (hash, i) ↦
      snprintfcat maxInvalTagLen buf ((if i ≠ 0 then [','] else []) ++ formatHex hash.toNat))
      (snprintf maxInvalTagLen s) =
      snprintf maxInvalTagLen (s ++ [','].intercalate (hashes.map fun h ↦ formatHex h.toNat)) := by
    intro s
    rw [← flatten_zipIdx_sep, ← foldl_snprintfcat, List.foldl_map]
  unfold keyTag
  dsimp only
  rw [hloop, snprintfcat_snprintf]
  simp [keyTagText, List.append_assoc]

theorem makeInvalTagFromRelation_eq (rel : RelationData) :
    makeInvalTagFromRelation rel = formatHex rel.rdId.toNat ++ [':'] := by
  have := length_formatHex_le (UInt32.toNat_lt rel.rdId)
  exact snprintf_of_length_lt (by simp [maxInvalTagLen]; omega)

/-- **The relation's tag is a `':'`-terminated prefix of each of its key tags.** -/
theorem relationTag_prefix_keyTag (rel index : RelationData) (hashes : List UInt32) :
    (makeInvalTagFromRelation rel).IsPrefix (keyTag rel index hashes) ∧
      (makeInvalTagFromRelation rel).getLast? = some ':' := by
  have hlen := length_formatHex_le (UInt32.toNat_lt rel.rdId)
  rw [makeInvalTagFromRelation_eq, keyTag_eq_snprintf, snprintf, List.prefix_take_iff]
  refine ⟨⟨⟨formatHex index.rdId.toNat ++ '.' ::
    ([','].intercalate (hashes.map fun h ↦ formatHex h.toNat) ++ [':']), ?_⟩,
    by simp [maxInvalTagLen]; omega⟩, by simp⟩
  simp [keyTagText]

/-- The hash `MakeInvalTagFromScanKey` takes of a column's datum. -/
def hashDatum (att : PgAttribute) (d : UInt64) : UInt32 :=
  if att.attbyval then d.toUInt32 else hashAny (datumContents d att.attlen)

/-- The keys of an index scan with one equality key per column, whose arguments are `values`. -/
def eqScanKeys (values : List UInt64) : List ScanKeyData :=
  values.zipIdx.map fun (v, i) ↦ ⟨btEqualStrategyNumber, i + 1, v⟩

theorem makeInvalTagFromScanKey_eqScanKeys (rel index : RelationData) {values : List UInt64}
    (hlen : values.length ≤ index.attrs.length) :
    makeInvalTagFromScanKey hashAny datumContents rel (some index) (some (eqScanKeys values)) =
      some (keyTag rel index (List.zipWith (hashDatum hashAny datumContents) index.attrs values)) := by
  have heq : (eqScanKeys values).any (·.skStrategy ≠ btEqualStrategyNumber) = false := by
    simp [eqScanKeys]
  unfold makeInvalTagFromScanKey
  dsimp only
  rw [heq, if_neg Bool.false_ne_true, List.mapM_eq_some_of_forall₂]
  · rfl
  · rw [List.forall₂_iff_get]
    refine ⟨by simp [eqScanKeys]; omega, fun i h₁ h₂ ↦ ?_⟩
    have hi : i < index.attrs.length := by simp at h₂; omega
    simp only [eqScanKeys, List.get_eq_getElem, List.getElem_zipIdx, List.getElem_map,
      List.getElem_zipWith, hashDatum]
    simp [List.getElem?_eq_getElem hi]

theorem makeInvalTagFromValues_eq_some (rel index : RelationData) {values : List UInt64}
    (hlen : values.length = index.attrs.length) (hpos : 0 < values.length) :
    makeInvalTagFromValues hashAny datumContents rel (some index) values.length values =
      some (keyTag rel index (List.zipWith (fun att v ↦
        hashDatum hashAny datumContents att (if att.attbyval then values[0] else v))
        index.attrs values)) := by
  unfold makeInvalTagFromValues
  dsimp only
  rw [if_neg (by omega), List.mapM_eq_some_of_forall₂]
  · rfl
  · rw [List.forall₂_iff_get]
    refine ⟨by simp; omega, fun i h₁ h₂ ↦ ?_⟩
    have hi : i < values.length := by simpa using h₁
    have hi' : i < index.attrs.length := by omega
    simp only [List.get_eq_getElem, List.getElem_range, List.getElem_zipWith, hashDatum]
    simp [List.getElem?_eq_getElem hi, List.getElem?_eq_getElem hi',
      List.getElem?_eq_getElem hpos]
    split_ifs <;> rfl

/-- **The write's tag is the read's** when every by-value column of the index holds, in its low
32 bits, the datum of the first column. -/
theorem makeInvalTagFromValues_eq_scanKey (rel index : RelationData) {values : List UInt64}
    (hlen : values.length = index.attrs.length) (hpos : 0 < values.length)
    (hbyval : ∀ att v, (att, v) ∈ index.attrs.zip values → att.attbyval →
      v.toUInt32 = values[0].toUInt32) :
    makeInvalTagFromValues hashAny datumContents rel (some index) values.length values =
      makeInvalTagFromScanKey hashAny datumContents rel (some index) (some (eqScanKeys values)) := by
  rw [makeInvalTagFromValues_eq_some hashAny datumContents rel index hlen hpos,
    makeInvalTagFromScanKey_eqScanKeys hashAny datumContents rel index hlen.le]
  congr 2
  refine List.ext_getElem (by simp) fun i h₁ h₂ ↦ ?_
  have hi : i < index.attrs.length := by simp at h₁; omega
  have hi' : i < values.length := by simp at h₁; omega
  simp only [List.getElem_zipWith, hashDatum]
  by_cases hb : index.attrs[i].attbyval
  · have hmem : (index.attrs[i], values[i]) ∈ index.attrs.zip values := by
      rw [List.mem_iff_getElem]
      exact ⟨i, by simp; omega, by simp⟩
    simp only [hb, if_true]
    exact (hbyval _ _ hmem hb).symm
  · simp [hb]

end Builders

/-- For an index on one `int4` column the write's tag is the read's. -/
theorem singleColumn_tags_agree :
    makeInvalTagFromValues (fun _ ↦ 0) (fun _ _ ↦ []) ⟨0x4000, [], false⟩
        (some ⟨0x4006, [⟨4, true⟩], false⟩) ([7] : List UInt64).length [7] =
      makeInvalTagFromScanKey (fun _ ↦ 0) (fun _ _ ↦ []) ⟨0x4000, [], false⟩
        (some ⟨0x4006, [⟨4, true⟩], false⟩) (some (eqScanKeys [7])) := by
  exact makeInvalTagFromValues_eq_scanKey _ _ _ _ (by decide) (by decide) (by simp)

/-! ## The command tag -/

/-- **The command tag is its whole text, cut once**: the tag set's own buffer is as large as the
command tag's. -/
theorem selectValidityTag_eq_snprintf (validityStart validityEnd : ℕ)
    (queryTags : List (List Char)) :
    selectValidityTag validityStart validityEnd true queryTags =
      snprintf completionTagBufsize (selectValidityText validityStart validityEnd queryTags) := by
  have hset : getQueryTagSet queryTags = snprintf queryTagSetBufSize
      (" TAGS ".toList ++ Nat.toDigits 10 queryTags.length ++ (queryTags.map (' ' :: ·)).flatten) := by
    unfold getQueryTagSet
    rw [← foldl_snprintfcat, List.foldl_map, formatLong_natCast]
  unfold selectValidityTag
  rw [if_pos rfl, hset, formatLong_natCast, formatLong_natCast]
  rw [snprintf_append_snprintf (show completionTagBufsize ≤ queryTagSetBufSize from le_rfl)]
  unfold selectValidityText
  simp only [List.append_assoc, List.cons_append]

end TxCache
