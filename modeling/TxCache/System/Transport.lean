import TxCache.Postgres.Inval
import TxCache.Client.Client
import TxCache.Server.LatePut

/-!
# From the database to the cache

What the database knows about a query's result reaches the cache by two routes. Its validity and
the tags of what it read travel in the command tag, which the client scans (`Client_Exec`) and
sends with the result to the cache when it puts it. The tags of what a write changed travel
through the invalidation queue to the cache's `Store_Invalidate`, which truncates every entry
with a matching tag. A cached result is invalidated in time only if both routes carry the same
tag for the same data.

## Results

* `execStatus_selectValidityTag`: when the command tag fits its buffer, the client learns exactly
  the query's validity interval, still valid, and its tags.
* `long_tag_list_cut`: a query with fifty tags overflows the buffer; the last tag is cut, the
  count still matches, and the client accepts a tag set that no invalidation of the last key
  reaches.
* `multicolumn_write_tag_differs`: a write to a table with an index on two `int4` columns
  enqueues a tag that differs from the tag of the scan that read the row, and the cache keeps the
  scan's result still valid after the write's invalidation.
* `wideIndex_tag_unterminated`: the tag of a write through an index on seven columns is cut
  before its trailing `':'`, and `Store_Invalidate` of it scans past the end of the tag.
-/

namespace TxCache

open CString

/-! ## The client reads the command tag -/

theorem scanFormat_validity : scanFormat "SELECT VALIDITY %u %u TAGS %u %n".toList =
    [.char 'S', .char 'E', .char 'L', .char 'E', .char 'C', .char 'T', .space,
     .char 'V', .char 'A', .char 'L', .char 'I', .char 'D', .char 'I', .char 'T', .char 'Y', .space,
     .unsigned, .space, .unsigned, .space, .char 'T', .char 'A', .char 'G', .char 'S', .space,
     .unsigned, .space, .count] := by
  decide

/-- **`Client_Exec` scans a tagged command tag**: the bounds, the count, and where the tags
start. -/
theorem scanValidity_tagged {lo up n : ℕ} (hlo : lo < 2 ^ 32) (hup : up < 2 ^ 32)
    (hn : n < 2 ^ 32) {rest : List Char} (hrest : ∀ c ∈ rest.head?, isSpace c = false) :
    Client.scanValidity ("SELECT VALIDITY ".toList ++ Nat.toDigits 10 lo ++ ' ' ::
      Nat.toDigits 10 up ++ " TAGS ".toList ++ Nat.toDigits 10 n ++ ' ' :: rest) =
      .tagged ⟨lo, up, true⟩ n rest := by
  unfold Client.scanValidity
  rw [scanFormat_validity]
  simp only [List.cons_append, List.nil_append, List.append_assoc,
    show "SELECT VALIDITY ".toList =
      ['S', 'E', 'L', 'E', 'C', 'T', ' ', 'V', 'A', 'L', 'I', 'D', 'I', 'T', 'Y', ' '] from rfl,
    show " TAGS ".toList = [' ', 'T', 'A', 'G', 'S', ' '] from rfl]
  -- the literal text, then each number after its space, then `%n` after the last space
  simp (disch := decide) only [sscanf_char_cons, sscanf_space_char, sscanf_space_unsigned hlo,
    sscanf_space_unsigned hup, sscanf_space_unsigned hn]
  rw [sscanf_space_cons (by decide), sscanf_space_of_head hrest, sscanf_count, sscanf]
  dsimp only
  congr 1
  simp only [← List.drop_drop, List.drop_zero, List.drop_one, List.tail_cons, List.drop_left]

theorem scanValidity_bounded {lo up : ℕ} (hlo : lo < 2 ^ 32) (hup : up < 2 ^ 32) :
    Client.scanValidity ("SELECT VALIDITY ".toList ++ Nat.toDigits 10 lo ++ ' ' ::
      Nat.toDigits 10 up) = .bounded ⟨lo, up, false⟩ := by
  unfold Client.scanValidity
  rw [scanFormat_validity]
  simp only [List.cons_append, List.nil_append,
    show "SELECT VALIDITY ".toList =
      ['S', 'E', 'L', 'E', 'C', 'T', ' ', 'V', 'A', 'L', 'I', 'D', 'I', 'T', 'Y', ' '] from rfl]
  simp (disch := decide) only [sscanf_char_cons, sscanf_space_char, sscanf_space_unsigned hlo]
  -- the upper bound ends the text, and the scan stops at the missing `TAGS`
  rw [sscanf_space_cons (by decide), ← List.append_nil (Nat.toDigits 10 up),
    sscanf_space_of_head (head_toDigits_append _ _), sscanf_unsigned_toDigits hup (by simp)]
  simp [sscanf]

private theorem length_le_flatten_map_cons (sep : Char) :
    ∀ ts : List (List Char), ts.length ≤ (ts.map (sep :: ·)).flatten.length
  | [] => le_rfl
  | t :: ts => by
    have := length_le_flatten_map_cons sep ts
    simp only [List.length_cons, List.map_cons, List.flatten_cons, List.length_append]
    omega

theorem execStatus_selectValidityTag_bounded (c : Client) {validityStart validityEnd : ℕ}
    (hs : validityStart < 2 ^ 32) (he : validityEnd < 2 ^ 32) (queryTags : List (List Char)) :
    c.execStatus (selectValidityTag validityStart validityEnd false queryTags) =
      (c.updateInterval ⟨validityStart, validityEnd, false⟩).map
        fun c' ↦ (c', [.observed ⟨validityStart, validityEnd, false⟩ []]) := by
  have hlen : ∀ v < 2 ^ 32, (Nat.toDigits 10 v).length ≤ 10 :=
    fun v hv ↦ Nat.toDigits_length 10 v 10 (by norm_num) (by omega)
  have hstatus : selectValidityTag validityStart validityEnd false queryTags =
      "SELECT VALIDITY ".toList ++ Nat.toDigits 10 validityStart ++ ' ' ::
        Nat.toDigits 10 validityEnd := by
    unfold selectValidityTag
    rw [if_neg Bool.false_ne_true, List.append_nil, formatLong_natCast, formatLong_natCast]
    have := hlen _ hs
    have := hlen _ he
    exact snprintf_of_length_lt (by simp [completionTagBufsize]; omega)
  unfold Client.execStatus
  rw [hstatus, scanValidity_bounded hs he]

/-- **The client reads back what the database sent.** When the command tag of a query with
unbounded validity fits its buffer, `Client_Exec` learns the query's interval as still valid, and
exactly its tags, in the hash table's order; from a query with bounded validity it learns the
interval as not still valid, and no tags. -/
theorem execStatus_selectValidityTag (c : Client) {validityStart validityEnd : ℕ}
    (hs : validityStart < 2 ^ 32) (he : validityEnd < 2 ^ 32) {queryTags : List (List Char)}
    (hne : queryTags ≠ []) (htags : ∀ t ∈ queryTags, t ≠ [] ∧ ∀ ch ∈ t, isSpace ch = false)
    (hn : queryTags.length < 2 ^ 31)
    (hfit : (selectValidityText validityStart validityEnd queryTags).length < completionTagBufsize) :
    c.execStatus (selectValidityTag validityStart validityEnd true queryTags) =
      ((queryTags.foldl Client.addInvalTag c).updateInterval ⟨validityStart, validityEnd, true⟩).map
        (fun c' ↦ (c', [.observed ⟨validityStart, validityEnd, true⟩ queryTags])) ∧
    c.execStatus (selectValidityTag validityStart validityEnd false queryTags) =
      (c.updateInterval ⟨validityStart, validityEnd, false⟩).map
        fun c' ↦ (c', [.observed ⟨validityStart, validityEnd, false⟩ []]) := by
  refine ⟨?_, execStatus_selectValidityTag_bounded c hs he queryTags⟩
  obtain ⟨t, ts, rfl⟩ := List.exists_cons_of_ne_nil hne
  have hstatus : selectValidityTag validityStart validityEnd true (t :: ts) =
      "SELECT VALIDITY ".toList ++ Nat.toDigits 10 validityStart ++ ' ' ::
        Nat.toDigits 10 validityEnd ++ " TAGS ".toList ++ Nat.toDigits 10 (t :: ts).length ++
        ' ' :: [' '].intercalate (t :: ts) := by
    rw [selectValidityTag_eq_snprintf, snprintf_of_length_lt hfit]
    unfold selectValidityText
    congr 1
    rw [List.map_cons, List.flatten_cons, intercalate_singleton_cons, List.cons_append]
  have hhead : ∀ ch ∈ ([' '].intercalate (t :: ts)).head?, isSpace ch = false := by
    obtain ⟨htne, ht⟩ := htags t List.mem_cons_self
    obtain ⟨d, ds, rfl⟩ := List.exists_cons_of_ne_nil htne
    intro ch hch
    rw [intercalate_singleton_cons] at hch
    simp only [List.cons_append, List.head?_cons, Option.mem_def, Option.some.injEq] at hch
    exact hch ▸ ht d List.mem_cons_self
  have hsplit : strsepAll ' ' (([' '].intercalate (t :: ts)).length + 1)
      ([' '].intercalate (t :: ts)) = t :: ts := by
    refine strsepAll_intercalate (List.cons_ne_nil _ _)
      (fun u hu hsp ↦ absurd ((htags u hu).2 ' ' hsp) (by decide)) ?_
    rw [intercalate_singleton_cons, List.length_append, List.length_cons]
    have := length_le_flatten_map_cons ' ' ts
    omega
  unfold Client.execStatus
  rw [hstatus, scanValidity_tagged hs he (by omega) hhead]
  dsimp only
  rw [hsplit, if_pos ⟨by simp, hn, rfl⟩]

/-- A transaction's first query reads one relation and the client learns its interval and tag;
had the query had bounded validity, it would have learned the interval alone. -/
theorem oneTag_read_back :
    ((Client.init .largestBoundedPin).beginRO (some [⟨5, ⟨0, 0⟩⟩])).1.execStatus
        (selectValidityTag 3 9 true ["4000:".toList]) =
      (((["4000:".toList].foldl Client.addInvalTag
          ((Client.init .largestBoundedPin).beginRO (some [⟨5, ⟨0, 0⟩⟩])).1).updateInterval
          ⟨3, 9, true⟩).map fun c' ↦ (c', [.observed ⟨3, 9, true⟩ ["4000:".toList]])) ∧
    ((Client.init .largestBoundedPin).beginRO (some [⟨5, ⟨0, 0⟩⟩])).1.execStatus
        (selectValidityTag 3 9 false ["4000:".toList]) =
      ((((Client.init .largestBoundedPin).beginRO (some [⟨5, ⟨0, 0⟩⟩])).1.updateInterval
          ⟨3, 9, false⟩).map fun c' ↦ (c', [.observed ⟨3, 9, false⟩ []])) :=
  execStatus_selectValidityTag _ (by decide) (by decide) (by decide) (by simp [isSpace])
    (by decide) (by decide)

/-! ## A tag list longer than the buffer -/

/-- A user relation with OID `0x4000`. -/
def pairRel : RelationData := ⟨0x4000, [], false⟩

/-- An index `0x4006` of `pairRel` on one `int4` column. -/
def probeIndex : RelationData := ⟨0x4006, [⟨4, true⟩], false⟩

/-- The tags of a query that probes `probeIndex` for fifty keys, as `MakeInvalTagFromScanKey`
makes them: nineteen characters each. -/
def probeTags : List (List Char) :=
  (List.range 50).map fun i ↦ keyTag pairRel probeIndex [0x10000000 + i.toUInt32]

/-- What the client reads of them: the last tag is cut to its first thirteen characters. -/
def cutTags : List (List Char) := probeTags.dropLast ++ [(probeTags.getLast?.getD []).take 13]

set_option maxRecDepth 10000 in
/-- **A long tag list is cut silently.** The command tag of a query with the fifty tags
`probeTags` is 1029 characters long and is cut to 1023: the last tag loses its last six
characters. The client still finds fifty tags, as many as the count says, so its `Assert` holds;
it learns `cutTags`, which lacks the tag `"4000:4006.10000031:"` that a write of the fiftieth key
enqueues, and which no invalidation of that tag matches. -/
theorem long_tag_list_cut (hashAny : List UInt8 → UInt32)
    (datumContents : UInt64 → ℤ → List UInt8) (c : Client) :
    makeInvalTagFromValues hashAny datumContents pairRel (some probeIndex) 1 [0x10000031] =
      some "4000:4006.10000031:".toList ∧
    "4000:4006.10000031:".toList ∈ probeTags ∧ "4000:4006.10000031:".toList ∉ cutTags ∧
    c.execStatus (selectValidityTag 10 20 true probeTags) =
      ((cutTags.foldl Client.addInvalTag c).updateInterval ⟨10, 20, true⟩).map
        (fun c' ↦ (c', [.observed ⟨10, 20, true⟩ cutTags])) ∧
    ∀ x ∈ cutTags, invalTagMatches "4000:4006.10000031:".toList x = false := by
  have hscan : (match Client.scanValidity (selectValidityTag 10 20 true probeTags) with
      | .tagged i n rest =>
        decide (i = ⟨10, 20, true⟩ ∧ n = 50 ∧ strsepAll ' ' (rest.length + 1) rest = cutTags)
      | _ => false) = true := by
    decide
  refine ⟨by with_unfolding_all rfl, by decide, by decide, ?_, by decide⟩
  unfold Client.execStatus
  split at hscan
  next i n rest hs =>
    simp only [decide_eq_true_eq] at hscan
    obtain ⟨rfl, rfl, hsplit⟩ := hscan
    rw [hs]
    dsimp only
    rw [hsplit, if_pos (by decide)]
  next => exact absurd hscan Bool.false_ne_true

/-! ## A write's tag and a read's tag -/

/-- An index `0x4006` of `pairRel` on two `int4` columns. -/
def pairIndex : RelationData := ⟨0x4006, [⟨4, true⟩, ⟨4, true⟩], false⟩

/-- **A multi-column write misses the read.** A serializable transaction writes a row whose
index tuple in `pairIndex` is `(1, 2)`, and another read the row through an index scan with the
keys `= 1` and `= 2`. The write enqueues `"4000:4006.1,1:"`, hashing the first column twice, and
the read recorded `"4000:4006.1,2:"`. A result the cache holds as still valid with the read's
tag stays still valid after the write's invalidation. -/
theorem multicolumn_write_tag_differs (hashAny : List UInt8 → UInt32)
    (datumContents : UInt64 → ℤ → List UInt8) :
    invalidateTag hashAny datumContents true [] pairRel (some pairIndex) 2 [1, 2] =
      some ["4000:4006.1,1:".toList] ∧
    addInvalidationTag hashAny datumContents true [] pairRel (some pairIndex)
      (some (eqScanKeys [1, 2])) = some ["4000:4006.1,2:".toList] ∧
    ((freshStore.put [1] ⟨2, 5, true⟩ [7] ["4000:4006.1,2:".toList] false 0).1.invalidate 6
      ["4000:4006.1,1:".toList] 0).map (·.intervalsOf [1]) = some [⟨2, 5, true⟩] := by
  refine ⟨by with_unfolding_all rfl, by with_unfolding_all rfl, by decide⟩

/-! ## A tag cut before its `':'` -/

/-- An index `0x4006` of `pairRel` on seven `int4` columns, which are passed by value. -/
def wideIndex : RelationData := ⟨0x4006, List.replicate 7 ⟨4, true⟩, false⟩

/-- The first sixty-three characters of the tag of a tuple of `wideIndex` whose first column holds
`0x10000000`: the sixth hash is the last that fits. -/
def wideTag : List Char :=
  "4000:4006.10000000,10000000,10000000,10000000,10000000,10000000".toList

/-- **A write through a wide index enqueues a tag without its `':'`.** The text of the tag of a
tuple of `wideIndex` is seventy-three characters long, and the 64-byte buffer keeps sixty-three
of them, the trailing `':'` lost. No store returns from an invalidation with this tag: the scan of
`Store_InvalidateTagAndAncestorsDescendants` runs off its end. -/
theorem wideIndex_tag_unterminated (hashAny : List UInt8 → UInt32)
    (datumContents : UInt64 → ℤ → List UInt8) :
    invalidateTag hashAny datumContents true [] pairRel (some wideIndex) 7
        (List.replicate 7 0x10000000) = some [wideTag] ∧
    (keyTagText pairRel wideIndex (List.replicate 7 0x10000000)).length = 73 ∧
    wideTag.getLast? ≠ some ':' ∧
    ∀ (st : Store) ts time, st.invalidate ts [wideTag] time = none := by
  have hlast : wideTag.getLast? ≠ some ':' := by decide
  exact ⟨by with_unfolding_all rfl, by decide, hlast,
    fun st _ _ ↦ st.invalidate_eq_none_of_unterminated (List.mem_singleton_self _) hlast⟩

end TxCache
