import TxCache.Server.Store

/-!
# Invalidations at the cache store

An invalidation `Store_Invalidate ts tags` advances the store's clock `lastInvalTime` to `ts` and,
for every tag, invalidates the tag's proper ancestors exactly and the tag itself together with its
descendants. Tags are hierarchical: a tag is a sequence of components each ending in `':'`, so the
ancestors of `"a:b:c:"` are `"a:"` and `"a:b:"`, and its descendants the tags it is a prefix of.

Each of those `Store_InvalidateTag` calls reaches the entries that are already stored through the
invalidation index and truncates them; it also records the invalidation in the buffer, so that a
put that arrives later with an older upper bound can be checked against it
(`Store_TruncateIfAlreadyInvalidated`, in `TxCache.Server.Put`). Buffered invalidations expire
after `INVAL_BUFFER_TIME` seconds, and `bufferValidFrom` remembers the pin of the last one that did.

## The index walk

`Store_InvalidateTag` positions an iterator at the first pair `≥ (tag, NULL)` and walks on while
the pairs match. Before it truncates an entry it moves the iterator past the pairs of the same
entry that follow directly, because truncation removes all of that entry's pairs; the iterator
then rests on a pair of another entry, which the truncation leaves in place. `invalidateTagRounds`
follows this walk over the index as it is at each round.
-/

namespace TxCache

/-- `INVAL_BUFFER_TIME`, in seconds. -/
def invalBufferTime : ℤ := 30

/-- The matching test of `Store_InvalidateTag` and of the buffer check: an exact match
(`strcmp`), or with `descendants` a prefix match (`strncmp` over the length of `pat`). -/
def tagMatches (pat : List Char) (descendants : Bool) (tag : List Char) : Bool :=
  if descendants then pat.isPrefixOf tag else tag == pat

/-- The `Store_InvalidateTag` calls that `Store_InvalidateTagAndAncestorsDescendants` makes for a
tag, in order: every proper prefix ending in `':'` exactly, then the whole tag with its
descendants. The scan in C stops only at a `':'` followed by the terminator; for a tag that does
not end in `':'` it runs past the end of the tag, which is `none` here. -/
def ancestorsDescendants (seen : List Char) : List Char → Option (List (List Char × Bool))
  | [] => none
  | c :: rest =>
    if c = ':' then
      if rest = [] then some [(seen ++ [c], true)]
      else ((seen ++ [c], false) :: ·) <$> ancestorsDescendants (seen ++ [c]) rest
    else ancestorsDescendants (seen ++ [c]) rest

namespace Store

/-- The walk of `Store_InvalidateTag` from the iterator position `cur :: rest`: the list is the
index from that position on. Each round truncates one matching entry; the walk stops at the first
pair that does not match, or when the iterator had no next pair. -/
def invalidateTagRounds (tag : List Char) (descendants : Bool) (time : ℤ) :
    ℕ → Store → List InvalMapEntry → Store
  | 0, st, _ => st
  | _ + 1, st, [] => st
  | n + 1, st, cur :: rest =>
    -- the `do ... while` that steps past the pairs of the entry about to be truncated
    let next := rest.dropWhile (·.entry == cur.entry)
    if tagMatches tag descendants cur.tag then
      let st' := st.truncateUnboundedInterval cur.entry st.lastInvalTime time
      match next with
      | [] => st'
      | nxt :: _ =>
        invalidateTagRounds tag descendants time n st'
          (OrdList.fromGE StoreInvalTree.compareValue st'.invalMap nxt)
    else st

variable (st : Store)

/-- `Store_InvalidateTag`: truncate the still-valid entries carrying a matching tag at
`lastInvalTime`, then buffer the invalidation. A buffered invalidation of the same pin and tag
is already there when the insertion fails, and the failure is ignored. When no pair of the index
is `≥ (tag, NULL)` the iterator is `NULL` and the call returns at once, buffering nothing. -/
def invalidateTag (tag : List Char) (descendants : Bool) (time : ℤ) : Store :=
  match OrdList.fromGE StoreInvalTree.compareValue st.invalMap ⟨tag, 0⟩ with
  | [] => st
  | cur :: rest =>
    let st' := invalidateTagRounds tag descendants time (st.invalMap.length + 1) st (cur :: rest)
    let ent : InvalBufferEntry :=
      { pin := st'.lastInvalTime, time := time, tag := tag, descendants := descendants }
    match OrdList.insert StoreInvalBuffer.compareValue (fun _ ↦ ent) st'.invalBuffer
        (ent.pin, some tag) with
    | none => st'
    | some buffer => { st' with invalBuffer := buffer }

/-- `Store_InvalidateTagAndAncestorsDescendants`. -/
def invalidateTagAndAncestorsDescendants (tag : List Char) (time : ℤ) : Option Store :=
  (ancestorsDescendants [] tag).map fun calls ↦
    calls.foldl (fun (st : Store) c ↦ st.invalidateTag c.1 c.2 time) st

/-- The loop of `Store_ExpireBuffer`: drop the oldest buffered invalidation while it is at least
`INVAL_BUFFER_TIME` seconds old, remembering its pin in `bufferValidFrom`. -/
def expireBufferRounds : ℕ → Store → ℤ → Store
  | 0, st, _ => st
  | n + 1, st, curTime =>
    match st.invalBuffer with
    | [] => st
    | ent :: _ =>
      if ent.time + invalBufferTime > curTime then st
      else expireBufferRounds n
        { st with
          bufferValidFrom := ent.pin
          invalBuffer :=
            OrdList.remove StoreInvalBuffer.compareValue st.invalBuffer (ent.pin, some ent.tag) }
        curTime

/-- `Store_ExpireBuffer`. -/
def expireBuffer (curTime : ℤ) : Store := expireBufferRounds st.invalBuffer.length st curTime

/-- `Store_Invalidate ts tags`. Its two `Assert`s panic (`none`) unless `ts` is a real pin later
than `lastInvalTime`; a tag that does not end in `':'` makes the scan run off its end (`none`). -/
def invalidate (ts : ℕ) (tags : List (List Char)) (time : ℤ) : Option Store :=
  if pinSpecial ts || decide (ts ≤ st.lastInvalTime) then none
  else
    (tags.foldlM (fun (st : Store) t ↦ st.invalidateTagAndAncestorsDescendants t time)
      { st with lastInvalTime := ts }).map (·.expireBuffer time)

end Store

/-! ## The scan of a tag -/

/-- **The scan of `Store_InvalidateTagAndAncestorsDescendants` stays inside a tag exactly when the
tag ends in `':'`.** The cases follow the scan: the last character, or one before another. -/
theorem isSome_ancestorsDescendants_iff : ∀ (seen tag : List Char),
    (ancestorsDescendants seen tag).isSome ↔ tag.getLast? = some ':'
  | _, [] => by simp [ancestorsDescendants]
  | seen, [c] => by
    by_cases hc : c = ':' <;> simp [ancestorsDescendants, hc]
  | seen, c :: d :: rest => by
    have ih := isSome_ancestorsDescendants_iff (seen ++ [c]) (d :: rest)
    rw [List.getLast?_cons_cons, ← ih, ancestorsDescendants]
    by_cases hc : c = ':' <;> simp [hc]

theorem foldlM_eq_none_of_mem {σ β : Type*} {f : σ → β → Option σ} {t : β}
    (ht : ∀ s, f s t = none) : ∀ {l : List β} (s : σ), t ∈ l → l.foldlM f s = none
  | a :: l, s, hmem => by
    rw [List.foldlM_cons]
    rcases List.mem_cons.mp hmem with rfl | hl
    · rw [ht]
      rfl
    · cases f s a with
      | none => rfl
      | some s' => exact foldlM_eq_none_of_mem ht s' hl

namespace Store

variable (st : Store)

theorem invalidate_eq_none_of_unterminated {ts : ℕ} {tags : List (List Char)} {time : ℤ}
    {t : List Char} (ht : t ∈ tags) (hlast : t.getLast? ≠ some ':') :
    st.invalidate ts tags time = none := by
  have hscan : ∀ st' : Store, st'.invalidateTagAndAncestorsDescendants t time = none := by
    intro st'
    have hnone : ancestorsDescendants [] t = none := by
      rw [← Option.not_isSome_iff_eq_none, isSome_ancestorsDescendants_iff]
      exact hlast
    rw [invalidateTagAndAncestorsDescendants, hnone, Option.map_none]
  unfold invalidate
  split_ifs
  · rfl
  · rw [foldlM_eq_none_of_mem
      (f := fun (st : Store) t ↦ st.invalidateTagAndAncestorsDescendants t time) hscan _ ht,
      Option.map_none]

end Store

end TxCache
