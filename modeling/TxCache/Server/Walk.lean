import TxCache.Server.Invariants

/-!
# What an invalidation truncates

`Store_InvalidateTag` walks the invalidation index from the search key `(tag, NULL)`, and deletes
pairs of the index as it walks. In a store whose index names exactly the tags of its still-valid
entries (`Valid` and `Indexed`), the walk truncates exactly the still-valid entries that carry a
matching tag, and leaves no matching pair behind (`invalidateTag_spec`). `Store_Invalidate` then
truncates exactly the still-valid entries with a tag that one of its tags matches hierarchically
(`invalidate_entries`).

## The walk invariant

The matching pairs form one block of the sorted index, from `(tag, NULL)` on: for an exact match
the pairs of the tag, for a match with descendants the pairs of the tags that extend it
(`OrdList.isPrefix_of_compareLex`). The iterator position `p` of a round is at or above
`(tag, NULL)`, and no matching pair lies below it. A round truncates the entry of the pair at `p`,
which takes out that pair and every other pair of the entry, among them the ones the iterator
steps over; the next position is the first pair of another entry, so the invariant holds again.
The walk stops at a pair that does not match, past which no pair matches, or at the end of the
index. Each round removes a pair, so the fuel of `Store_InvalidateTag`, one more than the size of
the index, is never the reason the walk stops.
-/

namespace TxCache

namespace Store

/-! ## Truncated entries -/

section Truncated

variable {now : ℕ} {time : ℤ}

@[simp] theorem truncatedEntry_addr (e : Entry) : (truncatedEntry now time e).addr = e.addr := rfl

@[simp] theorem truncatedEntry_stillValid (e : Entry) :
    (truncatedEntry now time e).interval.stillValid = false := rfl

theorem truncatedEntry_truncatedEntry (e : Entry) :
    truncatedEntry now time (truncatedEntry now time e) = truncatedEntry now time e := by
  by_cases h : now > e.interval.upper <;> simp [truncatedEntry, h]

/-- An entry with the entries at the addresses `A` truncated at `now`. -/
def truncateAt (now : ℕ) (time : ℤ) (A : List ℕ) (e : Entry) : Entry :=
  if e.addr ∈ A then truncatedEntry now time e else e

@[simp] theorem truncateAt_nil : truncateAt now time [] = id := by
  funext e
  simp [truncateAt]

theorem truncateAt_comp (a : ℕ) (A : List ℕ) (e : Entry) :
    truncateAt now time A (if e.addr = a then truncatedEntry now time e else e) =
      truncateAt now time (a :: A) e := by
  by_cases ha : e.addr = a
  · simp [truncateAt, ha, truncatedEntry_truncatedEntry]
  · simp [truncateAt, ha]

/-- An entry as an invalidation leaves it: truncated at `now` when it is still valid and carries a
tag that `m` matches. -/
def truncateIf (now : ℕ) (time : ℤ) (m : List Char → Bool) (e : Entry) : Entry :=
  if e.interval.stillValid && e.invalTags.any m then truncatedEntry now time e else e

@[simp] theorem truncateIf_false : truncateIf now time (fun _ ↦ false) = id := by
  funext e
  simp [truncateIf]

theorem any_or_eq {l : List (List Char)} (m₁ m₂ : List Char → Bool) :
    (l.any fun x ↦ m₁ x || m₂ x) = (l.any m₁ || l.any m₂) := by
  induction l with
  | nil => rfl
  | cons a l ih =>
    simp only [List.any_cons, ih]
    cases m₁ a <;> cases m₂ a <;> simp

theorem truncateIf_comp (m₁ m₂ : List Char → Bool) (e : Entry) :
    truncateIf now time m₂ (truncateIf now time m₁ e) =
      truncateIf now time (fun x ↦ m₁ x || m₂ x) e := by
  unfold truncateIf
  cases hsv : e.interval.stillValid <;> cases h₁ : e.invalTags.any m₁ <;>
    simp [hsv, h₁, any_or_eq]

variable {st : Store} {a : ℕ} {e : Entry}

theorem entries_truncate_eq_map (h : st.findEntry a = some e) (now : ℕ) (time : ℤ) :
    (st.truncateUnboundedInterval a now time).entries =
      st.entries.map fun f ↦ if f.addr = a then truncatedEntry now time f else f := by
  rw [truncateUnboundedInterval_eq h]
  exact st.entries_modifyEntry (a := a) _

theorem Valid.mem_invalMap_truncate (hv : st.Valid) (h : st.findEntry a = some e) (now : ℕ)
    (time : ℤ) (x : InvalMapEntry) :
    x ∈ (st.truncateUnboundedInterval a now time).invalMap ↔ x ∈ st.invalMap ∧ x.entry ≠ a := by
  rw [(st.truncateUnboundedInterval_fields h now time).1, mem_unregisterTags hv.sorted_nodup]
  obtain ⟨he, rfl⟩ := (st.findEntry_eq_some_iff hv.addrs_nodup).mp h
  constructor
  · rintro ⟨hx, hn⟩
    refine ⟨hx, fun hxa ↦ hn ⟨hxa, ?_⟩⟩
    obtain ⟨f, hf, hfa, -, hft⟩ := hv.invalMap_sound x hx
    obtain rfl : f = e := List.inj_on_of_nodup_map hv.addrs_nodup hf he (hfa.trans hxa)
    exact hft
  · rintro ⟨hx, hne⟩
    exact ⟨hx, fun h ↦ hne h.1⟩

end Truncated

/-! ## The walk -/

section Walk

variable {tag : List Char} {descendants : Bool} {time : ℤ}

theorem invalidateTagRounds_entries :
    ∀ n (s : Store) L, s.Valid → (∀ x ∈ L, x ∈ s.invalMap) →
      ∃ A : List ℕ, (invalidateTagRounds tag descendants time n s L).entries =
          s.entries.map (truncateAt s.lastInvalTime time A) ∧
        ∀ a ∈ A, ∃ e ∈ s.entries, e.addr = a ∧ e.interval.stillValid = true ∧
          ∃ x ∈ e.invalTags, tagMatches tag descendants x = true
  | 0, _, _, _, _ => ⟨[], by simp [invalidateTagRounds], by simp⟩
  | _ + 1, _, [], _, _ => ⟨[], by simp [invalidateTagRounds], by simp⟩
  | n + 1, s, cur :: rest, hv, hL => by
    rw [invalidateTagRounds]
    dsimp only
    split_ifs with hm
    · obtain ⟨e, hfe, hsv, htag⟩ := hv.findEntry_of_mem (hL cur List.mem_cons_self)
      obtain ⟨he, hea⟩ := (s.findEntry_eq_some_iff hv.addrs_nodup).mp hfe
      have hents := entries_truncate_eq_map hfe s.lastInvalTime time
      have hcur : ∃ f ∈ s.entries, f.addr = cur.entry ∧ f.interval.stillValid = true ∧
          ∃ x ∈ f.invalTags, tagMatches tag descendants x = true :=
        ⟨e, he, hea, hsv, cur.tag, htag, hm⟩
      split
      · refine ⟨[cur.entry], ?_, by simpa using hcur⟩
        rw [hents]
        exact List.map_congr_left fun f _ ↦ by simp [truncateAt]
      · have htr : (s.truncateUnboundedInterval cur.entry s.lastInvalTime time).Valid :=
          hv.truncate hfe hsv
        obtain ⟨A, hA, hAsv⟩ := invalidateTagRounds_entries n _ _ htr
          fun x hx ↦ OrdList.mem_of_mem_fromGE _ hx
        refine ⟨cur.entry :: A, ?_, fun a ha ↦ ?_⟩
        · rw [hA, hents, lastInvalTime_truncateUnboundedInterval, List.map_map]
          exact List.map_congr_left fun f _ ↦ truncateAt_comp _ _ f
        · rcases List.mem_cons.mp ha with rfl | ha
          · exact hcur
          · obtain ⟨f₁, hf₁, hfa, hfsv, hft⟩ := hAsv a ha
            rw [hents] at hf₁
            obtain ⟨f, hf, rfl⟩ := List.mem_map.mp hf₁
            by_cases hfc : f.addr = cur.entry
            · simp [hfc] at hfsv
            · simp only [hfc, if_false] at hfa hfsv hft
              exact ⟨f, hf, hfa, hfsv, hft⟩
    · exact ⟨[], by simp, by simp⟩

theorem tagMatches_of_between {cur v : InvalMapEntry}
    (h₁ : StoreInvalTree.compareValue cur ⟨tag, 0⟩ ≠ .lt)
    (h₂ : StoreInvalTree.compareValue cur v ≠ .gt) (hv : tagMatches tag descendants v.tag = true) :
    tagMatches tag descendants cur.tag = true := by
  have hlo : List.compareLex compare cur.tag tag ≠ .lt := by
    intro h
    simp [StoreInvalTree.compareValue, List.compare_eq_compareLex, h] at h₁
  have hhi : List.compareLex compare cur.tag v.tag ≠ .gt := by
    intro h
    simp [StoreInvalTree.compareValue, List.compare_eq_compareLex, h] at h₂
  cases descendants with
  | true =>
    obtain ⟨s, hs⟩ := List.isPrefixOf_iff_prefix.mp hv
    rw [← hs] at hhi
    exact List.isPrefixOf_iff_prefix.mpr (OrdList.isPrefix_of_compareLex hlo hhi)
  | false =>
    have hvt : v.tag = tag := by simpa [tagMatches] using hv
    rw [hvt] at hhi
    have heq : List.compareLex compare cur.tag tag = .eq := by
      cases h : List.compareLex compare cur.tag tag
      · exact absurd h hlo
      · rfl
      · exact absurd h hhi
    simpa [tagMatches] using Std.LawfulEqCmp.eq_of_compare heq

/-- **The walk leaves no matching pair.** From a position at or above `(tag, NULL)` with no
matching pair below it, and with more fuel than pairs, the walk deletes every matching pair. The
induction is on the fuel; each round removes at least the pair at the position. -/
theorem invalidateTagRounds_complete :
    ∀ n (s : Store) (p : InvalMapEntry), s.Valid → s.invalMap.length < n →
      (∀ v ∈ s.invalMap, tagMatches tag descendants v.tag = true →
        StoreInvalTree.compareValue v p ≠ .lt) →
      StoreInvalTree.compareValue p ⟨tag, 0⟩ ≠ .lt →
      ∀ v ∈ (invalidateTagRounds tag descendants time n s
          (OrdList.fromGE StoreInvalTree.compareValue s.invalMap p)).invalMap,
        tagMatches tag descendants v.tag = false
  | 0, _, _, _, hn, _, _ => absurd hn (Nat.not_lt_zero _)
  | n + 1, s, p, hv, hn, hbelow, hstart => by
    have hmem : ∀ v, v ∈ OrdList.fromGE StoreInvalTree.compareValue s.invalMap p ↔
        v ∈ s.invalMap ∧ StoreInvalTree.compareValue v p ≠ .lt :=
      fun v ↦ OrdList.mem_fromGE_iff hv.invalMap_sorted
    have hsorted := hv.invalMap_sorted.sublist
      (OrdList.fromGE_sublist StoreInvalTree.compareValue s.invalMap p)
    generalize OrdList.fromGE StoreInvalTree.compareValue s.invalMap p = L at hmem hsorted ⊢
    cases L with
    | nil =>
      intro v hvs
      rw [invalidateTagRounds] at hvs
      by_contra hm
      exact List.not_mem_nil ((hmem v).mpr ⟨hvs, hbelow v hvs (by simpa using hm)⟩)
    | cons cur rest =>
      obtain ⟨hcur, hcurp⟩ := (hmem cur).mp List.mem_cons_self
      have hcur_start := OrdList.ne_lt_trans hcurp hstart
      have hlt : ∀ x ∈ rest, StoreInvalTree.compareValue cur x = .lt :=
        fun x hx ↦ List.rel_of_pairwise_cons hsorted hx
      rw [invalidateTagRounds]
      dsimp only
      split_ifs with hm
      · obtain ⟨e, hfe, hsv, -⟩ := hv.findEntry_of_mem hcur
        have hmem₁ := hv.mem_invalMap_truncate hfe s.lastInvalTime time
        have hrest : ∀ v ∈ (s.truncateUnboundedInterval cur.entry s.lastInvalTime time).invalMap,
            tagMatches tag descendants v.tag = true → v ∈ rest ∧ v.entry ≠ cur.entry := by
          intro v hv₁ hvm
          obtain ⟨hvs, hne⟩ := (hmem₁ v).mp hv₁
          rcases List.mem_cons.mp ((hmem v).mpr ⟨hvs, hbelow v hvs hvm⟩) with rfl | hr
          · exact absurd rfl hne
          · exact ⟨hr, hne⟩
        split
        · rename_i hnil
          intro v hv₁
          by_contra hvm
          obtain ⟨hr, hne⟩ := hrest v hv₁ (by simpa using hvm)
          exact hne (by simpa using List.dropWhile_eq_nil_iff.mp hnil v hr)
        · rename_i nxt tl hnext
          have hnxt : nxt ∈ rest :=
            (List.dropWhile_sublist _).subset (hnext ▸ List.mem_cons_self)
          have htl : ∀ x ∈ tl, StoreInvalTree.compareValue nxt x = .lt := by
            have hs := (List.pairwise_cons.mp hsorted).2.sublist (List.dropWhile_sublist
              fun x ↦ x.entry == cur.entry)
            rw [hnext] at hs
            exact fun x hx ↦ List.rel_of_pairwise_cons hs hx
          have htr : (s.truncateUnboundedInterval cur.entry s.lastInvalTime time).Valid :=
            hv.truncate hfe hsv
          refine invalidateTagRounds_complete n _ nxt htr ?_ ?_ ?_
          · have hsub : (s.truncateUnboundedInterval cur.entry s.lastInvalTime time).invalMap.Sublist
                s.invalMap := by
              rw [(s.truncateUnboundedInterval_fields hfe _ time).1]
              exact unregisterTags_sublist _ _
            have hlen := lt_of_le_of_ne hsub.length_le fun heq ↦
              ((hmem₁ cur).mp (hsub.eq_of_length heq ▸ hcur)).2 rfl
            omega
          · intro v hv₁ hvm
            obtain ⟨hr, hne⟩ := hrest v hv₁ hvm
            have hvn : v ∈ nxt :: tl :=
              hnext ▸ OrdList.mem_dropWhile_of_eq_false hr (by simpa using hne)
            rcases List.mem_cons.mp hvn with rfl | hvt
            · simp [Std.ReflCmp.compare_self]
            · simp [Std.OrientedCmp.gt_of_lt (htl v hvt)]
          · exact OrdList.ne_lt_trans
              (by simp [Std.OrientedCmp.gt_of_lt (hlt nxt hnxt)]) hcur_start
      · -- the walk stopped at a pair that does not match, and the block is contiguous
        intro v hvs
        by_contra hvm
        have hvm' : tagMatches tag descendants v.tag = true := by simpa using hvm
        rcases List.mem_cons.mp ((hmem v).mpr ⟨hvs, hbelow v hvs hvm'⟩) with rfl | hr
        · exact hm hvm'
        · exact hm (tagMatches_of_between hcur_start (by simp [hlt v hr]) hvm')

theorem start_le_of_tagMatches {v : InvalMapEntry} (hv : tagMatches tag descendants v.tag = true) :
    StoreInvalTree.compareValue v ⟨tag, 0⟩ ≠ .lt := by
  have htag : List.compareLex compare v.tag tag ≠ .lt := by
    cases descendants with
    | true =>
      obtain ⟨s, hs⟩ := List.isPrefixOf_iff_prefix.mp hv
      rw [← hs]
      exact OrdList.compareLex_append_ne_lt tag s
    | false =>
      have hvt : v.tag = tag := by simpa [tagMatches] using hv
      simp [hvt, Std.ReflCmp.compare_self]
  have hentry : compare v.entry 0 ≠ .lt := by
    rw [Ne, Nat.compare_eq_lt]
    exact Nat.not_lt_zero _
  unfold StoreInvalTree.compareValue
  rw [List.compare_eq_compareLex]
  cases h : List.compareLex compare v.tag tag <;> simp_all [Ordering.then]

/-- **`Store_InvalidateTag` truncates exactly the still-valid entries with a matching tag**, at the
store's `lastInvalTime`, and leaves no matching pair in the index. -/
theorem invalidateTag_spec {st : Store} (hv : st.Valid) (hi : st.Indexed) :
    (st.invalidateTag tag descendants time).entries =
        st.entries.map (truncateIf st.lastInvalTime time (tagMatches tag descendants)) ∧
      ∀ x ∈ (st.invalidateTag tag descendants time).invalMap,
        tagMatches tag descendants x.tag = false := by
  obtain ⟨buffer, h⟩ := st.invalidateTag_eq tag descendants time
  have hwalk : (st.invalidateTag tag descendants time).entries =
        (invalidateTagRounds tag descendants time (st.invalMap.length + 1) st
          (OrdList.fromGE StoreInvalTree.compareValue st.invalMap ⟨tag, 0⟩)).entries ∧
      (st.invalidateTag tag descendants time).invalMap =
        (invalidateTagRounds tag descendants time (st.invalMap.length + 1) st
          (OrdList.fromGE StoreInvalTree.compareValue st.invalMap ⟨tag, 0⟩)).invalMap := by
    rw [h]
    exact ⟨rfl, rfl⟩
  have hcomplete : ∀ x ∈ (st.invalidateTag tag descendants time).invalMap,
      tagMatches tag descendants x.tag = false := by
    rw [hwalk.2]
    exact invalidateTagRounds_complete _ st ⟨tag, 0⟩ hv (Nat.lt_succ_self _)
      (fun _ _ hm ↦ start_le_of_tagMatches hm) (by simp [StoreInvalTree.compareValue,
        Std.ReflCmp.compare_self])
  refine ⟨?_, hcomplete⟩
  obtain ⟨A, hA, hAsv⟩ := @invalidateTagRounds_entries tag descendants time
    (st.invalMap.length + 1) st _ hv fun x hx ↦ OrdList.mem_of_mem_fromGE _ hx
  rw [hwalk.1, hA]
  refine List.map_congr_left fun e he ↦ ?_
  unfold truncateAt truncateIf
  by_cases hA' : e.addr ∈ A
  · obtain ⟨e₀, he₀, hea, hsv, x, hx, hm⟩ := hAsv _ hA'
    obtain rfl : e₀ = e := List.inj_on_of_nodup_map hv.addrs_nodup he₀ he hea
    have hcond : (e₀.interval.stillValid && e₀.invalTags.any (tagMatches tag descendants)) = true := by
      simpa [hsv] using ⟨x, hx, hm⟩
    rw [if_pos hA', if_pos hcond]
  · rw [if_neg hA', if_neg]
    -- an entry the walk left is not still valid with a matching tag, or its pair would remain
    intro hcond
    simp only [Bool.and_eq_true, List.any_eq_true] at hcond
    obtain ⟨hsv, x, hx, hm⟩ := hcond
    have hmem : e ∈ (st.invalidateTag tag descendants time).entries := by
      rw [hwalk.1, hA]
      exact List.mem_map.mpr ⟨e, he, by simp [truncateAt, hA']⟩
    have hpair := hi.invalidateTag hv tag descendants time e hmem hsv x hx
    simp [hcomplete _ hpair] at hm

theorem lastInvalTime_invalidateTag {st : Store} :
    (st.invalidateTag tag descendants time).lastInvalTime = st.lastInvalTime :=
  invalidateTag_induction (P := fun s ↦ s.lastInvalTime = st.lastInvalTime)
    (fun _ _ h _ ↦ lastInvalTime_truncateUnboundedInterval.trans h) (fun _ _ h ↦ h) rfl

end Walk

/-! ## An invalidation -/

section Invalidate

variable {time : ℤ}

theorem exists_prefix_cons_iff {seen r x : List Char} {c : Char} :
    (∃ q, q ≠ [] ∧ q.getLast? = some ':' ∧ q <+: c :: r ∧ x = seen ++ q) ↔
      (c = ':' ∧ x = seen ++ [c]) ∨
        ∃ q, q ≠ [] ∧ q.getLast? = some ':' ∧ q <+: r ∧ x = seen ++ [c] ++ q := by
  constructor
  · rintro ⟨q, hq, hl, hp, rfl⟩
    rcases List.prefix_cons_iff.mp hp with rfl | ⟨t, rfl, ht⟩
    · exact absurd rfl hq
    · cases t with
      | nil => exact .inl ⟨by simpa using hl, rfl⟩
      | cons b t => exact .inr ⟨b :: t, List.cons_ne_nil b t, by simpa using hl, ht, by simp⟩
  · rintro (⟨rfl, rfl⟩ | ⟨q, hq, hl, hp, rfl⟩)
    · exact ⟨[':'], List.cons_ne_nil _ _, rfl, List.cons_prefix_cons.mpr ⟨rfl, List.nil_prefix⟩,
        rfl⟩
    · refine ⟨c :: q, List.cons_ne_nil c q, ?_, List.cons_prefix_cons.mpr ⟨rfl, hp⟩, by simp⟩
      cases q with
      | nil => exact absurd rfl hq
      | cons b q => simpa using hl

theorem invalidateTag_foldl_spec :
    ∀ (calls : List (List Char × Bool)) (s : Store), s.Valid → s.Indexed →
      (calls.foldl (fun (s : Store) c ↦ s.invalidateTag c.1 c.2 time) s).entries =
          s.entries.map (truncateIf s.lastInvalTime time fun x ↦
            calls.any fun c ↦ tagMatches c.1 c.2 x) ∧
        (calls.foldl (fun (s : Store) c ↦ s.invalidateTag c.1 c.2 time) s).lastInvalTime =
          s.lastInvalTime ∧
        (calls.foldl (fun (s : Store) c ↦ s.invalidateTag c.1 c.2 time) s).Valid ∧
        (calls.foldl (fun (s : Store) c ↦ s.invalidateTag c.1 c.2 time) s).Indexed
  | [], s, hv, hi => ⟨by simp, rfl, hv, hi⟩
  | c :: cs, s, hv, hi => by
    rw [List.foldl_cons]
    obtain ⟨h₁, h₂, h₃, h₄⟩ := invalidateTag_foldl_spec cs _ (hv.invalidateTag c.1 c.2 time)
      (hi.invalidateTag hv c.1 c.2 time)
    refine ⟨?_, h₂.trans lastInvalTime_invalidateTag, h₃, h₄⟩
    rw [h₁, (invalidateTag_spec hv hi).1, lastInvalTime_invalidateTag, List.map_map]
    refine List.map_congr_left fun e _ ↦ ?_
    rw [Function.comp_apply, truncateIf_comp]
    simp only [List.any_cons]

/-- **The calls for a tag match hierarchically.** For a tag that ends in `':'`, the scan of
`Store_InvalidateTagAndAncestorsDescendants` from `seen` returns calls that match the tags `seen`
followed by a nonempty `':'`-terminated prefix of `rest`, exactly, and the tags that extend
`seen ++ rest`. The cases follow the scan: the last character, or one before another. -/
theorem any_ancestorsDescendants : ∀ (seen rest : List Char), rest.getLast? = some ':' →
    ∃ calls, ancestorsDescendants seen rest = some calls ∧ ∀ x,
      (calls.any fun c ↦ tagMatches c.1 c.2 x) = true ↔
        (∃ q, q ≠ [] ∧ q.getLast? = some ':' ∧ q <+: rest ∧ x = seen ++ q) ∨ seen ++ rest <+: x
  | _, [], h => by simp at h
  | seen, [c], h => by
    obtain rfl : c = ':' := by simpa using h
    refine ⟨[(seen ++ [':'], true)], by simp [ancestorsDescendants], fun x ↦ ?_⟩
    simp only [List.any_cons, List.any_nil, Bool.or_false, tagMatches, if_true,
      List.isPrefixOf_iff_prefix]
    refine ⟨.inr, ?_⟩
    rintro (⟨q, hq, -, hp, rfl⟩ | h)
    · rcases List.prefix_cons_iff.mp hp with rfl | ⟨t, rfl, ht⟩
      · exact absurd rfl hq
      · rw [List.prefix_nil.mp ht]
    · exact h
  | seen, c :: d :: rest, h => by
    obtain ⟨calls, hcalls, hspec⟩ :=
      any_ancestorsDescendants (seen ++ [c]) (d :: rest) (by simpa using h)
    have hext : ∀ x, (∃ q, q ≠ [] ∧ q.getLast? = some ':' ∧ q <+: c :: d :: rest ∧ x = seen ++ q) ↔
        (c = ':' ∧ x = seen ++ [c]) ∨
          ∃ q, q ≠ [] ∧ q.getLast? = some ':' ∧ q <+: d :: rest ∧ x = seen ++ [c] ++ q :=
      fun x ↦ exists_prefix_cons_iff
    by_cases hc : c = ':'
    · subst hc
      refine ⟨(seen ++ [':'], false) :: calls, ?_, fun x ↦ ?_⟩
      · rw [ancestorsDescendants, if_pos rfl, if_neg (List.cons_ne_nil d rest), hcalls]
        rfl
      rw [List.any_cons, Bool.or_eq_true, hspec x, hext x]
      simp only [tagMatches, Bool.false_eq_true, if_false, beq_iff_eq, true_and,
        List.append_assoc, List.singleton_append]
      exact or_assoc.symm
    · refine ⟨calls, by rw [ancestorsDescendants, if_neg hc, hcalls], fun x ↦ ?_⟩
      rw [hspec x, hext x]
      simp [hc]

theorem ancestorsDescendants_matches {t : List Char} (ht : t.getLast? = some ':') :
    ∃ calls, ancestorsDescendants [] t = some calls ∧
      ∀ x, (calls.any fun c ↦ tagMatches c.1 c.2 x) = invalTagMatches t x := by
  obtain ⟨calls, hcalls, hspec⟩ := any_ancestorsDescendants [] t ht
  refine ⟨calls, hcalls, fun x ↦ Bool.eq_iff_iff.mpr ((hspec x).trans ?_)⟩
  simp only [invalTagMatches, List.nil_append, Bool.or_eq_true, Bool.and_eq_true, beq_iff_eq,
    List.isPrefixOf_iff_prefix]
  constructor
  · rintro (⟨q, -, hl, hp, rfl⟩ | h)
    · exact .inl ⟨hl, hp⟩
    · exact .inr h
  · rintro (⟨hl, hp⟩ | h)
    · exact .inl ⟨x, by rintro rfl; simp at hl, hl, hp, rfl⟩
    · exact .inr h

theorem invalidateTags_spec : ∀ (tags : List (List Char)) (s : Store), s.Valid → s.Indexed →
    (∀ t ∈ tags, t.getLast? = some ':') →
    ∃ s', tags.foldlM (fun (s : Store) t ↦ s.invalidateTagAndAncestorsDescendants t time) s =
        some s' ∧
      s'.entries = s.entries.map (truncateIf s.lastInvalTime time fun x ↦
        tags.any fun t ↦ invalTagMatches t x) ∧
      s'.lastInvalTime = s.lastInvalTime ∧ s'.Valid ∧ s'.Indexed
  | [], s, hv, hi, _ => ⟨s, rfl, by simp, rfl, hv, hi⟩
  | t :: ts, s, hv, hi, htags => by
    obtain ⟨calls, hcalls, hany⟩ := ancestorsDescendants_matches (htags t List.mem_cons_self)
    obtain ⟨h₁, h₂, h₃, h₄⟩ := @invalidateTag_foldl_spec time calls s hv hi
    obtain ⟨s', hs', h₁', h₂', h₃', h₄'⟩ :=
      invalidateTags_spec ts _ h₃ h₄ fun t' ht' ↦ htags t' (List.mem_cons_of_mem t ht')
    refine ⟨s', ?_, ?_, h₂'.trans h₂, h₃', h₄'⟩
    · rw [List.foldlM_cons, invalidateTagAndAncestorsDescendants, hcalls]
      exact hs'
    · rw [h₁', h₁, h₂, List.map_map]
      refine List.map_congr_left fun e _ ↦ ?_
      rw [Function.comp_apply, truncateIf_comp]
      simp only [hany, List.any_cons]

/-- **What `Store_Invalidate` does.** In a store that keeps its bookkeeping and indexes every tag of
its still-valid entries, an invalidation at a real pin `ts` later than `lastInvalTime`, with tags
that end in `':'`, returns; it sets `lastInvalTime` to `ts` and truncates at `ts` exactly the
still-valid entries with a tag that one of its tags matches hierarchically. -/
theorem invalidate_entries {st : Store} (hv : st.Valid) (hi : st.Indexed) {ts : ℕ}
    {tags : List (List Char)} (hts : pinSpecial ts = false) (hlt : st.lastInvalTime < ts)
    (htags : ∀ t ∈ tags, t.getLast? = some ':') :
    ∃ st', st.invalidate ts tags time = some st' ∧ st'.lastInvalTime = ts ∧
      st'.entries = st.entries.map (truncateIf ts time fun x ↦
        tags.any fun t ↦ invalTagMatches t x) := by
  obtain ⟨s', hs', hents, hlast, -, -⟩ := invalidateTags_spec tags { st with lastInvalTime := ts }
    (hv.of_eq rfl rfl rfl rfl rfl rfl rfl rfl) (hi.of_eq rfl rfl) htags
  obtain ⟨buffer, validFrom, hexp⟩ := expireBufferRounds_eq s'.invalBuffer.length s' time
  refine ⟨s'.expireBuffer time, ?_, ?_, ?_⟩
  · unfold invalidate
    rw [if_neg (by simp [hts]; omega), hs', Option.map_some]
  · rw [expireBuffer, hexp]
    exact hlast
  · rw [expireBuffer, hexp]
    exact hents

theorem invalidate_provisos {st st' : Store} {ts : ℕ} {tags : List (List Char)}
    (h : st.invalidate ts tags time = some st') :
    pinSpecial ts = false ∧ st.lastInvalTime < ts ∧ ∀ t ∈ tags, t.getLast? = some ':' := by
  refine ⟨?_, ?_, fun t ht ↦ ?_⟩
  · by_contra hts
    simp [invalidate, hts] at h
  · by_contra hle
    simp [invalidate, Nat.le_of_not_lt hle] at h
  · by_contra hlast
    rw [st.invalidate_eq_none_of_unterminated ht hlast] at h
    cases h

theorem invalidate_eq_some_of_provisos {st : Store} {ts : ℕ} {tags : List (List Char)}
    (hts : pinSpecial ts = false) (hlt : st.lastInvalTime < ts)
    (htags : ∀ t ∈ tags, t.getLast? = some ':') :
    ∃ st', st.invalidate ts tags time = some st' ∧ st'.lastInvalTime = ts := by
  have hscan : ∀ t l (s : Store), (s.lastInvalTime = ts ∧ ∀ t' ∈ t :: l, t'.getLast? = some ':') →
      ∃ s', s.invalidateTagAndAncestorsDescendants t time = some s' ∧
        (s'.lastInvalTime = ts ∧ ∀ t' ∈ l, t'.getLast? = some ':') := by
    rintro t l s ⟨hs, hl⟩
    obtain ⟨calls, hcalls⟩ := Option.isSome_iff_exists.mp
      ((isSome_ancestorsDescendants_iff [] t).mpr (hl t List.mem_cons_self))
    refine ⟨_, by rw [invalidateTagAndAncestorsDescendants, hcalls, Option.map_some], ?_,
      fun t' ht' ↦ hl t' (List.mem_cons_of_mem t ht')⟩
    exact Fold.foldl_induction (Q := fun s : Store ↦ s.lastInvalTime = ts)
      (fun s _ h ↦ lastInvalTime_invalidateTag.trans h) calls s hs
  obtain ⟨st₁, hfold, hst₁, -⟩ := Fold.foldlM_eq_some_of_step
    (fun l (s : Store) ↦ s.lastInvalTime = ts ∧ ∀ t ∈ l, t.getLast? = some ':') hscan tags
    { st with lastInvalTime := ts } ⟨rfl, htags⟩
  obtain ⟨buffer, validFrom, hexp⟩ := expireBufferRounds_eq st₁.invalBuffer.length st₁ time
  refine ⟨st₁.expireBuffer time, ?_, ?_⟩
  · rw [invalidate, if_neg (by simpa [hts] using hlt), hfold, Option.map_some]
  · rw [expireBuffer, hexp]
    exact hst₁

/-- **No still-valid entry misses an invalidation.** After an invalidation of a store that keeps
its bookkeeping and indexes every tag of its still-valid entries, no still-valid entry carries a
tag that one of the invalidated tags matches. -/
theorem Valid.invalidate_leaves_no_match {st st' : Store} (hv : st.Valid) (hi : st.Indexed)
    {ts : ℕ} {tags : List (List Char)} (h : st.invalidate ts tags time = some st') :
    ∀ e ∈ st'.entries, e.interval.stillValid = true →
      ∀ t ∈ tags, ∀ x ∈ e.invalTags, invalTagMatches t x = false := by
  obtain ⟨hts, hlt, htags⟩ := invalidate_provisos h
  obtain ⟨st'', h'', -, hents⟩ := @invalidate_entries time st hv hi ts tags hts hlt htags
  obtain rfl : st'' = st' := Option.some.inj (h''.symm.trans h)
  intro e he hsv t ht x hx
  rw [hents] at he
  obtain ⟨e₀, -, rfl⟩ := List.mem_map.mp he
  unfold truncateIf at hsv hx
  split_ifs at hsv hx with hcond
  · simp at hsv
  · simp only [hsv, Bool.true_and, List.any_eq_true, not_exists, not_and, Bool.not_eq_true]
      at hcond
    simpa using hcond x hx t ht

end Invalidate

/-! ## Reachable stores

Every store reachable from `Store_Init` keeps its bookkeeping, and, when the puts carry distinct
tags, indexes every tag of its still-valid entries (`Valid.run`, `Indexed.run`); there the
invalidation does what it is meant to. -/

/-- **An invalidation truncates exactly the still-valid entries with a matching tag.** In a store
reachable from `Store_Init` by operations whose puts carry distinct tags, `Store_Invalidate` at a
real pin `ts` later than `lastInvalTime`, with tags that end in `':'`, returns a store whose
`lastInvalTime` is `ts` and whose entries are those of the store, each still-valid entry with a tag
`x` that some invalidated tag `t` matches (`x` a `':'`-terminated prefix of `t`, or `t` a prefix of
`x`) truncated: its upper end raised to `ts` if below it, no longer still valid, and truncated at
`time`. -/
theorem invalidate_truncates_matching {layout : Layout} {maxBytes : ℕ} {uselessBound : ℤ}
    {ops : List StoreOp} {st : Store}
    (hrun : (Store.init layout maxBytes uselessBound).run ops = some st)
    (hops : ∀ op ∈ ops, op.TagsNodup) {ts : ℕ} {tags : List (List Char)} {time : ℤ}
    (hts : pinSpecial ts = false) (hlt : st.lastInvalTime < ts)
    (htags : ∀ t ∈ tags, t.getLast? = some ':') :
    ∃ st', st.invalidate ts tags time = some st' ∧ st'.lastInvalTime = ts ∧
      st'.entries = st.entries.map fun e ↦
        if e.interval.stillValid && e.invalTags.any (fun x ↦ tags.any fun t ↦ invalTagMatches t x)
        then truncatedEntry ts time e else e :=
  invalidate_entries ((valid_init _ _ _).run hrun)
    (Indexed.run (valid_init _ _ _) (indexed_init _ _ _) hops hrun) hts hlt htags

/-- The entry put with tag `"a:b:"` is truncated by an invalidation of its ancestor `"a:"`. -/
theorem invalidate_truncates_matching_run :
    ∃ st', (freshStore.put [1] ⟨2, 5, true⟩ [7] ["a:b:".toList] false 0).1.invalidate 6
        ["a:".toList] 0 = some st' ∧ st'.lastInvalTime = 6 ∧
      st'.entries = (freshStore.put [1] ⟨2, 5, true⟩ [7] ["a:b:".toList] false 0).1.entries.map
        fun e ↦ if e.interval.stillValid && e.invalTags.any
            (fun x ↦ ["a:".toList].any fun t ↦ invalTagMatches t x)
          then truncatedEntry 6 0 e else e :=
  @invalidate_truncates_matching _ _ _ [.put [1] ⟨2, 5, true⟩ [7] ["a:b:".toList] false 0] _ rfl
    (by decide) _ _ _ (by decide) (by decide) (by decide)

/-- **Without the provisos the invalidation fails.** At `PIN_INF`, later than every
`lastInvalTime`, `Store_Invalidate` panics; and after a put with the tag `"a:"` twice,
`Store_RegisterInvalTags` stops at the second `"a:"`, so the put's `"b:"` is never indexed and an
invalidation of `"b:"` leaves the entry still valid. -/
theorem invalidate_misses_entries :
    freshStore.invalidate pinInf ["a:".toList] 0 = none ∧
    ∃ st, freshStore.run [.put [1] ⟨2, 5, true⟩ [7] ["a:".toList, "a:".toList, "b:".toList] false 0] =
        some st ∧ st.lastInvalTime < 6 ∧
      (st.invalidate 6 ["b:".toList] 0).map (·.intervalsOf [1]) = some [⟨2, 5, true⟩] :=
  ⟨by decide, _, rfl, by decide, by decide⟩

end Store

end TxCache
