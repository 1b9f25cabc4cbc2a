import TxCache.Postgres.InvalQueue
import TxCache.Interval

/-!
# The invalidation daemon

`invald` listens for the notification that a commit or a `PIN` raises, and on each one reads
`pg_invalidations` (`InvaldProcessNotification`). It walks the rows in order and gathers the tags
of consecutive rows with one pin; when the pin changes, and after the last row, it sends the pin
and the tags gathered to every cache node (`SendInvalidationNotice`, through
`ServerProxy_Invalidate`). A `NULL` tag is a null invalidation: it must be alone under its pin
(`Assert(cnt == 1)`), and it goes out with no tags.

The pin of a row is `strtol` of the text of the `int4` the view returns, stored in a `pin_t`;
for every 32-bit xstamp that is the xstamp again (`pinOfInt4_int4`). Every cache node receives the
same calls, so a notice is a pin and its tags.

## Reading back

The queue that the commits and the `PIN`s fill is the rows of a list of notices: a commit's tags
under its xstamp, or one `NULL` tag under the xstamp of a null invalidation (`noticeRows`). When
no two notices in a row share a pin, the daemon sends exactly those notices, in order
(`processNotification_rows`). The daemon sees only pins, so that is what it needs: were two
notices with one pin to follow each other, their tags would go out as one.
-/

namespace TxCache

/-- A call of `ServerProxy_Invalidate`, the same for every cache node: the pin and its tags. -/
abbrev Notice := ℕ × List (List Char)

/-- `strtol` of the text of an `int4`, stored in a `pin_t`. -/
def pinOfInt4 (z : ℤ) : ℕ := (z % 2 ^ 32).toNat

/-- The loop of `SendInvalidationNotice`: each tag goes in `invalTags` at its index, and a `NULL`
tag asserts that the group has one row (`cnt == 1`) and sets the count to `0`. The count left,
and the entries of `invalTags`, `none` where the loop set nothing. -/
def noticeTags : ℕ → List (Option (List Char)) → Option (ℕ × List (Option (List Char)))
  | cnt, [] => some (cnt, [])
  | cnt, none :: rest =>
    if cnt = 1 then (noticeTags 0 rest).map fun (c, slots) ↦ (c, none :: slots) else none
  | cnt, some t :: rest => (noticeTags cnt rest).map fun (c, slots) ↦ (c, some t :: slots)

/-- `SendInvalidationNotice`: the call it makes to every cache node, with the first `cnt` entries
of `invalTags`. Reading an entry the loop did not set is `none`, and so is a special pin, the
`Assert` of `ServerProxy_Invalidate`. -/
def sendInvalidationNotice (pin : ℕ) (invals : List (Option (List Char))) : Option Notice :=
  (noticeTags invals.length invals).bind fun (cnt, invalTags) ↦
    if pinSpecial pin then none else ((invalTags.take cnt).mapM id).map (pin, ·)

/-- The row loop of `InvaldProcessNotification`, with `lastPin` and the group `invals` gathered
so far: the notices sent, the last pin and its group. A row under another pin sends the group
first. -/
def processRows : List (ℤ × Option (List Char)) → ℕ → List (Option (List Char)) → List Notice →
    Option (List Notice × ℕ × List (Option (List Char)))
  | [], lastPin, invals, sent => some (sent, lastPin, invals)
  | (x, tag) :: rest, lastPin, invals, sent =>
    let pin := pinOfInt4 x
    if pinSpecial pin then none
    else if pin ≠ lastPin ∧ lastPin ≠ pinInvalid then
      (sendInvalidationNotice lastPin invals).bind fun n ↦ processRows rest pin [tag] (sent ++ [n])
    else processRows rest pin (invals ++ [tag]) sent

/-- `InvaldProcessNotification` on the rows of the `SELECT`: the notices it sends, in order. No
row sends nothing. -/
def processNotification (rows : List (ℤ × Option (List Char))) : Option (List Notice) :=
  if rows = [] then some []
  else
    (processRows rows pinInvalid [] []).bind fun (sent, lastPin, invals) ↦
      (sendInvalidationNotice lastPin invals).map (sent ++ [·])

/-! ## The rows of a notice -/

/-- The tags of the rows of a notice: its tags, or one `NULL` tag for a null invalidation. -/
def noticeTagsOf (n : Notice) : List (Option (List Char)) :=
  if n.2 = [] then [none] else n.2.map some

/-- The rows of a notice in the queue. -/
def noticeRows (n : Notice) : List (ℕ × Option (List Char)) := (noticeTagsOf n).map (n.1, ·)

theorem noticeRows_null (x : ℕ) : noticeRows (x, []) = [(x, none)] := rfl

theorem noticeRows_of_ne_nil {x : ℕ} {tags : List (List Char)} (h : tags ≠ []) :
    noticeRows (x, tags) = tags.map fun t ↦ (x, some t) := by
  rw [noticeRows, noticeTagsOf, if_neg h, List.map_map]
  rfl

theorem pinOfInt4_int4 {x : ℕ} (h : x < 2 ^ 32) : pinOfInt4 (BitVec.ofNat 32 x).toInt = x := by
  have hx : (BitVec.ofNat 32 x).toNat = x := by
    rw [BitVec.toNat_ofNat]
    omega
  rw [pinOfInt4, BitVec.toInt_eq_toNat_cond, hx]
  split_ifs <;> omega

theorem noticeTagsOf_ne_nil (n : Notice) : noticeTagsOf n ≠ [] := by
  unfold noticeTagsOf
  split_ifs with h
  · simp
  · simpa using h

theorem noticeRows_ne_nil (n : Notice) : noticeRows n ≠ [] := by
  rw [noticeRows, Ne, List.map_eq_nil_iff]
  exact noticeTagsOf_ne_nil n

theorem mapM_id_map_some {α : Type*} : ∀ xs : List α, (xs.map some).mapM id = some xs
  | [] => rfl
  | x :: rest => by simp [List.mapM_cons, mapM_id_map_some rest]

theorem noticeTags_map_some (cnt : ℕ) : ∀ tags : List (List Char),
    noticeTags cnt (tags.map some) = some (cnt, tags.map some)
  | [] => rfl
  | t :: rest => by
    rw [List.map_cons, noticeTags, noticeTags_map_some cnt rest, Option.map_some]

theorem sendInvalidationNotice_noticeTagsOf {n : Notice} (h : pinSpecial n.1 = false) :
    sendInvalidationNotice n.1 (noticeTagsOf n) = some n := by
  obtain ⟨pin, tags⟩ := n
  unfold sendInvalidationNotice noticeTagsOf
  by_cases hn : tags = []
  · -- a null invalidation: its count drops to `0`
    subst hn
    simp [noticeTags, h]
  · have htake : ((tags.map some).take (tags.map some).length).mapM id = some tags := by
      rw [List.take_length, mapM_id_map_some]
    rw [if_neg hn, noticeTags_map_some, Option.bind_some]
    simp only [h, Bool.false_eq_true, if_false, htake, Option.map_some]

/-! ## Reading back the notices -/

variable {p : ℕ} {rest : List (ℤ × Option (List Char))} {sent : List Notice}

theorem processRows_same (hp : pinSpecial p = false) (hlt : p < 2 ^ 32) :
    ∀ (vals invals : List (Option (List Char))),
      processRows ((vals.map (p, ·)).map int4Row ++ rest) p invals sent =
        processRows rest p (invals ++ vals) sent
  | [], invals => by simp
  | v :: vals, invals => by
    rw [List.map_cons, List.map_cons, List.cons_append, processRows]
    simp only [int4Row, pinOfInt4_int4 hlt, hp, Bool.false_eq_true, if_false, ne_eq,
      not_true_eq_false, false_and]
    rw [processRows_same hp hlt vals (invals ++ [v]), List.append_assoc, List.singleton_append]

theorem rows_cons {m : Notice} {ns : List Notice} {v : Option (List Char)}
    {vs : List (Option (List Char))} (hv : noticeTagsOf m = v :: vs) :
    ((m :: ns).flatMap noticeRows).map int4Row =
      int4Row (m.1, v) :: ((vs.map (m.1, ·)).map int4Row ++ (ns.flatMap noticeRows).map int4Row) := by
  simp [noticeRows, hv]

theorem processRows_notices : ∀ (ns : List Notice) (m : Notice) (sent : List Notice),
    (m :: ns).IsChain (fun a b ↦ a.1 ≠ b.1) → (∀ n ∈ m :: ns, pinSpecial n.1 = false) →
    (∀ n ∈ m :: ns, n.1 < 2 ^ 32) →
    processRows ((ns.flatMap noticeRows).map int4Row) m.1 (noticeTagsOf m) sent =
      some (sent ++ (m :: ns).dropLast, ((m :: ns).getLast (List.cons_ne_nil _ _)).1,
        noticeTagsOf ((m :: ns).getLast (List.cons_ne_nil _ _)))
  | [], m, sent, _, _, _ => by simp [processRows]
  | n :: ns, m, sent, hchain, hspecial, hlt => by
    obtain ⟨v, vs, hv⟩ := List.exists_cons_of_ne_nil (noticeTagsOf_ne_nil n)
    have hm : pinSpecial m.1 = false := hspecial m List.mem_cons_self
    have hn : pinSpecial n.1 = false := hspecial n (by simp)
    have hnlt : n.1 < 2 ^ 32 := hlt n (by simp)
    have hne : n.1 ≠ m.1 := fun h ↦ (List.isChain_cons_cons.mp hchain).1 h.symm
    have hvalid : m.1 ≠ pinInvalid := by
      intro h
      simp [pinSpecial, h] at hm
    rw [rows_cons hv, processRows]
    simp only [int4Row, pinOfInt4_int4 hnlt, hn, Bool.false_eq_true, if_false]
    rw [if_pos ⟨hne, hvalid⟩, sendInvalidationNotice_noticeTagsOf hm, Option.bind_some]
    have hsame := @processRows_same n.1 ((ns.flatMap noticeRows).map int4Row) (sent ++ [m]) hn hnlt
      vs [v]
    rw [hsame, List.singleton_append, ← hv,
      processRows_notices ns n (sent ++ [m]) (List.isChain_cons_cons.mp hchain).2
        (fun x hx ↦ hspecial x (List.mem_cons_of_mem _ hx)) (fun x hx ↦ hlt x (List.mem_cons_of_mem _ hx))]
    simp [List.dropLast_cons_of_ne_nil]

/-- **The daemon sends back the notices whose rows it reads**, when no two notices in a row
share a pin and every pin is a real 32-bit pin. -/
theorem processNotification_rows {ns : List Notice} (hchain : ns.IsChain fun a b ↦ a.1 ≠ b.1)
    (hspecial : ∀ n ∈ ns, pinSpecial n.1 = false) (hlt : ∀ n ∈ ns, n.1 < 2 ^ 32) :
    processNotification ((ns.flatMap noticeRows).map int4Row) = some ns := by
  cases ns with
  | nil => rfl
  | cons m ns =>
    obtain ⟨v, vs, hv⟩ := List.exists_cons_of_ne_nil (noticeTagsOf_ne_nil m)
    have hm : pinSpecial m.1 = false := hspecial m List.mem_cons_self
    have hmlt : m.1 < 2 ^ 32 := hlt m List.mem_cons_self
    rw [processNotification, rows_cons hv, if_neg (List.cons_ne_nil _ _), processRows]
    simp only [int4Row, pinOfInt4_int4 hmlt, hm, Bool.false_eq_true, if_false, ne_eq,
      not_true_eq_false, and_false]
    have hsame := @processRows_same m.1 ((ns.flatMap noticeRows).map int4Row) [] hm hmlt vs [v]
    rw [List.nil_append, hsame, List.singleton_append, ← hv,
      processRows_notices ns m [] hchain hspecial hlt, Option.bind_some]
    simp only [List.nil_append]
    rw [sendInvalidationNotice_noticeTagsOf (hspecial _ (List.getLast_mem _)), Option.map_some,
      List.dropLast_append_getLast]

end TxCache
