import TxCache.Tmpl.RBTree

/-!
# `RB_Remove`

`RB_Remove` is a top-down deletion. It walks from the header `head` towards the key, and on every
node `q` it reaches whose colour and whose child towards the key are black it pushes a red node
down to `q`: by a rotation at `q` when `q`'s other child is red, and otherwise by a colour flip
with `q`'s sibling `s` or a rotation at the parent `p` when one of `s`'s children is red. It
remembers the last node `f` that compares equal to the key. When the walk stops, at a node `q`
with no child towards the key, `q` leaves its place to its one child and takes the place of `f`,
keeping `f`'s colour and links, so every node but `f` keeps its address.

The function ends in `return true`, whether or not a node compared equal to the key; its comment
promises `false` when the removal fails, "the data was not found in the tree". So it reports
success for every tree and key, and when no value compares equal it leaves the values, the chain
and the count as they were (`remove_reports_true`).

## The model

The walk is a loop over a zipper: the path of frames above `q`, `q`, the side `dir` the search
goes on, and the address of `f` (`Stop`). One pass of the loop moves `q` down, compares it with
the key and pushes a red node down (`pushDown`). The loop is given as much fuel as the tree has
nodes; each pass moves to a smaller subtree, so the fuel never runs out (`removeLoop_isSome`).
Every pass keeps the tree's nodes in in-order position (`toList_fill_pushDown`).
-/

namespace TxCache

namespace RB

variable {α κ : Type*}

open Node

/-- The rotation at the parent `p` of one pass of `RB_Remove`, when `q`'s sibling `s` has a red
child: `g->link[dir2]` after `RB_Double` or `RB_Single` at `p`, turned red, with its two children
turned black. -/
def rotateAtParent (t s : Node α) (last : Bool) : Node α :=
  let t := if (s.link last).isRed then double t last
    else if (s.link (!last)).isRed then single t last else t
  let t := t.setRed true
  (t.setLink false ((t.link false).setRed false)).setLink true ((t.link true).setRed false)

/-- The rebalancing of one pass of the loop of `RB_Remove`, on the node `q` the loop moved to from
the side `last` of its parent `p` (the first frame of `path`), before it goes on to the side
`dir`. When `q` and its child on that side are black, a red node is pushed down to `q`. -/
def pushDown (path : List (Frame α)) (q : Node α) (dir last : Bool) : List (Frame α) × Node α :=
  if !q.isRed && !(q.link dir).isRed then
    if (q.link (!dir)).isRed then
      -- `p = p->link[last] = RB_Single(q, dir)`: `q` goes down below its red child
      match (single q dir).down dir with
      | some (fr, q') => (fr :: path, q')
      | none => (path, q)
    else
      -- here `q->link[!dir]` is black as well
      match path with
      | p :: rest =>
        -- `s = p->link[!last]`, the sibling of `q`
        let s := p.other
        if s.isNil then (path, q)
        else if !(s.link (!last)).isRed && !(s.link last).isRed then
          -- colour flip
          ({ p with red := false, other := s.setRed true } :: rest, q.setRed true)
        else
          -- `p` goes down below `s` or below `s`'s red child, and `q` turns red
          let t := rotateAtParent (p.plug q) s last
          match t.down last with
          | some (frT, u) =>
            match u.down last with
            | some (frP, q') => (frP :: frT :: rest, q'.setRed true)
            | none => (path, q)
          | none => (path, q)
      -- `p` is the header, whose left link `s` is `NULL`
      | [] => (path, q)
  else (path, q)

/-- Where the loop of `RB_Remove` stops: the path above `q`, `q`, the side `dir` the search would
go on, and the address of the node `f` found equal to the key. -/
structure Stop (α : Type*) where
  path : List (Frame α)
  q : Node α
  dir : Bool
  f : Option ℕ

/-- The loop of `RB_Remove`, from the pass that moved to `q` from the side `last`. The loop goes
on while `q->link[dir]` is not `NULL`; `n` bounds the passes. -/
def removeLoop (cmp : α → κ → Ordering) (key : κ) :
    ℕ → List (Frame α) → Node α → Bool → Option ℕ → Option (Stop α)
  | 0, _, _, _, _ => none
  -- the loop only moves to a node that is there
  | _ + 1, path, .nil, last, f => some ⟨path, .nil, last, f⟩
  | n + 1, path, q@(.node _ _ a x _), last, f =>
    let dir := cmp x key == .lt
    let f := if cmp x key = .eq then some a else f
    let r := pushDown path q dir last
    match r.2.down dir with
    | some (fr, child@(.node ..)) => removeLoop cmp key n (fr :: r.1) child dir f
    | _ => some ⟨r.1, r.2, dir, f⟩

/-- After the loop, when `f` was found: `q` leaves its place to its one child
(`q->link[q->link[0] == NULL]`) and, when it is not `f` itself, takes the place of `f` with `f`'s
colour and links. -/
def replaceFound (st : Stop α) : Node α :=
  match st.f, st.q with
  | some f, .node _ l qa qx r =>
    let child := if l.isNil then r else l
    if f = qa then fill st.path child
    else fill (st.path.map fun fr ↦ if fr.addr = f then { fr with addr := qa, data := qx } else fr)
      child
  | _, _ => fill st.path st.q

/-- `RB_Remove`. The chain loses `f`, the count goes down by one, and the root turns black. The
result is `none` only if the loop ran out of fuel, which it never does. -/
def Tree.remove (cmp : α → κ → Ordering) (t : Tree α) (key : κ) : Option (Tree α × Bool) :=
  match t.root with
  | .nil => some (t, true)
  | root@(.node ..) =>
    (removeLoop cmp key root.size [] root true none).map fun st ↦
      let root' := (replaceFound st).setRed false
      match st.f with
      | none => ({ t with root := root' }, true)
      | some f => (⟨root', t.size - 1, t.chain.erase f⟩, true)

/-! ## One pass of the loop -/

section Pass

theorem toList_blackChildren (u : Node α) :
    ((u.setLink false ((u.link false).setRed false)).setLink true
      ((u.link true).setRed false)).toList = u.toList := by
  rw [toList_setLink (by rw [link_setLink_of_ne (by decide), toList_setRed]),
    toList_setLink (by rw [toList_setRed])]

theorem link_blackChildren {u : Node α} (hu : u ≠ nil) (d : Bool) :
    ((u.setLink false ((u.link false).setRed false)).setLink true
      ((u.link true).setRed false)).link d = (u.link d).setRed false := by
  have hu' : u.setLink false ((u.link false).setRed false) ≠ nil := by
    cases u
    · exact absurd rfl hu
    · simp [setLink]
  cases d
  · rw [link_setLink_of_ne (by decide), link_setLink_self hu]
  · rw [link_setLink_self hu']

theorem rotateAtParent_spec {t s : Node α} {last : Bool} (hs : t.link (!last) = s) (hs' : s ≠ nil)
    (hq : t.link last ≠ nil)
    (hred : (s.link last).isRed = true ∨ (s.link (!last)).isRed = true) :
    (rotateAtParent t s last).toList = t.toList ∧
      ((rotateAtParent t s last).link last).link last = t.link last := by
  obtain ⟨hl, hll⟩ : (if (s.link last).isRed then double t last
      else if (s.link (!last)).isRed then single t last else t).toList = t.toList ∧
      ((if (s.link last).isRed then double t last
        else if (s.link (!last)).isRed then single t last else t).link last).link last =
        t.link last := by
    split_ifs with h₁ h₂
    · have hx : (t.link (!last)).link last ≠ nil := hs ▸ ne_nil_of_isRed h₁
      exact ⟨toList_double hx, link_link_double hx⟩
    · exact ⟨toList_single (hs ▸ hs'), link_link_single (hs ▸ hs')⟩
    · simp_all
  set u := if (s.link last).isRed then double t last
    else if (s.link (!last)).isRed then single t last else t
  have hu : u.setRed true ≠ nil := by
    rw [← hll] at hq
    exact ne_nil_of_link_ne_nil (by simpa using ne_nil_of_link_ne_nil hq)
  refine ⟨?_, ?_⟩
  · simp only [rotateAtParent]
    rw [toList_blackChildren, toList_setRed, hl]
  · simp only [rotateAtParent]
    rw [link_blackChildren hu, link_setRed, link_setRed, hll]

variable {path : List (Frame α)} {q : Node α} {dir last : Bool}

/-- **What one pass can do**: nothing; a rotation at `q`, which leaves the risen node as a new
frame; a colour flip of `p`, `q` and `q`'s sibling; or a rotation at `p`, which leaves `p` and the
risen node as frames and `q` below them, turned red. -/
theorem pushDown_cases (hq : q ≠ nil) (hlast : ∀ p ∈ path.head?, p.dir = last) :
    pushDown path q dir last = (path, q) ∨
    (q.link (!dir) ≠ nil ∧ ∃ fr, (single q dir).down dir = some (fr, (single q dir).link dir) ∧
      pushDown path q dir last = (fr :: path, (single q dir).link dir)) ∨
    (∃ p rest, path = p :: rest ∧
      pushDown path q dir last = ({ p with red := false, other := p.other.setRed true } :: rest,
        q.setRed true)) ∨
    (∃ p rest frT frP, path = p :: rest ∧
      (rotateAtParent (p.plug q) p.other last).toList = (p.plug q).toList ∧
      frT.plug (frP.plug q) = rotateAtParent (p.plug q) p.other last ∧
      pushDown path q dir last = (frP :: frT :: rest, q.setRed true)) := by
  unfold pushDown
  split_ifs with hblack hred
  · -- the rotation at `q`
    have hne : q.link (!dir) ≠ nil := ne_nil_of_isRed hred
    obtain ⟨fr, hfr⟩ := down_eq_some (single_ne_nil hne) dir
    exact .inr (.inl ⟨hne, fr, hfr, by rw [hfr]⟩)
  · cases path with
    | nil => exact .inl rfl
    | cons p rest =>
      obtain rfl : p.dir = last := hlast p (by simp)
      dsimp only
      split_ifs with hnil hflip
      · exact .inl rfl
      · exact .inr (.inr (.inl ⟨p, rest, rfl, rfl⟩))
      · -- the rotation at `p`: `q` comes back two steps below the risen node
        have hs : p.other ≠ nil := by
          intro h
          simp [h, isNil] at hnil
        have hred' : (p.other.link p.dir).isRed = true ∨ (p.other.link (!p.dir)).isRed = true := by
          simp only [Bool.and_eq_true, not_and, Bool.not_eq_eq_eq_not, Bool.not_true] at hflip
          cases h : (p.other.link p.dir).isRed <;> simp_all
        obtain ⟨hl, hll⟩ := rotateAtParent_spec (t := p.plug q) (Frame.link_plug_not p q) hs
          (by rw [Frame.link_plug]; exact hq) hred'
        rw [Frame.link_plug] at hll
        set t := rotateAtParent (p.plug q) p.other p.dir
        have hu : t.link p.dir ≠ nil := ne_nil_of_link_ne_nil (hll ▸ hq)
        obtain ⟨frT, hT⟩ := down_eq_some (ne_nil_of_link_ne_nil hu) p.dir
        obtain ⟨frP, hP⟩ := down_eq_some hu p.dir
        rw [hT]
        dsimp only
        rw [hP, hll]
        refine .inr (.inr (.inr ⟨p, rest, frT, frP, rfl, hl, ?_, rfl⟩))
        conv_lhs => rw [← hll]
        rw [plug_of_down hP, plug_of_down hT]
  · exact .inl rfl

/-- **A pass keeps the tree's nodes** in in-order position. -/
theorem toList_fill_pushDown (hq : q ≠ nil) (hlast : ∀ p ∈ path.head?, p.dir = last) :
    (fill (pushDown path q dir last).1 (pushDown path q dir last).2).toList =
      (fill path q).toList := by
  rcases @pushDown_cases _ _ _ dir _ hq hlast with
    h | ⟨hne, fr, hfr, h⟩ | ⟨p, rest, rfl, h⟩ | ⟨p, rest, frT, frP, rfl, hl, hplug, h⟩ <;> rw [h]
  · simp only [fill]
    rw [plug_of_down hfr, toList_fill, toList_fill, toList_single hne]
  · simp [fill, toList_fill, Frame.before, Frame.after]
  · have hsub : (frT.plug (frP.plug (q.setRed true))).toList = (p.plug q).toList := by
      rw [← hl, ← hplug]
      simp
    simp only [fill]
    rw [toList_fill, toList_fill, hsub]

theorem pushDown_focus (hq : q ≠ nil) (hlast : ∀ p ∈ path.head?, p.dir = last) :
    (pushDown path q dir last).2 ≠ nil ∧
      (pushDown path q dir last).2.link dir = q.link dir ∧
      (pushDown path q dir last).2.size ≤ q.size := by
  rcases @pushDown_cases _ _ _ dir _ hq hlast with
    h | ⟨hne, fr, hfr, h⟩ | ⟨p, rest, rfl, h⟩ | ⟨p, rest, frT, frP, rfl, hl, hplug, h⟩ <;> rw [h]
  · exact ⟨hq, rfl, le_rfl⟩
  · dsimp only
    rw [link_single hne]
    have hsize := size_setLink hq (!dir) ((q.link (!dir)).link dir)
    have hlt := size_link_lt hne dir
    refine ⟨setRed_ne_nil (setLink_ne_nil hq _ _) _, ?_, ?_⟩
    · rw [link_setRed]
      exact link_setLink_of_ne (by cases dir <;> decide)
    · rw [size_setRed]
      omega
  · exact ⟨setRed_ne_nil hq _, link_setRed _ _ _, (size_setRed _ _).le⟩
  · exact ⟨setRed_ne_nil hq _, link_setRed _ _ _, (size_setRed _ _).le⟩

end Pass

/-! ## The loop -/

section Loop

variable {cmp : α → κ → Ordering} {key : κ}

theorem dir_of_down {t child : Node α} {d : Bool} {fr : Frame α} (h : t.down d = some (fr, child)) :
    fr.dir = d := by
  match t, h with
  | .node .., h =>
    simp only [Node.down, Option.some.injEq, Prod.mk.injEq] at h
    rw [← h.1]

theorem child_of_down {t child : Node α} {d : Bool} {fr : Frame α}
    (h : t.down d = some (fr, child)) : child = t.link d := by
  match t, h with
  | .node .., h =>
    simp only [Node.down, Option.some.injEq, Prod.mk.injEq] at h
    rw [← h.2]
    cases d <;> rfl

/-- **The loop ends before its fuel runs out**: each pass moves to a smaller subtree. -/
theorem removeLoop_isSome {n : ℕ} {path : List (Frame α)} {q : Node α} {last : Bool}
    {f : Option ℕ} (hq : q ≠ nil) (hn : q.size ≤ n) (hlast : ∀ p ∈ path.head?, p.dir = last) :
    (removeLoop cmp key n path q last f).isSome := by
  induction n generalizing path q last f with
  | zero =>
    cases q with
    | nil => exact absurd rfl hq
    | node => simp [size] at hn
  | succ n ih =>
    cases q with
    | nil => exact absurd rfl hq
    | node red l a x r =>
      simp only [removeLoop]
      obtain ⟨hne, -, hsize⟩ := @pushDown_focus _ _ _ (cmp x key == .lt) _ hq hlast
      split
      · rename_i fr _ _ _ _ _ hdown
        have hchild := child_of_down hdown
        refine ih (by simp) ?_ (fun p hp ↦ ?_)
        · have := size_link_lt hne (cmp x key == .lt)
          rw [← hchild] at this
          omega
        · simp only [List.head?_cons, Option.mem_def, Option.some.injEq] at hp
          rw [← hp, dir_of_down hdown]
      · rfl

/-- **What the loop keeps**: the tree's nodes in in-order position, and `f`, unless it found a node
equal to the key. -/
theorem removeLoop_spec {n : ℕ} {path : List (Frame α)} {q : Node α} {last : Bool}
    {f : Option ℕ} {st : Stop α} (hlast : ∀ p ∈ path.head?, p.dir = last)
    (h : removeLoop cmp key n path q last f = some st) :
    (fill st.path st.q).toList = (fill path q).toList ∧
      (st.f = f ∨ ∃ a x, st.f = some a ∧ (a, x) ∈ (fill path q).toList ∧ cmp x key = .eq) := by
  induction n generalizing path q last f with
  | zero => simp [removeLoop] at h
  | succ n ih =>
    match q with
    | .nil =>
      simp only [removeLoop, Option.some.injEq] at h
      subst h
      exact ⟨rfl, .inl rfl⟩
    | .node red l a x r =>
      simp only [removeLoop] at h
      have hkeep := @toList_fill_pushDown _ _ (.node red l a x r) (cmp x key == .lt) _ (by simp) hlast
      have hmem : (a, x) ∈ (fill path (.node red l a x r)).toList := by simp [toList_fill]
      have hf : (if cmp x key = .eq then some a else f) = f ∨ ∃ a' x', (if cmp x key = .eq then
          some a else f) = some a' ∧ (a', x') ∈ (fill path (.node red l a x r)).toList ∧
          cmp x' key = .eq := by
        split_ifs with heq
        · exact .inr ⟨a, x, rfl, hmem, heq⟩
        · exact .inl rfl
      split at h
      · rename_i fr cr cl ca cx cr' hdown
        have hlast' : ∀ p ∈ (fr :: (pushDown path (.node red l a x r) (cmp x key == .lt) last).1).head?,
            p.dir = (cmp x key == .lt) := by
          intro p hp
          simp only [List.head?_cons, Option.mem_def, Option.some.injEq] at hp
          rw [← hp, dir_of_down hdown]
        obtain ⟨hl, hf'⟩ := ih hlast' h
        have hfill : (fill (fr :: (pushDown path (.node red l a x r) (cmp x key == .lt) last).1)
            (.node cr cl ca cx cr')).toList = (fill path (.node red l a x r)).toList := by
          simp only [fill]
          rw [plug_of_down hdown, hkeep]
        rw [hfill] at hl hf'
        refine ⟨hl, ?_⟩
        rcases hf' with hf' | hf'
        · rw [hf']
          exact hf
        · exact .inr hf'
      · simp only [Option.some.injEq] at h
        subst h
        exact ⟨hkeep, hf⟩

end Loop

/-! ## `RB_Remove` reports `true` -/

theorem replaceFound_of_none {st : Stop α} (h : st.f = none) : replaceFound st = fill st.path st.q := by
  unfold replaceFound
  rw [h]

/-- **`RB_Remove` reports success for every tree and key.** It returns `true` whether or not a
value compares equal to the key, and when none does the tree keeps its values, its chain and its
count: the header comment's "false if the removal failed for any reason" never happens. -/
theorem remove_reports_true (cmp : α → κ → Ordering) (t : Tree α) (key : κ) :
    ∃ t', t.remove cmp key = some (t', true) ∧
      ((∀ v ∈ t.values, cmp v key ≠ .eq) →
        t'.values = t.values ∧ t'.chain = t.chain ∧ t'.size = t.size) := by
  obtain ⟨root, size, chain⟩ := t
  cases root with
  | nil => exact ⟨_, rfl, fun _ ↦ ⟨rfl, rfl, rfl⟩⟩
  | node red l a x r =>
    have hsome : (removeLoop cmp key (node red l a x r).size [] (node red l a x r) true none).isSome :=
      removeLoop_isSome (by simp) le_rfl (by simp)
    obtain ⟨st, hst⟩ := Option.isSome_iff_exists.mp hsome
    obtain ⟨hkeep, hf⟩ := removeLoop_spec (by simp) hst
    simp only [Tree.remove, hst, Option.map_some]
    cases hfound : st.f with
    | none =>
      refine ⟨_, rfl, fun _ ↦ ⟨?_, rfl, rfl⟩⟩
      simp only [Tree.values, toList_setRed, replaceFound_of_none hfound, hkeep, fill]
    | some f =>
      refine ⟨_, rfl, fun hno ↦ ?_⟩
      rcases hf with hf | ⟨a', x', -, hmem, heq⟩
      · simp [hfound] at hf
      · exact absurd heq (hno x' (List.mem_map_of_mem (f := Prod.snd) hmem))

end RB

end TxCache
