import TxCache.Lib.OrdList

/-!
# Red-black trees: nodes, rotations, paths and searches

`rbtree-impl.h` is a template of red-black trees over a value type `VALUE_t`, searched by the
comparator `COMPARE_VALUE_func(&data, key)` between a stored value and a key of type `KEY_t`. A
node `RB_node_t` is modelled with its colour, its two links, its address and its value; the
in-order chain of `next` and `prev` links is kept by the tree as a whole (`Tree.chain`).

What a search or an update does to the stored values is said through the list of the nodes in
in-order position, `Node.toList`:

* the rotations `RB_Single` and `RB_Double` keep that list (`toList_single`, `toList_double`);
* the descents of `RB_Insert` and `RB_Remove` stand on a node with the path to the root above
  it, a list of frames; a tree is a path filled with a subtree, and its list is what lies before
  the path, the subtree, then what lies after (`toList_fill`);
* `RB_FindImpl` walks down by the comparison with the key. On a tree whose values are in the
  order of that key (`OrdList.KeyOrdered`) it answers the `EQ`, `LT` and `GE` searches of the
  list (`findImpl_eq`, `findImpl_lt`, `findImpl_ge`).
-/

namespace TxCache

namespace RB

variable {α κ : Type*}

/-- `RB_node_t`: red or black, the left link `link[0]`, the node's address, its value, and the
right link `link[1]`. -/
inductive Node (α : Type*) where
  | nil
  | node (red : Bool) (left : Node α) (addr : ℕ) (data : α) (right : Node α)
deriving DecidableEq, Repr

namespace Node

/-- `RB_IsRed`. -/
def isRed : Node α → Bool
  | node red .. => red
  | nil => false

/-- `root->link[dir]`: the left link for `false`, the right one for `true`. -/
def link : Node α → Bool → Node α
  | node _ l _ _ r, dir => if dir then r else l
  | nil, _ => nil

/-- `root->link[dir] = t`. -/
def setLink : Node α → Bool → Node α → Node α
  | node red l a x r, dir, t => if dir then node red l a x t else node red t a x r
  | nil, _, _ => nil

/-- `root->red = red`. -/
def setRed : Node α → Bool → Node α
  | node _ l a x r, red => node red l a x r
  | nil, _ => nil

/-- The addresses and values of the nodes in in-order position. -/
def toList : Node α → List (ℕ × α)
  | nil => []
  | node _ l a x r => l.toList ++ (a, x) :: r.toList

/-- The number of nodes, `RB_Count`. -/
def size : Node α → ℕ
  | nil => 0
  | node _ l _ _ r => l.size + 1 + r.size

@[simp] theorem toList_nil : (nil : Node α).toList = [] := rfl

@[simp] theorem toList_node (red : Bool) (l : Node α) (a : ℕ) (x : α) (r : Node α) :
    (node red l a x r).toList = l.toList ++ (a, x) :: r.toList := rfl

@[simp] theorem toList_setRed (t : Node α) (red : Bool) : (t.setRed red).toList = t.toList := by
  cases t <;> rfl

@[simp] theorem size_setRed (t : Node α) (red : Bool) : (t.setRed red).size = t.size := by
  cases t <;> rfl

@[simp] theorem link_setRed (t : Node α) (red dir : Bool) :
    (t.setRed red).link dir = t.link dir := by
  cases t <;> rfl

@[simp] theorem link_nil (dir : Bool) : (nil : Node α).link dir = nil := rfl

/-- `t == NULL`. -/
def isNil : Node α → Bool
  | nil => true
  | node .. => false

theorem size_link_lt {t : Node α} (h : t ≠ nil) (dir : Bool) : (t.link dir).size < t.size := by
  match t, h with
  | node _ l _ _ r, _ => cases dir <;> simp [link, size]; omega

theorem length_toList (t : Node α) : t.toList.length = t.size := by
  induction t with
  | nil => rfl
  | node _ l _ _ r ihl ihr => simp [size, ihl, ihr]; omega

theorem ne_nil_of_isRed {t : Node α} (h : t.isRed = true) : t ≠ nil := by
  rintro rfl
  cases h

/-! ## Rotations -/

/-- `RB_Single root dir`: the child on the side `!dir` rises above `root` and turns black, and
`root`, now its `dir` child, turns red and takes over the risen node's `dir` child. -/
def single (root : Node α) (dir : Bool) : Node α :=
  let save := root.link (!dir)
  (save.setLink dir ((root.setLink (!dir) (save.link dir)).setRed true)).setRed false

/-- `RB_Double root dir`: first the child on the side `!dir` is rotated the other way, then
`root`. -/
def double (root : Node α) (dir : Bool) : Node α :=
  single (root.setLink (!dir) (single (root.link (!dir)) (!dir))) dir

theorem toList_single {root : Node α} {dir : Bool} (h : root.link (!dir) ≠ nil) :
    (single root dir).toList = root.toList := by
  match root, h with
  | node red l a x r, h =>
    cases dir
    · match r, h with
      | node _ rl ra rx rr, _ => simp [single, link, setLink, setRed]
    · match l, h with
      | node _ ll la lx lr, _ => simp [single, link, setLink, setRed]

theorem size_single {root : Node α} {dir : Bool} (h : root.link (!dir) ≠ nil) :
    (single root dir).size = root.size := by
  rw [← length_toList, toList_single h, length_toList]

theorem single_ne_nil {root : Node α} {dir : Bool} (h : root.link (!dir) ≠ nil) :
    single root dir ≠ nil := by
  intro hs
  have hsize := size_single h
  rw [hs] at hsize
  match root, h with
  | node _ l _ _ r, _ =>
    simp only [size] at hsize
    omega

theorem link_setLink_self {root : Node α} (h : root ≠ nil) (dir : Bool) (t : Node α) :
    (root.setLink dir t).link dir = t := by
  match root, h with
  | node .., _ => cases dir <;> rfl

theorem toList_setLink {root t : Node α} {dir : Bool} (h : t.toList = (root.link dir).toList) :
    (root.setLink dir t).toList = root.toList := by
  cases root with
  | nil => rfl
  | node red l a x r => cases dir <;> simp_all [setLink, link]

theorem ne_nil_of_link_ne_nil {t : Node α} {dir : Bool} (h : t.link dir ≠ nil) : t ≠ nil := by
  rintro rfl
  exact h rfl

theorem setRed_ne_nil {t : Node α} (h : t ≠ nil) (red : Bool) : t.setRed red ≠ nil := by
  cases t
  · exact absurd rfl h
  · simp [setRed]

theorem setLink_ne_nil {t : Node α} (h : t ≠ nil) (d : Bool) (u : Node α) : t.setLink d u ≠ nil := by
  cases t
  · exact absurd rfl h
  · cases d <;> simp [setLink]

theorem size_setLink {t : Node α} (h : t ≠ nil) (d : Bool) (u : Node α) :
    (t.setLink d u).size + (t.link d).size = t.size + u.size := by
  cases t
  · exact absurd rfl h
  · cases d <;> simp [setLink, link, size] <;> omega

theorem link_setLink_of_ne {t u : Node α} {d d' : Bool} (h : d ≠ d') :
    (t.setLink d u).link d' = t.link d' := by
  cases t with
  | nil => rfl
  | node => cases d <;> cases d' <;> simp_all [setLink, link]

theorem link_single {t : Node α} {dir : Bool} (h : t.link (!dir) ≠ nil) :
    (single t dir).link dir = (t.setLink (!dir) ((t.link (!dir)).link dir)).setRed true := by
  simp only [single, link_setRed]
  exact link_setLink_self h dir _

theorem link_link_single {t : Node α} {dir : Bool} (h : t.link (!dir) ≠ nil) :
    ((single t dir).link dir).link dir = t.link dir := by
  rw [link_single h, link_setRed]
  exact link_setLink_of_ne (by cases dir <;> decide)

theorem link_link_double {t : Node α} {dir : Bool} (h : (t.link (!dir)).link dir ≠ nil) :
    ((double t dir).link dir).link dir = t.link dir := by
  have hroot : t ≠ nil := ne_nil_of_link_ne_nil (ne_nil_of_link_ne_nil h)
  unfold double
  rw [link_link_single (by rw [link_setLink_self hroot]; exact single_ne_nil (by simpa using h))]
  exact link_setLink_of_ne (by cases dir <;> decide)

theorem toList_double {root : Node α} {dir : Bool} (h : (root.link (!dir)).link dir ≠ nil) :
    (double root dir).toList = root.toList := by
  have hc : root.link (!dir) ≠ nil := fun h' ↦ h (by rw [h']; rfl)
  have hroot : root ≠ nil := fun h' ↦ hc (by rw [h']; rfl)
  -- the inner rotation keeps the child's list and leaves a node on the side that rises next
  have hin : (single (root.link (!dir)) (!dir)).toList = (root.link (!dir)).toList :=
    toList_single (by simpa using h)
  have hne : (root.setLink (!dir) (single (root.link (!dir)) (!dir))).link (!dir) ≠ nil := by
    rw [link_setLink_self hroot]
    exact single_ne_nil (by simpa using h)
  unfold double
  rw [toList_single hne, toList_setLink hin]

end Node

/-! ## Paths

A descent stands on a node `q` below its parent `p` and grandparent `g`. The path from `q` up to
the root is a list of frames, the parent first; the empty path is the header node `head` of
`RB_Insert` and `RB_Remove`, whose right link is the root. -/

/-- A node a descent passed through: its colour, the side `dir` the descent took from it, its
address and value, and its child `other` on the other side. -/
structure Frame (α : Type*) where
  red : Bool
  dir : Bool
  addr : ℕ
  data : α
  other : Node α
deriving DecidableEq, Repr

namespace Frame

/-- The frame's node with `t` as its child on the side `dir`. -/
def plug (fr : Frame α) (t : Node α) : Node α :=
  if fr.dir then .node fr.red fr.other fr.addr fr.data t else .node fr.red t fr.addr fr.data fr.other

/-- The nodes of the frame before the hole, in in-order position. -/
def before (fr : Frame α) : List (ℕ × α) :=
  if fr.dir then fr.other.toList ++ [(fr.addr, fr.data)] else []

/-- The nodes of the frame after the hole. -/
def after (fr : Frame α) : List (ℕ × α) :=
  if fr.dir then [] else (fr.addr, fr.data) :: fr.other.toList

@[simp] theorem link_plug (fr : Frame α) (t : Node α) : (fr.plug t).link fr.dir = t := by
  unfold plug
  split <;> simp_all [Node.link]

@[simp] theorem link_plug_not (fr : Frame α) (t : Node α) : (fr.plug t).link (!fr.dir) = fr.other := by
  unfold plug
  split <;> simp_all [Node.link]

@[simp] theorem toList_plug (fr : Frame α) (t : Node α) :
    (fr.plug t).toList = fr.before ++ t.toList ++ fr.after := by
  unfold plug before after
  split <;> simp

end Frame

/-- A step down from `t` to its child on the side `dir`: the frame it leaves and the child. -/
def Node.down : Node α → Bool → Option (Frame α × Node α)
  | .node red l a x r, dir => some (⟨red, dir, a, x, if dir then l else r⟩, if dir then r else l)
  | .nil, _ => none

theorem Node.plug_of_down {t child : Node α} {dir : Bool} {fr : Frame α}
    (h : t.down dir = some (fr, child)) : fr.plug child = t := by
  match t, h with
  | .node red l a x r, h =>
    simp only [Node.down, Option.some.injEq, Prod.mk.injEq] at h
    obtain ⟨rfl, rfl⟩ := h
    cases dir <;> rfl

theorem Node.down_eq_some {t : Node α} (h : t ≠ .nil) (dir : Bool) :
    ∃ fr, t.down dir = some (fr, t.link dir) := by
  match t, h with
  | .node red l a x r, _ => cases dir <;> exact ⟨_, rfl⟩

/-- The tree around a hole filled with `t`. -/
def fill : List (Frame α) → Node α → Node α
  | [], t => t
  | fr :: path, t => fill path (fr.plug t)

/-- The nodes before the hole of a path, in in-order position. -/
def before : List (Frame α) → List (ℕ × α)
  | [] => []
  | fr :: path => before path ++ fr.before

/-- The nodes after the hole of a path. -/
def after : List (Frame α) → List (ℕ × α)
  | [] => []
  | fr :: path => fr.after ++ after path

@[simp] theorem before_nil : before ([] : List (Frame α)) = [] := rfl

@[simp] theorem before_cons (fr : Frame α) (path : List (Frame α)) :
    before (fr :: path) = before path ++ fr.before := rfl

@[simp] theorem after_nil : after ([] : List (Frame α)) = [] := rfl

@[simp] theorem after_cons (fr : Frame α) (path : List (Frame α)) :
    after (fr :: path) = fr.after ++ after path := rfl

theorem toList_fill (path : List (Frame α)) (t : Node α) :
    (fill path t).toList = before path ++ t.toList ++ after path := by
  induction path generalizing t with
  | nil => simp [fill]
  | cons fr path ih => simp [fill, ih]

/-! ## Searches -/

/-- `RB_Relation`. -/
inductive Relation
  | eq
  | lt
  | ge
deriving DecidableEq, Repr

/-- The loop of `RB_FindImpl`: the comparison of the node's value with the key either answers or
picks the side to go on, `it->link[cmp < 0]`; `best` is the answer kept so far. -/
def findImpl (cmp : α → κ → Ordering) (key : κ) (rel : Relation) :
    Node α → Option (ℕ × α) → Option (ℕ × α)
  | .nil, best => best
  | .node _ l a x r, best =>
    match rel, cmp x key with
    | .eq, .eq => some (a, x)
    | .eq, .lt => findImpl cmp key rel r best
    | .eq, .gt => findImpl cmp key rel l best
    | .lt, .lt => findImpl cmp key rel r (some (a, x))
    | .lt, _ => findImpl cmp key rel l best
    | .ge, .eq => some (a, x)
    | .ge, .lt => findImpl cmp key rel r best
    | .ge, .gt => findImpl cmp key rel l (some (a, x))

/-- The comparator read on the value of an address and value pair. -/
def onData (cmp : α → κ → Ordering) (e : ℕ × α) (k : κ) : Ordering := cmp e.2 k

section Find

variable {cmp : α → κ → Ordering} {key : κ}

open OrdList

theorem keyOrdered_children {red : Bool} {l r : Node α} {a : ℕ} {x : α}
    (h : KeyOrdered (onData cmp) (Node.node red l a x r).toList key) :
    KeyOrdered (onData cmp) l.toList key ∧ KeyOrdered (onData cmp) r.toList key := by
  rw [Node.toList_node] at h
  exact ⟨h.sublist (List.sublist_append_left _ _),
    h.sublist ((List.sublist_cons_self _ _).trans (List.sublist_append_right _ _))⟩

/-- **The `EQ` search.** -/
theorem findImpl_eq (t : Node α) (h : KeyOrdered (onData cmp) t.toList key)
    (best : Option (ℕ × α)) :
    findImpl cmp key .eq t best = (findEQ (onData cmp) t.toList key).or best := by
  induction t generalizing best with
  | nil => rfl
  | node red l a x r ihl ihr =>
    obtain ⟨hl, hr⟩ := keyOrdered_children h
    rw [Node.toList_node] at h ⊢
    cases hc : cmp x key with
    | lt => simp only [findImpl, hc, ihr hr, h.findEQ_of_lt (v := (a, x)) hc]
    | eq => simp [findImpl, hc, h.findEQ_of_eq (v := (a, x)) hc]
    | gt => simp only [findImpl, hc, ihl hl, h.findEQ_of_gt (v := (a, x)) hc]

/-- **The `LT` search**: the last value below the key. -/
theorem findImpl_lt (t : Node α) (h : KeyOrdered (onData cmp) t.toList key)
    (best : Option (ℕ × α)) :
    findImpl cmp key .lt t best = (findLT (onData cmp) t.toList key).or best := by
  induction t generalizing best with
  | nil => rfl
  | node red l a x r ihl ihr =>
    obtain ⟨hl, hr⟩ := keyOrdered_children h
    rw [Node.toList_node] at h ⊢
    cases hc : cmp x key with
    | lt =>
      have hv : onData cmp (a, x) key = .lt := hc
      have hleft := h.lt_of_mem_left (by simp [hv])
      simp only [findImpl, hc, ihr hr, findLT_append_cons_of_lt hleft hv]
      cases findLT (onData cmp) r.toList key <;> rfl
    | eq =>
      have hv : onData cmp (a, x) key ≠ .lt := by simp [onData, hc]
      simp only [findImpl, hc, ihl hl, findLT_append_cons_of_not_lt hv]
    | gt =>
      have hv : onData cmp (a, x) key ≠ .lt := by simp [onData, hc]
      simp only [findImpl, hc, ihl hl, findLT_append_cons_of_not_lt hv]

/-- **The `GE` search**: the first value not below the key. -/
theorem findImpl_ge (t : Node α) (h : KeyOrdered (onData cmp) t.toList key)
    (best : Option (ℕ × α)) :
    findImpl cmp key .ge t best = (findGE (onData cmp) t.toList key).or best := by
  induction t generalizing best with
  | nil => rfl
  | node red l a x r ihl ihr =>
    obtain ⟨hl, hr⟩ := keyOrdered_children h
    rw [Node.toList_node] at h ⊢
    cases hc : cmp x key with
    | lt =>
      have hv : onData cmp (a, x) key = .lt := hc
      have hleft := h.lt_of_mem_left (by simp [hv])
      simp only [findImpl, hc, ihr hr, findGE_append_cons_of_lt hleft hv]
    | eq =>
      have hv : onData cmp (a, x) key ≠ .lt := by simp [onData, hc]
      have hleft := h.lt_of_mem_left (by simp [onData, hc])
      simp [findImpl, hc, findGE_append_cons_of_not_lt hv, findGE_eq_none_of_forall_lt hleft]
    | gt =>
      have hv : onData cmp (a, x) key ≠ .lt := by simp [onData, hc]
      simp only [findImpl, hc, ihl hl, findGE_append_cons_of_not_lt hv]
      cases findGE (onData cmp) l.toList key <;> rfl

end Find

/-! ## Trees and iterators

`RB_t` holds the root, the count `size`, and the ends `first` and `last` of the chain that
`RB_Insert` and `RB_Remove` keep through the nodes' `next` and `prev` links. The chain is
modelled by the list of the addresses along the `next` links; an iterator stands on one node, and
`RB_Iterator_Next` and `RB_Iterator_Prev` follow the chain one way or the other. -/

/-- `RB_t`: the root, `size`, and the addresses of the chain from `first` to `last`. -/
structure Tree (α : Type*) where
  root : Node α
  size : ℕ
  chain : List ℕ
deriving DecidableEq, Repr

/-- `RB_Iterator_t`: the address of the node `cur` it stands on. -/
structure Iterator where
  cur : ℕ
deriving DecidableEq, Repr

/-- The `next` link of the node at `a`: the address after it in the chain. -/
def nextOf : List ℕ → ℕ → Option ℕ
  | [], _ => none
  | b :: chain, a => if b = a then chain.head? else nextOf chain a

/-- The iterators a loop stands on from `it` on, calling `step` until it returns `false`; `n`
bounds the number of calls. -/
def walk (step : Iterator → Option Iterator) : ℕ → Iterator → List Iterator
  | 0, it => [it]
  | n + 1, it => it :: ((step it).map (walk step n)).getD []

namespace Tree

/-- `RB_Init`. -/
def init : Tree α := ⟨.nil, 0, []⟩

/-- The values in in-order position. -/
def values (t : Tree α) : List α := t.root.toList.map Prod.snd

/-- The chain lists the tree's nodes in in-order position, each once, and `size` counts them.
`RB_Insert` is not modelled, so where this is used it is assumed. -/
structure Linked (t : Tree α) : Prop where
  chain_eq : t.chain = t.root.toList.map Prod.fst
  nodup : t.chain.Nodup
  size_eq : t.size = t.root.size

/-- `RB_Find`. -/
def find (cmp : α → κ → Ordering) (t : Tree α) (key : κ) (rel : Relation) : Option α :=
  (findImpl cmp key rel t.root none).map Prod.snd

/-- `RB_FindIter`: an iterator on the node `RB_FindImpl` found. -/
def findIter (cmp : α → κ → Ordering) (t : Tree α) (key : κ) (rel : Relation) :
    Option Iterator :=
  (findImpl cmp key rel t.root none).map fun e ↦ ⟨e.1⟩

/-- `RB_First`, on a tree with a node; `RB_Init` leaves `first` unset. -/
def first (t : Tree α) : Option Iterator := t.chain.head?.map Iterator.mk

/-- `RB_Last`, on a tree with a node. -/
def last (t : Tree α) : Option Iterator := t.chain.getLast?.map Iterator.mk

/-- `RB_Iterator_Value`: the value of the node the iterator stands on. -/
def iterValue (t : Tree α) (it : Iterator) : Option α := t.root.toList.lookup it.cur

/-- `RB_Iterator_Next`: `false` (`none`) at the end of the chain. -/
def iterNext (t : Tree α) (it : Iterator) : Option Iterator :=
  (nextOf t.chain it.cur).map Iterator.mk

/-- `RB_Iterator_Prev`: the chain read from its other end. -/
def iterPrev (t : Tree α) (it : Iterator) : Option Iterator :=
  (nextOf t.chain.reverse it.cur).map Iterator.mk

end Tree

/-! ### Walking the chain -/

theorem nextOf_eq {pre post : List ℕ} {a : ℕ} (h : (pre ++ a :: post).Nodup) :
    nextOf (pre ++ a :: post) a = post.head? := by
  induction pre with
  | nil => simp [nextOf]
  | cons b pre ih =>
    have hb : b ≠ a := by
      rintro rfl
      exact (List.nodup_cons.mp h).1 (by simp)
    simp [nextOf, hb, ih (List.nodup_cons.mp h).2]

theorem walk_nextOf {chain pre post : List ℕ} {a : ℕ} (h : chain.Nodup) (hc : chain = pre ++ a :: post)
    {n : ℕ} (hn : post.length ≤ n) :
    walk (fun it ↦ (nextOf chain it.cur).map Iterator.mk) n ⟨a⟩ =
      (a :: post).map Iterator.mk := by
  induction post generalizing pre a n with
  | nil =>
    have hnext : nextOf chain a = none := by rw [hc, nextOf_eq (hc ▸ h)]; rfl
    cases n <;> simp [walk, hnext]
  | cons b post ih =>
    have hnext : nextOf chain a = some b := by rw [hc, nextOf_eq (hc ▸ h)]; rfl
    obtain ⟨n, rfl⟩ : ∃ m, n = m + 1 := ⟨n - 1, by simp at hn; omega⟩
    have hc' : chain = (pre ++ [a]) ++ b :: post := by simp [hc]
    simp [walk, hnext, ih hc' (by simpa using hn)]

theorem lookup_of_mem {l : List (ℕ × α)} (h : (l.map Prod.fst).Nodup) {e : ℕ × α} (he : e ∈ l) :
    l.lookup e.1 = some e.2 := by
  induction l with
  | nil => simp at he
  | cons d l ih =>
    obtain ⟨hd, hl⟩ := List.nodup_cons.mp h
    rcases List.mem_cons.mp he with rfl | he
    · simp [List.lookup]
    · have hne : (e.1 == d.1) = false := by
        simp only [beq_eq_false_iff_ne]
        rintro heq
        exact hd (heq ▸ List.mem_map_of_mem he)
      simp [List.lookup, hne, ih hl he]
/-! ## Searches and walks of a tree -/

section Tree

variable {c : α → α → Ordering} {cmp : α → κ → Ordering} {t : Tree α} {key : κ}

open OrdList

namespace Tree

theorem keyOrdered_toList_iff :
    KeyOrdered (onData cmp) t.root.toList key ↔ KeyOrdered cmp t.values key :=
  keyOrdered_comap_iff Prod.snd _ key

theorem find_eq (hk : KeyOrdered cmp t.values key) :
    t.find cmp key .eq = findEQ cmp t.values key := by
  rw [find, findImpl_eq _ (keyOrdered_toList_iff.mpr hk), Option.or_none]
  exact findEQ_comap Prod.snd _ key

theorem find_lt (hk : KeyOrdered cmp t.values key) :
    t.find cmp key .lt = findLT cmp t.values key := by
  rw [find, findImpl_lt _ (keyOrdered_toList_iff.mpr hk), Option.or_none]
  exact findLT_comap Prod.snd _ key

theorem find_ge (hk : KeyOrdered cmp t.values key) :
    t.find cmp key .ge = findGE cmp t.values key := by
  rw [find, findImpl_ge _ (keyOrdered_toList_iff.mpr hk), Option.or_none]
  exact findGE_comap Prod.snd _ key

theorem mem_of_findImpl (hk : KeyOrdered cmp t.values key) {rel : Relation} {e : ℕ × α}
    (h : findImpl cmp key rel t.root none = some e) : e ∈ t.root.toList := by
  have hk' := keyOrdered_toList_iff.mpr hk
  cases rel with
  | eq =>
    rw [findImpl_eq _ hk', Option.or_none] at h
    exact (mem_of_findEQ _ h).1
  | lt =>
    rw [findImpl_lt _ hk', Option.or_none] at h
    exact mem_of_findLT _ h
  | ge =>
    rw [findImpl_ge _ hk', Option.or_none] at h
    exact mem_of_mem_fromGE _ (List.mem_of_mem_head? h)

theorem Linked.walk_iterNext (ht : t.Linked) {pre post : List (ℕ × α)} {a : ℕ} {v : α}
    (hl : t.root.toList = pre ++ (a, v) :: post) {n : ℕ} (hn : post.length ≤ n) :
    (walk t.iterNext n ⟨a⟩).map t.iterValue = ((a, v) :: post).map fun e ↦ some e.2 := by
  have hchain : t.chain = pre.map Prod.fst ++ a :: post.map Prod.fst := by
    rw [ht.chain_eq, hl]
    simp
  have hnodup : (t.root.toList.map Prod.fst).Nodup := ht.chain_eq ▸ ht.nodup
  rw [show t.iterNext = fun it ↦ (nextOf t.chain it.cur).map Iterator.mk from rfl,
    walk_nextOf ht.nodup hchain (by simpa using hn)]
  rw [show a :: post.map Prod.fst = ((a, v) :: post).map Prod.fst from rfl]
  simp only [List.map_map]
  refine List.map_congr_left fun e he ↦ ?_
  exact lookup_of_mem hnodup (hl ▸ List.mem_append_right pre he)

theorem Linked.walk_iterPrev (ht : t.Linked) {pre post : List (ℕ × α)} {a : ℕ} {v : α}
    (hl : t.root.toList = pre ++ (a, v) :: post) {n : ℕ} (hn : pre.length ≤ n) :
    (walk t.iterPrev n ⟨a⟩).map t.iterValue = ((a, v) :: pre.reverse).map fun e ↦ some e.2 := by
  have hchain : t.chain.reverse =
      (post.map Prod.fst).reverse ++ a :: (pre.map Prod.fst).reverse := by
    rw [ht.chain_eq, hl]
    simp
  have hnodup : (t.root.toList.map Prod.fst).Nodup := ht.chain_eq ▸ ht.nodup
  rw [show t.iterPrev = fun it ↦ (nextOf t.chain.reverse it.cur).map Iterator.mk from rfl,
    walk_nextOf (List.nodup_reverse.mpr ht.nodup) hchain (by simpa using hn)]
  rw [← List.map_reverse,
    show a :: pre.reverse.map Prod.fst = ((a, v) :: pre.reverse).map Prod.fst from rfl]
  simp only [List.map_map]
  refine List.map_congr_left fun e he ↦ ?_
  refine lookup_of_mem hnodup (hl ▸ ?_)
  rcases List.mem_cons.mp he with rfl | he
  · simp
  · exact List.mem_append_left _ (List.mem_reverse.mp he)

/-- **`RB_Find` and `RB_FindIter` on a valid tree.** On a tree whose chain links its nodes in
in-order position and whose values are sorted, searched with a key in whose order the values
stand: the `EQ` search answers the value equal to the key, the `LT` search the greatest value
below it and the `GE` search the least value not below it. From the node `RB_FindIter` stands on,
`RB_Iterator_Next` visits that value and every later one in ascending order, and
`RB_Iterator_Prev` that value and every earlier one in descending order. -/
theorem find_findIter [Std.TransCmp c] (ht : t.Linked) (hs : Sorted c t.values)
    (hk : KeyOrdered cmp t.values key) :
    (∀ v, t.find cmp key .eq = some v ↔ v ∈ t.values ∧ cmp v key = .eq) ∧
    (∀ v, t.find cmp key .lt = some v ↔ v ∈ t.values ∧ cmp v key = .lt ∧
      ∀ w ∈ t.values, cmp w key = .lt → w = v ∨ c w v = .lt) ∧
    (∀ v, t.find cmp key .ge = some v ↔ v ∈ t.values ∧ cmp v key ≠ .lt ∧
      ∀ w ∈ t.values, cmp w key ≠ .lt → w = v ∨ c v w = .lt) ∧
    (∀ rel, (t.findIter cmp key rel).isSome = (t.find cmp key rel).isSome) ∧
    ∀ rel it, t.findIter cmp key rel = some it →
      ∃ pre v post, t.values = pre ++ v :: post ∧ t.find cmp key rel = some v ∧
        (walk t.iterNext t.size it).map t.iterValue = (v :: post).map some ∧
        Sorted c (v :: post) ∧
        (walk t.iterPrev t.size it).map t.iterValue = (v :: pre.reverse).map some ∧
        Sorted (fun a b ↦ c b a) (v :: pre.reverse) := by
  refine ⟨fun v ↦ find_eq hk ▸ findEQ_eq_some_iff hk, fun v ↦ find_lt hk ▸ findLT_eq_some_iff hs hk,
    fun v ↦ find_ge hk ▸ findGE_eq_some_iff hs hk, fun rel ↦ by simp [findIter, find],
    fun rel it h ↦ ?_⟩
  obtain ⟨⟨a, v⟩, hfind, rfl⟩ := Option.map_eq_some_iff.mp h
  obtain ⟨pre, post, hl⟩ := List.append_of_mem (mem_of_findImpl hk hfind)
  have hvalues : t.values = pre.map Prod.snd ++ v :: post.map Prod.snd := by simp [values, hl]
  have hlen : t.root.toList.length = t.size := by rw [Node.length_toList, ht.size_eq]
  have hsplit := hs
  rw [hvalues] at hsplit
  refine ⟨pre.map Prod.snd, v, post.map Prod.snd, hvalues, by simp [find, hfind], ?_,
    hsplit.sublist (List.sublist_append_right _ _), ?_, ?_⟩
  · rw [ht.walk_iterNext hl (by rw [← hlen, hl]; simp; omega)]
    simp
  · rw [ht.walk_iterPrev hl (by rw [← hlen, hl]; simp)]
    simp
  · have hpre : Sorted c (pre.map Prod.snd ++ [v]) :=
      hsplit.sublist ((List.singleton_sublist.mpr List.mem_cons_self).append_left _)
    rw [Sorted, ← List.reverse_concat', List.pairwise_reverse]
    exact hpre

/-- A tree holding `2`, `5` and `9`, the root `5` at address `0`. -/
def twoFiveNine : Tree ℕ :=
  ⟨.node false (.node true .nil 1 2 .nil) 0 5 (.node true .nil 2 9 .nil), 3, [1, 0, 2]⟩

theorem twoFiveNine_find_six :
    (∀ v, twoFiveNine.find compare 6 .eq = some v ↔ v ∈ twoFiveNine.values ∧ compare v 6 = .eq) ∧
    (∀ v, twoFiveNine.find compare 6 .lt = some v ↔ v ∈ twoFiveNine.values ∧ compare v 6 = .lt ∧
      ∀ w ∈ twoFiveNine.values, compare w 6 = .lt → w = v ∨ compare w v = .lt) ∧
    (∀ v, twoFiveNine.find compare 6 .ge = some v ↔ v ∈ twoFiveNine.values ∧ compare v 6 ≠ .lt ∧
      ∀ w ∈ twoFiveNine.values, compare w 6 ≠ .lt → w = v ∨ compare v w = .lt) ∧
    (∀ rel, (twoFiveNine.findIter compare 6 rel).isSome = (twoFiveNine.find compare 6 rel).isSome) ∧
    ∀ rel it, twoFiveNine.findIter compare 6 rel = some it →
      ∃ pre v post, twoFiveNine.values = pre ++ v :: post ∧
        twoFiveNine.find compare 6 rel = some v ∧
        (walk twoFiveNine.iterNext twoFiveNine.size it).map twoFiveNine.iterValue =
          (v :: post).map some ∧
        Sorted compare (v :: post) ∧
        (walk twoFiveNine.iterPrev twoFiveNine.size it).map twoFiveNine.iterValue =
          (v :: pre.reverse).map some ∧
        Sorted (fun a b ↦ compare b a) (v :: pre.reverse) :=
  find_findIter ⟨rfl, by decide, rfl⟩ (by decide) (by decide)

end Tree

end Tree

end RB

end TxCache
