import Mathlib

/-!
# Ordered lists searched through a three-way comparator

A balanced search tree whose stored values are compared against a *key* of another type, by a
three-way comparator `cmp : α → κ → Ordering`, is modelled by the list of its values in in-order
position. Every search of such a tree then becomes a prefix or a suffix of that list:

* the values comparing below a key form a prefix, `below`, and the rest a suffix, `fromGE`;
* the `LT` search answers the last value of `below`, the `GE` search the first value of `fromGE`,
  and an iterator started by the `GE` search walks exactly `fromGE`;
* an insertion puts the new value between the two parts, and refuses a key that some value
  already compares equal to; a removal deletes the value comparing equal.

The list stays in search order as long as it is only changed by `insert` and `remove`; the lemmas
below that need the order take it as a hypothesis.
-/

namespace OrdList

variable {α κ : Type*} (cmp : α → κ → Ordering)

/-- The values that compare below `k`: the left part of a search for `k`. -/
def below (l : List α) (k : κ) : List α := l.takeWhile fun v ↦ cmp v k == .lt

/-- The values from the first one not below `k` on: what an iterator positioned by a `GE`
search for `k` visits. -/
def fromGE (l : List α) (k : κ) : List α := l.dropWhile fun v ↦ cmp v k == .lt

/-- The `LT` search: the greatest value comparing below `k`. -/
def findLT (l : List α) (k : κ) : Option α := (below cmp l k).getLast?

/-- The `GE` search: the least value not comparing below `k`. -/
def findGE (l : List α) (k : κ) : Option α := (fromGE cmp l k).head?

/-- The `EQ` search: the value comparing equal to `k`. -/
def findEQ (l : List α) (k : κ) : Option α := l.find? fun v ↦ cmp v k == .eq

/-- Insertion of the value `mk k` built from the key, in its search position. The insertion fails
(`none`) when a value already compares equal to `k`. -/
def insert (mk : κ → α) (l : List α) (k : κ) : Option (List α) :=
  if l.any (fun v ↦ cmp v k == .eq) then none else some (below cmp l k ++ mk k :: fromGE cmp l k)

/-- Removal of the value comparing equal to `k`; nothing changes when there is none. -/
def remove (l : List α) (k : κ) : List α := l.eraseP fun v ↦ cmp v k == .eq

/-- The two parts of a search put back together. -/
@[simp] theorem below_append_fromGE (l : List α) (k : κ) : below cmp l k ++ fromGE cmp l k = l :=
  List.takeWhile_append_dropWhile

theorem mem_of_mem_fromGE {l : List α} {k : κ} {v : α} (h : v ∈ fromGE cmp l k) : v ∈ l :=
  (List.dropWhile_sublist _).subset h

theorem mem_insert {mk : κ → α} {l l' : List α} {k : κ} (h : insert cmp mk l k = some l')
    {v : α} : v ∈ l' ↔ v = mk k ∨ v ∈ l := by
  unfold insert at h
  split at h
  · cases h
  · cases h
    conv_rhs => rw [← below_append_fromGE cmp l k]
    simp only [List.mem_append, List.mem_cons]
    tauto

theorem mem_of_findEQ {l : List α} {k : κ} {v : α} (h : findEQ cmp l k = some v) :
    v ∈ l ∧ cmp v k = .eq := by
  have := List.find?_some h
  exact ⟨List.mem_of_find?_eq_some h, by simpa using this⟩

theorem insert_of_findEQ_eq_none {mk : κ → α} {l : List α} {k : κ} (h : findEQ cmp l k = none) :
    insert cmp mk l k = some (below cmp l k ++ mk k :: fromGE cmp l k) := by
  have hany : (l.any fun v ↦ cmp v k == .eq) = false := by
    rw [List.any_eq_false]
    simpa [findEQ, List.find?_eq_none] using h
  simp [insert, hany]

theorem mem_dropWhile_of_eq_false {p : α → Bool} {l : List α} {v : α} (hv : v ∈ l)
    (hp : p v = false) : v ∈ l.dropWhile p := by
  rw [← List.takeWhile_append_dropWhile (p := p) (l := l)] at hv
  rcases List.mem_append.mp hv with h | h
  · exact absurd (List.mem_takeWhile_imp h) (by simp [hp])
  · exact h

theorem fromGE_sublist (l : List α) (k : κ) : (fromGE cmp l k).Sublist l := List.dropWhile_sublist _

theorem mem_of_findLT {l : List α} {k : κ} {v : α} (h : findLT cmp l k = some v) : v ∈ l :=
  (List.takeWhile_sublist _).subset (List.mem_of_getLast? h)

theorem perm_of_insert {mk : κ → α} {l l' : List α} {k : κ} (h : insert cmp mk l k = some l') :
    l'.Perm (mk k :: l) := by
  unfold insert at h
  split at h
  · cases h
  · cases h
    exact List.perm_middle.trans (List.Perm.of_eq (by rw [below_append_fromGE]))

theorem insert_eq_none_iff {mk : κ → α} {l : List α} {k : κ} :
    insert cmp mk l k = none ↔ ∃ v ∈ l, cmp v k = .eq := by
  unfold insert
  split
  · rename_i h
    simpa using h
  · rename_i h
    simpa using h

theorem remove_eq_erase [DecidableEq α] {l : List α} {k : κ} {v : α}
    (hk : ∀ w ∈ l, cmp w k = .eq ↔ w = v) : remove cmp l k = l.erase v := by
  induction l with
  | nil => rfl
  | cons a l ih =>
    have ih' := ih fun w hw ↦ hk w (List.mem_cons_of_mem a hw)
    by_cases ha : a = v
    · subst ha
      have heq : cmp a k = .eq := (hk a List.mem_cons_self).mpr rfl
      simp [remove, heq]
    · have hne : (cmp a k == .eq) = false := by
        simpa using fun h ↦ ha ((hk a List.mem_cons_self).mp h)
      rw [List.erase_cons_tail (by simpa using ha)]
      simp only [remove, List.eraseP_cons, hne, cond_false] at ih' ⊢
      rw [ih']

/-! ## Lists in the order of one key

A search for a key `k` only asks how each value compares with `k`. It relies on the values below
`k` coming first, then at most one value equal to it, then those above: `KeyOrdered`. A node of a
search tree splits its list as `l ++ v :: r`, and the comparison of `v` with the key then tells
where the answer lies. -/

section KeyOrder

/-- Of two values in order, the first compares below the key or the second above it. -/
def KeyOrdered (l : List α) (k : κ) : Prop := l.Pairwise fun a b ↦ cmp a k = .lt ∨ cmp b k = .gt

instance (l : List α) (k : κ) : Decidable (KeyOrdered cmp l k) :=
  inferInstanceAs (Decidable (l.Pairwise _))

variable {cmp} {l r : List α} {k : κ} {v : α}

theorem KeyOrdered.sublist {l' : List α} (h : KeyOrdered cmp l k) (hs : l'.Sublist l) :
    KeyOrdered cmp l' k :=
  List.Pairwise.sublist hs h

theorem KeyOrdered.lt_of_mem_left (h : KeyOrdered cmp (l ++ v :: r) k) (hv : cmp v k ≠ .gt) :
    ∀ x ∈ l, cmp x k = .lt := fun x hx ↦
  ((List.pairwise_append.mp h).2.2 x hx v List.mem_cons_self).resolve_right hv

theorem KeyOrdered.gt_of_mem_right (h : KeyOrdered cmp (l ++ v :: r) k) (hv : cmp v k ≠ .lt) :
    ∀ y ∈ r, cmp y k = .gt := fun y hy ↦
  (List.pairwise_cons.mp (List.pairwise_append.mp h).2.1).1 y hy |>.resolve_left hv

theorem below_append_cons_of_not_lt (hv : cmp v k ≠ .lt) : below cmp (l ++ v :: r) k = below cmp l k := by
  induction l with
  | nil => simp [below, hv]
  | cons a l ih =>
    by_cases ha : cmp a k = .lt
    · simp only [below, List.cons_append, List.takeWhile_cons, ha, beq_self_eq_true] at ih ⊢
      rw [ih]
    · simp [below, ha]

theorem below_append_cons_of_lt (hl : ∀ x ∈ l, cmp x k = .lt) (hv : cmp v k = .lt) :
    below cmp (l ++ v :: r) k = l ++ v :: below cmp r k := by
  induction l with
  | nil => simp [below, hv]
  | cons a l ih =>
    have ha := hl a List.mem_cons_self
    have hrest := ih fun x hx ↦ hl x (List.mem_cons_of_mem a hx)
    simp only [below] at hrest ⊢
    simp [ha, hrest]

theorem fromGE_append_cons_of_not_lt (hv : cmp v k ≠ .lt) :
    fromGE cmp (l ++ v :: r) k = fromGE cmp l k ++ v :: r := by
  induction l with
  | nil => simp [fromGE, hv]
  | cons a l ih =>
    by_cases ha : cmp a k = .lt
    · simp only [fromGE, List.cons_append, List.dropWhile_cons, ha, beq_self_eq_true] at ih ⊢
      exact ih
    · simp [fromGE, ha]

theorem fromGE_append_cons_of_lt (hl : ∀ x ∈ l, cmp x k = .lt) (hv : cmp v k = .lt) :
    fromGE cmp (l ++ v :: r) k = fromGE cmp r k := by
  induction l with
  | nil => simp [fromGE, hv]
  | cons a l ih =>
    have ha := hl a List.mem_cons_self
    simp only [fromGE, List.cons_append, List.dropWhile_cons, ha, beq_self_eq_true] at ih ⊢
    exact ih fun x hx ↦ hl x (List.mem_cons_of_mem a hx)

theorem findEQ_append_of_forall_ne (hl : ∀ x ∈ l, cmp x k ≠ .eq) :
    findEQ cmp (l ++ r) k = findEQ cmp r k := by
  induction l with
  | nil => rfl
  | cons a l ih =>
    have ha : (cmp a k == .eq) = false := by simpa using hl a List.mem_cons_self
    simp only [findEQ, List.cons_append, List.find?_cons, ha] at ih ⊢
    exact ih fun x hx ↦ hl x (List.mem_cons_of_mem a hx)

theorem KeyOrdered.findEQ_of_lt (h : KeyOrdered cmp (l ++ v :: r) k) (hv : cmp v k = .lt) :
    findEQ cmp (l ++ v :: r) k = findEQ cmp r k := by
  have hl := h.lt_of_mem_left (by simp [hv])
  rw [← List.singleton_append, ← List.append_assoc,
    findEQ_append_of_forall_ne fun x hx ↦ ?_]
  rcases List.mem_append.mp hx with hx | hx
  · simp [hl x hx]
  · simp [List.mem_singleton.mp hx, hv]

theorem KeyOrdered.findEQ_of_eq (h : KeyOrdered cmp (l ++ v :: r) k) (hv : cmp v k = .eq) :
    findEQ cmp (l ++ v :: r) k = some v := by
  have hl := h.lt_of_mem_left (by simp [hv])
  rw [findEQ_append_of_forall_ne fun x hx ↦ by simp [hl x hx]]
  simp [findEQ, hv]

theorem KeyOrdered.findEQ_of_gt (h : KeyOrdered cmp (l ++ v :: r) k) (hv : cmp v k = .gt) :
    findEQ cmp (l ++ v :: r) k = findEQ cmp l k := by
  have hr := h.gt_of_mem_right (by simp [hv])
  have hnone : findEQ cmp (v :: r) k = none := by
    simp only [findEQ, List.find?_eq_none, List.mem_cons, beq_iff_eq]
    rintro x (rfl | hx)
    · simp [hv]
    · simp [hr x hx]
  unfold findEQ at hnone ⊢
  rw [List.find?_append, hnone, Option.or_none]

theorem findLT_append_cons_of_not_lt (hv : cmp v k ≠ .lt) :
    findLT cmp (l ++ v :: r) k = findLT cmp l k := by
  rw [findLT, below_append_cons_of_not_lt hv, findLT]

theorem findLT_append_cons_of_lt (hl : ∀ x ∈ l, cmp x k = .lt) (hv : cmp v k = .lt) :
    findLT cmp (l ++ v :: r) k = (findLT cmp r k).or (some v) := by
  rw [findLT, below_append_cons_of_lt hl hv, findLT, List.getLast?_append, List.getLast?_cons]
  cases (below cmp r k).getLast? <;> simp

theorem findGE_append_cons_of_not_lt (hv : cmp v k ≠ .lt) :
    findGE cmp (l ++ v :: r) k = (findGE cmp l k).or (some v) := by
  rw [findGE, fromGE_append_cons_of_not_lt hv, findGE]
  cases fromGE cmp l k <;> simp

theorem findGE_append_cons_of_lt (hl : ∀ x ∈ l, cmp x k = .lt) (hv : cmp v k = .lt) :
    findGE cmp (l ++ v :: r) k = findGE cmp r k := by
  rw [findGE, fromGE_append_cons_of_lt hl hv, findGE]

theorem findGE_eq_none_of_forall_lt (hl : ∀ x ∈ l, cmp x k = .lt) : findGE cmp l k = none := by
  simp only [findGE, fromGE, List.head?_eq_none_iff, List.dropWhile_eq_nil_iff]
  simpa using hl

theorem KeyOrdered.eq_of_eq {a b : α} (h : KeyOrdered cmp l k) (ha : a ∈ l) (hb : b ∈ l)
    (hak : cmp a k = .eq) (hbk : cmp b k = .eq) : a = b := by
  induction l with
  | nil => simp at ha
  | cons x l ih =>
    obtain ⟨hx, hl⟩ := List.pairwise_cons.mp h
    rcases List.mem_cons.mp ha with rfl | ha' <;> rcases List.mem_cons.mp hb with rfl | hb'
    · rfl
    · rcases hx b hb' with h | h <;> simp_all
    · rcases hx a ha' with h | h <;> simp_all
    · exact ih hl ha' hb'

theorem cmp_lt_of_mem_below (h : v ∈ below cmp l k) : cmp v k = .lt := by
  simpa using List.mem_takeWhile_imp h

theorem KeyOrdered.mem_below_iff (h : KeyOrdered cmp l k) :
    v ∈ below cmp l k ↔ v ∈ l ∧ cmp v k = .lt := by
  induction l with
  | nil => simp [below]
  | cons a l ih =>
    obtain ⟨ha, hl⟩ := List.pairwise_cons.mp h
    by_cases hak : cmp a k = .lt
    · simp only [below, List.takeWhile_cons, hak, beq_self_eq_true, ite_true, List.mem_cons] at ih ⊢
      rw [ih hl]
      constructor
      · rintro (rfl | ⟨hv, hvk⟩)
        · exact ⟨.inl rfl, hak⟩
        · exact ⟨.inr hv, hvk⟩
      · rintro ⟨rfl | hv, hvk⟩
        · exact .inl rfl
        · exact .inr ⟨hv, hvk⟩
    · have hbelow : below cmp (a :: l) k = [] := by simp [below, hak]
      rw [hbelow]
      simp only [List.not_mem_nil, false_iff, not_and, List.mem_cons]
      rintro (rfl | hv) hvk
      · exact hak hvk
      · simp [(ha v hv).resolve_left hak] at hvk

theorem KeyOrdered.mem_fromGE_iff (h : KeyOrdered cmp l k) :
    v ∈ fromGE cmp l k ↔ v ∈ l ∧ cmp v k ≠ .lt := by
  have hsplit := below_append_fromGE cmp l k
  constructor
  · intro hv
    refine ⟨mem_of_mem_fromGE cmp hv, fun hvk ↦ ?_⟩
    -- a value below the key lies in `below`, and then not in `fromGE` too, as `l` is in order
    have hb := h.mem_below_iff.mpr ⟨mem_of_mem_fromGE cmp hv, hvk⟩
    have hne : fromGE cmp l k ≠ [] := List.ne_nil_of_mem hv
    obtain ⟨u, us, hus⟩ := List.exists_cons_of_ne_nil hne
    have hu : cmp u k ≠ .lt := by
      have := List.head_dropWhile_not (fun v ↦ cmp v k == .lt) (by simpa [fromGE] using hne)
      simp only [fromGE] at hus
      simp only [hus, List.head_cons] at this
      simpa using this
    rw [hus] at hv hsplit
    rw [← hsplit] at h
    rcases List.mem_cons.mp hv with rfl | hv'
    · exact hu hvk
    · have := (List.pairwise_cons.mp (List.pairwise_append.mp h).2.1).1 v hv'
      simp [this.resolve_left hu] at hvk
  · rintro ⟨hv, hvk⟩
    rw [← hsplit] at hv
    rcases List.mem_append.mp hv with hv | hv
    · exact absurd (cmp_lt_of_mem_below hv) hvk
    · exact hv

end KeyOrder

/-! ## Lists in search order

When values are compared against values by a strict total order (`Std.TransCmp`), the list of a
tree is sorted: each value compares below every later one. A search then splits the list by
comparison with the key, and an insertion keeps it sorted. -/

section Sorted

variable {c : α → α → Ordering}

/-- Each value compares below every later one. -/
def Sorted (c : α → α → Ordering) (l : List α) : Prop := l.Pairwise fun a b ↦ c a b = .lt

instance (c : α → α → Ordering) (l : List α) : Decidable (Sorted c l) :=
  inferInstanceAs (Decidable (l.Pairwise _))

variable {l : List α} {k v : α}

theorem Sorted.sublist {l' : List α} (hs : Sorted c l) (h : l'.Sublist l) : Sorted c l' :=
  List.Pairwise.sublist h hs

theorem lt_of_mem_below (h : v ∈ below c l k) : c v k = .lt := by
  simpa using List.mem_takeWhile_imp h

variable [Std.TransCmp c]

theorem mem_fromGE_iff (hs : Sorted c l) : v ∈ fromGE c l k ↔ v ∈ l ∧ c v k ≠ .lt := by
  induction l with
  | nil => simp [fromGE]
  | cons a l ih =>
    obtain ⟨ha, hs⟩ := List.pairwise_cons.mp hs
    by_cases hak : c a k = .lt
    · have hdrop : fromGE c (a :: l) k = fromGE c l k := by simp [fromGE, hak]
      rw [hdrop, ih hs, List.mem_cons]
      constructor
      · exact fun ⟨hv, hvk⟩ ↦ ⟨.inr hv, hvk⟩
      · rintro ⟨rfl | hv, hvk⟩
        · exact absurd hak hvk
        · exact ⟨hv, hvk⟩
    · have hkeep : fromGE c (a :: l) k = a :: l := by simp [fromGE, hak]
      rw [hkeep]
      refine ⟨fun hv ↦ ⟨hv, fun hvk ↦ ?_⟩, And.left⟩
      rcases List.mem_cons.mp hv with rfl | hv
      · exact hak hvk
      · exact hak (Std.TransCmp.lt_trans (ha v hv) hvk)

theorem ne_lt_trans {a b d : α} (h₁ : c a b ≠ .lt) (h₂ : c b d ≠ .lt) : c a d ≠ .lt :=
  Ordering.ne_lt_iff_isGE.mpr
    (Std.TransCmp.isGE_trans (Ordering.ne_lt_iff_isGE.mp h₁) (Ordering.ne_lt_iff_isGE.mp h₂))

theorem Sorted.nodup (hs : Sorted c l) : l.Nodup :=
  List.Pairwise.imp (fun {a b} h heq ↦ by subst heq; simp [Std.ReflCmp.compare_self] at h) hs

theorem sorted_insert {l' : List α} (hs : Sorted c l) (h : insert c id l k = some l') :
    Sorted c l' := by
  unfold insert at h
  split at h
  · cases h
  · rename_i hany
    cases h
    have hne : ∀ v ∈ l, c v k ≠ .eq := by simpa using hany
    have hparts := hs
    rw [← below_append_fromGE c l k] at hparts
    rw [Sorted, List.pairwise_append] at hparts ⊢
    obtain ⟨hb, hf, hbf⟩ := hparts
    refine ⟨hb, List.pairwise_cons.mpr ⟨fun v hv ↦ ?_, hf⟩, fun a ha b hb' ↦ ?_⟩
    · obtain ⟨hvl, hvk⟩ := (mem_fromGE_iff hs).mp hv
      have hgt : c v k = .gt := by
        cases hc : c v k
        · exact absurd hc hvk
        · exact absurd hc (hne v hvl)
        · rfl
      exact Std.OrientedCmp.lt_of_gt hgt
    · rcases List.mem_cons.mp hb' with rfl | hb'
      · exact lt_of_mem_below ha
      · exact hbf a ha b hb'

end Sorted

/-! ## Searches through a projection

A tree that stores records and compares them by one field is searched as the list of that
field. -/

section Comap

variable {β : Type*} {cmp} (f : β → α) (l : List β) (k : κ)

theorem keyOrdered_comap_iff :
    KeyOrdered (fun b k ↦ cmp (f b) k) l k ↔ KeyOrdered cmp (l.map f) k := by
  simp [KeyOrdered, List.pairwise_map]

theorem findEQ_comap : (findEQ (fun b k ↦ cmp (f b) k) l k).map f = findEQ cmp (l.map f) k := by
  simp [findEQ, List.find?_map]

theorem findLT_comap : (findLT (fun b k ↦ cmp (f b) k) l k).map f = findLT cmp (l.map f) k := by
  simp [findLT, below, List.takeWhile_map, Function.comp_def, List.getLast?_map]

theorem findGE_comap : (findGE (fun b k ↦ cmp (f b) k) l k).map f = findGE cmp (l.map f) k := by
  simp [findGE, fromGE, List.dropWhile_map, Function.comp_def, List.head?_map]

end Comap

/-! ## Searches of a sorted list

A tree whose values are sorted by an order `c` of their own, and searched by a comparator with
keys in whose order they stand, answers the `LT` search with the greatest value below the key and
the `GE` search with the least value not below it. -/

section Search

variable {c : α → α → Ordering} {cmp : α → κ → Ordering} {l : List α} {k : κ} {v : α}

/-- **The `EQ` search** finds the value equal to the key, when there is one. -/
theorem findEQ_eq_some_iff (h : KeyOrdered cmp l k) :
    findEQ cmp l k = some v ↔ v ∈ l ∧ cmp v k = .eq := by
  refine ⟨mem_of_findEQ cmp, fun ⟨hvl, hvk⟩ ↦ ?_⟩
  obtain ⟨u, hu⟩ : ∃ u, findEQ cmp l k = some u := by
    refine Option.isSome_iff_exists.mp (List.find?_isSome.mpr ⟨v, hvl, by simp [hvk]⟩)
  obtain ⟨hul, huk⟩ := mem_of_findEQ cmp hu
  rw [hu, h.eq_of_eq hul hvl huk hvk]

theorem findLT_greatest (hs : Sorted c l) (h : KeyOrdered cmp l k) (hv : findLT cmp l k = some v) :
    v ∈ l ∧ cmp v k = .lt ∧ ∀ w ∈ l, cmp w k = .lt → w = v ∨ c w v = .lt := by
  obtain ⟨ys, hys⟩ := List.getLast?_eq_some_iff.mp hv
  have hb : Sorted c (ys ++ [v]) := hys ▸ hs.sublist (List.takeWhile_sublist _)
  obtain ⟨hvl, hvk⟩ := (h.mem_below_iff (v := v)).mp (by rw [hys]; simp)
  refine ⟨hvl, hvk, fun w hw hwk ↦ ?_⟩
  have hwb := h.mem_below_iff.mpr ⟨hw, hwk⟩
  rw [hys] at hwb
  rcases List.mem_append.mp hwb with hw' | hw'
  · exact .inr ((List.pairwise_append.mp hb).2.2 w hw' v (List.mem_singleton_self v))
  · exact .inl (List.mem_singleton.mp hw')

theorem findGE_least (hs : Sorted c l) (h : KeyOrdered cmp l k) (hv : findGE cmp l k = some v) :
    v ∈ l ∧ cmp v k ≠ .lt ∧ ∀ w ∈ l, cmp w k ≠ .lt → w = v ∨ c v w = .lt := by
  obtain ⟨ys, hys⟩ := List.head?_eq_some_iff.mp hv
  have hf : Sorted c (v :: ys) := hys ▸ hs.sublist (fromGE_sublist cmp l k)
  obtain ⟨hvl, hvk⟩ := (h.mem_fromGE_iff (v := v)).mp (by rw [hys]; simp)
  refine ⟨hvl, hvk, fun w hw hwk ↦ ?_⟩
  have hwf := h.mem_fromGE_iff.mpr ⟨hw, hwk⟩
  rw [hys] at hwf
  rcases List.mem_cons.mp hwf with hw' | hw'
  · exact .inl hw'
  · exact .inr ((List.pairwise_cons.mp hf).1 w hw')

variable [Std.TransCmp c]

theorem eq_of_eq_or_lt {a b : α} (hab : a = b ∨ c a b = .lt) (hba : b = a ∨ c b a = .lt) :
    a = b := by
  rcases hab with hab | hab
  · exact hab
  · rcases hba with hba | hba
    · exact hba.symm
    · simp [Std.OrientedCmp.gt_iff_lt.mpr hba] at hab

/-- **The `LT` search** finds the greatest value below the key. -/
theorem findLT_eq_some_iff (hs : Sorted c l) (h : KeyOrdered cmp l k) :
    findLT cmp l k = some v ↔
      v ∈ l ∧ cmp v k = .lt ∧ ∀ w ∈ l, cmp w k = .lt → w = v ∨ c w v = .lt := by
  refine ⟨findLT_greatest hs h, fun ⟨hvl, hvk, hv⟩ ↦ ?_⟩
  have hvb := h.mem_below_iff.mpr ⟨hvl, hvk⟩
  obtain ⟨u, hu⟩ : ∃ u, findLT cmp l k = some u :=
    Option.isSome_iff_exists.mp (List.getLast?_isSome.mpr (List.ne_nil_of_mem hvb))
  obtain ⟨hul, huk, hu'⟩ := findLT_greatest hs h hu
  rw [hu, eq_of_eq_or_lt (hv u hul huk) (hu' v hvl hvk)]

/-- **The `GE` search** finds the least value not below the key. -/
theorem findGE_eq_some_iff (hs : Sorted c l) (h : KeyOrdered cmp l k) :
    findGE cmp l k = some v ↔
      v ∈ l ∧ cmp v k ≠ .lt ∧ ∀ w ∈ l, cmp w k ≠ .lt → w = v ∨ c v w = .lt := by
  refine ⟨findGE_least hs h, fun ⟨hvl, hvk, hv⟩ ↦ ?_⟩
  have hvf := h.mem_fromGE_iff.mpr ⟨hvl, hvk⟩
  obtain ⟨u, hu⟩ : ∃ u, findGE cmp l k = some u :=
    Option.isSome_iff_exists.mp (List.isSome_head?.mpr (List.ne_nil_of_mem hvf))
  obtain ⟨hul, huk, hu'⟩ := findGE_least hs h hu
  rw [hu, eq_of_eq_or_lt ((hu' v hvl hvk).imp_left Eq.symm) ((hv u hul huk).imp_left Eq.symm)]

end Search

/-! ## Lexicographic order and prefixes

The lists that start with a given list `p` are the ones lexicographically between `p` and every
extension of it: a search for `p` in a sorted list of lists reaches them first and one after
another. -/

section Prefix

variable {c : α → α → Ordering} [Std.LawfulEqCmp c]

theorem compareLex_append_ne_lt (p s : List α) : List.compareLex c (p ++ s) p ≠ .lt := by
  induction p with
  | nil => cases s <;> simp [List.compareLex_nil_nil, List.compareLex_cons_nil]
  | cons a p ih => simpa [List.compareLex_cons_cons, Std.ReflCmp.compare_self] using ih

theorem isPrefix_of_compareLex {p x s : List α} (h₁ : List.compareLex c x p ≠ .lt)
    (h₂ : List.compareLex c x (p ++ s) ≠ .gt) : p <+: x := by
  induction p generalizing x with
  | nil => exact List.nil_prefix
  | cons a p ih =>
    cases x with
    | nil => simp [List.compareLex_nil_cons] at h₁
    | cons b x =>
      rw [List.compareLex_cons_cons] at h₁
      rw [List.cons_append, List.compareLex_cons_cons] at h₂
      cases hba : c b a with
      | lt => simp [hba] at h₁
      | gt => simp [hba] at h₂
      | eq =>
        obtain rfl := Std.LawfulEqCmp.eq_of_compare hba
        simp only [hba] at h₁ h₂
        exact List.cons_prefix_cons.mpr ⟨rfl, ih h₁ h₂⟩

end Prefix

end OrdList
