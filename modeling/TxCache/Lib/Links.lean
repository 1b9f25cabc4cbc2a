import Mathlib

/-!
# Intrusive linked lists

C code keeps the links of a list in its cells: a `next` pointer and, for a doubly linked list, a
`prev` pointer, `NULL` being `none`. A list is then described by the cells it visits, in order.

* `Seg next a l b`: following `next` from `a` visits the cells `l` and arrives at `b`. A list ending
  in `NULL` is `Seg next head l none`.
* `DLinked next prev a l b`: each cell of `l` points by `next` to the one after it and by `prev` to
  the one before it, the first one's `prev` being `a` and the last one's `next` being `b`.

The lemmas are what the writes of list code need. A list depends only on the links of its own
cells (`Seg.congr`, `DLinked.congr`). `if (tail) tail->next = p` is `updateAt next tail (some p)`,
and with it a cell is appended at the end (`Seg.push_back`, `DLinked.push_back`). A cell of a
doubly linked list is unlinked by pointing its neighbours at each other (`DLinked.unlink`).
-/

namespace Links

variable {ι : Type*}

/-- `if (q) q->link = v;`: the link of the cell `q` set to `v`, when there is a cell. -/
def updateAt [DecidableEq ι] (f : ι → Option ι) : Option ι → Option ι → ι → Option ι
  | some q, v => Function.update f q v
  | none, _ => f

section UpdateAt

variable [DecidableEq ι] {f : ι → Option ι} {o v : Option ι} {x : ι}

@[simp] theorem updateAt_none : updateAt f none v = f := rfl

@[simp] theorem updateAt_some_self : updateAt f (some x) v x = v := by simp [updateAt]

theorem updateAt_of_ne (h : o ≠ some x) : updateAt f o v x = f x := by
  cases o with
  | none => rfl
  | some q => exact Function.update_of_ne (fun e ↦ h (by rw [e])) _ _

theorem updateAt_of_not_mem {l : List ι} (ho : ∀ q ∈ o, q ∉ l) : ∀ y ∈ l, updateAt f o v y = f y :=
  fun y hy ↦ updateAt_of_ne fun e ↦ ho y e hy

end UpdateAt

/-! ## Singly linked segments -/

/-- `Seg next a l b`: following `next` from `a` visits the cells `l` and arrives at `b`. -/
inductive Seg (next : ι → Option ι) : Option ι → List ι → Option ι → Prop
  | nil (a : Option ι) : Seg next a [] a
  | cons (p : ι) {l : List ι} {b : Option ι} : Seg next (next p) l b → Seg next (some p) (p :: l) b

namespace Seg

variable {next next' : ι → Option ι} {a b c : Option ι} {l l₁ l₂ : List ι} {p : ι}

theorem start (h : Seg next a l b) : a = l.head?.or b := by
  cases h <;> rfl

theorem nil_iff : Seg next a [] b ↔ a = b :=
  ⟨fun h ↦ by cases h; rfl, fun h ↦ h ▸ .nil a⟩

theorem cons_iff : Seg next a (p :: l) b ↔ a = some p ∧ Seg next (next p) l b := by
  constructor
  · rintro ⟨⟩
    exact ⟨rfl, by assumption⟩
  · rintro ⟨rfl, h⟩
    exact .cons p h

theorem congr (h : Seg next a l b) (hc : ∀ q ∈ l, next' q = next q) : Seg next' a l b := by
  induction h with
  | nil a => exact .nil a
  | cons p _ ih =>
    refine .cons p ?_
    rw [hc p List.mem_cons_self]
    exact ih fun q hq ↦ hc q (List.mem_cons_of_mem _ hq)

theorem append (h₁ : Seg next a l₁ c) (h₂ : Seg next c l₂ b) : Seg next a (l₁ ++ l₂) b := by
  induction h₁ with
  | nil => exact h₂
  | cons p _ ih => exact .cons p (ih h₂)

theorem append_iff : Seg next a (l₁ ++ l₂) b ↔ Seg next a l₁ (l₂.head?.or b) ∧
    Seg next (l₂.head?.or b) l₂ b := by
  induction l₁ generalizing a with
  | nil =>
    simp only [List.nil_append, nil_iff]
    exact ⟨fun h ↦ ⟨h.start, h.start ▸ h⟩, fun ⟨e, h⟩ ↦ e ▸ h⟩
  | cons q l₁ ih =>
    simp only [List.cons_append, cons_iff, ih, and_assoc]

/-- **Appending a cell at the end of a list that ends in `NULL`**, as list code does it:
`p->next = NULL; if (tail) tail->next = p; if (!head) head = p;`. -/
theorem push_back [DecidableEq ι] (h : Seg next a l none) (hnd : l.Nodup) (hp : p ∉ l) :
    Seg (updateAt (Function.update next p none) l.getLast? (some p)) (a.or (some p)) (l ++ [p])
      none := by
  induction l using List.reverseRecOn with
  | nil =>
    rw [nil_iff.mp h]
    exact .cons p (by simpa using Seg.nil none)
  | append_singleton l q _ =>
    obtain ⟨h₁, h₂⟩ := append_iff.mp h
    obtain ⟨-, hq⟩ := cons_iff.mp h₂
    have hql : q ∉ l := fun hq' ↦ (List.nodup_append.mp hnd).2.2 q hq' q List.mem_cons_self rfl
    have hqp : q ≠ p := ne_of_mem_of_not_mem (List.mem_append_right _ List.mem_cons_self) hp
    have ha : a.or (some p) = a := by
      rw [h.start, List.head?_append]
      cases l <;> rfl
    rw [ha, List.getLast?_append_of_ne_nil _ (List.cons_ne_nil _ _), List.getLast?_singleton,
      List.append_assoc]
    refine append (h₁.congr fun r hr ↦ ?_) (.cons q ?_)
    · rw [updateAt_of_ne (by simpa using (ne_of_mem_of_not_mem hr hql).symm),
        Function.update_of_ne (ne_of_mem_of_not_mem hr (fun hm ↦ hp (List.mem_append_left _ hm)))]
    · rw [updateAt_some_self]
      refine .cons p ?_
      rw [updateAt_of_ne (by simpa using hqp), Function.update_self]
      exact .nil none

end Seg

/-! ## Doubly linked lists -/

/-- `DLinked next prev a l b`: each cell of `l` points by `next` to the one after it and by `prev`
to the one before it; the first one's `prev` is `a` and the last one's `next` is `b`. -/
def DLinked (next prev : ι → Option ι) : Option ι → List ι → Option ι → Prop
  | _, [], _ => True
  | a, p :: l, b => prev p = a ∧ next p = l.head?.or b ∧ DLinked next prev (some p) l b

namespace DLinked

variable {next next' prev prev' : ι → Option ι} {a b c : Option ι} {l l₁ l₂ : List ι} {p : ι}

@[simp] theorem nil_iff : DLinked next prev a [] b ↔ True := Iff.rfl

@[simp] theorem cons_iff : DLinked next prev a (p :: l) b ↔
    prev p = a ∧ next p = l.head?.or b ∧ DLinked next prev (some p) l b := Iff.rfl

theorem seg (h : DLinked next prev a l b) : Seg next (l.head?.or b) l b := by
  induction l generalizing a with
  | nil => exact .nil b
  | cons p l ih =>
    obtain ⟨-, hn, h⟩ := h
    exact .cons p (hn ▸ ih h)

theorem congr (h : DLinked next prev a l b) (hn : ∀ q ∈ l, next' q = next q)
    (hp : ∀ q ∈ l, prev' q = prev q) : DLinked next' prev' a l b := by
  induction l generalizing a with
  | nil => trivial
  | cons q l ih =>
    obtain ⟨h₁, h₂, h₃⟩ := h
    refine ⟨(hp q List.mem_cons_self).trans h₁, (hn q List.mem_cons_self).trans h₂, ?_⟩
    exact ih h₃ (fun r hr ↦ hn r (List.mem_cons_of_mem _ hr)) fun r hr ↦ hp r (List.mem_cons_of_mem _ hr)

theorem getLast?_cons_or (p : ι) (l : List ι) (a : Option ι) :
    (p :: l).getLast?.or a = l.getLast?.or (some p) := by
  cases l with
  | nil => rfl
  | cons q l =>
    rw [List.getLast?_cons_cons, List.getLast?_eq_some_getLast (List.cons_ne_nil q l)]
    rfl

theorem append_iff : DLinked next prev a (l₁ ++ l₂) b ↔
    DLinked next prev a l₁ (l₂.head?.or b) ∧ DLinked next prev (l₁.getLast?.or a) l₂ b := by
  induction l₁ generalizing a with
  | nil => simp
  | cons q l₁ ih =>
    simp only [List.cons_append, cons_iff, ih, List.head?_append, Option.or_assoc,
      getLast?_cons_or, and_assoc]

theorem retarget_end [DecidableEq ι] (h : DLinked next prev a l b) (hnd : l.Nodup) (c : Option ι) :
    DLinked (updateAt next l.getLast? c) prev a l c := by
  induction l using List.reverseRecOn with
  | nil => trivial
  | append_singleton l q _ =>
    rw [append_iff] at h ⊢
    obtain ⟨h₁, hq, -, -⟩ := h
    have hql : q ∉ l := fun hq' ↦ (List.nodup_append.mp hnd).2.2 q hq' q List.mem_cons_self rfl
    rw [List.getLast?_append_of_ne_nil _ (List.cons_ne_nil _ _), List.getLast?_singleton]
    refine ⟨h₁.congr (updateAt_of_not_mem (by simpa using hql)) (fun _ _ ↦ rfl), hq, ?_, trivial⟩
    simp

theorem retarget_start [DecidableEq ι] (h : DLinked next prev a l b) (hnd : l.Nodup) (c : Option ι) :
    DLinked next (updateAt prev l.head? c) c l b := by
  cases l with
  | nil => trivial
  | cons q l =>
    obtain ⟨-, hn, h⟩ := h
    have hql : q ∉ l := (List.nodup_cons.mp hnd).1
    exact ⟨by simp, hn, h.congr (fun _ _ ↦ rfl) (updateAt_of_not_mem (by simpa using hql))⟩

/-- **Appending a cell at the end of a list**, as list code does it: `p->prev = tail; p->next =
NULL; if (tail) tail->next = p;`. -/
theorem push_back [DecidableEq ι] (h : DLinked next prev none l none) (hnd : l.Nodup) (hp : p ∉ l) :
    DLinked (updateAt (Function.update next p none) l.getLast? (some p))
      (Function.update prev p l.getLast?) none (l ++ [p]) none := by
  have hlast : ∀ q ∈ l.getLast?, q ≠ p := fun q hq ↦ ne_of_mem_of_not_mem (List.mem_of_getLast? hq) hp
  rw [append_iff]
  refine ⟨?_, ?_⟩
  · have h' := h.retarget_end hnd (some p)
    refine h'.congr (fun q hq ↦ ?_) fun q hq ↦ Function.update_of_ne (ne_of_mem_of_not_mem hq hp) _ _
    cases hl : l.getLast? with
    | none => simp [updateAt, Function.update_of_ne (ne_of_mem_of_not_mem hq hp)]
    | some r =>
      by_cases hqr : q = r
      · subst hqr
        simp
      · simp [updateAt, Function.update_of_ne hqr, Function.update_of_ne (ne_of_mem_of_not_mem hq hp)]
  · simp only [Option.or_none, cons_iff, Function.update_self, List.head?_nil,
      nil_iff, and_true, true_and]
    rw [updateAt_of_ne (by intro e; exact hlast p e rfl), Function.update_self]

/-- **Unlinking a cell from a list**, as list code does it: `if (p->next) p->next->prev = p->prev;
if (p->prev) p->prev->next = p->next;`. -/
theorem unlink [DecidableEq ι] (h : DLinked next prev none (l₁ ++ p :: l₂) none)
    (hnd : (l₁ ++ p :: l₂).Nodup) :
    DLinked (updateAt next (prev p) (next p)) (updateAt prev (next p) (prev p)) none (l₁ ++ l₂)
      none := by
  rw [append_iff] at h
  obtain ⟨h₁, hp, hn, h₂⟩ := h
  simp only [Option.or_none] at hp hn
  have hd := List.nodup_append.mp hnd
  have hd₂ := List.nodup_cons.mp hd.2.1
  have hl₁ : ∀ q ∈ l₂.head?, q ∉ l₁ := fun q hq hq₁ ↦
    hd.2.2 q hq₁ q (List.mem_cons_of_mem _ (List.mem_of_mem_head? hq)) rfl
  have hl₂ : ∀ q ∈ l₁.getLast?, q ∉ l₂ := fun q hq hq₂ ↦
    hd.2.2 q (List.mem_of_getLast? hq) q (List.mem_cons_of_mem _ hq₂) rfl
  rw [hp, hn, append_iff]
  refine ⟨?_, ?_⟩
  · simpa using (h₁.retarget_end hd.1 l₂.head?).congr (fun _ _ ↦ rfl) (updateAt_of_not_mem hl₁)
  · simpa using (h₂.retarget_start hd₂.2 l₁.getLast?).congr (updateAt_of_not_mem hl₂)
      (fun _ _ ↦ rfl)

end DLinked

end Links
