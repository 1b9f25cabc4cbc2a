import Mathlib

/-!
# Pins and validity intervals

A *pin* names a database snapshot. The cache, its clients and the database exchange validity
intervals of pins: the half-open range `[lower, upper)` of snapshots at which a value is known to be
current, together with a flag `stillValid` meaning that the value has not been invalidated yet,
so that its real upper end is the first invalidation still to come.

`pin_t` is a 32-bit unsigned integer on the wire. It is modelled by `ℕ`: the code only compares
pins and takes maxima of them, and nothing here depends on the width. Three values are reserved:
`PIN_INVALID`, `PIN_NEG_INF` below every real pin, and `PIN_INF` above every real pin.

## Reading a still-valid interval

`Interval_Overlaps` and `Interval_Intersect` read a still-valid interval with the current time
`now`: a still-valid `[l, u)` is taken to extend to `max u now`, and to infinity when `u` is
already `PIN_INF`.
-/

namespace TxCache

/-- `PIN_INVALID`. -/
def pinInvalid : ℕ := 0

/-- `PIN_NEG_INF`, below every real pin. -/
def pinNegInf : ℕ := 1

/-- `PIN_MIN`, the least real pin. -/
def pinMin : ℕ := 2

/-- `PIN_INF`, the all-ones 32-bit value, above every real pin. -/
def pinInf : ℕ := 2 ^ 32 - 1

/-- `PIN_SPECIAL`. -/
def pinSpecial (p : ℕ) : Bool := p == pinInvalid || p == pinNegInf || p == pinInf

/-- `interval_t`. -/
structure Interval where
  /-- The first snapshot of the interval. -/
  lower : ℕ
  /-- The first snapshot past the interval, as far as is known now. -/
  upper : ℕ
  /-- Not invalidated yet: the value stays current past `upper` until an invalidation. -/
  stillValid : Bool
deriving DecidableEq, Repr

namespace Interval

/-- `Interval_AssertValid`, as a predicate. -/
def AssertValid (a : Interval) : Prop :=
  a.lower ≠ pinInvalid ∧ a.upper ≠ pinInvalid ∧ a.lower ≠ pinInf ∧ a.upper ≠ pinNegInf ∧
    (a.lower = pinNegInf ∨ a.upper = pinInf ∨ a.lower < a.upper)

instance (a : Interval) : Decidable a.AssertValid :=
  inferInstanceAs (Decidable (a.lower ≠ pinInvalid ∧ a.upper ≠ pinInvalid ∧ a.lower ≠ pinInf ∧
    a.upper ≠ pinNegInf ∧ (a.lower = pinNegInf ∨ a.upper = pinInf ∨ a.lower < a.upper)))

/-- The end of an interval as read at `now`: a still-valid interval reaches `now` at least. -/
def upperAt (a : Interval) (now : ℕ) : ℕ := if a.stillValid then max a.upper now else a.upper

/-- `Interval_Overlaps a b now`. The first interval to start is extended by `now` when it is still
valid, and the two overlap when that extended end lies past the start of the other. -/
def overlaps (a b : Interval) (now : ℕ) : Bool :=
  if a.lower = pinNegInf ∨ a.lower < b.lower then a.upper == pinInf || decide (a.upperAt now > b.lower)
  else b.upper == pinInf || decide (b.upperAt now > a.lower)

/-- `Interval_Intersect a b now`: both ends are read with `now`, then the later start and the
earlier end are kept; the result is still valid only if both were. Its `Assert` (`none`) is that
the two intervals overlap, which `Interval_Overlaps` checks after asserting that both are valid. -/
def intersect (a b : Interval) (now : ℕ) : Option Interval :=
  if a.AssertValid ∧ b.AssertValid ∧ a.overlaps b now = true then
    some { lower := if a.lower < b.lower then b.lower else a.lower
           upper := if a.upperAt now > b.upperAt now then b.upperAt now else a.upperAt now
           stillValid := a.stillValid && b.stillValid }
  else none

/-- Membership of a pin in the raw half-open range `[lower, upper)`. -/
def Contains (a : Interval) (p : ℕ) : Prop := a.lower ≤ p ∧ p < a.upper

instance (a : Interval) (p : ℕ) : Decidable (a.Contains p) :=
  inferInstanceAs (Decidable (a.lower ≤ p ∧ p < a.upper))

/-- `b` lies within `a`: the raw bounds of `a` enclose those of `b`. -/
def Encloses (a b : Interval) : Prop := a.lower ≤ b.lower ∧ b.upper ≤ a.upper

instance (a b : Interval) : Decidable (a.Encloses b) :=
  inferInstanceAs (Decidable (a.lower ≤ b.lower ∧ b.upper ≤ a.upper))

theorem Encloses.refl (a : Interval) : a.Encloses a := ⟨le_rfl, le_rfl⟩

theorem Encloses.trans {a b c : Interval} (hab : a.Encloses b) (hbc : b.Encloses c) :
    a.Encloses c :=
  ⟨hab.1.trans hbc.1, hbc.2.trans hab.2⟩

theorem Encloses.contains {a b : Interval} (hab : a.Encloses b) {p : ℕ} (hp : b.Contains p) :
    a.Contains p :=
  ⟨hab.1.trans hp.1, hp.2.trans_le hab.2⟩

section Intersect

variable {a b r : Interval}

theorem upperAt_pinNegInf (h : a.AssertValid) : a.upperAt pinNegInf = a.upper := by
  have hu := h.2.1
  unfold upperAt pinNegInf
  unfold pinInvalid at hu
  split_ifs <;> omega

/-- **Intersecting at `PIN_NEG_INF`**, as the client does: the later start, the earlier end, and
still valid only if both were. -/
theorem intersect_pinNegInf (h : a.intersect b pinNegInf = some r) :
    r.lower = max a.lower b.lower ∧ r.upper = min a.upper b.upper ∧
      r.stillValid = (a.stillValid && b.stillValid) := by
  unfold intersect at h
  by_cases hok : a.AssertValid ∧ b.AssertValid ∧ a.overlaps b pinNegInf = true
  · rw [if_pos hok, Option.some.injEq] at h
    subst h
    rw [upperAt_pinNegInf hok.1, upperAt_pinNegInf hok.2.1]
    refine ⟨?_, ?_, rfl⟩ <;> dsimp only <;> split_ifs <;> omega
  · rw [if_neg hok] at h
    cases h

theorem encloses_intersect_pinNegInf (h : a.intersect b pinNegInf = some r) :
    a.Encloses r ∧ b.Encloses r := by
  obtain ⟨hl, hu, -⟩ := intersect_pinNegInf h
  exact ⟨⟨hl ▸ le_max_left _ _, hu ▸ min_le_left _ _⟩,
    ⟨hl ▸ le_max_right _ _, hu ▸ min_le_right _ _⟩⟩

end Intersect

/-! ## What an interval covers

Read at `now`, an interval covers the snapshots from `lower` on: all of them when `upper` is
`PIN_INF`, and otherwise those below its end as read at `now`. `Interval_Overlaps` decides
whether two such readings meet, by looking only at the end of the interval that starts first;
`Interval_Intersect` fixes the ends as read at `now`, so the result keeps tracking the two
intervals at later times only when both were still valid. -/

section Effective

variable {a b r : Interval} {now : ℕ}

/-- The snapshots `a` covers when read at `now`. -/
def effective (a : Interval) (now : ℕ) : Set ℕ :=
  if a.upper = pinInf then Set.Ici a.lower else Set.Ico a.lower (a.upperAt now)

@[simp] theorem mem_effective {p : ℕ} :
    p ∈ a.effective now ↔ a.lower ≤ p ∧ (a.upper = pinInf ∨ p < a.upperAt now) := by
  unfold effective
  split_ifs with h <;> simp [h]

theorem le_upperAt (a : Interval) (now : ℕ) : a.upper ≤ a.upperAt now := by
  unfold upperAt
  split_ifs <;> omega

theorem lower_mem_effective (h : a.AssertValid) (now : ℕ) : a.lower ∈ a.effective now := by
  obtain ⟨-, hu, -, hneg, hlt⟩ := h
  have hle := le_upperAt a now
  unfold pinInvalid pinNegInf at *
  exact mem_effective.mpr ⟨le_rfl, by omega⟩

theorem effective_inter_nonempty_iff (hab : a.lower ≤ b.lower) (hb : b.lower ∈ b.effective now) :
    (a.effective now ∩ b.effective now).Nonempty ↔ b.lower ∈ a.effective now := by
  constructor
  · rintro ⟨p, hpa, hpb⟩
    rw [mem_effective] at hpa hpb ⊢
    exact ⟨hab, hpa.2.imp_right fun h ↦ lt_of_le_of_lt hpb.1 h⟩
  · exact fun ha ↦ ⟨b.lower, ha, hb⟩

/-- **`Interval_Overlaps` decides whether the two readings meet.** -/
theorem overlaps_iff (ha : a.AssertValid) (hb : b.AssertValid) (now : ℕ) :
    a.overlaps b now = true ↔ (a.effective now ∩ b.effective now).Nonempty := by
  unfold overlaps
  split_ifs with hfirst
  · have hab : a.lower ≤ b.lower := by
      have := hb.1
      unfold pinInvalid pinNegInf at *
      omega
    rw [effective_inter_nonempty_iff hab (lower_mem_effective hb now), mem_effective]
    simp [hab]
  · have hba : b.lower ≤ a.lower := by omega
    rw [Set.inter_comm, effective_inter_nonempty_iff hba (lower_mem_effective ha now),
      mem_effective]
    simp [hba]

theorem overlaps_comm (ha : a.AssertValid) (hb : b.AssertValid) (now : ℕ) :
    a.overlaps b now = b.overlaps a now := by
  rw [Bool.eq_iff_iff, overlaps_iff ha hb, overlaps_iff hb ha, Set.inter_comm]

theorem intersect_eq_some (ha : a.AssertValid) (hb : b.AssertValid)
    (hov : a.overlaps b now = true) :
    a.intersect b now = some ⟨max a.lower b.lower, min (a.upperAt now) (b.upperAt now),
      a.stillValid && b.stillValid⟩ := by
  unfold intersect
  rw [if_pos ⟨ha, hb, hov⟩, Option.some.injEq, Interval.mk.injEq]
  refine ⟨?_, ?_, rfl⟩ <;> split_ifs <;> omega

theorem upperAt_eq_pinInf_iff (hnow : now < pinInf) :
    a.upperAt now = pinInf ↔ a.upper = pinInf := by
  unfold upperAt
  split_ifs <;> omega

theorem mem_effective_intersect (ha : a.AssertValid) (hb : b.AssertValid)
    (hov : a.overlaps b now = true) (hr : a.intersect b now = some r) {now' p : ℕ} :
    p ∈ r.effective now' ↔ max a.lower b.lower ≤ p ∧
      (min (a.upperAt now) (b.upperAt now) = pinInf ∨
        p < if a.stillValid && b.stillValid then max (min (a.upperAt now) (b.upperAt now)) now'
          else min (a.upperAt now) (b.upperAt now)) := by
  rw [intersect_eq_some ha hb hov, Option.some.injEq] at hr
  subst hr
  exact mem_effective

section Range

/-! The two upper ends are 32-bit pins, and the intersection is taken before `PIN_INF`. -/

variable (hau : a.upper ≤ pinInf) (hbu : b.upper ≤ pinInf) (hnow : now < pinInf)
include hau hbu hnow

theorem effective_intersect (ha : a.AssertValid) (hb : b.AssertValid)
    (hov : a.overlaps b now = true) (hr : a.intersect b now = some r) :
    r.effective now = a.effective now ∩ b.effective now := by
  ext p
  rw [mem_effective_intersect ha hb hov hr, Set.mem_inter_iff, mem_effective, mem_effective]
  unfold upperAt
  cases a.stillValid <;> cases b.stillValid <;>
    simp only [Bool.and_self, Bool.and_false, Bool.false_and, Bool.false_eq_true, ↓reduceIte] <;> omega

theorem effective_intersect_subset (ha : a.AssertValid) (hb : b.AssertValid)
    (hov : a.overlaps b now = true) (hr : a.intersect b now = some r) {now' : ℕ}
    (hle : now ≤ now') :
    r.effective now' ⊆ a.effective now' ∩ b.effective now' := by
  intro p hp
  rw [mem_effective_intersect ha hb hov hr] at hp
  rw [Set.mem_inter_iff, mem_effective, mem_effective]
  unfold upperAt at *
  revert hp
  cases a.stillValid <;> cases b.stillValid <;>
    simp only [Bool.and_self, Bool.and_false, Bool.false_and, Bool.false_eq_true, ↓reduceIte] <;> omega

theorem effective_intersect_of_stillValid (ha : a.AssertValid) (hb : b.AssertValid)
    (hov : a.overlaps b now = true) (hr : a.intersect b now = some r)
    (hsa : a.stillValid = true) (hsb : b.stillValid = true) {now' : ℕ} (hle : now ≤ now') :
    r.effective now' = a.effective now' ∩ b.effective now' := by
  ext p
  rw [mem_effective_intersect ha hb hov hr, Set.mem_inter_iff, mem_effective, mem_effective]
  unfold upperAt
  simp only [hsa, hsb, Bool.and_self, ↓reduceIte]
  omega

end Range

/-- **What `Interval_Overlaps` and `Interval_Intersect` compute.** For valid intervals the overlap
test decides whether the two readings at `now` meet, so the order of its arguments does not
matter. When they meet, the ends are 32-bit pins and `now` lies before `PIN_INF`, the
intersection starts at the later start, is still valid exactly when both were, covers at `now`
what both cover, and at every later time covers only what both cover then: exactly that when both
were still valid, while with one of them bounded its end stays as it was read at `now`. -/
theorem overlaps_intersect_effective (ha : a.AssertValid) (hb : b.AssertValid) (now : ℕ) :
    (a.overlaps b now = true ↔ (a.effective now ∩ b.effective now).Nonempty) ∧
    a.overlaps b now = b.overlaps a now ∧
    (a.upper ≤ pinInf → b.upper ≤ pinInf → now < pinInf → a.overlaps b now = true →
      ∃ r, a.intersect b now = some r ∧ r.lower = max a.lower b.lower ∧
        r.stillValid = (a.stillValid && b.stillValid) ∧
        r.effective now = a.effective now ∩ b.effective now ∧
        ∀ now' ≥ now, r.effective now' ⊆ a.effective now' ∩ b.effective now' ∧
          (a.stillValid = true → b.stillValid = true →
            r.effective now' = a.effective now' ∩ b.effective now')) := by
  refine ⟨overlaps_iff ha hb now, overlaps_comm ha hb now, fun hau hbu hnow hov ↦ ?_⟩
  have hr := intersect_eq_some ha hb hov
  refine ⟨_, hr, rfl, rfl, effective_intersect hau hbu hnow ha hb hov hr, fun now' hle ↦
    ⟨effective_intersect_subset hau hbu hnow ha hb hov hr hle,
      fun hsa hsb ↦ effective_intersect_of_stillValid hau hbu hnow ha hb hov hr hsa hsb hle⟩⟩

theorem overlaps_intersect_effective_stillValid :
    ((⟨2, 5, true⟩ : Interval).overlaps ⟨3, 8, true⟩ 4 = true ↔
      ((⟨2, 5, true⟩ : Interval).effective 4 ∩ (⟨3, 8, true⟩ : Interval).effective 4).Nonempty) ∧
    (⟨2, 5, true⟩ : Interval).overlaps ⟨3, 8, true⟩ 4 =
      (⟨3, 8, true⟩ : Interval).overlaps ⟨2, 5, true⟩ 4 ∧
    ((⟨2, 5, true⟩ : Interval).upper ≤ pinInf → (⟨3, 8, true⟩ : Interval).upper ≤ pinInf →
      4 < pinInf → (⟨2, 5, true⟩ : Interval).overlaps ⟨3, 8, true⟩ 4 = true →
      ∃ r, (⟨2, 5, true⟩ : Interval).intersect ⟨3, 8, true⟩ 4 = some r ∧
        r.lower = max (⟨2, 5, true⟩ : Interval).lower (⟨3, 8, true⟩ : Interval).lower ∧
        r.stillValid =
          ((⟨2, 5, true⟩ : Interval).stillValid && (⟨3, 8, true⟩ : Interval).stillValid) ∧
        r.effective 4 = (⟨2, 5, true⟩ : Interval).effective 4 ∩ (⟨3, 8, true⟩ : Interval).effective 4 ∧
        ∀ now' ≥ 4, r.effective now' ⊆
            (⟨2, 5, true⟩ : Interval).effective now' ∩ (⟨3, 8, true⟩ : Interval).effective now' ∧
          ((⟨2, 5, true⟩ : Interval).stillValid = true →
            (⟨3, 8, true⟩ : Interval).stillValid = true →
            r.effective now' =
              (⟨2, 5, true⟩ : Interval).effective now' ∩ (⟨3, 8, true⟩ : Interval).effective now')) :=
  overlaps_intersect_effective (by decide) (by decide) 4

/-- Where the intersection stops tracking the two intervals. With one of them bounded, the result
is bounded at the end read at `now`: `[2,5)+` and `[2,8)` at `3` give `[2,5)`, although at `6`
both cover `5`. And read at `PIN_INF`, a still-valid end becomes `PIN_INF` itself: `[2, PIN_INF)`
and `[2,5)+` give `[2, PIN_INF)`, which covers `PIN_INF`, while `[2,5)+` read then does not. -/
theorem intersect_stops_tracking :
    (⟨2, 5, true⟩ : Interval).intersect ⟨2, 8, false⟩ 3 = some ⟨2, 5, false⟩ ∧
      5 ∉ (⟨2, 5, false⟩ : Interval).effective 6 ∧
      5 ∈ (⟨2, 5, true⟩ : Interval).effective 6 ∩ (⟨2, 8, false⟩ : Interval).effective 6 ∧
    (⟨2, pinInf, false⟩ : Interval).intersect ⟨2, 5, true⟩ pinInf = some ⟨2, pinInf, false⟩ ∧
      pinInf ∈ (⟨2, pinInf, false⟩ : Interval).effective pinInf ∧
      pinInf ∉ (⟨2, 5, true⟩ : Interval).effective pinInf := by
  refine ⟨by decide, ?_, ?_, by decide, ?_, ?_⟩ <;>
    simp [upperAt, pinInf]

end Effective

end Interval

end TxCache
