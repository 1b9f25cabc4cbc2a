import TxCache.Interval
import TxCache.Lib.SortedTrim

/-!
# Pin sets

A client's read-only transaction may run at any snapshot of its *pin set*: the pinned snapshots
the pin cushion handed it at the start, in increasing order, and possibly the *star*, standing for
a snapshot of the present that is still to be taken. Every validity interval the transaction
learns narrows the set to the pins inside it, and keeps the star only while the interval is open
to the future.

## Representation

`PinSet_t` keeps the array `pins` that the pin cushion returned and a window of it, `nPins` stamps
from the pointer `firstPin`; a window of one stamp is copied into `onePin` and the array freed.
The pointer `firstPin` is kept here as its offset into `pins`, and `NULL` as the empty array at
offset 0. `PinSetUpdate` reads the stamp its pointer argument points at when the new window has
one stamp, and keeps the pointer when it has more; both are passed to `update` below.

`Valid` is the invariant the representation keeps: the array is in order and holds real pins, the
window lies inside it, and `onePin` is set exactly for a window of one. It implies what
`PinSetAssertValid` checks in a `PARANOID` build.

## Narrowing

`PinSet_IntersectWith` moves a pointer back from the end of the window over the pins at or past
the upper bound, then a pointer forward from its start over the pins below the lower bound.
On a window in order this keeps exactly the pins inside the interval (`stamps_intersectWith`).
-/

namespace TxCache

/-- `struct timeval`. -/
structure Timeval where
  sec : ℤ
  usec : ℤ
deriving DecidableEq, Repr

/-- `timeval_lessthan`. -/
def Timeval.lessThan (a b : Timeval) : Bool :=
  a.sec < b.sec || (a.sec == b.sec && a.usec < b.usec)

/-- `PinStamp_t`: a pinned snapshot and the time it was taken. -/
structure PinStamp where
  pin : ℕ
  tv : Timeval
deriving DecidableEq, Repr

/-- `PINSTAMP_INVALID`. -/
def pinStampInvalid : PinStamp := ⟨pinInvalid, ⟨0, 0⟩⟩

/-- `PinSet_t`. -/
structure PinSet where
  /-- The array from the pin cushion; `[]` for `NULL`. -/
  pins : List PinStamp
  /-- The offset of the pointer `firstPin` into `pins`. -/
  firstPin : ℕ
  onePin : PinStamp
  nPins : ℕ
  andStar : Bool
deriving DecidableEq, Repr

namespace PinSet

/-- The stamps of the set in order, `PinSetFirstPin(ps)[0 .. nPins)`. -/
def stamps (ps : PinSet) : List PinStamp :=
  if ps.nPins = 1 then [ps.onePin] else (ps.pins.drop ps.firstPin).take ps.nPins

/-- `PinSetUpdate ps firstPin nPins andStar`, its pointer given by the offset `firstOff` it keeps
for a window of two stamps or more, and by the stamp `first` it points at. -/
def update (ps : PinSet) (firstOff : ℕ) (first : PinStamp) (nPins : ℕ) (andStar : Bool) :
    PinSet :=
  if nPins ≤ 1 then
    { pins := [], firstPin := 0, onePin := if nPins = 0 then pinStampInvalid else first,
      nPins := nPins, andStar := andStar }
  else { ps with firstPin := firstOff, onePin := pinStampInvalid, nPins := nPins, andStar := andStar }

/-- `PinSet_Init`: its `Assert` fails (`none`) on a set with neither pins nor the star. -/
def init (pins : List PinStamp) (nPins : ℕ) (andStar : Bool) : Option PinSet :=
  if nPins > 0 || andStar then
    some ((⟨pins, 0, pinStampInvalid, 0, false⟩ : PinSet).update 0 (pins.headD pinStampInvalid)
      nPins andStar)
  else none

/-- `PinSet_IntersectWith`: keep the pins inside `interval`, and the star only if the interval
reaches `PIN_INF`. The `Assert` fails (`none`) when the set had neither the star nor a pin left. -/
def intersectWith (ps : PinSet) (interval : Interval) : Option PinSet :=
  -- `last` moves back over the pins at or past the upper bound ...
  let kept := ps.stamps.rdropWhile fun s ↦ s.pin ≥ interval.upper
  -- ... then `first` moves forward over the pins below the lower bound
  let skipped := (kept.takeWhile fun s ↦ s.pin < interval.lower).length
  let n := kept.length - skipped
  if ps.andStar || n > 0 then
    some (ps.update (ps.firstPin + skipped) (kept.getD skipped pinStampInvalid) n
      (ps.andStar && interval.upper == pinInf))
  else none

/-- `PinSet_Contains`. -/
def contains (ps : PinSet) (pin : ℕ) : Bool :=
  if pin = pinInf then ps.andStar
  else if pin = pinInvalid then false
  else
    match ps.stamps.dropWhile fun s ↦ s.pin < pin with
    | s :: _ => s.pin == pin
    | [] => false

/-- `PinSet_ReifyStar`: the star becomes the one snapshot `real` just pinned. -/
def reifyStar (ps : PinSet) (real : PinStamp) : Option PinSet :=
  if ps.andStar then some (ps.update 0 real 1 false) else none

/-- `PinSet_JustStar`. -/
def justStar (ps : PinSet) : Bool := ps.nPins == 0 && ps.andStar

/-- `PinSet_BoundsWithoutStar`: from the first pin to one past the last, in `pin_t`
arithmetic. The `Assert` fails (`none`) on a set without pins. -/
def boundsWithoutStar (ps : PinSet) : Option Interval :=
  if ps.nPins > 0 then
    some { lower := (ps.stamps.headD pinStampInvalid).pin
           upper := ((ps.stamps.getLastD pinStampInvalid).pin + 1) % 2 ^ 32
           stillValid := false }
  else none

/-! ## The representation invariant -/

/-- What `PinSetAssertValid` checks in a `PARANOID` build, reading `pins[0 .. nPins)` from the
start of the array (not from `firstPin`). -/
def AssertValid (ps : PinSet) : Prop :=
  if ps.nPins = 0 then ps.pins = [] ∧ ps.firstPin = 0 ∧ ps.onePin.pin = pinInvalid
  else if ps.nPins = 1 then ps.pins = [] ∧ ps.firstPin = 0 ∧ ps.onePin.pin ≠ pinInvalid
  else
    ps.pins ≠ [] ∧ ps.onePin.pin = pinInvalid ∧ ps.nPins ≤ ps.pins.length ∧
      (ps.pins.take ps.nPins).IsChain (fun a b ↦ a.pin ≤ b.pin) ∧
      ∀ s ∈ ps.pins.take ps.nPins, s.pin ≠ pinInvalid

/-- The invariant of the representation. -/
structure Valid (ps : PinSet) : Prop where
  small : ps.nPins ≤ 1 → ps.pins = [] ∧ ps.firstPin = 0
  zero : ps.nPins = 0 → ps.onePin.pin = pinInvalid
  one : ps.nPins = 1 → ps.onePin.pin ≠ pinInvalid
  many : 2 ≤ ps.nPins → ps.onePin.pin = pinInvalid ∧ ps.firstPin + ps.nPins ≤ ps.pins.length
  sorted : ps.pins.Pairwise fun a b ↦ a.pin ≤ b.pin
  real : ∀ s ∈ ps.pins, s.pin ≠ pinInvalid

theorem Valid.assertValid {ps : PinSet} (h : ps.Valid) : ps.AssertValid := by
  unfold AssertValid
  split_ifs with h0 h1
  · exact ⟨(h.small (by omega)).1, (h.small (by omega)).2, h.zero h0⟩
  · exact ⟨(h.small (by omega)).1, (h.small (by omega)).2, h.one h1⟩
  · obtain ⟨hone, hlen⟩ := h.many (by omega)
    have hsub : (ps.pins.take ps.nPins).Sublist ps.pins := List.take_sublist _ _
    refine ⟨?_, hone, by omega, ?_, fun s hs ↦ h.real s (hsub.subset hs)⟩
    · intro hnil
      simp [hnil] at hlen
      omega
    · exact List.isChain_iff_pairwise.mpr (h.sorted.sublist hsub)

/-! ## The stamps of a valid set -/

section Stamps

variable {ps : PinSet}

theorem stamps_of_two_le (h : 2 ≤ ps.nPins) :
    ps.stamps = (ps.pins.drop ps.firstPin).take ps.nPins := by
  simp [stamps, show ps.nPins ≠ 1 by omega]

theorem stamps_sublist (h2 : 2 ≤ ps.nPins) : ps.stamps.Sublist ps.pins := by
  rw [stamps_of_two_le h2]
  exact (List.take_sublist _ _).trans (List.drop_sublist _ _)

theorem Valid.length_stamps (h : ps.Valid) : ps.stamps.length = ps.nPins := by
  unfold stamps
  split_ifs with h1
  · simp [h1]
  · by_cases h0 : ps.nPins = 0
    · simp [h0]
    · have := (h.many (by omega)).2
      simp only [List.length_take, List.length_drop]
      omega

theorem Valid.stamps_sorted (h : ps.Valid) : ps.stamps.Pairwise fun a b ↦ a.pin ≤ b.pin := by
  by_cases h2 : 2 ≤ ps.nPins
  · exact h.sorted.sublist (stamps_sublist h2)
  · unfold stamps
    split_ifs with h1
    · exact List.pairwise_singleton _ _
    · simp [(h.small (by omega)).1]

theorem Valid.stamps_real (h : ps.Valid) : ∀ s ∈ ps.stamps, s.pin ≠ pinInvalid := by
  intro s hs
  by_cases h2 : 2 ≤ ps.nPins
  · exact h.real s ((stamps_sublist h2).subset hs)
  · unfold stamps at hs
    split_ifs at hs with h1
    · rw [List.mem_singleton.mp hs]
      exact h.one h1
    · simp [(h.small (by omega)).1] at hs

end Stamps

/-! ## `PinSetUpdate` -/

section Update

variable {ps : PinSet} {off : ℕ} {first : PinStamp} {n : ℕ} {star : Bool}

@[simp] theorem update_nPins : (ps.update off first n star).nPins = n := by
  unfold update; split_ifs <;> rfl

@[simp] theorem update_andStar : (ps.update off first n star).andStar = star := by
  unfold update; split_ifs <;> rfl

theorem stamps_update_zero : (ps.update off first 0 star).stamps = [] := by
  simp [update, stamps]

theorem stamps_update_one : (ps.update off first 1 star).stamps = [first] := by
  simp [update, stamps]

theorem stamps_update_of_two_le (h : 2 ≤ n) :
    (ps.update off first n star).stamps = (ps.pins.drop off).take n := by
  rw [stamps_of_two_le (by simpa using h)]
  simp [update, show ¬ n ≤ 1 by omega]

theorem valid_update (hsorted : ps.pins.Pairwise fun a b ↦ a.pin ≤ b.pin)
    (hreal : ∀ s ∈ ps.pins, s.pin ≠ pinInvalid) (hwin : 2 ≤ n → off + n ≤ ps.pins.length)
    (hfirst : n = 1 → first.pin ≠ pinInvalid) : (ps.update off first n star).Valid := by
  by_cases hn : n ≤ 1
  · rw [update, if_pos hn]
    constructor
    case small => exact fun _ ↦ ⟨rfl, rfl⟩
    case zero => intro h0; simp only at h0; simp [h0, pinStampInvalid]
    case one => intro h1; simp only at h1; simpa [h1] using hfirst h1
    case many => intro h2; simp only at h2; omega
    case sorted => exact List.Pairwise.nil
    case real => simp
  · rw [update, if_neg hn]
    constructor
    case small => intro h1; simp only at h1; omega
    case zero => intro h0; simp only at h0; omega
    case one => intro h1; simp only at h1; omega
    case many => exact fun h2 ↦ ⟨rfl, hwin h2⟩
    case sorted => exact hsorted
    case real => exact hreal

end Update

/-! ## Building a set and taking its star -/

section Init

variable {pins : List PinStamp} {n : ℕ} {star : Bool} {ps ps' : PinSet} {real : PinStamp}

theorem valid_init (hsorted : pins.Pairwise fun a b ↦ a.pin ≤ b.pin)
    (hreal : ∀ s ∈ pins, s.pin ≠ pinInvalid) (hn : n ≤ pins.length)
    (hps : init pins n star = some ps) : ps.Valid := by
  unfold init at hps
  split_ifs at hps
  cases hps
  refine valid_update hsorted hreal (fun _ ↦ by simpa using hn) fun h1 ↦ hreal _ ?_
  cases pins with
  | nil => simp at hn; omega
  | cons p _ => exact List.mem_cons_self

theorem stamps_init (hn : n ≤ pins.length) (hps : init pins n star = some ps) :
    ps.stamps = pins.take n := by
  unfold init at hps
  split_ifs at hps
  cases hps
  rcases Nat.lt_trichotomy n 1 with h0 | rfl | h2
  · obtain rfl : n = 0 := by omega
    simp [stamps_update_zero]
  · rw [stamps_update_one]
    cases pins with
    | nil => simp at hn
    | cons p _ => simp
  · rw [stamps_update_of_two_le (by omega)]
    simp

theorem andStar_init (hps : init pins n star = some ps) : ps.andStar = star := by
  unfold init at hps
  split_ifs at hps
  cases hps
  exact update_andStar

theorem reifyStar_eq_some_iff :
    ps.reifyStar real = some ps' ↔ ps.andStar ∧ ps' = ps.update 0 real 1 false := by
  unfold reifyStar
  split_ifs with h <;> simp [h, eq_comm]

/-- **The star is replaced by the one snapshot just pinned.** -/
theorem stamps_reifyStar (hps : ps.reifyStar real = some ps') :
    ps'.stamps = [real] ∧ ps'.andStar = false := by
  obtain ⟨-, rfl⟩ := reifyStar_eq_some_iff.mp hps
  exact ⟨stamps_update_one, update_andStar⟩

theorem Valid.reifyStar (h : ps.Valid) (hreal : real.pin ≠ pinInvalid)
    (hps : ps.reifyStar real = some ps') : ps'.Valid := by
  obtain ⟨-, rfl⟩ := reifyStar_eq_some_iff.mp hps
  exact valid_update h.sorted h.real (fun h2 ↦ by omega) fun _ ↦ hreal

end Init

/-! ## Narrowing to an interval -/

section Intersect

variable {ps ps' : PinSet} {interval : Interval}

theorem rdropWhile_stamps (h : ps.Valid) :
    (ps.stamps.rdropWhile fun s ↦ s.pin ≥ interval.upper) =
      ps.stamps.filter fun s ↦ s.pin < interval.upper := by
  rw [List.rdropWhile_eq_filter_of_pairwise]
  · refine List.filter_congr fun s _ ↦ ?_
    simp only [← decide_not, ge_iff_le, Nat.not_le]
  · refine h.stamps_sorted.imp fun hab ha ↦ ?_
    simp only [decide_eq_true_eq] at ha ⊢
    omega

theorem Valid.length_rdropWhile_stamps_le (h : ps.Valid) {p : PinStamp → Bool} :
    (ps.stamps.rdropWhile p).length ≤ ps.nPins := by
  rw [← h.length_stamps]
  exact (List.rdropWhile_prefix _ _).length_le

private theorem drop_eq_singleton_getD {l : List PinStamp} {k : ℕ} (h : l.length = k + 1)
    (d : PinStamp) : l.drop k = [l.getD k d] := by
  have hk : k < l.length := by omega
  rw [List.drop_eq_getElem_cons hk, List.getD_eq_getElem _ _ hk, List.drop_eq_nil_of_le (by omega)]

theorem stamps_intersectWith_eq_drop (h : ps.Valid) (hps : ps.intersectWith interval = some ps') :
    ps'.stamps = ((ps.stamps.rdropWhile fun s ↦ s.pin ≥ interval.upper).drop
      ((ps.stamps.rdropWhile fun s ↦ s.pin ≥ interval.upper).takeWhile
        fun s ↦ s.pin < interval.lower).length) := by
  unfold intersectWith at hps
  dsimp only at hps
  split_ifs at hps with hok
  cases hps
  set kept := ps.stamps.rdropWhile fun s ↦ s.pin ≥ interval.upper with hkept
  set skipped := (kept.takeWhile fun s ↦ s.pin < interval.lower).length
  have hskip : skipped ≤ kept.length := List.length_takeWhile_le _ _
  by_cases hn0 : kept.length - skipped = 0
  · rw [hn0, stamps_update_zero, List.drop_eq_nil_of_le (by omega)]
  by_cases hn1 : kept.length - skipped = 1
  · rw [hn1, stamps_update_one, drop_eq_singleton_getD (by omega)]
  -- a window of two or more: the original window had at least as many, inside `pins`
  have hle : kept.length ≤ ps.nPins := h.length_rdropWhile_stamps_le
  rw [stamps_update_of_two_le (by omega)]
  have hpre : kept.IsPrefix (ps.pins.drop ps.firstPin) := by
    refine (List.rdropWhile_prefix _ _).trans ?_
    rw [stamps_of_two_le (by omega)]
    exact List.take_prefix _ _
  have hk : (ps.pins.drop ps.firstPin).take kept.length = kept :=
    (List.prefix_iff_eq_take.mp hpre).symm
  conv_rhs => rw [← hk]
  rw [List.drop_take, List.drop_drop]

theorem scans_eq_filter (h : ps.Valid) :
    ((ps.stamps.rdropWhile fun s ↦ s.pin ≥ interval.upper).drop
      ((ps.stamps.rdropWhile fun s ↦ s.pin ≥ interval.upper).takeWhile
        fun s ↦ s.pin < interval.lower).length) =
      ps.stamps.filter fun s ↦ interval.lower ≤ s.pin ∧ s.pin < interval.upper := by
  rw [List.drop_length_takeWhile, rdropWhile_stamps h, List.dropWhile_eq_filter_of_pairwise,
    List.filter_filter]
  · refine List.filter_congr fun s _ ↦ ?_
    simp only [← decide_not, Nat.not_lt, Bool.decide_and]
  · exact (h.stamps_sorted.filter _).imp fun hab hb ↦ by
      simp only [decide_eq_true_eq] at hb ⊢
      omega

/-- **Narrowing keeps exactly the pins inside the interval.** -/
theorem stamps_intersectWith (h : ps.Valid) (hps : ps.intersectWith interval = some ps') :
    ps'.stamps = ps.stamps.filter fun s ↦ interval.lower ≤ s.pin ∧ s.pin < interval.upper := by
  rw [stamps_intersectWith_eq_drop h hps, scans_eq_filter h]

theorem andStar_intersectWith (hps : ps.intersectWith interval = some ps') :
    ps'.andStar = (ps.andStar && interval.upper == pinInf) := by
  unfold intersectWith at hps
  dsimp only at hps
  split_ifs at hps
  cases hps
  exact update_andStar

theorem mem_stamps_intersectWith (h : ps.Valid) (hps : ps.intersectWith interval = some ps')
    {s : PinStamp} :
    s ∈ ps'.stamps ↔ s ∈ ps.stamps ∧ interval.lower ≤ s.pin ∧ s.pin < interval.upper := by
  simp [stamps_intersectWith h hps]

theorem Valid.intersectWith (h : ps.Valid) (hps : ps.intersectWith interval = some ps') :
    ps'.Valid := by
  unfold PinSet.intersectWith at hps
  dsimp only at hps
  split_ifs at hps
  cases hps
  set kept := ps.stamps.rdropWhile fun s ↦ s.pin ≥ interval.upper
  set skipped := (kept.takeWhile fun s ↦ s.pin < interval.lower).length
  have hle : kept.length ≤ ps.nPins := h.length_rdropWhile_stamps_le
  refine valid_update h.sorted h.real (fun h2 ↦ ?_) fun h1 ↦ ?_
  · have := (h.many (by omega)).2
    omega
  · have hlt : skipped < kept.length := by omega
    rw [List.getD_eq_getElem _ _ hlt]
    exact h.stamps_real _ ((List.rdropWhile_prefix _ _).sublist.subset (List.getElem_mem hlt))

/-- **The `Assert` of `PinSet_IntersectWith` holds exactly when the star or a pin of the interval
is left.** -/
theorem intersectWith_isSome_iff (h : ps.Valid) :
    (ps.intersectWith interval).isSome ↔
      ps.andStar ∨ ∃ s ∈ ps.stamps, interval.lower ≤ s.pin ∧ s.pin < interval.upper := by
  unfold PinSet.intersectWith
  dsimp only
  rw [← List.length_drop, scans_eq_filter h, apply_ite Option.isSome]
  simp [List.length_pos_iff_exists_mem]

end Intersect

/-! ## Membership and bounds -/

section Members

variable {ps : PinSet}

/-- **`PinSet_Contains` decides membership** of a real pin in a valid set. -/
theorem contains_iff (h : ps.Valid) {p : ℕ} (hinf : p ≠ pinInf) (hinv : p ≠ pinInvalid) :
    ps.contains p = true ↔ ∃ s ∈ ps.stamps, s.pin = p := by
  have hdrop : (ps.stamps.dropWhile fun s ↦ s.pin < p) = ps.stamps.filter fun s ↦ p ≤ s.pin := by
    rw [List.dropWhile_eq_filter_of_pairwise]
    · refine List.filter_congr fun s _ ↦ ?_
      simp only [← decide_not, Nat.not_lt]
    · exact h.stamps_sorted.imp fun hab hb ↦ by
        simp only [decide_eq_true_eq] at hb ⊢
        omega
  have hsorted := h.stamps_sorted.filter fun s ↦ decide (p ≤ s.pin)
  unfold contains
  rw [if_neg hinf, if_neg hinv, hdrop]
  split
  next x t hxt =>
    have hx := List.mem_filter.mp (hxt ▸ List.mem_cons_self : x ∈ _)
    constructor
    · intro hc
      exact ⟨x, hx.1, by simpa using hc⟩
    · rintro ⟨s, hs, rfl⟩
      have hsf : s ∈ x :: t := hxt ▸ List.mem_filter.mpr ⟨hs, by simp⟩
      have hle : x.pin ≤ s.pin :=
        List.rel_headD_of_pairwise (R := fun a b : PinStamp ↦ a.pin ≤ b.pin) (fun _ ↦ le_rfl)
          (hxt ▸ hsorted) x hsf
      have hge : s.pin ≤ x.pin := by simpa using hx.2
      simp [Nat.le_antisymm hle hge]
  next hnil =>
    simp only [Bool.false_eq_true, false_iff, not_exists, not_and]
    intro s hs hsp
    have : s ∈ ps.stamps.filter fun s ↦ p ≤ s.pin := List.mem_filter.mpr ⟨hs, by simp [hsp]⟩
    rw [hnil] at this
    cases this

theorem contains_pinInf : ps.contains pinInf = ps.andStar := by
  simp [contains]

theorem justStar_iff (h : ps.Valid) : ps.justStar = true ↔ ps.stamps = [] ∧ ps.andStar = true := by
  rw [justStar, Bool.and_eq_true, beq_iff_eq, ← List.length_eq_zero_iff, h.length_stamps]

theorem contains_of_boundsWithoutStar (h : ps.Valid) {b : Interval}
    (hb : ps.boundsWithoutStar = some b) {s : PinStamp} (hs : s ∈ ps.stamps)
    (hinf : ∀ s ∈ ps.stamps, s.pin < pinInf) : b.Contains s.pin := by
  unfold boundsWithoutStar at hb
  split_ifs at hb
  cases hb
  have hlast := List.getLastD_mem_of_ne_nil (List.ne_nil_of_mem hs) pinStampInvalid
  have hlt := hinf _ hlast
  refine ⟨List.rel_headD_of_pairwise (R := fun a b : PinStamp ↦ a.pin ≤ b.pin) (fun _ ↦ le_rfl)
    h.stamps_sorted _ hs, ?_⟩
  have hle := List.rel_getLastD_of_pairwise (R := fun a b : PinStamp ↦ a.pin ≤ b.pin)
    (fun _ ↦ le_rfl) h.stamps_sorted pinStampInvalid hs
  dsimp only
  rw [Nat.mod_eq_of_lt (by unfold pinInf at hlt; omega)]
  omega

end Members

/-! ## Narrowing, as the client uses it -/

/-- **`PinSet_IntersectWith` narrows a valid set to the interval.** Its `Assert` holds exactly
when the star or a pin of the interval is left; then the set keeps, in order, exactly the pins
inside the interval, keeps the star only when the interval reaches `PIN_INF`, stays valid (as
`PinSetAssertValid` checks it too), and `PinSet_Contains` answers membership in the kept pins. -/
theorem intersectWith_narrows {ps : PinSet} (h : ps.Valid) (interval : Interval) :
    ((ps.intersectWith interval).isSome ↔
      ps.andStar ∨ ∃ s ∈ ps.stamps, interval.lower ≤ s.pin ∧ s.pin < interval.upper) ∧
    ∀ ps', ps.intersectWith interval = some ps' →
      ps'.stamps = ps.stamps.filter (fun s ↦ interval.lower ≤ s.pin ∧ s.pin < interval.upper) ∧
      ps'.andStar = (ps.andStar && interval.upper == pinInf) ∧
      ps'.Valid ∧ ps'.AssertValid ∧
      ps'.contains pinInf = ps'.andStar ∧
      ∀ p, p ≠ pinInf → p ≠ pinInvalid → (ps'.contains p = true ↔ ∃ s ∈ ps'.stamps, s.pin = p) := by
  refine ⟨intersectWith_isSome_iff h, fun ps' hps ↦ ?_⟩
  have hv' := h.intersectWith hps
  exact ⟨stamps_intersectWith h hps, andStar_intersectWith hps, hv', hv'.assertValid,
    contains_pinInf, fun p hinf hinv ↦ contains_iff hv' hinf hinv⟩

/-- A window of the pins 10 and 11 with the star. -/
def twoPinsWithStar : PinSet :=
  ⟨[⟨10, ⟨0, 0⟩⟩, ⟨11, ⟨0, 0⟩⟩], 0, pinStampInvalid, 2, true⟩

theorem intersectWith_narrows_twoPins :
    ((twoPinsWithStar.intersectWith ⟨11, 20, true⟩).isSome ↔
      twoPinsWithStar.andStar ∨ ∃ s ∈ twoPinsWithStar.stamps, 11 ≤ s.pin ∧ s.pin < 20) ∧
    ∀ ps', twoPinsWithStar.intersectWith ⟨11, 20, true⟩ = some ps' →
      ps'.stamps = twoPinsWithStar.stamps.filter (fun s ↦ 11 ≤ s.pin ∧ s.pin < 20) ∧
      ps'.andStar = (twoPinsWithStar.andStar && (20 : ℕ) == pinInf) ∧
      ps'.Valid ∧ ps'.AssertValid ∧
      ps'.contains pinInf = ps'.andStar ∧
      ∀ p, p ≠ pinInf → p ≠ pinInvalid → (ps'.contains p = true ↔ ∃ s ∈ ps'.stamps, s.pin = p) :=
  intersectWith_narrows ⟨by decide, by decide, by decide, by decide, by decide, by decide⟩
    ⟨11, 20, true⟩

end PinSet

end TxCache
