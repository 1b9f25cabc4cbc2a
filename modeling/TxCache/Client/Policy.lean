import TxCache.Client.PinSet

/-!
# Choosing the snapshot a query runs at

A client in a read-only transaction runs each query at one snapshot of its pin set, chosen by a
registered *policy*. Two policies take the largest pin (or the star when it is present), two the
latest pin and one the middle pin; the last three first give the star a chance when the latest
pin is older than a few seconds, a number drawn at random, so that clients do not all keep reading
the same old snapshot.

`rand()` and `gettimeofday` are inputs here: `draw` is the value `rand()` returns and `now` the
time of day.

The main result, `contains_fn`, is that a policy never chooses a pin outside the set: the `Panic`
in `Client_Exec` on a chosen pin the set does not contain cannot fire. A policy fails (`none`,
an `Assert` or an access through `NULL`) only on a set with neither pins nor the star
(`fn_isSome_iff`).
-/

namespace TxCache

/-- The policies registered by `CLIENT_REGISTER_POLICY`. -/
inductive ClientPolicyChoosePin
  | largestBoundedPin
  | largestPin
  | middlePinWithVariety5
  | latestBoundedPinWithVariety5
  | latestBoundedPinWithVariety5To20
deriving DecidableEq, Repr

/-- `pin - 1` in `pin_t` arithmetic. -/
def pinPred (p : ℕ) : ℕ := (p + 2 ^ 32 - 1) % 2 ^ 32

/-- `ChooseLargestBoundedPin`. -/
def chooseLargestBoundedPin (ps : PinSet) : Option ℕ :=
  if ps.justStar then some pinInf else ps.boundsWithoutStar.map fun b ↦ pinPred b.upper

/-- `ChooseLargestPin`. -/
def chooseLargestPin (ps : PinSet) : Option ℕ :=
  if ps.andStar then some pinInf else ps.boundsWithoutStar.map fun b ↦ pinPred b.upper

/-- `ChooseVariety ps secsMin secsMax`: `PIN_INF` for a set that is just the star, or that has
the star and whose latest pin was taken more than `secs` seconds before `now`, `secs` drawn from
`[secsMin, secsMax]`; `PIN_INVALID` (no choice made) otherwise. -/
def chooseVariety (ps : PinSet) (secsMin secsMax : ℤ) (draw : ℕ) (now : Timeval) : ℕ :=
  if ps.justStar then pinInf
  else if ps.andStar then
    let secs := if secsMax = secsMin then secsMin else draw % (secsMax - secsMin + 1) + secsMin
    let bound : Timeval := { now with sec := now.sec - secs }
    if (ps.stamps.getLastD pinStampInvalid).tv.lessThan bound then pinInf else pinInvalid
  else pinInvalid

/-- `ChooseMiddlePinWithVariety5`. The pin `pins[nPins / 2]` is read through `NULL` (`none`) in
a set without pins. -/
def chooseMiddlePinWithVariety5 (ps : PinSet) (draw : ℕ) (now : Timeval) : Option ℕ :=
  let variety := chooseVariety ps 5 5 draw now
  if variety ≠ pinInvalid then some variety else ps.stamps[ps.nPins / 2]?.map (·.pin)

/-- The latest bounded pin after `ChooseVariety ps secsMin secsMax`, as
`ChooseLatestBoundedPinWithVariety5` and `ChooseLatestBoundedPinWithVariety5To20` choose it. -/
def chooseLatestBoundedPinWithVariety (secsMin secsMax : ℤ) (ps : PinSet) (draw : ℕ)
    (now : Timeval) : Option ℕ :=
  let variety := chooseVariety ps secsMin secsMax draw now
  if variety ≠ pinInvalid then some variety else ps.stamps[ps.nPins - 1]?.map (·.pin)

/-- `ChooseLatestBoundedPinWithVariety5`. -/
def chooseLatestBoundedPinWithVariety5 : PinSet → ℕ → Timeval → Option ℕ :=
  chooseLatestBoundedPinWithVariety 5 5

/-- `ChooseLatestBoundedPinWithVariety5To20`: the jitter between 5 and 20 seconds makes clients
less likely to race to create a new pin every 5 seconds. -/
def chooseLatestBoundedPinWithVariety5To20 : PinSet → ℕ → Timeval → Option ℕ :=
  chooseLatestBoundedPinWithVariety 5 20

/-- The `fn` of each policy. -/
def ClientPolicyChoosePin.fn : ClientPolicyChoosePin → PinSet → ℕ → Timeval → Option ℕ
  | .largestBoundedPin => fun ps _ _ ↦ chooseLargestBoundedPin ps
  | .largestPin => fun ps _ _ ↦ chooseLargestPin ps
  | .middlePinWithVariety5 => chooseMiddlePinWithVariety5
  | .latestBoundedPinWithVariety5 => chooseLatestBoundedPinWithVariety5
  | .latestBoundedPinWithVariety5To20 => chooseLatestBoundedPinWithVariety5To20

/-! ## Every choice is a member -/

section Choice

variable {ps : PinSet} {p : ℕ}

/-- The choices a policy makes: the star when the set has it, or a pin of the set. -/
def Chosen (ps : PinSet) (p : ℕ) : Prop := (p = pinInf ∧ ps.andStar) ∨ ∃ s ∈ ps.stamps, s.pin = p

theorem chooseVariety_eq (ps : PinSet) (secsMin secsMax : ℤ) (draw : ℕ) (now : Timeval) :
    chooseVariety ps secsMin secsMax draw now = pinInvalid ∨
      (chooseVariety ps secsMin secsMax draw now = pinInf ∧ ps.andStar) := by
  unfold chooseVariety
  by_cases hj : ps.justStar
  · rw [if_pos hj]
    simp only [PinSet.justStar, Bool.and_eq_true] at hj
    exact .inr ⟨rfl, hj.2⟩
  by_cases ha : ps.andStar
  · simp only [hj, ha, if_true, Bool.false_eq_true, if_false]
    split_ifs <;> simp
  · simp [hj, ha]

theorem pinPred_upper_boundsWithoutStar {b : Interval} (hb : ps.boundsWithoutStar = some b)
    (hlast : (ps.stamps.getLastD pinStampInvalid).pin < pinInf) :
    pinPred b.upper = (ps.stamps.getLastD pinStampInvalid).pin := by
  unfold PinSet.boundsWithoutStar at hb
  split_ifs at hb
  cases hb
  unfold pinPred pinInf at *
  dsimp only
  omega

theorem chosen_largest (h : ps.Valid) (hinf : ∀ s ∈ ps.stamps, s.pin < pinInf)
    (hp : (ps.boundsWithoutStar.map fun b ↦ pinPred b.upper) = some p) : Chosen ps p := by
  obtain ⟨b, hb, rfl⟩ := Option.map_eq_some_iff.mp hp
  have hne : ps.stamps ≠ [] := by
    unfold PinSet.boundsWithoutStar at hb
    split_ifs at hb with hn
    rw [← List.length_pos_iff, h.length_stamps]
    exact hn
  have hlast := List.getLastD_mem_of_ne_nil hne pinStampInvalid
  exact .inr ⟨_, hlast, (pinPred_upper_boundsWithoutStar hb (hinf _ hlast)).symm⟩

theorem chosen_getElem {i : ℕ} (hp : (ps.stamps[i]?.map (·.pin)) = some p) : Chosen ps p := by
  obtain ⟨s, hs, rfl⟩ := Option.map_eq_some_iff.mp hp
  exact .inr ⟨s, List.mem_of_getElem? hs, rfl⟩

theorem chosen_variety {secsMin secsMax : ℤ} {draw : ℕ} {now : Timeval}
    (hv : chooseVariety ps secsMin secsMax draw now ≠ pinInvalid) :
    Chosen ps (chooseVariety ps secsMin secsMax draw now) := by
  rcases chooseVariety_eq ps secsMin secsMax draw now with h | h
  · exact absurd h hv
  · exact .inl h

/-- **Every policy chooses the star or a pin of the set.** -/
theorem chosen_fn (h : ps.Valid) (hinf : ∀ s ∈ ps.stamps, s.pin < pinInf)
    (policy : ClientPolicyChoosePin) {draw : ℕ} {now : Timeval} (hp : policy.fn ps draw now = some p) :
    Chosen ps p := by
  cases policy with
  | largestBoundedPin =>
    simp only [ClientPolicyChoosePin.fn, chooseLargestBoundedPin] at hp
    split_ifs at hp with hj
    · cases hp
      exact .inl ⟨rfl, ((PinSet.justStar_iff h).mp hj).2⟩
    · exact chosen_largest h hinf hp
  | largestPin =>
    simp only [ClientPolicyChoosePin.fn, chooseLargestPin] at hp
    split_ifs at hp with ha
    · cases hp
      exact .inl ⟨rfl, ha⟩
    · exact chosen_largest h hinf hp
  | middlePinWithVariety5 =>
    simp only [ClientPolicyChoosePin.fn, chooseMiddlePinWithVariety5] at hp
    split_ifs at hp with hv
    · cases hp
      exact chosen_variety hv
    · exact chosen_getElem hp
  | latestBoundedPinWithVariety5 | latestBoundedPinWithVariety5To20 =>
    simp only [ClientPolicyChoosePin.fn, chooseLatestBoundedPinWithVariety5,
      chooseLatestBoundedPinWithVariety5To20, chooseLatestBoundedPinWithVariety] at hp
    split_ifs at hp with hv
    · cases hp
      exact chosen_variety hv
    · exact chosen_getElem hp

/-- **The chosen pin passes the checks of `Client_Exec`**: it is not `PIN_INVALID`, and the set
contains it, so the `Panic` on a pin outside the set never fires. -/
theorem contains_fn (h : ps.Valid) (hinf : ∀ s ∈ ps.stamps, s.pin < pinInf)
    (policy : ClientPolicyChoosePin) {draw : ℕ} {now : Timeval} (hp : policy.fn ps draw now = some p) :
    p ≠ pinInvalid ∧ ps.contains p = true := by
  rcases chosen_fn h hinf policy hp with ⟨rfl, hstar⟩ | ⟨s, hs, rfl⟩
  · exact ⟨by decide, by rw [PinSet.contains_pinInf, hstar]⟩
  · have hreal := h.stamps_real s hs
    exact ⟨hreal, (PinSet.contains_iff h (hinf s hs).ne hreal).mpr ⟨s, hs, rfl⟩⟩

theorem isSome_variety_or_getElem (h : ps.Valid) {secsMin secsMax : ℤ} {draw : ℕ} {now : Timeval}
    {i : ℕ} (hi : i < ps.nPins ↔ 0 < ps.nPins) :
    (if chooseVariety ps secsMin secsMax draw now ≠ pinInvalid then
        some (chooseVariety ps secsMin secsMax draw now)
      else ps.stamps[i]?.map (·.pin)).isSome ↔ ps.andStar ∨ ps.stamps ≠ [] := by
  split_ifs with hv
  · rcases chooseVariety_eq ps secsMin secsMax draw now with h' | ⟨-, ha⟩
    · exact absurd h' hv
    · simp [ha]
  · -- no choice: the set is not just the star, so a set with the star has a pin
    have hns : ¬ ps.justStar := fun hj ↦ hv (by simp [chooseVariety, hj, pinInf, pinInvalid])
    have hget : (ps.stamps[i]?).isSome ↔ i < ps.stamps.length := by simp
    rw [Option.isSome_map, hget, h.length_stamps, hi, ← h.length_stamps, List.length_pos_iff]
    constructor
    · exact .inr
    · rintro (ha | hne)
      · by_contra hnil
        exact hns ((PinSet.justStar_iff h).mpr ⟨by simpa using hnil, ha⟩)
      · exact hne

/-- **A policy finds a pin exactly when the set has the star or a pin.** -/
theorem fn_isSome_iff (h : ps.Valid) (policy : ClientPolicyChoosePin) (draw : ℕ) (now : Timeval) :
    (policy.fn ps draw now).isSome ↔ ps.andStar ∨ ps.stamps ≠ [] := by
  have hlen := h.length_stamps
  have hj := PinSet.justStar_iff h
  have hbounds : ps.boundsWithoutStar.isSome ↔ ps.stamps ≠ [] := by
    unfold PinSet.boundsWithoutStar
    rw [← List.length_pos_iff, hlen]
    split_ifs with hn <;> simp [hn]
  cases policy with
  | largestBoundedPin =>
    simp only [ClientPolicyChoosePin.fn, chooseLargestBoundedPin]
    split_ifs with hjs
    · simp [(hj.mp hjs).2]
    · rw [Option.isSome_map, hbounds]
      constructor
      · exact .inr
      · rintro (ha | hne)
        · by_contra hnil
          exact hjs (hj.mpr ⟨by simpa using hnil, ha⟩)
        · exact hne
  | largestPin =>
    simp only [ClientPolicyChoosePin.fn, chooseLargestPin]
    split_ifs with ha
    · simp [ha]
    · rw [Option.isSome_map, hbounds]
      simp [ha]
  | middlePinWithVariety5 =>
    simp only [ClientPolicyChoosePin.fn, chooseMiddlePinWithVariety5]
    exact isSome_variety_or_getElem h (by omega)
  | latestBoundedPinWithVariety5 | latestBoundedPinWithVariety5To20 =>
    simp only [ClientPolicyChoosePin.fn, chooseLatestBoundedPinWithVariety5,
      chooseLatestBoundedPinWithVariety5To20, chooseLatestBoundedPinWithVariety]
    exact isSome_variety_or_getElem h (by omega)

/-- **Every policy returns a pin the set contains.** On a valid set with the star or a pin, all
pins below `PIN_INF`, every policy returns, for every draw of `rand()` and every time of day, a
pin other than `PIN_INVALID` that `PinSet_Contains` accepts: neither the `Assert` nor the `Panic`
of `Client_Exec` on the chosen pin can fire. -/
theorem policy_contains_chosen (h : ps.Valid) (hinf : ∀ s ∈ ps.stamps, s.pin < pinInf)
    (hne : ps.andStar ∨ ps.stamps ≠ []) (policy : ClientPolicyChoosePin) (draw : ℕ)
    (now : Timeval) :
    ∃ p, policy.fn ps draw now = some p ∧ p ≠ pinInvalid ∧ ps.contains p = true := by
  obtain ⟨p, hp⟩ := Option.isSome_iff_exists.mp ((fn_isSome_iff h policy draw now).mpr hne)
  exact ⟨p, hp, contains_fn h hinf policy hp⟩

/-- The pins 10 and 11, without the star. -/
def tenElevenPins : PinSet := ⟨[⟨10, ⟨0, 0⟩⟩, ⟨11, ⟨0, 0⟩⟩], 0, pinStampInvalid, 2, false⟩

theorem policy_contains_chosen_middle :
    ∃ p, ClientPolicyChoosePin.middlePinWithVariety5.fn tenElevenPins 0 ⟨0, 0⟩ = some p ∧
      p ≠ pinInvalid ∧ tenElevenPins.contains p = true :=
  policy_contains_chosen ⟨by decide, by decide, by decide, by decide, by decide, by decide⟩
    (by decide) (by decide) _ _ _

/-- The valid set of the one pin `PIN_INF`, without the star. -/
def infPinOnly : PinSet := ⟨[], 0, ⟨pinInf, ⟨0, 0⟩⟩, 1, false⟩

/-- **A pin at `PIN_INF` is chosen but not contained.** The bounds of the set end one past its
pin, wrapped to 0 in `pin_t`, so `ChooseLargestBoundedPin` returns `PIN_INF`, which
`PinSet_Contains` reads as the star the set does not have. -/
theorem infPin_chosen_not_contained :
    infPinOnly.Valid ∧
      ClientPolicyChoosePin.largestBoundedPin.fn infPinOnly 0 ⟨0, 0⟩ = some pinInf ∧
      infPinOnly.contains pinInf = false :=
  ⟨⟨by decide, by decide, by decide, by decide, by decide, by decide⟩, rfl, rfl⟩

end Choice

end TxCache
