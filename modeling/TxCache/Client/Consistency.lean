import TxCache.Client.Policy
import TxCache.Client.Client
import TxCache.Lib.Trace
import TxCache.Server.Server
import TxCache.Server.LatePut

/-!
# Transactional consistency at the client

A read-only transaction must read one snapshot of the database, even though its queries may run
at different pinned snapshots and some of its reads come from the cache. The client keeps this
by narrowing its pin set with every validity interval it learns: a pin left in the set lies in
all of them, so a query run at it reads the same data as every earlier read. The star, a
snapshot of the present still to be taken, stays only while every interval learned is open to
the future, and is replaced by the snapshot `PIN` takes when a query chooses it.

## The observer

`observeTxn` keeps the intervals learned since the transaction began, and `pinnedTxn` the
snapshot `PIN` took in it. `RanInObserved` asks of a query that it ran at a pin inside all of
them. `PinnedAfterObserved` is what the database is assumed to do: the snapshot `PIN` takes is a
real pin, at or after the start of every interval learned before it. The pin cushion is assumed
to hand out real pins in order (`ClientOp.pinsWellFormed`).

## Results

* `pins_stay_in_observed`: over every run that keeps both modes off, every pin left in the set
  lies in every interval learned in the transaction, the star stays only if each of them reaches
  `PIN_INF`, once `PIN` has taken a snapshot the set holds no other pin and no star, and every
  query runs at a pin inside every interval learned before it.
* `hit_between_pins_empties_set`: a cache hit whose interval overlaps the bounds the client looked
  up, but falls between two of its pins, leaves the set with neither a pin nor the star, after
  which the next query and the next cacheable call panic.
-/

namespace TxCache

/-- A pin that names a snapshot: neither of the reserved values below `PIN_MIN` nor `PIN_INF`. -/
def IsRealPin (p : ℕ) : Prop := pinMin ≤ p ∧ p < pinInf

instance (p : ℕ) : Decidable (IsRealPin p) := inferInstanceAs (Decidable (pinMin ≤ p ∧ p < pinInf))

theorem IsRealPin.ne_pinInvalid {p : ℕ} (h : IsRealPin p) : p ≠ pinInvalid := by
  have := h.1
  unfold pinMin at this
  unfold pinInvalid
  omega

/-- The pin cushion's answer to `Client_BeginRO` is real pins in order. -/
def ClientOp.pinsWellFormed : ClientOp → Bool
  | .beginRO (some pins) =>
    decide (pins.Pairwise fun a b ↦ a.pin ≤ b.pin) && pins.all fun s ↦ decide (IsRealPin s.pin)
  | _ => true

/-- The intervals learned since the transaction began. -/
def observeTxn : List Interval → ClientEffect → List Interval
  | _, .began => []
  | _, .committed => []
  | obs, .observed interval _ => interval :: obs
  | obs, _ => obs

/-- The snapshot `PIN` took since the transaction began, if it took one. -/
def pinnedTxn : Option PinStamp → ClientEffect → Option PinStamp
  | _, .began => none
  | _, .committed => none
  | _, .pinned stamp => some stamp
  | p, _ => p

/-- A query runs at a pin inside every interval learned before it. -/
def RanInObserved (obs : List Interval) : ClientEffect → Prop
  | .ranAt p => ∀ i ∈ obs, i.Contains p
  | _ => True

/-- The snapshot `PIN` takes is a real pin, not before any interval learned before it. -/
def PinnedAfterObserved (obs : List Interval) : ClientEffect → Prop
  | .pinned stamp => IsRealPin stamp.pin ∧ ∀ i ∈ obs, i.lower ≤ stamp.pin
  | _ => True

instance (obs : List Interval) (e : ClientEffect) : Decidable (RanInObserved obs e) := by
  cases e <;> unfold RanInObserved <;> infer_instance

instance (obs : List Interval) (e : ClientEffect) : Decidable (PinnedAfterObserved obs e) := by
  cases e <;> unfold PinnedAfterObserved <;> infer_instance

namespace Client

/-- The invariant: both modes are off, the pin set is valid and holds real pins, each inside
every interval learned, the star only if each of them reaches `PIN_INF`, no pin but the snapshot
`PIN` took and no star once it took one, and the active pin is not the star. -/
structure Consistent (c : Client) (obs : List Interval) (pinned : Option PinStamp) : Prop where
  bypass : c.bypassMode = false
  memcached : c.memcachedMode = false
  valid : c.pinSet.Valid
  real : ∀ s ∈ c.pinSet.stamps, IsRealPin s.pin
  inObserved : ∀ s ∈ c.pinSet.stamps, ∀ i ∈ obs, i.Contains s.pin
  star : c.pinSet.andStar → ∀ i ∈ obs, i.upper = pinInf
  reified : ∀ stamp ∈ pinned, (∀ s ∈ c.pinSet.stamps, s = stamp) ∧ c.pinSet.andStar = false
  activePin : c.activePin ≠ pinInf

variable {c c' : Client} {obs : List Interval} {pinned : Option PinStamp}

theorem consistent_init (policy : ClientPolicyChoosePin) :
    (Client.init policy).Consistent [] none where
  bypass := rfl
  memcached := rfl
  valid := ⟨fun _ ↦ ⟨rfl, rfl⟩, fun _ ↦ rfl, fun h ↦ absurd h (by simp [init]),
    fun h ↦ absurd h (by simp [init]), List.Pairwise.nil, by simp [init]⟩
  real := by simp [init, PinSet.stamps]
  inObserved := by simp
  star := by simp
  reified := by simp
  activePin := by simp [init, pinInvalid, pinInf]

theorem Consistent.congr (h : c.Consistent obs pinned) (hps : c'.pinSet = c.pinSet)
    (hb : c'.bypassMode = c.bypassMode) (hm : c'.memcachedMode = c.memcachedMode)
    (ha : c'.activePin ≠ pinInf) : c'.Consistent obs pinned :=
  ⟨hb.trans h.bypass, hm.trans h.memcached, hps ▸ h.valid, hps ▸ h.real, hps ▸ h.inObserved,
    hps ▸ h.star, hps ▸ h.reified, ha⟩

/-- **Narrowing by an interval** leaves a valid set of pins of the old set inside the interval,
with the star only if the interval reaches `PIN_INF`. -/
theorem Consistent.narrow {interval : Interval} {ps : PinSet} (h : c.Consistent obs pinned)
    (hps : c.pinSet.intersectWith interval = some ps) :
    (∀ s ∈ ps.stamps, s ∈ c.pinSet.stamps ∧ interval.Contains s.pin) ∧ ps.Valid ∧
      (ps.andStar → c.pinSet.andStar ∧ interval.upper = pinInf) ∧
      ∀ stamp ∈ pinned, (∀ s ∈ ps.stamps, s = stamp) ∧ ps.andStar = false := by
  have hsub : ∀ s ∈ ps.stamps, s ∈ c.pinSet.stamps ∧ interval.Contains s.pin := fun s hs ↦ by
    obtain ⟨hmem, hlo, hhi⟩ := (PinSet.mem_stamps_intersectWith h.valid hps).mp hs
    exact ⟨hmem, hlo, hhi⟩
  have hstar : ps.andStar → c.pinSet.andStar ∧ interval.upper = pinInf := fun hstar ↦ by
    rw [PinSet.andStar_intersectWith hps, Bool.and_eq_true, beq_iff_eq] at hstar
    exact hstar
  refine ⟨hsub, h.valid.intersectWith hps, hstar, fun stamp hp ↦ ?_⟩
  obtain ⟨hone, hnostar⟩ := h.reified stamp hp
  refine ⟨fun s hs ↦ hone s (hsub s hs).1, Bool.eq_false_iff.mpr fun hs ↦ ?_⟩
  simpa [hnostar] using (hstar hs).1

theorem Consistent.updateInterval {interval : Interval} (h : c.Consistent obs pinned)
    (hc : c.updateInterval interval = some c') : c'.Consistent obs pinned := by
  obtain ⟨f, rest, i, ps, -, -, hps, rfl⟩ := updateInterval_eq_some hc h.bypass h.memcached
  obtain ⟨hsub, hvalid, hstar, hreified⟩ := h.narrow hps
  exact ⟨h.bypass, h.memcached, hvalid, fun s hs ↦ h.real s (hsub s hs).1,
    fun s hs ↦ h.inObserved s (hsub s hs).1, fun hs ↦ h.star (hstar hs).1, hreified,
    h.activePin⟩

/-- **Learning an interval** with its tags: the set is narrowed to it, so it joins the intervals
every pin lies in. -/
theorem Consistent.learn {tags : List (List Char)} {interval : Interval}
    (h : c.Consistent obs pinned)
    (hc : (tags.foldl addInvalTag c).updateInterval interval = some c') :
    c'.Consistent (interval :: obs) pinned := by
  obtain ⟨f, rest, i, ps, -, -, hps, rfl⟩ := learn_eq_some hc h.bypass h.memcached
  obtain ⟨hsub, hvalid, hstar, hreified⟩ := h.narrow hps
  refine ⟨h.bypass, h.memcached, hvalid, fun s hs ↦ h.real s (hsub s hs).1, ?_, ?_, hreified,
    h.activePin⟩
  · intro s hs j hj
    rcases List.mem_cons.mp hj with rfl | hj
    · exact (hsub s hs).2
    · exact h.inObserved s (hsub s hs).1 j hj
  · intro hs j hj
    rcases List.mem_cons.mp hj with rfl | hj
    · exact (hstar hs).2
    · exact h.star (hstar hs).1 j hj

theorem stamps_takePin {stamp : PinStamp} (hc : c.takePin stamp = some c') :
    c'.pinSet.stamps = [stamp] ∧ c'.pinSet.andStar = false ∧ c.pinSet.andStar := by
  unfold Client.takePin at hc
  obtain ⟨ps, hps, rfl⟩ := Option.map_eq_some_iff.mp hc
  exact ⟨(PinSet.stamps_reifyStar hps).1, (PinSet.stamps_reifyStar hps).2,
    (PinSet.reifyStar_eq_some_iff.mp hps).1⟩

/-- **Taking the star's snapshot.** A real pin at or after the start of every interval learned
lies in all of them: they reach `PIN_INF`, since the star was still there. -/
theorem Consistent.takePin {stamp : PinStamp} (h : c.Consistent obs pinned)
    (hreal : IsRealPin stamp.pin) (hafter : ∀ i ∈ obs, i.lower ≤ stamp.pin)
    (hc : c.takePin stamp = some c') : c'.Consistent obs (some stamp) := by
  obtain ⟨hstamps, hnostar, hstar⟩ := stamps_takePin hc
  unfold Client.takePin at hc
  obtain ⟨ps, hps, rfl⟩ := Option.map_eq_some_iff.mp hc
  obtain ⟨-, rfl⟩ := PinSet.reifyStar_eq_some_iff.mp hps
  refine ⟨h.bypass, h.memcached, h.valid.reifyStar hreal.ne_pinInvalid hps, ?_, ?_, ?_, ?_,
    h.activePin⟩
  · simp only [hstamps, List.mem_singleton]
    rintro s rfl
    exact hreal
  · simp only [hstamps, List.mem_singleton]
    rintro s rfl i hi
    exact ⟨hafter i hi, (h.star hstar i hi) ▸ hreal.2⟩
  · simp
  · -- `PinSet_ReifyStar` leaves the one snapshot just pinned
    intro stamp' hp
    rw [Option.mem_some_iff] at hp
    subst hp
    exact ⟨fun s hs ↦ by simpa [hstamps] using hs, hnostar⟩

/-! ## One call -/

/-- One step's worth of the invariant: if each snapshot `PIN` took is after what was learned
before it, each query runs inside what was learned before it, and the state after is consistent
with what was learned and pinned after. -/
def StepConsistent (obs : List Interval) (pinned : Option PinStamp) (es : List ClientEffect)
    (c' : Client) : Prop :=
  Trace.Always observeTxn PinnedAfterObserved obs es →
    Trace.Always observeTxn RanInObserved obs es ∧
      c'.Consistent (es.foldl observeTxn obs) (es.foldl pinnedTxn pinned)

theorem StepConsistent.append {es₁ es₂ : List ClientEffect} {c₁ : Client}
    (h₁ : StepConsistent obs pinned es₁ c₁)
    (h₂ : c₁.Consistent (es₁.foldl observeTxn obs) (es₁.foldl pinnedTxn pinned) →
      StepConsistent (es₁.foldl observeTxn obs) (es₁.foldl pinnedTxn pinned) es₂ c') :
    StepConsistent obs pinned (es₁ ++ es₂) c' := by
  intro hpinned
  obtain ⟨hp₁, hp₂⟩ := Trace.always_append.mp hpinned
  obtain ⟨hr₁, hc₁⟩ := h₁ hp₁
  obtain ⟨hr₂, hc₂⟩ := h₂ hc₁ hp₂
  exact ⟨Trace.always_append.mpr ⟨hr₁, hr₂⟩, by rwa [List.foldl_append, List.foldl_append]⟩

theorem Consistent.nil (h : c.Consistent obs pinned) : StepConsistent obs pinned [] c :=
  fun _ ↦ ⟨Trace.always_nil obs, h⟩

theorem Consistent.neutral (h : c.Consistent obs pinned) {e : ClientEffect}
    (hran : RanInObserved obs e) (hobs : observeTxn obs e = obs)
    (hpin : pinnedTxn pinned e = pinned) : StepConsistent obs pinned [e] c :=
  fun _ ↦ ⟨Trace.always_singleton.mpr hran, by simpa [hobs, hpin] using h⟩

variable {status : List Char} {pin : ℕ} {needBegin : Bool} {r : ExecReply} {es : List ClientEffect}

theorem Consistent.execStatus (h : c.Consistent obs pinned)
    (hc : c.execStatus status = some (c', es)) : StepConsistent obs pinned es c' := by
  unfold Client.execStatus at hc
  split at hc
  · cases hc
    exact h.nil
  · obtain ⟨c'', hc'', hc⟩ := Option.map_eq_some_iff.mp hc
    have hlearn : (([] : List (List Char)).foldl addInvalTag c).updateInterval _ = some c'' := hc''
    cases hc
    exact fun _ ↦ ⟨Trace.always_singleton.mpr trivial, h.learn hlearn⟩
  · dsimp only at hc
    split_ifs at hc
    obtain ⟨c'', hc'', hc⟩ := Option.map_eq_some_iff.mp hc
    cases hc
    exact fun _ ↦ ⟨Trace.always_singleton.mpr trivial, h.learn hc''⟩

theorem Consistent.execAt (h : c.Consistent obs pinned)
    (hpin : ∃ s ∈ c.pinSet.stamps, s.pin = if needBegin then pin else c.activePin)
    (hc : c.execAt pin needBegin r = some (c', es)) : StepConsistent obs pinned es c' := by
  unfold Client.execAt at hc
  dsimp only at hc
  generalize hc₁ : (if needBegin then { c with activePin := pin } else c) = c₁ at hc
  obtain ⟨s, hs, hsp⟩ := hpin
  have hact : c₁.activePin = s.pin := by
    subst hc₁
    split_ifs at hsp ⊢ <;> exact hsp.symm
  have h₁ : c₁.Consistent obs pinned := by
    refine h.congr ?_ ?_ ?_ (hact ▸ (h.real s hs).2.ne) <;> (subst hc₁; split_ifs <;> rfl)
  have hran : RanInObserved obs (.ranAt c₁.activePin) := hact ▸ h.inObserved s hs
  rw [h₁.bypass] at hc
  simp only [Bool.false_eq_true, false_and, if_false, Bool.not_false, true_and] at hc
  split_ifs at hc
  · obtain ⟨⟨c'', es'⟩, hst, hc⟩ := Option.map_eq_some_iff.mp hc
    cases hc
    exact (h₁.neutral hran rfl rfl).append fun h₂ ↦ h₂.execStatus hst
  · cases hc
    exact h₁.neutral hran rfl rfl

variable {draw : ℕ} {now : Timeval}

/-- **A query.** The chosen pin is one of the set's, or the star; the star is replaced by the
snapshot `PIN` takes, which is then the set's one pin. -/
theorem Consistent.exec (h : c.Consistent obs pinned) (hc : c.exec draw now r = some (c', es)) :
    StepConsistent obs pinned es c' := by
  unfold Client.exec at hc
  split_ifs at hc with hnil
  · cases hc
    exact h.nil
  split at hc
  · cases hc
  next pin hpin =>
    have hchosen := chosen_fn h.valid (fun s hs ↦ (h.real s hs).2) c.choosePin hpin
    dsimp only at hc
    split_ifs at hc with hinvalid hcont hcommit hbegin hnew
    · cases hc
      exact h.nil
    · cases hc
      exact h.nil
    · split at hc
      · cases hc
        exact h.nil
      next stamp hstamp =>
        split at hc
        · cases hc
        next c₁ hc₁ =>
          obtain ⟨⟨c'', es'⟩, hat, hc⟩ := Option.map_eq_some_iff.mp hc
          cases hc
          -- `PIN` comes first, then the query at its snapshot
          have hpinned : StepConsistent obs pinned [.pinned stamp] c₁ := by
            intro hp
            obtain ⟨hreal, hafter⟩ := Trace.always_singleton.mp hp
            exact ⟨Trace.always_singleton.mpr trivial, h.takePin hreal hafter hc₁⟩
          show StepConsistent obs pinned ([.pinned stamp] ++ es') c''
          refine hpinned.append fun h₁ ↦ h₁.execAt ?_ hat
          · rw [if_pos (decide_eq_true hnew.1), (stamps_takePin hc₁).1]
            exact ⟨stamp, List.mem_singleton_self _, rfl⟩
    · -- no new pin: the pin is not the star, so it is one of the set's
      have hpinf : pin ≠ pinInf := by
        intro hinf
        by_cases hact : pin = c.activePin
        · exact h.activePin (hact ▸ hinf)
        · exact hnew ⟨by simpa using hact, hinf, by simp [h.bypass]⟩
      obtain ⟨s, hs, rfl⟩ := hchosen.resolve_left fun hc ↦ hpinf hc.1
      refine h.execAt ⟨s, hs, ?_⟩ hc
      split_ifs with hb
      · rfl
      · simpa using hb

theorem Consistent.push {key : List UInt8} {willing : Bool} (h : c.Consistent obs pinned) :
    c.push key willing = (c', es) → StepConsistent obs pinned es c' := by
  rintro ⟨⟩
  refine Consistent.neutral ?_ (e := .entered _) trivial rfl rfl
  exact h.congr rfl rfl rfl h.activePin

theorem Consistent.tryEnterCacheable {key : List UInt8} {reply : Option LookupReply}
    {willing : Bool} (h : c.Consistent obs pinned)
    (hc : c.tryEnterCacheable key reply willing = some (c', es)) :
    StepConsistent obs pinned es c' := by
  unfold Client.tryEnterCacheable at hc
  split_ifs at hc with hnil hjust hbyp
  · cases hc
    exact h.push rfl
  split at hc
  · cases hc
  next bounds _ =>
    dsimp only at hc
    split at hc
    next hit =>
      obtain ⟨c'', hc'', hc⟩ := Option.map_eq_some_iff.mp hc
      cases hc
      exact (h.neutral (e := .lookedUp _ _ _ _) trivial rfl rfl).append fun h₁ _ ↦
        ⟨Trace.always_singleton.mpr trivial, h₁.learn hc''⟩
    next =>
      cases hc
      exact (h.neutral (e := .lookedUp _ _ _ _) trivial rfl rfl).append fun h₁ ↦ h₁.push rfl

theorem Consistent.exitCacheable {data : List UInt8} (h : c.Consistent obs pinned)
    (hc : c.exitCacheable data = some (c', es)) : StepConsistent obs pinned es c' := by
  unfold Client.exitCacheable at hc
  split at hc
  next f p rest hframes =>
    split at hc
    · cases hc
    next c₁ hc₁ =>
      have h₀ : Consistent { c with frames := p :: rest } obs pinned :=
        h.congr rfl rfl rfl h.activePin
      have h₁ := h₀.updateInterval hc₁
      obtain ⟨⟨item, tags⟩, -, hc⟩ := Option.map_eq_some_iff.mp hc
      cases hc
      rw [foldl_addInvalTag]
      refine Consistent.neutral ?_ (e := .exited _ _ _ _ _) trivial rfl rfl
      exact h₁.congr rfl rfl rfl h₁.activePin
  next => cases hc

theorem Consistent.exitCacheableAbort (h : c.Consistent obs pinned)
    (hc : c.exitCacheableAbort = some (c', es)) : StepConsistent obs pinned es c' := by
  unfold Client.exitCacheableAbort at hc
  split at hc
  next f p rest hframes =>
    cases hc
    refine Consistent.neutral ?_ (e := .aborted) trivial rfl rfl
    exact h.congr rfl rfl rfl h.activePin
  next => cases hc

/-- **A new transaction** starts from the pin cushion's pins and the star, with nothing learned. -/
theorem Consistent.beginRO {reply : Option (List PinStamp)} (h : c.Consistent obs pinned)
    (hwf : (ClientOp.beginRO reply).pinsWellFormed) (hc : c.beginRO reply = (c', es)) :
    StepConsistent obs pinned es c' := by
  unfold Client.beginRO at hc
  by_cases hrunning : c.frames ≠ []
  · rw [if_pos hrunning] at hc
    cases hc
    exact h.nil
  rw [if_neg hrunning] at hc
  dsimp only at hc
  rw [if_neg (by simp [h.bypass])] at hc
  cases reply with
  | none =>
    cases hc
    exact h.nil
  | some pins =>
    simp only [ClientOp.pinsWellFormed, Bool.and_eq_true, decide_eq_true_eq,
      List.all_eq_true] at hwf
    obtain ⟨hsorted, hreal⟩ := hwf
    simp only [Option.bind_some] at hc
    cases hps : PinSet.init pins pins.length true with
    | none =>
      rw [hps] at hc
      cases hc
      exact h.nil
    | some ps =>
      rw [hps] at hc
      cases hc
      have hstamps : ps.stamps = pins := by
        rw [PinSet.stamps_init le_rfl hps, List.take_length]
      refine fun _ ↦ ⟨Trace.always_singleton.mpr trivial, ⟨h.bypass, h.memcached,
        PinSet.valid_init hsorted (fun s hs ↦ (hreal s hs).ne_pinInvalid) le_rfl hps, ?_, ?_, ?_,
        ?_, by simp [pinInvalid, pinInf]⟩⟩
      · rw [hstamps]
        exact hreal
      · simp [observeTxn]
      · simp [observeTxn]
      · simp [pinnedTxn]

theorem Consistent.commit (h : c.Consistent obs pinned) (hc : c.commit = (c', es)) :
    StepConsistent obs pinned es c' := by
  unfold Client.commit at hc
  split at hc
  · cases hc
    exact fun _ ↦ ⟨Trace.always_singleton.mpr trivial,
      ⟨h.bypass, h.memcached, h.valid, h.real, by simp [observeTxn], by simp [observeTxn],
        by simp [pinnedTxn], by simp [pinInvalid, pinInf]⟩⟩
  · cases hc
    exact h.nil

theorem Consistent.step {op : ClientOp} (h : c.Consistent obs pinned) (hop : op.keepsModesOff)
    (hwf : op.pinsWellFormed) (hc : c.step op = some (c', es)) :
    StepConsistent obs pinned es c' := by
  cases op with
  | setBypass b =>
    cases hc
    simp only [ClientOp.keepsModesOff, Bool.not_eq_true'] at hop
    exact Consistent.nil
      ⟨hop, h.memcached, h.valid, h.real, h.inObserved, h.star, h.reified, h.activePin⟩
  | setMemcached m =>
    cases hc
    simp only [ClientOp.keepsModesOff, Bool.not_eq_true'] at hop
    exact Consistent.nil
      ⟨h.bypass, hop, h.valid, h.real, h.inObserved, h.star, h.reified, h.activePin⟩
  | beginRO reply => exact h.beginRO hwf (Option.some.inj hc)
  | commit => exact h.commit (Option.some.inj hc)
  | exec draw now reply => exact h.exec hc
  | tryEnterCacheable key reply willing => exact h.tryEnterCacheable hc
  | exitCacheable data => exact h.exitCacheable hc
  | exitCacheableAbort => exact h.exitCacheableAbort hc

theorem Consistent.run {ops : List ClientOp} {log : List ClientEffect}
    (h : c.Consistent obs pinned)
    (hmodes : ∀ op ∈ ops, op.keepsModesOff) (hpins : ∀ op ∈ ops, op.pinsWellFormed)
    (hc : c.run ops = some (c', log)) : StepConsistent obs pinned log c' := by
  induction ops generalizing c obs pinned log with
  | nil =>
    cases hc
    exact h.nil
  | cons op ops ih =>
    unfold Client.run at hc
    split at hc
    · cases hc
    next c₁ es₁ hstep =>
      obtain ⟨⟨c₂, es₂⟩, hrun, hc⟩ := Option.map_eq_some_iff.mp hc
      cases hc
      exact (h.step (hmodes op List.mem_cons_self) (hpins op List.mem_cons_self) hstep).append
        fun h₁ ↦ ih h₁ (fun op hop ↦ hmodes op (List.mem_cons_of_mem _ hop))
          (fun op hop ↦ hpins op (List.mem_cons_of_mem _ hop)) hrun

/-! ## A set with neither pin nor star -/

theorem exec_eq_none_of_empty (h : c.pinSet.Valid) (hf : c.frames ≠ [])
    (hs : c.pinSet.stamps = []) (ha : c.pinSet.andStar = false) (draw : ℕ) (now : Timeval)
    (r : ExecReply) : c.exec draw now r = none := by
  have hnone : c.choosePin.fn c.pinSet draw now = none := by
    rw [← Option.not_isSome_iff_eq_none, fn_isSome_iff h]
    simp [hs, ha]
  unfold Client.exec
  rw [if_neg hf, hnone]

theorem tryEnterCacheable_eq_none_of_empty (h : c.pinSet.Valid) (hf : c.frames ≠ [])
    (hs : c.pinSet.stamps = []) (ha : c.pinSet.andStar = false) (key : List UInt8)
    (reply : Option LookupReply) (willing : Bool) :
    c.tryEnterCacheable key reply willing = none := by
  have hn : c.pinSet.nPins = 0 := by rw [← h.length_stamps, hs, List.length_nil]
  have hbounds : c.pinSet.boundsWithoutStar = none := by simp [PinSet.boundsWithoutStar, hn]
  unfold Client.tryEnterCacheable
  rw [if_neg hf, if_neg (by simp [PinSet.justStar, ha])]
  split_ifs
  · rfl
  · rw [hbounds]

end Client

/-! ## Every run -/

/-- **Transactional consistency.** For every run from `Client_InitWith` that keeps both modes
off, in which the pin cushion hands out real pins in order and each snapshot `PIN` takes is a
real pin at or after the start of every interval learned before it in the transaction: every
query runs at a pin inside every interval learned before it in the transaction, and after the
run every pin left in the set lies in every interval learned in the open transaction, the star
is left only if each of those intervals reaches `PIN_INF`, and once `PIN` has taken a snapshot
in the open transaction (`PinSet_ReifyStar`) that snapshot is the only pin the set can hold and
the star is gone. -/
theorem pins_stay_in_observed (policy : ClientPolicyChoosePin) {ops : List ClientOp}
    (hmodes : ∀ op ∈ ops, op.keepsModesOff) (hpins : ∀ op ∈ ops, op.pinsWellFormed)
    {c : Client} {log : List ClientEffect} (hrun : (Client.init policy).run ops = some (c, log))
    (hfresh : Trace.Always observeTxn PinnedAfterObserved [] log) :
    Trace.Always observeTxn RanInObserved [] log ∧
      (∀ s ∈ c.pinSet.stamps, ∀ i ∈ log.foldl observeTxn [], i.Contains s.pin) ∧
      (c.pinSet.andStar → ∀ i ∈ log.foldl observeTxn [], i.upper = pinInf) ∧
      (∀ stamp ∈ log.foldl pinnedTxn none,
        (∀ s ∈ c.pinSet.stamps, s = stamp) ∧ c.pinSet.andStar = false) := by
  obtain ⟨hran, hinv⟩ := (Client.consistent_init policy).run hmodes hpins hrun hfresh
  exact ⟨hran, hinv.inObserved, hinv.star, hinv.reified⟩

/-- A transaction with pin `5` and the star: the first query takes the new snapshot `20`, a cache
hit learns `[15, 30)`, and a second query runs at `20` again. -/
def pinnedRun : List ClientOp :=
  [.beginRO (some [⟨5, ⟨0, 0⟩⟩]),
   .exec 0 ⟨0, 0⟩ ⟨true, true, some ⟨20, ⟨0, 0⟩⟩, true,
     "SELECT VALIDITY 20 4294967295 TAGS 1 a:".toList⟩,
   .tryEnterCacheable [1] (some ⟨[7], ⟨15, 30, false⟩, []⟩) false,
   .exec 0 ⟨0, 0⟩ ⟨true, true, none, true, "SELECT VALIDITY 18 25".toList⟩]

theorem pinnedRun_stays_in_observed :
    ∃ c log, (Client.init .largestPin).run pinnedRun = some (c, log) ∧
      .pinned ⟨20, ⟨0, 0⟩⟩ ∈ log ∧ c.pinSet.stamps.map (·.pin) = [20] ∧
      Trace.Always observeTxn RanInObserved [] log ∧
      (∀ s ∈ c.pinSet.stamps, ∀ i ∈ log.foldl observeTxn [], i.Contains s.pin) ∧
      (c.pinSet.andStar → ∀ i ∈ log.foldl observeTxn [], i.upper = pinInf) ∧
      (∀ stamp ∈ log.foldl pinnedTxn none,
        (∀ s ∈ c.pinSet.stamps, s = stamp) ∧ c.pinSet.andStar = false) := by
  have hrun : ((Client.init .largestPin).run pinnedRun).map
      (fun p ↦ (p.2, p.1.pinSet.stamps.map (·.pin))) = some
      ([.began, .pinned ⟨20, ⟨0, 0⟩⟩, .ranAt 20, .observed ⟨20, pinInf, true⟩ ["a:".toList],
        .lookedUp [1] ⟨20, 21, false⟩ 5 false, .observed ⟨15, 30, false⟩ [], .ranAt 20,
        .observed ⟨18, 25, false⟩ []], [20]) := by
    decide
  obtain ⟨⟨c, log⟩, hc, hfacts⟩ := Option.map_eq_some_iff.mp hrun
  simp only [Prod.mk.injEq] at hfacts
  obtain ⟨rfl, hpins⟩ := hfacts
  exact ⟨c, _, hc, by simp, hpins,
    pins_stay_in_observed .largestPin (by decide) (by decide) hc (by decide)⟩

/-- A transaction with pins `5` and `9` and the star looks up key `[1]` over the bounds `[5, 10)`;
the store holds one version of the key, valid on `[6, 8)`, and `HandleLookup` answers with it. -/
def hitBetweenPinsRun : List ClientOp :=
  [.beginRO (some [⟨5, ⟨0, 0⟩⟩, ⟨9, ⟨0, 0⟩⟩]),
   .tryEnterCacheable [1]
     ((freshStore.put [1] ⟨6, 8, false⟩ [7] [] false 0).1.handleLookup [1] 5 10 5 .latest).2 false]

/-- **A cache hit between two pins empties the set.** The hit overlaps the bounds the client
looked up, as `LatestAcceptable_Lookup` requires, but holds neither pin `5` nor pin `9`; and since
it is not still valid the star goes too. The `Assert` of `PinSet_IntersectWith` tests the star
before the narrowing and passes; afterwards no policy finds a pin, and the next query and the
next cacheable call panic. -/
theorem hit_between_pins_empties_set :
    ∃ c log, (Client.init .largestBoundedPin).run hitBetweenPinsRun = some (c, log) ∧
      log = [ClientEffect.began, .lookedUp [1] ⟨5, 10, false⟩ 5 false,
        .observed ⟨6, 8, false⟩ []] ∧
      (⟨6, 8, false⟩ : Interval).overlaps ⟨5, 10, false⟩ pinNegInf = true ∧
      c.pinSet.stamps = [] ∧ c.pinSet.andStar = false ∧
      (∀ (policy : ClientPolicyChoosePin) draw now, policy.fn c.pinSet draw now = none) ∧
      (∀ draw now r, c.exec draw now r = none) ∧
      ∀ key reply willing, c.tryEnterCacheable key reply willing = none := by
  have hrun : ((Client.init .largestBoundedPin).run hitBetweenPinsRun).map
      (fun p ↦ (p.2, p.1.pinSet.stamps, p.1.pinSet.andStar, decide (p.1.frames ≠ []))) = some
      ([ClientEffect.began, .lookedUp [1] ⟨5, 10, false⟩ 5 false, .observed ⟨6, 8, false⟩ []], [],
        false, true) := by
    decide
  obtain ⟨⟨c, log⟩, hc, hfacts⟩ := Option.map_eq_some_iff.mp hrun
  simp only [Prod.mk.injEq, decide_eq_true_eq] at hfacts
  obtain ⟨rfl, hs, ha, hf⟩ := hfacts
  have hvalid : c.pinSet.Valid :=
    ((Client.consistent_init .largestBoundedPin).run (by decide) (by decide) hc (by decide)).2.valid
  refine ⟨c, _, hc, rfl, by decide, hs, ha, fun policy draw now ↦ ?_,
    Client.exec_eq_none_of_empty hvalid hf hs ha, ?_⟩
  · rw [← Option.not_isSome_iff_eq_none, fn_isSome_iff hvalid]
    simp [hs, ha]
  · exact Client.tryEnterCacheable_eq_none_of_empty hvalid hf hs ha

end TxCache
