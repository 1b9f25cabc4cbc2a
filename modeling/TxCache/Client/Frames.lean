import TxCache.Client.Client
import TxCache.Lib.Trace

/-!
# What a cacheable frame puts in the cache

A cacheable function's result depends on everything the function read while its frame was open:
the results of its own queries, the cache hits of the calls it made, and the results of the
cacheable functions it called. The frame's put should therefore claim a validity interval inside
each interval observed while it was open, be still valid only if they all were, and carry their
invalidation tags.

## The observer

`observeFrames` reads the client's effects and keeps, for each open frame, what was observed while
it was open. A frame that exits hands its observations to its parent, since the parent uses its
result. A frame dropped by `Client_ExitCacheableAbort` is the open question: its result is still
returned to the parent when it could not be marshalled (an object) or when the output buffering
changed, so the parent depends on it. `keepAborted` chooses whether its observations go to the
parent (what the parent depends on) or are dropped (what the code folds into the parent: nothing).

`PutAccounts strict` is the condition on a put, with `strict` asking for the tags of every
observation even when the put is not still valid.

## Results

* `abortedChild_escapes_put`: with the observations of aborted frames handed to the parent, a run
  of seven calls puts an interval that is wider than, and still valid unlike, one its frame
  depended on.
* `puts_account_for_frames`: with the observations of aborted frames dropped, every put of every
  run accounts for its frame's observations, the tags only when the put is still valid. The
  proof carries `FramesAccount`, a simulation of the observer by the client's frame stack.
-/

namespace TxCache

/-- A validity interval learned while a frame was open, and its tags. -/
structure Observation where
  interval : Interval
  invalTags : List (List Char)
deriving DecidableEq, Repr

/-- What each open frame has observed, innermost first, as the client's effects go by. -/
def observeFrames (keepAborted : Bool) :
    List (List Observation) → ClientEffect → List (List Observation)
  | _, .began => [[]]
  | _, .committed => []
  | s, .entered _ => [] :: s
  | s, .observed interval tags => s.modifyHead (⟨interval, tags⟩ :: ·)
  | o :: p :: s, .exited .. => (o ++ p) :: s
  | o :: p :: s, .aborted => (if keepAborted then o ++ p else p) :: s
  | s, _ => s

/-- A put accounts for an observation: its interval lies within the observed one, it is still
valid only if the observation was, and it carries the observation's tags, always (`strict`) or
when it is still valid. -/
def PutAccountsFor (strict : Bool) (interval : Interval) (tags : List (List Char))
    (o : Observation) : Prop :=
  o.interval.Encloses interval ∧ (interval.stillValid → o.interval.stillValid) ∧
    ((strict ∨ interval.stillValid) → ∀ t ∈ o.invalTags, t ∈ tags)

instance (strict : Bool) (interval : Interval) (tags : List (List Char)) (o : Observation) :
    Decidable (PutAccountsFor strict interval tags o) :=
  inferInstanceAs (Decidable (o.interval.Encloses interval ∧
    (interval.stillValid → o.interval.stillValid) ∧
    ((strict ∨ interval.stillValid) → ∀ t ∈ o.invalTags, t ∈ tags)))

/-- The condition on an effect: a put accounts for everything its frame observed. -/
def PutAccounts (strict : Bool) (s : List (List Observation)) : ClientEffect → Prop
  | .exited _ interval _ tags _ => ∀ o ∈ s.headD [], PutAccountsFor strict interval tags o
  | _ => True

/-! ## The specification with aborted frames fails -/

/-- A frame `[1]` willing to deal with invalidations calls a frame `[2]`, which reads `[3, 6)`
and is aborted; the outer frame then reads `[2, 9)+` with tag `"a:"` and exits. -/
def abortedChildRun : List ClientOp :=
  [.beginRO (some [⟨4, ⟨0, 0⟩⟩]),
   .tryEnterCacheable [1] none true,
   .tryEnterCacheable [2] none false,
   .exec 0 ⟨0, 0⟩ ⟨true, true, none, true, "SELECT VALIDITY 3 6".toList⟩,
   .exitCacheableAbort,
   .exec 0 ⟨0, 0⟩ ⟨true, true, none, true, "SELECT VALIDITY 2 9 TAGS 1 a:".toList⟩,
   .exitCacheable [7]]

/-- **An aborted call escapes its caller's put.** In `abortedChildRun` the inner call's result,
valid on `[3, 6)` only, is returned to the outer function, which puts its own result as valid
on `[2, 9)` and still valid. -/
theorem abortedChild_escapes_put :
    ∃ c log, (Client.init .largestBoundedPin).run abortedChildRun = some (c, log) ∧
      .observed ⟨3, 6, false⟩ [] ∈ log ∧ .exited [1] ⟨2, 9, true⟩ [7] ["a:".toList] false ∈ log ∧
      ¬ Trace.Always (observeFrames true) (PutAccounts true) [] log := by
  have hrun : ((Client.init .largestBoundedPin).run abortedChildRun).map Prod.snd = some
      [.began, .lookedUp [1] ⟨4, 5, false⟩ 4 false, .entered [1],
       .lookedUp [2] ⟨4, 5, false⟩ 4 false, .entered [2], .ranAt 4, .observed ⟨3, 6, false⟩ [],
       .aborted, .ranAt 4, .observed ⟨2, 9, true⟩ ["a:".toList],
       .exited [1] ⟨2, 9, true⟩ [7] ["a:".toList] false] := by
    decide
  obtain ⟨⟨c, log⟩, hc, rfl⟩ := Option.map_eq_some_iff.mp hrun
  refine ⟨c, _, hc, by simp, by simp, fun hall ↦ ?_⟩
  have hput := hall [.began, .lookedUp [1] ⟨4, 5, false⟩ 4 false, .entered [1],
    .lookedUp [2] ⟨4, 5, false⟩ 4 false, .entered [2], .ranAt 4, .observed ⟨3, 6, false⟩ [],
    .aborted, .ranAt 4, .observed ⟨2, 9, true⟩ ["a:".toList]] _ [] rfl
  simp only [PutAccounts] at hput
  revert hput
  decide

/-! ## What a frame knows -/

namespace ClientCacheableFrame

/-- A frame accounts for an observation: its interval lies within the observed one, it is still
valid only if the observation was, and its tag set holds the observation's tags. -/
def AccountsFor (f : ClientCacheableFrame) (o : Observation) : Prop :=
  o.interval.Encloses f.interval ∧ (f.interval.stillValid → o.interval.stillValid) ∧
    ∀ t ∈ o.invalTags, t ∈ f.invalTags

/-- `g` knows at least what `f` knows: a narrower interval, still valid only if `f` is, and every
tag of `f`. -/
structure Narrows (g f : ClientCacheableFrame) : Prop where
  encloses : f.interval.Encloses g.interval
  stillValid : g.interval.stillValid → f.interval.stillValid
  tags : ∀ t ∈ f.invalTags, t ∈ g.invalTags

variable {f g : ClientCacheableFrame} {o : Observation}

theorem AccountsFor.of_narrows (h : f.AccountsFor o) (hg : g.Narrows f) : g.AccountsFor o :=
  ⟨h.1.trans hg.encloses, fun hv ↦ h.2.1 (hg.stillValid hv), fun t ht ↦ hg.tags t (h.2.2 t ht)⟩

variable {interval i : Interval} {tags : List (List Char)}

theorem narrows_learned (hi : f.interval.intersect interval pinNegInf = some i) :
    Narrows { f with interval := i, invalTags := tags.foldl addInvalTagToSet f.invalTags } f := by
  obtain ⟨-, -, hsv⟩ := Interval.intersect_pinNegInf hi
  refine ⟨(Interval.encloses_intersect_pinNegInf hi).1, fun hv ↦ ?_, fun t ht ↦ ?_⟩
  · simp only [hsv, Bool.and_eq_true] at hv
    exact hv.1
  · exact mem_foldl_addInvalTagToSet.mpr (.inl ht)

theorem accountsFor_learned (hi : f.interval.intersect interval pinNegInf = some i) :
    AccountsFor { f with interval := i, invalTags := tags.foldl addInvalTagToSet f.invalTags }
      ⟨interval, tags⟩ := by
  obtain ⟨-, -, hsv⟩ := Interval.intersect_pinNegInf hi
  refine ⟨(Interval.encloses_intersect_pinNegInf hi).2, fun hv ↦ ?_, fun t ht ↦ ?_⟩
  · simp only [hsv, Bool.and_eq_true] at hv
    exact hv.2
  · exact mem_foldl_addInvalTagToSet.mpr (.inr ht)

theorem narrows_child (hi : g.interval.intersect f.interval pinNegInf = some i) :
    Narrows { g with interval := i, invalTags := f.invalTags.foldl addInvalTagToSet g.invalTags }
      f := by
  have h : AccountsFor
      { g with interval := i, invalTags := f.invalTags.foldl addInvalTagToSet g.invalTags }
      ⟨f.interval, f.invalTags⟩ :=
    accountsFor_learned hi
  exact ⟨h.1, h.2.1, h.2.2⟩

end ClientCacheableFrame

theorem putAccountsFor_of_putArgs {c : Client} {f : ClientCacheableFrame} {item : Interval}
    {tags : List (List Char)} {o : Observation} (h : c.putArgs f = some (item, tags))
    (hb : c.bypassMode = false) (ho : f.AccountsFor o) :
    PutAccountsFor false item tags o := by
  obtain ⟨henc, hsv, htags⟩ := ho
  unfold Client.putArgs at h
  rw [hb] at h
  split_ifs at h with hvalid hnone hwill <;> cases h
  · -- not willing: the interval is put as not still valid, without tags
    exact ⟨henc, by simp, by simp⟩
  · exact ⟨henc, hsv, fun _ ↦ htags⟩
  · have hf : f.interval.stillValid = false := by simpa using hvalid
    exact ⟨henc, by simp [hf], by simp [hf]⟩

/-! ## The frame stack simulates the observer -/

namespace Client

/-- The invariant: both modes are off, and each frame of the client accounts for what the
observer says it has observed. -/
structure FramesAccount (c : Client) (s : List (List Observation)) : Prop where
  bypass : c.bypassMode = false
  memcached : c.memcachedMode = false
  frames : List.Forall₂ (fun f os ↦ ∀ o ∈ os, f.AccountsFor o) c.frames s

variable {c c' : Client} {s : List (List Observation)}

/-- One step's worth of the simulation: the effects meet the condition, and the client after them
accounts for the observer after them. -/
def StepAccounts (s : List (List Observation)) (es : List ClientEffect) (c' : Client) : Prop :=
  Trace.Always (observeFrames false) (PutAccounts false) s es ∧
    c'.FramesAccount (es.foldl (observeFrames false) s)

theorem StepAccounts.append {es₁ es₂ : List ClientEffect} {c₁ : Client}
    (h₁ : StepAccounts s es₁ c₁) (h₂ : c₁.FramesAccount (es₁.foldl (observeFrames false) s) →
      StepAccounts (es₁.foldl (observeFrames false) s) es₂ c') :
    StepAccounts s (es₁ ++ es₂) c' := by
  obtain ⟨ha₂, hinv₂⟩ := h₂ h₁.2
  exact ⟨Trace.always_append.mpr ⟨h₁.1, ha₂⟩, by rwa [List.foldl_append]⟩

theorem FramesAccount.congr (h : c.FramesAccount s) (hf : c'.frames = c.frames)
    (hb : c'.bypassMode = c.bypassMode) (hm : c'.memcachedMode = c.memcachedMode) :
    c'.FramesAccount s :=
  ⟨hb.trans h.bypass, hm.trans h.memcached, hf ▸ h.frames⟩

theorem FramesAccount.nil (h : c.FramesAccount s) : StepAccounts s [] c :=
  ⟨Trace.always_nil s, h⟩

theorem FramesAccount.neutral (h : c.FramesAccount s) {e : ClientEffect}
    (hput : ∀ s, PutAccounts false s e) (hobs : observeFrames false s e = s) :
    StepAccounts s [e] c :=
  ⟨Trace.always_singleton.mpr (hput s), by simpa [hobs] using h⟩

theorem FramesAccount.learn {tags : List (List Char)} {interval : Interval}
    (hinv : c.FramesAccount s) (h : (tags.foldl addInvalTag c).updateInterval interval = some c') :
    c'.FramesAccount (s.modifyHead (⟨interval, tags⟩ :: ·)) := by
  obtain ⟨f, rest, i, ps, hf, hi, -, rfl⟩ := learn_eq_some h hinv.bypass hinv.memcached
  obtain ⟨os, s', hhead, htail, rfl⟩ := List.forall₂_cons_left_iff.mp (hf ▸ hinv.frames)
  refine ⟨hinv.bypass, hinv.memcached, List.Forall₂.cons (fun o ho ↦ ?_) htail⟩
  rcases List.mem_cons.mp ho with rfl | ho
  · exact ClientCacheableFrame.accountsFor_learned hi
  · exact (hhead o ho).of_narrows (ClientCacheableFrame.narrows_learned hi)

theorem FramesAccount.execStatus {status : List Char} {es : List ClientEffect}
    (hinv : c.FramesAccount s) (h : c.execStatus status = some (c', es)) :
    StepAccounts s es c' := by
  unfold Client.execStatus at h
  split at h
  · cases h
    exact hinv.nil
  · obtain ⟨c'', hc'', h⟩ := Option.map_eq_some_iff.mp h
    have hlearn : (([] : List (List Char)).foldl addInvalTag c).updateInterval _ = some c'' := hc''
    cases h
    exact ⟨Trace.always_singleton.mpr trivial, hinv.learn hlearn⟩
  · dsimp only at h
    split_ifs at h
    obtain ⟨c'', hc'', h⟩ := Option.map_eq_some_iff.mp h
    cases h
    exact ⟨Trace.always_singleton.mpr trivial, hinv.learn hc''⟩

theorem FramesAccount.execAt {pin : ℕ} {needBegin : Bool} {r : ExecReply} {es : List ClientEffect}
    (hinv : c.FramesAccount s) (h : c.execAt pin needBegin r = some (c', es)) :
    StepAccounts s es c' := by
  unfold Client.execAt at h
  dsimp only at h
  generalize hc₁ : (if needBegin then { c with activePin := pin } else c) = c₁ at h
  have hinv₁ : c₁.FramesAccount s := by
    subst hc₁
    split_ifs
    exacts [hinv.congr rfl rfl rfl, hinv]
  rw [hinv₁.bypass] at h
  simp only [Bool.false_eq_true, false_and, if_false, Bool.not_false] at h
  split_ifs at h with hq
  · obtain ⟨⟨c'', es'⟩, hst, h⟩ := Option.map_eq_some_iff.mp h
    cases h
    exact (hinv₁.neutral (e := .ranAt _) (fun _ ↦ trivial) rfl).append fun _ ↦
      hinv₁.execStatus hst
  · cases h
    exact hinv₁.neutral (fun _ ↦ trivial) rfl

theorem FramesAccount.exec {draw : ℕ} {now : Timeval} {r : ExecReply} {es : List ClientEffect}
    (hinv : c.FramesAccount s) (h : c.exec draw now r = some (c', es)) :
    StepAccounts s es c' := by
  unfold Client.exec at h
  split_ifs at h with hnil
  · cases h
    exact hinv.nil
  split at h
  · cases h
  next pin hpin =>
    dsimp only at h
    split_ifs at h with hinvalid hcont hcommit hbegin hnew
    · cases h; exact hinv.nil
    · cases h; exact hinv.nil
    · split at h
      · cases h; exact hinv.nil
      next stamp =>
        split at h
        · cases h
        next c₁ hc₁ =>
          have hinv₁ : c₁.FramesAccount s := by
            unfold Client.takePin at hc₁
            obtain ⟨ps, -, rfl⟩ := Option.map_eq_some_iff.mp hc₁
            exact hinv.congr (by simp [hinv.memcached]) rfl rfl
          obtain ⟨⟨c'', es'⟩, hat, h⟩ := Option.map_eq_some_iff.mp h
          cases h
          exact (hinv₁.neutral (e := .pinned _) (fun _ ↦ trivial) rfl).append fun _ ↦
            hinv₁.execAt hat
    · exact hinv.execAt h

theorem FramesAccount.push {key : List UInt8} {willing : Bool} (hinv : c.FramesAccount s) :
    c.push key willing = (c', es') → StepAccounts s es' c' := by
  rintro ⟨⟩
  exact ⟨Trace.always_singleton.mpr trivial,
    ⟨hinv.bypass, hinv.memcached, List.Forall₂.cons (by simp) hinv.frames⟩⟩

theorem FramesAccount.tryEnterCacheable {key : List UInt8} {reply : Option LookupReply}
    {willing : Bool} {es : List ClientEffect} (hinv : c.FramesAccount s)
    (h : c.tryEnterCacheable key reply willing = some (c', es)) : StepAccounts s es c' := by
  unfold Client.tryEnterCacheable at h
  split_ifs at h with hnil hjust hbyp
  · cases h
    exact hinv.push rfl
  split at h
  · cases h
  next bounds _ =>
    dsimp only at h
    split at h
    next hit =>
      obtain ⟨c'', hc'', h⟩ := Option.map_eq_some_iff.mp h
      cases h
      exact (hinv.neutral (e := .lookedUp _ _ _ _) (fun _ ↦ trivial) rfl).append fun _ ↦
        ⟨Trace.always_singleton.mpr trivial, hinv.learn hc''⟩
    next =>
      cases h
      exact (hinv.neutral (e := .lookedUp _ _ _ _) (fun _ ↦ trivial) rfl).append fun _ ↦
        hinv.push rfl

/-- **Exiting a frame.** The put accounts for what the frame accounted for, and the parent,
having learned the frame's interval and tags, accounts for it too. -/
theorem FramesAccount.exitCacheable {data : List UInt8} {es : List ClientEffect}
    (hinv : c.FramesAccount s) (h : c.exitCacheable data = some (c', es)) :
    StepAccounts s es c' := by
  unfold Client.exitCacheable at h
  split at h
  next f p rest hframes =>
    split at h
    · cases h
    next c₁ hc₁ =>
      obtain ⟨p', rest', i, ps, hp, hi, -, rfl⟩ := updateInterval_eq_some hc₁ hinv.bypass
        hinv.memcached
      simp only [List.cons.injEq] at hp
      obtain ⟨rfl, rfl⟩ := hp
      obtain ⟨⟨item, tags⟩, hargs, h⟩ := Option.map_eq_some_iff.mp h
      cases h
      obtain ⟨osf, s₁, hf, hfr, rfl⟩ := List.forall₂_cons_left_iff.mp (hframes ▸ hinv.frames)
      obtain ⟨osp, s₂, hpf, hrest, rfl⟩ := List.forall₂_cons_left_iff.mp hfr
      rw [foldl_addInvalTag] at hargs ⊢
      refine ⟨Trace.always_singleton.mpr fun o ho ↦
        putAccountsFor_of_putArgs hargs hinv.bypass (hf o ho), ?_⟩
      refine ⟨hinv.bypass, hinv.memcached, ?_⟩
      refine List.Forall₂.cons (fun o ho ↦ ?_) hrest
      rcases List.mem_append.mp ho with ho | ho
      · exact (hf o ho).of_narrows (ClientCacheableFrame.narrows_child (g := p) hi)
      · exact (hpf o ho).of_narrows (ClientCacheableFrame.narrows_learned (f := p) hi)
  next => cases h

theorem FramesAccount.exitCacheableAbort {es : List ClientEffect} (hinv : c.FramesAccount s)
    (h : c.exitCacheableAbort = some (c', es)) : StepAccounts s es c' := by
  unfold Client.exitCacheableAbort at h
  split at h
  next f p rest hframes =>
    cases h
    obtain ⟨osf, s₁, -, hfr, rfl⟩ := List.forall₂_cons_left_iff.mp (hframes ▸ hinv.frames)
    obtain ⟨osp, s₂, hpf, hrest, rfl⟩ := List.forall₂_cons_left_iff.mp hfr
    exact ⟨Trace.always_singleton.mpr trivial,
      ⟨hinv.bypass, hinv.memcached, List.Forall₂.cons hpf hrest⟩⟩
  next => cases h

theorem FramesAccount.beginRO {reply : Option (List PinStamp)} {es : List ClientEffect}
    (hinv : c.FramesAccount s) (h : c.beginRO reply = (c', es)) : StepAccounts s es c' := by
  unfold Client.beginRO at h
  by_cases hrunning : c.frames ≠ []
  · rw [if_pos hrunning] at h
    cases h
    exact hinv.nil
  rw [if_neg hrunning] at h
  dsimp only at h
  generalize (if c.bypassMode = true then PinSet.init [] 0 true
    else reply.bind fun pins ↦ PinSet.init pins pins.length true) = ps? at h
  cases ps? with
  | none =>
    cases h
    exact hinv.nil
  | some ps =>
    cases h
    exact ⟨Trace.always_singleton.mpr trivial,
      ⟨hinv.bypass, hinv.memcached, List.Forall₂.cons (by simp) List.Forall₂.nil⟩⟩

theorem FramesAccount.commit {es : List ClientEffect} (hinv : c.FramesAccount s)
    (h : c.commit = (c', es)) : StepAccounts s es c' := by
  unfold Client.commit at h
  split at h
  · cases h
    exact ⟨Trace.always_singleton.mpr trivial,
      ⟨hinv.bypass, hinv.memcached, List.Forall₂.nil⟩⟩
  · cases h
    exact hinv.nil

theorem FramesAccount.step {op : ClientOp} {es : List ClientEffect} (hinv : c.FramesAccount s)
    (hop : op.keepsModesOff) (h : c.step op = some (c', es)) : StepAccounts s es c' := by
  cases op with
  | setBypass b =>
    cases h
    simp only [ClientOp.keepsModesOff, Bool.not_eq_true'] at hop
    exact FramesAccount.nil ⟨hop, hinv.memcached, hinv.frames⟩
  | setMemcached m =>
    cases h
    simp only [ClientOp.keepsModesOff, Bool.not_eq_true'] at hop
    exact FramesAccount.nil ⟨hinv.bypass, hop, hinv.frames⟩
  | beginRO reply => exact hinv.beginRO (Option.some.inj h)
  | commit => exact hinv.commit (Option.some.inj h)
  | exec draw now reply => exact hinv.exec h
  | tryEnterCacheable key reply willing => exact hinv.tryEnterCacheable h
  | exitCacheable data => exact hinv.exitCacheable h
  | exitCacheableAbort => exact hinv.exitCacheableAbort h

theorem FramesAccount.run {ops : List ClientOp} {log : List ClientEffect}
    (hinv : c.FramesAccount s) (hops : ∀ op ∈ ops, op.keepsModesOff)
    (h : c.run ops = some (c', log)) : StepAccounts s log c' := by
  induction ops generalizing c s log with
  | nil =>
    cases h
    exact hinv.nil
  | cons op ops ih =>
    unfold Client.run at h
    split at h
    · cases h
    next c₁ es₁ hstep =>
      obtain ⟨⟨c₂, es₂⟩, hrun, h⟩ := Option.map_eq_some_iff.mp h
      cases h
      exact (hinv.step (hops op List.mem_cons_self) hstep).append fun hinv₁ ↦
        ih hinv₁ (fun op hop ↦ hops op (List.mem_cons_of_mem _ hop)) hrun

end Client

/-- **Every put accounts for what its frame observed**, the observations of aborted frames
dropped: for every run from `Client_InitWith` that keeps both modes off, each put's interval
lies within every interval its frame and the frames it called observed, is still valid only if
they all were, and when still valid carries all their tags. -/
theorem puts_account_for_frames (policy : ClientPolicyChoosePin) {ops : List ClientOp}
    (hops : ∀ op ∈ ops, op.keepsModesOff) {c : Client} {log : List ClientEffect}
    (hrun : (Client.init policy).run ops = some (c, log)) :
    Trace.Always (observeFrames false) (PutAccounts false) [] log :=
  (Client.FramesAccount.run ⟨rfl, rfl, List.Forall₂.nil⟩ hops hrun).1

/-- The run with an aborted call meets the specification that drops aborted frames. -/
theorem abortedChildRun_puts_account :
    ∃ c log, (Client.init .largestBoundedPin).run abortedChildRun = some (c, log) ∧
      Trace.Always (observeFrames false) (PutAccounts false) [] log := by
  obtain ⟨c, log, hrun⟩ : ∃ c log,
      (Client.init .largestBoundedPin).run abortedChildRun = some (c, log) := by
    cases h : (Client.init .largestBoundedPin).run abortedChildRun with
    | none => exact absurd h (by decide)
    | some r => exact ⟨r.1, r.2, rfl⟩
  exact ⟨c, log, hrun, puts_account_for_frames .largestBoundedPin (by decide) hrun⟩

end TxCache
