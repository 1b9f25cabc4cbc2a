import TxCache.Client.Policy
import TxCache.Lib.CString
import TxCache.Lib.OrdList

/-!
# The client library

An application reads through the client library inside *read-only transactions*. A transaction
starts with the pin set the pin cushion hands out (`Client_BeginRO`), runs each query at a
snapshot of that set (`Client_Exec`), and narrows the set by the validity interval the database
reports with each result. Calls to cacheable functions open *frames* (`Client_TryEnterCacheable`):
a cache hit answers the call and narrows the set like a query result; a miss pushes a frame that
collects the validity interval and the invalidation tags of everything the function reads, and
that puts the result in the cache when the function returns (`Client_ExitCacheable`) or is
dropped when its result cannot be stored (`Client_ExitCacheableAbort`).

## What is modelled

`Client` holds the transaction state of `Client_t`: the policy, the two modes, the pin set, the
active and earliest pins, and the frame stack from `bottom` down to `rootFrame` (`[]` when `bottom`
is `NULL`). Everything the library learns from outside is an argument of its operation: the pins
of the pin cushion, the database's replies to the commands `Client_Exec` sends, the cache's reply
to a lookup, `rand()` and the time of day. Connections, latencies and statistics are left out.

Each operation returns what it tells the rest of the system (`ClientEffect`): the validity
intervals it learned, the snapshots queries ran at, the lookups and the puts it sent. The
properties of the library are stated over that log in `TxCache.Client.Frames` and
`TxCache.Client.Consistency`.

`none` is a `Panic` or a failed `Assert`.
-/

namespace TxCache

open CString

/-! ## Frames -/

/-- `ClientInvalTagSet_CompareValue`: `strcmp`. -/
def ClientInvalTagSet.compareValue (v k : List Char) : Ordering := compare v k

/-- `ClientCacheableFrame_t`, without its client and parent pointers. -/
structure ClientCacheableFrame where
  key : List UInt8
  interval : Interval
  /-- The `ClientInvalTagSet_t` tree, as the list of its tags in `strcmp` order. -/
  invalTags : List (List Char)
  willingToDealWithInvalidations : Bool
deriving DecidableEq, Repr

/-- A frame as `Client_BeginRO` and `Client_TryEnterCacheable` set it up: `[-inf, inf)+`, no tags,
not willing to deal with invalidations. -/
def ClientCacheableFrame.init (key : List UInt8) : ClientCacheableFrame :=
  { key := key, interval := ⟨pinNegInf, pinInf, true⟩, invalTags := [],
    willingToDealWithInvalidations := false }

/-- The tag-set part of `Client_AddInvalTag`: a tag already in the set is not inserted again. -/
def addInvalTagToSet (tags : List (List Char)) (tag : List Char) : List (List Char) :=
  match OrdList.findEQ ClientInvalTagSet.compareValue tags tag with
  | some _ => tags
  | none => (OrdList.insert ClientInvalTagSet.compareValue id tags tag).getD tags

theorem mem_addInvalTagToSet {tags : List (List Char)} {tag t : List Char} :
    t ∈ addInvalTagToSet tags tag ↔ t = tag ∨ t ∈ tags := by
  unfold addInvalTagToSet
  split
  next x hx =>
    obtain ⟨hmem, heq⟩ := OrdList.mem_of_findEQ _ hx
    have hxt : x = tag := Std.compare_eq_iff_eq.mp heq
    subst hxt
    constructor
    · exact .inr
    · rintro (rfl | h)
      · exact hmem
      · exact h
  next hx =>
    rw [OrdList.insert_of_findEQ_eq_none _ hx, Option.getD_some,
      OrdList.mem_insert _ (OrdList.insert_of_findEQ_eq_none _ hx)]
    rfl

theorem mem_foldl_addInvalTagToSet {tags : List (List Char)} {s : List (List Char)}
    {t : List Char} : t ∈ tags.foldl addInvalTagToSet s ↔ t ∈ s ∨ t ∈ tags := by
  induction tags generalizing s with
  | nil => simp
  | cons x tags ih =>
    rw [List.foldl_cons, ih, mem_addInvalTagToSet, List.mem_cons]
    tauto

/-- What the cache answers a lookup with on a hit: the data, the interval and the tags of the
entry. -/
structure LookupReply where
  data : List UInt8
  interval : Interval
  invalTags : List (List Char)
deriving DecidableEq, Repr

/-- What the database answers to the commands `Client_Exec` sends with a read-only query. -/
structure ExecReply where
  /-- The `COMMIT` of the transaction at the old pin reported `COMMIT` or `ROLLBACK`. -/
  commitOk : Bool
  /-- The `BEGIN` reported `BEGIN`. -/
  beginOk : Bool
  /-- The stamp `PIN` reported, `none` when it failed or its status did not read as three
  numbers. -/
  pinned : Option PinStamp
  /-- The query's last result is `PGRES_TUPLES_OK`. -/
  tuplesOk : Bool
  /-- The command status of that result. -/
  status : List Char
deriving DecidableEq, Repr

/-- What a client operation tells the rest of the system. -/
inductive ClientEffect
  /-- `Client_BeginRO` started a read-only transaction. -/
  | began
  /-- `Client_Commit` ended it. -/
  | committed
  /-- `ServerProxy_Lookup` was sent for a key over an interval. -/
  | lookedUp (key : List UInt8) (interval : Interval) (earliestPin : ℕ)
      (policy : Bool)
  /-- A cacheable frame was pushed. -/
  | entered (key : List UInt8)
  /-- A validity interval and its tags were learned, from the database or a cache hit. -/
  | observed (interval : Interval) (invalTags : List (List Char))
  /-- A query was sent to run at this snapshot. -/
  | ranAt (pin : ℕ)
  /-- A snapshot of the present was pinned, and inserted in the pin cushion. -/
  | pinned (stamp : PinStamp)
  /-- A frame exited normally with these `ServerProxy_Put` arguments, sent unless in bypass
  mode. -/
  | exited (key : List UInt8) (interval : Interval) (data : List UInt8)
      (invalTags : List (List Char)) (force : Bool)
  /-- A frame was dropped by `Client_ExitCacheableAbort`. -/
  | aborted
deriving DecidableEq, Repr

/-- The transaction state of `Client_t`. -/
structure Client where
  choosePin : ClientPolicyChoosePin
  bypassMode : Bool
  memcachedMode : Bool
  pinSet : PinSet
  activePin : ℕ
  earliestPin : ℕ
  /-- The frames from `bottom` down to `rootFrame`; `[]` when `bottom` is `NULL`. -/
  frames : List ClientCacheableFrame
deriving DecidableEq, Repr

namespace Client

/-- `Client_InitWith`: no transaction, both modes off. -/
def init (choosePin : ClientPolicyChoosePin) : Client :=
  { choosePin := choosePin, bypassMode := false, memcachedMode := false,
    pinSet := ⟨[], 0, pinStampInvalid, 0, false⟩, activePin := pinInvalid,
    earliestPin := pinInvalid, frames := [] }

variable (c : Client)

/-- `Client_AddInvalTag`: the tag goes into the set of the bottom frame. -/
def addInvalTag (tag : List Char) : Client :=
  { c with frames := c.frames.modifyHead fun f ↦
      { f with invalTags := addInvalTagToSet f.invalTags tag } }

/-- `Client_UpdateInterval`: in memcached mode the bottom frame's upper end grows and its
still-valid flag falls; in bypass mode nothing happens; otherwise the bottom frame's interval
and the pin set are both narrowed to the new interval. -/
def updateInterval (interval : Interval) : Option Client :=
  match c.frames with
  | [] => none
  | bottom :: rest =>
    if c.memcachedMode then
      let upper := if interval.upper > bottom.interval.upper ∨ bottom.interval.upper = pinInf
        then interval.upper else bottom.interval.upper
      let stillValid := bottom.interval.stillValid && interval.stillValid
      some { c with frames :=
        { bottom with interval := { bottom.interval with upper := upper, stillValid := stillValid } }
          :: rest }
    else if c.bypassMode then some c
    else
      match bottom.interval.intersect interval pinNegInf, c.pinSet.intersectWith interval with
      | some i, some ps =>
        some { c with frames := ({ bottom with interval := i } :: rest), pinSet := ps }
      | _, _ => none

/-! ## Transactions -/

/-- `Client_BeginRO`, with the pins the pin cushion returned (`none` when it cannot be
reached). A transaction already running is refused. -/
def beginRO (reply : Option (List PinStamp)) : Client × List ClientEffect :=
  if c.frames ≠ [] then (c, [])
  else
    let ps? := if c.bypassMode then PinSet.init [] 0 true
      else reply.bind fun pins ↦ PinSet.init pins pins.length true
    match ps? with
    | none => (c, [])
    | some ps =>
      let earliestPin := if ps.justStar then pinInvalid else (ps.stamps.headD pinStampInvalid).pin
      let root := ClientCacheableFrame.init []
      -- memcached mode starts from the bounds of the pin set, or at `PIN_MIN` for the star
      let root := if c.memcachedMode then
          if !ps.justStar then { root with interval := ps.boundsWithoutStar.getD root.interval }
          else { root with interval := { root.interval with upper := pinMin } }
        else root
      ({ c with
          pinSet := ps, activePin := pinInvalid, earliestPin := earliestPin, frames := [root] },
        [.began])

/-- `Client_Commit`, refused outside a transaction and inside a cacheable function. -/
def commit : Client × List ClientEffect :=
  match c.frames with
  | [_] => ({ c with frames := [], activePin := pinInvalid }, [.committed])
  | _ => (c, [])

/-! ## Queries -/

/-- How `Client_Exec` reads the command status of a `SELECT`. -/
inductive StatusValidity
  /-- Fewer than two numbers: no validity interval. -/
  | none
  /-- `SELECT VALIDITY lower upper`. -/
  | bounded (interval : Interval)
  /-- `SELECT VALIDITY lower upper TAGS nTags` and the rest of the status after it. -/
  | tagged (interval : Interval) (nTags : ℕ) (rest : List Char)
deriving DecidableEq, Repr

/-- The `sscanf` of `Client_Exec`. -/
def scanValidity (status : List Char) : StatusValidity :=
  match sscanf (scanFormat "SELECT VALIDITY %u %u TAGS %u %n".toList) status 0 with
  | .value lower :: .value upper :: .value nTags :: .position n :: _ =>
    .tagged ⟨lower, upper, true⟩ nTags (status.drop n)
  | .value lower :: .value upper :: _ => .bounded ⟨lower, upper, false⟩
  | _ => .none

/-- The validity interval of a result: read the status, add the tags of a still-valid interval
to the bottom frame, and narrow by the interval. The count of tags is an `int`, asserted to be
positive and to be the number of tags `strsep` finds. -/
def execStatus (status : List Char) : Option (Client × List ClientEffect) :=
  match scanValidity status with
  | .none => some (c, [])
  | .bounded interval => (c.updateInterval interval).map fun c ↦ (c, [.observed interval []])
  | .tagged interval nTags rest =>
    let tags := strsepAll ' ' (rest.length + 1) rest
    if 0 < nTags ∧ nTags < 2 ^ 31 ∧ tags.length = nTags then
      ((tags.foldl addInvalTag c).updateInterval interval).map fun c ↦
        (c, [.observed interval tags])
    else none

/-- The end of `Client_Exec` once the transaction at `pin` is open: the active pin is set, and
the result's validity interval, outside bypass mode, is read. -/
def execAt (pin : ℕ) (needBegin : Bool) (r : ExecReply) : Option (Client × List ClientEffect) :=
  let c := if needBegin then { c with activePin := pin } else c
  if c.bypassMode ∧ c.activePin ≠ pinInf then none
  else if !c.bypassMode ∧ r.tuplesOk then
    (c.execStatus r.status).map fun (c', es) ↦ (c', .ranAt c.activePin :: es)
  else some (c, [.ranAt c.activePin])

/-- The pin of `PIN`: it replaces the star, becomes the earliest pin if there was none, and in
memcached mode raises the bottom frame's upper end. -/
def takePin (stamp : PinStamp) : Option Client :=
  (c.pinSet.reifyStar stamp).map fun ps ↦
    { c with
      pinSet := ps
      earliestPin := if c.earliestPin = pinInvalid then stamp.pin else c.earliestPin
      frames := if c.memcachedMode then c.frames.modifyHead fun f ↦
          if f.interval.upper < stamp.pin then
            { f with interval := { f.interval with upper := stamp.pin } }
          else f
        else c.frames }

/-- `Client_Exec` in a read-only transaction: choose a pin, move the database transaction to it
(committing the old one, beginning at the pin or, for the star, at a new pinned snapshot), run
the query and read its validity interval. A failed `COMMIT`, `BEGIN` or `PIN` ends the call
with the state as it was. Outside a transaction the query passes through. -/
def exec (draw : ℕ) (now : Timeval) (r : ExecReply) : Option (Client × List ClientEffect) :=
  if c.frames = [] then some (c, [])
  else
    match c.choosePin.fn c.pinSet draw now with
    | none => none
    | some pin =>
      if pin = pinInvalid then none
      else if pin ≠ c.activePin ∧ !c.pinSet.contains pin then none
      else
        let needBegin := pin ≠ c.activePin
        let needCommit := needBegin ∧ c.activePin ≠ pinInvalid
        let needNewPin := needBegin ∧ pin = pinInf ∧ !c.bypassMode
        if needCommit ∧ !r.commitOk then some (c, [])
        else if needBegin ∧ !r.beginOk then some (c, [])
        else if needNewPin then
          match r.pinned with
          | none => some (c, [])
          | some stamp =>
            match c.takePin stamp with
            | none => none
            | some c' => (c'.execAt stamp.pin needBegin r).map fun (c'', es) ↦
                (c'', .pinned stamp :: es)
        else c.execAt pin needBegin r

/-! ## Cacheable frames -/

/-- Pushing a frame for a call that missed in the cache; the PHP wrapper then sets whether the
function is willing to deal with invalidations. -/
def push (key : List UInt8) (willing : Bool) : Client × List ClientEffect :=
  ({ c with frames :=
      { ClientCacheableFrame.init key with willingToDealWithInvalidations := willing } ::
        c.frames }, [.entered key])

/-- `Client_TryEnterCacheable`, with the cache's reply to the lookup (`none` for a miss). A set
that is just the star skips the lookup. A hit adds the entry's tags to the bottom frame and
narrows by its interval; a miss pushes a frame. -/
def tryEnterCacheable (key : List UInt8) (reply : Option LookupReply) (willing : Bool) :
    Option (Client × List ClientEffect) :=
  if c.frames = [] then none
  else if c.pinSet.justStar then some (c.push key willing)
  -- `Client_GetNode` asserts that the client is not in bypass mode
  else if c.bypassMode then none
  else
    match c.pinSet.boundsWithoutStar with
    | none => none
    | some bounds =>
      let sent := ClientEffect.lookedUp key bounds c.earliestPin c.memcachedMode
      match reply with
      | some hit =>
        ((hit.invalTags.foldl addInvalTag c).updateInterval hit.interval).map fun c ↦
          (c, [sent, .observed hit.interval hit.invalTags])
      | none =>
        let (c, es) := c.push key willing
        some (c, sent :: es)

/-- The interval and tags `Client_ExitCacheable` puts for a frame: outside bypass mode, a
still-valid interval is kept only by a frame willing to deal with invalidations, which sends its
tags; such a frame is asserted to have tags. -/
def putArgs (frame : ClientCacheableFrame) : Option (Interval × List (List Char)) :=
  if frame.interval.stillValid ∧ !c.bypassMode then
    if frame.invalTags = [] ∧ frame.willingToDealWithInvalidations then none
    else if !frame.willingToDealWithInvalidations then
      some ({ frame.interval with stillValid := false }, [])
    else some (frame.interval, frame.invalTags)
  else some (frame.interval, [])

/-- `Client_ExitCacheable`: pop the frame, narrow the parent by the frame's interval and add the
frame's tags to it, then put the result. -/
def exitCacheable (data : List UInt8) : Option (Client × List ClientEffect) :=
  match c.frames with
  | frame :: parent :: rest =>
    match ({ c with frames := parent :: rest } : Client).updateInterval frame.interval with
    | none => none
    | some c' =>
      let c' := frame.invalTags.foldl addInvalTag c'
      (c'.putArgs frame).map fun (item, tags) ↦
        (c', [.exited frame.key item data tags c'.memcachedMode])
  | _ => none

/-- `Client_ExitCacheableAbort`: pop the frame and nothing else. -/
def exitCacheableAbort : Option (Client × List ClientEffect) :=
  match c.frames with
  | _ :: parent :: rest => some ({ c with frames := parent :: rest }, [.aborted])
  | _ => none

end Client

/-! ## Runs -/

/-- A call into the client library, with what it receives from outside. -/
inductive ClientOp
  | setBypass (bypass : Bool)
  | setMemcached (memcachedMode : Bool)
  | beginRO (reply : Option (List PinStamp))
  | commit
  | exec (draw : ℕ) (now : Timeval) (reply : ExecReply)
  | tryEnterCacheable (key : List UInt8) (reply : Option LookupReply) (willing : Bool)
  | exitCacheable (data : List UInt8)
  | exitCacheableAbort
deriving DecidableEq, Repr

/-- The call leaves bypass and memcached modes off. -/
def ClientOp.keepsModesOff : ClientOp → Bool
  | .setBypass b => !b
  | .setMemcached m => !m
  | _ => true

namespace Client

/-- One call. -/
def step (c : Client) : ClientOp → Option (Client × List ClientEffect)
  | .setBypass b => some ({ c with bypassMode := b }, [])
  | .setMemcached m => some ({ c with memcachedMode := m }, [])
  | .beginRO reply => some (c.beginRO reply)
  | .commit => some c.commit
  | .exec draw now reply => c.exec draw now reply
  | .tryEnterCacheable key reply willing => c.tryEnterCacheable key reply willing
  | .exitCacheable data => c.exitCacheable data
  | .exitCacheableAbort => c.exitCacheableAbort

/-- A run of calls and the effects it has, in order; `none` if a call panics. -/
def run (c : Client) : List ClientOp → Option (Client × List ClientEffect)
  | [] => some (c, [])
  | op :: ops =>
    match c.step op with
    | none => none
    | some (c', es) => (c'.run ops).map fun (c'', es') ↦ (c'', es ++ es')

/-! ## Spec lemmas -/

section Spec

variable {c c' : Client} {tags : List (List Char)} {interval : Interval}

theorem foldl_addInvalTag (tags : List (List Char)) (c : Client) :
    tags.foldl addInvalTag c = { c with frames := c.frames.modifyHead fun f ↦
      { f with invalTags := tags.foldl addInvalTagToSet f.invalTags } } := by
  induction tags generalizing c with
  | nil =>
    cases c with
    | mk choosePin bypassMode memcachedMode pinSet activePin earliestPin frames =>
      cases frames <;> rfl
  | cons t tags ih =>
    rw [List.foldl_cons, ih]
    cases c with
    | mk choosePin bypassMode memcachedMode pinSet activePin earliestPin frames =>
      cases frames <;> simp [addInvalTag]

theorem updateInterval_eq_some (h : c.updateInterval interval = some c')
    (hb : c.bypassMode = false) (hm : c.memcachedMode = false) :
    ∃ f rest i ps, c.frames = f :: rest ∧ f.interval.intersect interval pinNegInf = some i ∧
      c.pinSet.intersectWith interval = some ps ∧
      c' = { c with frames := { f with interval := i } :: rest, pinSet := ps } := by
  unfold updateInterval at h
  split at h
  · cases h
  next f rest hf =>
    rw [if_neg (by simp [hm]), if_neg (by simp [hb])] at h
    split at h
    next i ps hi hps =>
      cases h
      exact ⟨f, rest, i, ps, hf, hi, hps, rfl⟩
    next => cases h

theorem learn_eq_some (h : (tags.foldl addInvalTag c).updateInterval interval = some c')
    (hb : c.bypassMode = false) (hm : c.memcachedMode = false) :
    ∃ f rest i ps, c.frames = f :: rest ∧ f.interval.intersect interval pinNegInf = some i ∧
      c.pinSet.intersectWith interval = some ps ∧
      c' = { c with
        frames := { f with interval := i, invalTags := tags.foldl addInvalTagToSet f.invalTags } ::
          rest
        pinSet := ps } := by
  rw [foldl_addInvalTag] at h
  obtain ⟨f, rest, i, ps, hf, hi, hps, rfl⟩ := updateInterval_eq_some h hb hm
  cases hc : c.frames with
  | nil => simp [hc] at hf
  | cons f₀ rest₀ =>
    rw [hc] at hf
    simp only [List.modifyHead_cons, List.cons.injEq] at hf
    obtain ⟨rfl, rfl⟩ := hf
    exact ⟨f₀, _, i, ps, rfl, hi, hps, rfl⟩

end Spec

end Client

end TxCache
