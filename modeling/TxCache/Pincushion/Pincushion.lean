import TxCache.Pincushion.PinTable
import TxCache.Lib.Trace

/-!
# The pin cushion's handlers

The pin cushion serves any number of client connections over RPC. The `data` of a connection
records whether it references a pin and which. `HandleRequest` answers with the pins that are
fresh enough for the client, oldest first, and references the oldest of them; `HandleInsert`
enters a pin the client took, and references it if the connection holds no reference yet;
`HandleRelease` and the close of a connection drop the reference, which cleans the table. The
signal `SIGUSR2` flushes the table, and the reactor's write handler sends the queued `UNPIN`s.

The system is `Pincushion.step` over a `PincushionOp`, reporting what the connections and the
database see as `PincushionEffect`s: the replies, the inserts and releases, and each pin queued
for `UNPIN`. Times are inputs: `now` is what `gettimeofday` returns while a message is handled.

## Replies

On a valid table, a connection that holds no reference is always answered, and a `FOUND` reply
lists exactly the entries no older than the freshness bound, oldest first (`handleRequest_reply`):
the table is in timestamp order, so the walk of `PT_Find` from `head`, which stops at the first
entry that is too old, misses none.
-/

namespace TxCache

/-- `PC_hostinfo_t`. -/
structure PCHostInfo where
  hasReferencedPin : Bool
  referencedPin : ℕ
deriving DecidableEq, Repr

/-- The pin cushion: its table, and the `data` of each connection, by connection. -/
structure Pincushion where
  table : PinTable
  hostData : ℕ → Option PCHostInfo

/-- What the pin cushion does that a connection or the database sees. -/
inductive PincushionEffect
  /-- A `PINCUSHION_REP_FOUND` reply, oldest pin first. -/
  | found (h : ℕ) (pins : List PinStamp)
  /-- A `PINCUSHION_REP_EMPTY` reply. -/
  | empty (h : ℕ)
  /-- A pin entered for the connection. -/
  | inserted (h : ℕ) (pin : ℕ)
  /-- The connection gave its pins back, by `PINCUSHION_REQ_RELEASE` or by closing. -/
  | released (h : ℕ)
  /-- `PT_RemoveTail` queued a pin for `UNPIN`. -/
  | unpinQueued (pin : ℕ)
deriving DecidableEq, Repr

/-- A message from connection `h`, its close, or an event of the pin cushion's own. -/
inductive PincushionOp
  | request (h : ℕ) (now freshness : Timeval)
  | insert (h : ℕ) (now : Timeval) (stamp : PinStamp)
  | release (h : ℕ) (now : Timeval)
  | close (h : ℕ) (now : Timeval)
  /-- `SIGUSR2`: `PT_Flush`. -/
  | flush
  /-- `PTOnWrite`, once `PQsendQuery` accepted the `UNPIN`s. -/
  | sendUnpins
deriving DecidableEq, Repr

namespace Pincushion

open Function

variable (s : Pincushion)

/-- `PT_Init`: an empty table, and no connection with `data`. -/
def init (maxStaleness : Timeval) : Pincushion := ⟨⟨[], [], maxStaleness⟩, fun _ ↦ none⟩

/-- Pins queued for `UNPIN`, as effects. -/
def unpins (q : List ℕ) : List PincushionEffect := q.map .unpinQueued

/-- `ReleaseHostPin`: the referenced pin's count drops, which cleans the table. `PT_RemoveRef` of
the `NULL` that `PT_FindPin` returns for a missing pin dereferences it. -/
def releaseHostPin (h : ℕ) (now : Timeval) : Option (Pincushion × List ℕ) :=
  match s.hostData h with
  | some hi =>
    if hi.hasReferencedPin then
      (s.table.findPin hi.referencedPin).bind fun e ↦
        (s.table.removeRef now e).map fun (t, q) ↦
          (⟨t, update s.hostData h (some { hi with hasReferencedPin := false })⟩, q)
    else some (s, [])
  | none => some (s, [])

/-- `HandleRequest`. A connection that still references a pin fails the assert. The reply lists
`PT_GetEntry(num - i - 1)` for `i < num`: the fresh entries from the oldest. -/
def handleRequest (h : ℕ) (now freshness : Timeval) : Option (Pincushion × List PincushionEffect) :=
  if (s.hostData h).any (·.hasReferencedPin) then none
  else
    let num := s.table.find now freshness
    if num = 0 then some (s, [.empty h])
    else
      (s.table.getEntry (num - 1)).bind fun e ↦
        let t := s.table.addRef (num - 1)
        ((List.range num).mapM fun i ↦ t.getEntry (num - i - 1)).map fun pins ↦
          (⟨t, update s.hostData h (some ⟨true, e.pin⟩)⟩,
            [.found h (pins.map fun p ↦ ⟨p.pin, p.timestamp⟩)])

/-- `HandleInsert`. A connection without `data` gets it, with no reference; one that holds no
reference then references the inserted pin (the uninitialised `referencedPin` of fresh `data` is
never read). -/
def handleInsert (h : ℕ) (now : Timeval) (stamp : PinStamp) :
    Option (Pincushion × List PincushionEffect) :=
  (s.table.insert now stamp.tv stamp.pin).bind fun (t, q, e) ↦
    let hi := (s.hostData h).getD ⟨false, pinInvalid⟩
    if hi.hasReferencedPin then some (⟨t, s.hostData⟩, unpins q ++ [.inserted h stamp.pin])
    else
      (t.getEntry e).map fun entry ↦
        (⟨t.addRef e, update s.hostData h (some ⟨true, entry.pin⟩)⟩,
          unpins q ++ [.inserted h stamp.pin])

/-- `HandleRelease`. -/
def handleRelease (h : ℕ) (now : Timeval) : Option (Pincushion × List PincushionEffect) :=
  (s.releaseHostPin h now).map fun (s', q) ↦ (s', .released h :: unpins q)

/-- `HandleConnectionClosed`: the reference is dropped and `data` freed. It is the `onClose` of
every connection that has `data` (both handlers that allocate it set `onClose`); closing one
without `data` changes nothing, as here. -/
def handleConnectionClosed (h : ℕ) (now : Timeval) : Option (Pincushion × List PincushionEffect) :=
  (s.releaseHostPin h now).map fun (s', q) ↦
    (⟨s'.table, update s'.hostData h none⟩, .released h :: unpins q)

/-- One message or event. -/
def step : PincushionOp → Option (Pincushion × List PincushionEffect)
  | .request h now freshness => s.handleRequest h now freshness
  | .insert h now stamp => s.handleInsert h now stamp
  | .release h now => s.handleRelease h now
  | .close h now => s.handleConnectionClosed h now
  | .flush => s.table.flush.map fun (t, q) ↦ (⟨t, s.hostData⟩, unpins q)
  | .sendUnpins => some (⟨{ s.table with pendingUnpins := [] }, s.hostData⟩, [])

/-! ## Spec lemmas -/

variable {s} {s' : Pincushion} {h : ℕ} {now freshness : Timeval} {es : List PincushionEffect}
  {q : List ℕ}

theorem releaseHostPin_eq_some (hs : s.releaseHostPin h now = some (s', q)) :
    (∀ hi, s.hostData h = some hi → hi.hasReferencedPin = false) ∧ s' = s ∧ q = [] ∨
      ∃ hi e t, s.hostData h = some hi ∧ hi.hasReferencedPin = true ∧
        s.table.findPin hi.referencedPin = some e ∧ s.table.removeRef now e = some (t, q) ∧
        s' = ⟨t, update s.hostData h (some { hi with hasReferencedPin := false })⟩ := by
  unfold releaseHostPin at hs
  split at hs
  next hi hhi =>
    split at hs
    next href =>
      obtain ⟨e, he, hs⟩ := Option.bind_eq_some_iff.mp hs
      obtain ⟨⟨t, q'⟩, hrm, heq⟩ := Option.map_eq_some_iff.mp hs
      simp only [Prod.mk.injEq] at heq
      obtain ⟨rfl, rfl⟩ := heq
      exact Or.inr ⟨hi, e, t, hhi, href, he, hrm, rfl⟩
    next href =>
      simp only [Option.some.injEq, Prod.mk.injEq] at hs
      obtain ⟨rfl, rfl⟩ := hs
      refine Or.inl ⟨fun hi' hhi' ↦ ?_, rfl, rfl⟩
      rw [hhi, Option.some.injEq] at hhi'
      subst hhi'
      simpa using href
  next hhi =>
    simp only [Option.some.injEq, Prod.mk.injEq] at hs
    obtain ⟨rfl, rfl⟩ := hs
    exact Or.inl ⟨fun hi' hhi' ↦ by simp [hhi] at hhi', rfl, rfl⟩

theorem mapM_getEntry (t : PinTable) {num : ℕ} (hnum : num ≤ t.entries.length) :
    ((List.range num).mapM fun i ↦ t.getEntry (num - i - 1)) = some (t.entries.take num).reverse := by
  apply List.mapM_eq_some_of_forall₂
  rw [List.forall₂_iff_get]
  refine ⟨by simp; omega, fun i h₁ h₂ ↦ ?_⟩
  simp only [List.length_range] at h₁
  have hidx : num - i - 1 = num - 1 - i := by omega
  simp only [List.get_eq_getElem, List.getElem_range, PinTable.getEntry, List.getElem_reverse,
    List.getElem_take, List.length_take, min_eq_left hnum, hidx]
  exact List.getElem?_eq_getElem _

theorem reply_addRef (t : PinTable) (n k : ℕ) :
    ((t.addRef n).entries.take k).reverse.map (fun p ↦ (⟨p.pin, p.timestamp⟩ : PinStamp)) =
      (t.entries.take k).reverse.map fun p ↦ ⟨p.pin, p.timestamp⟩ := by
  simp only [PinTable.addRef]
  rw [List.map_reverse, List.map_take,
    List.map_modify_of_forall (g := fun p : PTEntry ↦ (⟨p.pin, p.timestamp⟩ : PinStamp))
      (f := fun e ↦ { e with ref := e.ref + 1 }) (fun _ ↦ rfl),
    ← List.map_take, ← List.map_reverse]

theorem handleRequest_eq_some (hs : s.handleRequest h now freshness = some (s', es)) :
    (s.hostData h).any (·.hasReferencedPin) = false ∧
      (s.table.find now freshness = 0 ∧ s' = s ∧ es = [.empty h] ∨
        ∃ n e, s.table.find now freshness = n + 1 ∧ s.table.entries[n]? = some e ∧
          s' = ⟨s.table.addRef n, update s.hostData h (some ⟨true, e.pin⟩)⟩ ∧
          es = [.found h ((s.table.entries.take (n + 1)).reverse.map fun p ↦ ⟨p.pin, p.timestamp⟩)]) := by
  unfold handleRequest at hs
  split at hs
  · cases hs
  next hfree =>
    refine ⟨by simpa using hfree, ?_⟩
    dsimp only at hs
    split at hs
    next hnum =>
      simp only [Option.some.injEq, Prod.mk.injEq] at hs
      exact Or.inl ⟨hnum, hs.1.symm, hs.2.symm⟩
    next hnum =>
      obtain ⟨n, hn⟩ : ∃ n, s.table.find now freshness = n + 1 :=
        ⟨s.table.find now freshness - 1, by omega⟩
      obtain ⟨e, he, hs⟩ := Option.bind_eq_some_iff.mp hs
      rw [hn, Nat.add_sub_cancel] at he hs
      have hlen : n + 1 ≤ s.table.entries.length := by
        rw [← hn]
        exact List.length_takeWhile_le _ _
      rw [mapM_getEntry _ (by simpa [PinTable.addRef] using hlen)] at hs
      simp only [Option.map_some, Option.some.injEq, Prod.mk.injEq] at hs
      obtain ⟨rfl, rfl⟩ := hs
      exact Or.inr ⟨n, e, hn, he, rfl, by rw [reply_addRef]⟩

theorem handleInsert_eq_some {stamp : PinStamp} (hs : s.handleInsert h now stamp = some (s', es)) :
    ∃ t q e, s.table.insert now stamp.tv stamp.pin = some (t, q, e) ∧
      es = unpins q ++ [.inserted h stamp.pin] ∧
      (((s.hostData h).getD ⟨false, pinInvalid⟩).hasReferencedPin = true ∧ s' = ⟨t, s.hostData⟩ ∨
        ∃ entry, ((s.hostData h).getD ⟨false, pinInvalid⟩).hasReferencedPin = false ∧
          t.entries[e]? = some entry ∧
          s' = ⟨t.addRef e, update s.hostData h (some ⟨true, entry.pin⟩)⟩) := by
  obtain ⟨⟨t, q, e⟩, hins, hs⟩ := Option.bind_eq_some_iff.mp hs
  refine ⟨t, q, e, hins, ?_⟩
  dsimp only at hs
  split at hs
  next href =>
    simp only [Option.some.injEq, Prod.mk.injEq] at hs
    obtain ⟨rfl, rfl⟩ := hs
    exact ⟨rfl, Or.inl ⟨href, rfl⟩⟩
  next href =>
    obtain ⟨entry, hentry, heq⟩ := Option.map_eq_some_iff.mp hs
    simp only [Prod.mk.injEq] at heq
    obtain ⟨rfl, rfl⟩ := heq
    exact ⟨rfl, Or.inr ⟨entry, by simpa using href, hentry, rfl⟩⟩

theorem handleRelease_eq_some (hs : s.handleRelease h now = some (s', es)) :
    ∃ q, s.releaseHostPin h now = some (s', q) ∧ es = .released h :: unpins q := by
  obtain ⟨⟨s₁, q⟩, hrel, heq⟩ := Option.map_eq_some_iff.mp hs
  simp only [Prod.mk.injEq] at heq
  obtain ⟨rfl, rfl⟩ := heq
  exact ⟨q, hrel, rfl⟩

theorem handleConnectionClosed_eq_some (hs : s.handleConnectionClosed h now = some (s', es)) :
    ∃ s₁ q, s.releaseHostPin h now = some (s₁, q) ∧ s' = ⟨s₁.table, update s₁.hostData h none⟩ ∧
      es = .released h :: unpins q := by
  obtain ⟨⟨s₁, q⟩, hrel, heq⟩ := Option.map_eq_some_iff.mp hs
  simp only [Prod.mk.injEq] at heq
  obtain ⟨rfl, rfl⟩ := heq
  exact ⟨s₁, q, hrel, rfl, rfl⟩

theorem step_flush_eq_some (hs : s.step .flush = some (s', es)) :
    ∃ t q, s.table.flush = some (t, q) ∧ s' = ⟨t, s.hostData⟩ ∧ es = unpins q := by
  obtain ⟨⟨t, q⟩, hfl, heq⟩ := Option.map_eq_some_iff.mp hs
  simp only [Prod.mk.injEq] at heq
  obtain ⟨rfl, rfl⟩ := heq
  exact ⟨t, q, hfl, rfl, rfl⟩

/-! ## Replies -/

/-- An entry is fresh enough for a request at `now` with `freshness`. -/
def fresh (now freshness : Timeval) (e : PTEntry) : Bool :=
  !e.timestamp.lessThan (timersub now freshness)

theorem find_eq_length_filter {t : PinTable} (now freshness : Timeval)
    (ho : PinTable.Ordered t.entries) :
    t.find now freshness = (t.entries.filter (fresh now freshness)).length ∧
      t.entries.take (t.entries.filter (fresh now freshness)).length =
        t.entries.filter (fresh now freshness) := by
  have hpre : t.entries.Pairwise fun a b ↦ fresh now freshness b → fresh now freshness a := by
    refine (List.pairwise_map.mp ho).imp fun {a b} hab hb ↦ ?_
    simp only [fresh, Bool.not_eq_eq_eq_not, Bool.not_true] at hb ⊢
    exact Timeval.lessThan_eq_false_trans hab hb
  have hfilter := List.takeWhile_eq_filter_of_pairwise hpre
  refine ⟨by rw [PinTable.find, ← hfilter]; rfl, ?_⟩
  rw [← hfilter]
  exact (List.prefix_iff_eq_take.mp (List.takeWhile_prefix _)).symm

/-- **`HandleRequest` answers with every fresh pin.** On a valid table, a connection that holds no
reference is answered `EMPTY` when no entry is fresh enough, and otherwise `FOUND` with exactly the
fresh entries, oldest first. -/
theorem handleRequest_reply (hv : s.table.Valid)
    (hfree : (s.hostData h).any (·.hasReferencedPin) = false) :
    (s.handleRequest h now freshness).map Prod.snd =
      some (if s.table.entries.filter (fresh now freshness) = [] then [.empty h]
        else [.found h ((s.table.entries.filter (fresh now freshness)).reverse.map
          fun p ↦ ⟨p.pin, p.timestamp⟩)]) := by
  obtain ⟨hfind, htake⟩ := find_eq_length_filter now freshness hv.ordered
  unfold handleRequest
  rw [if_neg (by simp [hfree]), hfind]
  dsimp only
  by_cases hnil : s.table.entries.filter (fresh now freshness) = []
  · rw [if_pos (by rw [hnil]; rfl), if_pos hnil]
    rfl
  · rw [if_neg (by simpa using hnil), if_neg hnil]
    obtain ⟨n, hn⟩ : ∃ n, (s.table.entries.filter (fresh now freshness)).length = n + 1 :=
      ⟨_, (Nat.succ_pred_eq_of_pos (List.length_pos_iff.mpr hnil)).symm⟩
    have hlen : n + 1 ≤ s.table.entries.length := by
      rw [← hn]
      exact List.length_filter_le _ _
    rw [hn, Nat.add_sub_cancel, PinTable.getEntry, List.getElem?_eq_getElem (by omega),
      Option.bind_some, mapM_getEntry _ (by simpa [PinTable.addRef] using hlen)]
    simp only [Option.map_some]
    rw [reply_addRef, ← hn, htake]

/-- A table of two pins, in timestamp order. -/
def twoPins : Pincushion := ⟨⟨[⟨5, ⟨100, 0⟩, 0⟩, ⟨3, ⟨50, 0⟩, 0⟩], [], ⟨60, 0⟩⟩, fun _ ↦ none⟩

/-- At `120` with freshness `30`, only the newer pin is fresh enough. -/
theorem twoPins_reply :
    (twoPins.handleRequest 0 ⟨120, 0⟩ ⟨30, 0⟩).map Prod.snd = some [.found 0 [⟨5, ⟨100, 0⟩⟩]] := by
  rw [handleRequest_reply (s := twoPins) (by decide) rfl]
  decide

end Pincushion

end TxCache
