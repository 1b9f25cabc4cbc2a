import TxCache.Pincushion.Pincushion
import TxCache.Lib.Fold

/-!
# Runs of calls into the pin table

`pintable.c` is called through `PT_Insert`, `PT_AddRef`, `PT_RemoveRef`, `PT_Clean`, `PT_Find` and
`PT_Flush`, from `PT_Init`. A call whose `Assert` fails, or that panics, ends the run (`none`).

Over every run, the table keeps `Valid`: it fits the circular buffer, holds each pin once, and is
in timestamp order. Every removal is a chain of `PT_RemoveTail`s, each of which asserts that no
connection references the entry it drops, so neither `PT_Clean` nor `PT_Insert` removes a
referenced entry (`Evicts.mem_of_ref_pos`); and in a table in timestamp order `PT_Find` counts
exactly the contiguous block of entries, from `head`, that are fresh enough.
-/

namespace TxCache

/-- A call into the pin table; an entry pointer is its position from `head`. -/
inductive PTCall
  | insert (now timestamp : Timeval) (pin : ℕ)
  | addRef (i : ℕ)
  | removeRef (now : Timeval) (i : ℕ)
  | clean (now : Timeval)
  | find (now lowerBound : Timeval)
  | flush
deriving DecidableEq, Repr

namespace PinTable

/-- `PT_Init`: `head` and `tail` at the start of `table`, nothing queued for `UNPIN`. -/
def init (maxStaleness : Timeval) : PinTable := ⟨[], [], maxStaleness⟩

/-- One call; `PT_Find` leaves the table as it is. -/
def call (t : PinTable) : PTCall → Option PinTable
  | .insert now timestamp pin => (t.insert now timestamp pin).map (·.1)
  | .addRef i => some (t.addRef i)
  | .removeRef now i => (t.removeRef now i).map (·.1)
  | .clean now => (t.clean now).map (·.1)
  | .find _ _ => some t
  | .flush => t.flush.map (·.1)

/-- A run of calls. -/
def runCalls (t : PinTable) (calls : List PTCall) : Option PinTable := calls.foldlM call t

variable {t t' t₁ : PinTable} {q : List ℕ}

theorem valid_init (maxStaleness : Timeval) : (init maxStaleness).Valid where
  length_lt := by simp [init, maxPins]
  nodup := List.nodup_nil
  ordered := List.Pairwise.nil

/-! ## Referenced entries stay -/

/-- **Eviction keeps every referenced entry**: each `PT_RemoveTail` asserts that the entry it
drops is referenced by no connection. -/
theorem Evicts.mem_of_ref_pos (h : Evicts t t' q) : ∀ e ∈ t.entries, 0 < e.ref → e ∈ t'.entries := by
  induction h with
  | refl => exact fun _ he _ ↦ he
  | removeTail hrm _ ih =>
    rename_i t₀ _ _ _ _
    intro e he hpos
    obtain ⟨last, hlast, hzero, -, rfl, -⟩ := removeTail_eq_some.mp hrm
    refine ih e ?_ hpos
    obtain ⟨ys, hys⟩ := List.getLast?_eq_some_iff.mp hlast
    rw [hys] at he
    dsimp only
    rw [hys, List.dropLast_concat]
    rcases List.mem_append.mp he with he | he
    · exact he
    · obtain rfl := List.mem_singleton.mp he
      omega

theorem place_keeps {ts : Timeval} {pin r : ℕ} (h : t.place ts pin = some (t', r)) :
    ∀ e ∈ t.entries, ∃ e' ∈ t'.entries, e'.pin = e.pin ∧ e'.ref = e.ref := by
  intro e he
  unfold place at h
  split at h
  next r' _ =>
    split at h
    · simp only [Option.some.injEq, Prod.mk.injEq] at h
      obtain ⟨rfl, rfl⟩ := h
      obtain ⟨j, hj, rfl⟩ := List.getElem_of_mem he
      refine ⟨_, List.getElem_mem (l := t.entries.modify r' _) (by simpa using hj), ?_⟩
      rw [List.getElem_modify]
      split_ifs <;> exact ⟨rfl, rfl⟩
    · cases h
  next =>
    simp only [Option.some.injEq, Prod.mk.injEq] at h
    obtain ⟨rfl, rfl⟩ := h
    exact ⟨e, (sublist_bubble _ _).subset he, rfl, rfl⟩

theorem insert_keeps_referenced {now ts : Timeval} {pin r : ℕ}
    (h : t.insert now ts pin = some (t', q, r)) :
    ∀ e ∈ t.entries, 0 < e.ref → ∃ e' ∈ t'.entries, e'.pin = e.pin ∧ e'.ref = e.ref := by
  obtain ⟨t₁, hroom, hplace⟩ := insert_eq_some h
  intro e he hpos
  exact place_keeps hplace e ((makeRoom_evicts hroom).1.mem_of_ref_pos e he hpos)

/-! ## Runs -/

variable {c : PTCall} {calls : List PTCall}

theorem Valid.call (hv : t.Valid) (h : t.call c = some t') : t'.Valid := by
  cases c with
  | insert now ts pin =>
    obtain ⟨⟨t₂, q, r⟩, hins, rfl⟩ := Option.map_eq_some_iff.mp h
    exact hv.insert hins
  | addRef i =>
    cases h
    exact hv.addRef i
  | removeRef now i =>
    obtain ⟨⟨t₂, q⟩, hrm, rfl⟩ := Option.map_eq_some_iff.mp h
    exact hv.removeRef hrm
  | clean now =>
    obtain ⟨⟨t₂, q⟩, hcl, rfl⟩ := Option.map_eq_some_iff.mp h
    exact hv.evicts (clean_evicts hcl)
  | find now lowerBound =>
    cases h
    exact hv
  | flush =>
    obtain ⟨⟨t₂, q⟩, hfl, rfl⟩ := Option.map_eq_some_iff.mp h
    exact hv.evicts (flush_evicts hfl)

theorem Valid.runCalls (hv : t.Valid) (h : t.runCalls calls = some t') : t'.Valid :=
  Fold.foldlM_induction (fun _ _ _ hs hv ↦ hv.call hs) calls t t' h hv

/-- **The pin table over every run from `PT_Init`.** The live entries number at most
`MAX_PINS - 1`, carry distinct pins and are in timestamp order (newest first, so from `tail` to
`head` the timestamps never decrease); neither `PT_Clean` nor `PT_Insert` removes an entry that a
connection references; and `PT_Find` counts the contiguous block of entries from `head` that are
no older than `now - lowerBound`, which are exactly the entries that fresh. -/
theorem table_invariants_of_runCalls {maxStaleness : Timeval} {calls : List PTCall}
    (hrun : (init maxStaleness).runCalls calls = some t) :
    t.entries.length ≤ maxPins - 1 ∧ t.pins.Nodup ∧
    (t.entries.map (·.timestamp)).Pairwise (fun a b ↦ a.lessThan b = false) ∧
    (∀ now t' q, t.clean now = some (t', q) → ∀ e ∈ t.entries, 0 < e.ref → e ∈ t'.entries) ∧
    (∀ now ts pin t' q r, t.insert now ts pin = some (t', q, r) →
      ∀ e ∈ t.entries, 0 < e.ref → ∃ e' ∈ t'.entries, e'.pin = e.pin ∧ e'.ref = e.ref) ∧
    (∀ now lowerBound, t.find now lowerBound =
        (t.entries.filter fun e ↦ !e.timestamp.lessThan (timersub now lowerBound)).length ∧
      t.entries.take (t.find now lowerBound) =
        t.entries.filter fun e ↦ !e.timestamp.lessThan (timersub now lowerBound)) := by
  have hv := (valid_init maxStaleness).runCalls hrun
  refine ⟨Nat.le_sub_one_of_lt hv.length_lt, hv.nodup, hv.ordered,
    fun _ _ _ h ↦ (clean_evicts h).mem_of_ref_pos, fun _ _ _ _ _ _ h ↦ insert_keeps_referenced h,
    fun now lowerBound ↦ ?_⟩
  obtain ⟨hfind, htake⟩ := Pincushion.find_eq_length_filter now lowerBound hv.ordered
  exact ⟨hfind, hfind ▸ htake⟩

/-- The table after the pin 5 is inserted at `100` and referenced once. -/
def referencedPinTable : PinTable := ⟨[⟨5, ⟨100, 0⟩, 1⟩], [], ⟨60, 0⟩⟩

theorem referencedPinTable_invariants :
    referencedPinTable.entries.length ≤ maxPins - 1 ∧ referencedPinTable.pins.Nodup ∧
    (referencedPinTable.entries.map (·.timestamp)).Pairwise (fun a b ↦ a.lessThan b = false) ∧
    (∀ now t' q, referencedPinTable.clean now = some (t', q) →
      ∀ e ∈ referencedPinTable.entries, 0 < e.ref → e ∈ t'.entries) ∧
    (∀ now ts pin t' q r, referencedPinTable.insert now ts pin = some (t', q, r) →
      ∀ e ∈ referencedPinTable.entries, 0 < e.ref →
        ∃ e' ∈ t'.entries, e'.pin = e.pin ∧ e'.ref = e.ref) ∧
    (∀ now lowerBound, referencedPinTable.find now lowerBound =
        (referencedPinTable.entries.filter fun e ↦
          !e.timestamp.lessThan (timersub now lowerBound)).length ∧
      referencedPinTable.entries.take (referencedPinTable.find now lowerBound) =
        referencedPinTable.entries.filter fun e ↦
          !e.timestamp.lessThan (timersub now lowerBound)) :=
  @table_invariants_of_runCalls _ ⟨60, 0⟩ [.insert ⟨100, 0⟩ ⟨100, 0⟩ 5, .addRef 0] rfl

end PinTable

end TxCache
