import TxCache.Client.PinSet
import TxCache.Lib.RefCount
import TxCache.Lib.SortedTrim
import TxCache.Lib.Modify

/-!
# The pin cushion's table

The pin cushion keeps the pinned snapshots the clients have told it about, each with the time it
was taken and a count of the connections that reference it. `table` is a circular buffer of
`MAX_PINS` entries: `head` points at the newest entry and `tail` just before the oldest, so at most
`MAX_PINS - 1` entries are live. The model keeps the live entries as a list read from `head` back
to the entry after `tail`, newest first: the pointer arithmetic `add`, `sub` and `ptr_sub` becomes
positions in that list, and a pointer into the table (what `PT_Find`, `PT_Insert` and `PT_FindPin`
return) becomes a position. The model is faithful while the list stays within `MAX_PINS - 1`
entries, which `Valid` records and every operation keeps.

Entries leave only from the old end: `PT_RemoveTail` drops the oldest entry, asserting that no
connection references it, and queues its pin for `UNPIN`. `PT_Clean` removes old entries that are
stale, stopping at the first referenced one; `PT_Insert` cleans when the table is full, then forces
out the oldest entry, then either moves an existing entry's timestamp or bubbles a new entry from
`head` back to its place by timestamp.

## What the table keeps

`Valid` says that the table fits the buffer, holds each pin once, and is ordered by timestamp,
newest first. Every removal path is a chain of `PT_RemoveTail`s (`Evicts`), which keeps all three;
the bubble of `PT_Insert` puts the new entry between an older and a newer one, and the asserts of
the timestamp update keep an existing entry between its neighbours.
-/

namespace TxCache

/-! ## Time -/

/-- `timersub`: the difference of two times, with the microseconds brought back into range. -/
def timersub (a b : Timeval) : Timeval :=
  if a.usec - b.usec < 0 then ⟨a.sec - b.sec - 1, a.usec - b.usec + 1000000⟩
  else ⟨a.sec - b.sec, a.usec - b.usec⟩

namespace Timeval

variable {a b c : Timeval}

theorem lessThan_iff : a.lessThan b = true ↔ a.sec < b.sec ∨ a.sec = b.sec ∧ a.usec < b.usec := by
  simp [lessThan]

theorem lessThan_eq_false_iff :
    a.lessThan b = false ↔ b.sec < a.sec ∨ a.sec = b.sec ∧ b.usec ≤ a.usec := by
  rw [← Bool.not_eq_true, lessThan_iff]
  omega

@[simp] theorem lessThan_irrefl (a : Timeval) : a.lessThan a = false := by
  rw [lessThan_eq_false_iff]
  omega

theorem lessThan_eq_false_trans (hab : a.lessThan b = false) (hbc : b.lessThan c = false) :
    a.lessThan c = false := by
  rw [lessThan_eq_false_iff] at *
  omega

theorem lessThan_eq_false_of_lessThan (hab : a.lessThan b = true) : b.lessThan a = false := by
  rw [lessThan_iff] at hab
  rw [lessThan_eq_false_iff]
  omega

theorem lessThan_or_eq_iff : (a.lessThan b || a == b) = true ↔ b.lessThan a = false := by
  cases a
  cases b
  simp only [Bool.or_eq_true, lessThan_iff, beq_iff_eq, mk.injEq, lessThan_eq_false_iff]
  omega

end Timeval

/-! ## The table -/

/-- `MAX_PINS`. -/
def maxPins : ℕ := 1024

/-- `PT_Entry_t`. A count of references never drops below zero (`PT_RemoveRef` refuses to), so
it is a natural number. -/
structure PTEntry where
  pin : ℕ
  timestamp : Timeval
  ref : ℕ
deriving DecidableEq, Repr

/-- The pin table and what `pintable.c` keeps beside it. -/
structure PinTable where
  /-- `table` from `head` back to the entry after `tail`: newest first. -/
  entries : List PTEntry
  /-- `pendingUnpins[0 .. nPendingUnpins)`. -/
  pendingUnpins : List ℕ
  maxStaleness : Timeval
deriving DecidableEq, Repr

namespace PinTable

variable (t : PinTable)

/-- The pins of the table, newest first. -/
def pins : List ℕ := t.entries.map (·.pin)

/-- `PT_RemoveTail`: the oldest entry leaves and its pin is queued for `UNPIN`. The asserts: the
table is not empty, no connection references the entry, and the queue has room. -/
def removeTail : Option (PinTable × List ℕ) :=
  match t.entries.getLast? with
  | none => none
  | some e =>
    if e.ref = 0 ∧ t.pendingUnpins.length < maxPins then
      some ({ t with entries := t.entries.dropLast, pendingUnpins := t.pendingUnpins ++ [e.pin] },
        [e.pin])
    else none

/-- The loop of `PT_Clean`, which walks `next` from `tail` towards `head`. `rest` lists the
entries after `next`, oldest first, and `passed` counts the entries `next` stepped over without
removing them. A stale entry is removed by `PT_RemoveTail`, which takes the entry after `tail`:
that is the one at `next` only if nothing was stepped over, as the assert `tail == next` demands. -/
def cleanLoop (bound : Timeval) : PinTable → ℕ → List PTEntry → Option (PinTable × List ℕ)
  | t, _, [] => some (t, [])
  | t, passed, e :: rest =>
    -- a referenced entry is kept, and everything newer with it (`last_ref` is not modelled)
    if 0 < e.ref then some (t, [])
    else if e.timestamp.lessThan bound then
      match t.removeTail with
      | none => none
      | some (t', q) =>
        if passed = 0 then (cleanLoop bound t' 0 rest).map fun (t'', q') ↦ (t'', q ++ q')
        else none
    else cleanLoop bound t (passed + 1) rest

/-- `PT_Clean`: removes the unreferenced entries older than `now - maxStaleness`. -/
def clean (now : Timeval) : Option (PinTable × List ℕ) :=
  cleanLoop (timersub now t.maxStaleness) t 0 t.entries.reverse

/-- `PT_FindPin`: the position of `pin`, searching from `head`. -/
def findPin (pin : ℕ) : Option ℕ := t.entries.findIdx? fun e ↦ e.pin == pin

/-- `PT_Find`: the number of entries, counted from `head`, no older than `now - lowerBound`.
The pointer it returns is the oldest of them, at position `num - 1`. -/
def find (now lowerBound : Timeval) : ℕ :=
  (t.entries.takeWhile fun e ↦ !e.timestamp.lessThan (timersub now lowerBound)).length

/-- `PT_GetEntry`: the entry at position `i` from `head`; `NULL` past the live entries. -/
def getEntry (i : ℕ) : Option PTEntry := t.entries[i]?

/-- `PT_AddRef`. -/
def addRef (i : ℕ) : PinTable :=
  { t with entries := t.entries.modify i fun e ↦ { e with ref := e.ref + 1 } }

/-- `PT_RemoveRef`: a count already at zero stays there (the warning); then `PT_Clean`. -/
def removeRef (now : Timeval) (i : ℕ) : Option (PinTable × List ℕ) :=
  clean { t with entries := t.entries.modify i fun e ↦ { e with ref := e.ref - 1 } } now

/-- The bubble sort of `PT_Insert`: the new entry enters at `head` and moves back past every entry
whose timestamp is not below its own. Returns the entries and the new entry's position. -/
def bubble (new : PTEntry) : List PTEntry → List PTEntry × ℕ
  | [] => ([new], 0)
  | a :: rest =>
    if a.timestamp.lessThan new.timestamp then (new :: a :: rest, 0)
    else
      let r := bubble new rest
      (a :: r.1, r.2 + 1)

/-- The asserts of `PT_Insert` for a pin already at position `r`: its older neighbour (unless it
is the oldest) is not later than the new timestamp, and the new timestamp is not later than its
newer neighbour (unless it is `head`). -/
def fitsAt (r : ℕ) (timestamp : Timeval) : Bool :=
  (match t.entries[r + 1]? with
    | some prev => prev.timestamp.lessThan timestamp || prev.timestamp == timestamp
    | none => true) &&
  (match r with
    | 0 => true
    | r' + 1 =>
      match t.entries[r']? with
      | some next => timestamp.lessThan next.timestamp || timestamp == next.timestamp
      | none => true)

/-- The first half of `PT_Insert`: when the table is full, clean it, and if it is still full,
force out the oldest entry; a referenced one is a panic. -/
def makeRoom (now : Timeval) : Option (PinTable × List ℕ) :=
  (if t.entries.length = maxPins - 1 then t.clean now else some (t, [])).bind fun (t₁, q₁) ↦
    if t₁.entries.length = maxPins - 1 then
      if t₁.entries.getLast?.any (0 < ·.ref) then none
      else (t₁.removeTail).map fun (t₂, q₂) ↦ (t₂, q₁ ++ q₂)
    else some (t₁, q₁)

/-- The second half of `PT_Insert`: an existing pin takes the new timestamp in place; a new one
is bubbled into position. Returns the position of the pin's entry. -/
def place (timestamp : Timeval) (pin : ℕ) : Option (PinTable × ℕ) :=
  match t.findPin pin with
  | some r =>
    if t.fitsAt r timestamp then
      some ({ t with entries := t.entries.modify r fun e ↦ { e with timestamp := timestamp } }, r)
    else none
  | none =>
    let r := bubble ⟨pin, timestamp, 0⟩ t.entries
    some ({ t with entries := r.1 }, r.2)

/-- `PT_Insert`: the table, the pins it queued for `UNPIN`, and the position of the pin's entry. -/
def insert (now timestamp : Timeval) (pin : ℕ) : Option (PinTable × List ℕ × ℕ) :=
  (t.makeRoom now).bind fun (t₁, q) ↦ (t₁.place timestamp pin).map fun (t₂, e) ↦ (t₂, q, e)

/-- The loop of `PT_Flush`, one `PT_RemoveTail` for each of `n` entries. -/
def flushLoop : ℕ → PinTable → Option (PinTable × List ℕ)
  | 0, t => some (t, [])
  | n + 1, t =>
    match t.removeTail with
    | none => none
    | some (t', q) => (flushLoop n t').map fun (t'', q') ↦ (t'', q ++ q')

/-- `PT_Flush`: `PT_RemoveTail` until the table is empty. -/
def flush : Option (PinTable × List ℕ) := flushLoop t.entries.length t

/-! ## Valid tables -/

/-- The entries are in timestamp order, newest first: no entry is earlier than one after it. -/
def Ordered (es : List PTEntry) : Prop :=
  (es.map (·.timestamp)).Pairwise fun a b ↦ a.lessThan b = false

/-- What the table keeps: it fits the circular buffer, holds each pin once, and is in timestamp
order. -/
structure Valid : Prop where
  length_lt : t.entries.length < maxPins
  nodup : t.pins.Nodup
  ordered : Ordered t.entries

instance (es : List PTEntry) : Decidable (Ordered es) := inferInstanceAs (Decidable (List.Pairwise _ _))

instance : Decidable t.Valid :=
  decidable_of_iff (t.entries.length < maxPins ∧ t.pins.Nodup ∧ Ordered t.entries)
    ⟨fun ⟨h₁, h₂, h₃⟩ ↦ ⟨h₁, h₂, h₃⟩, fun ⟨h₁, h₂, h₃⟩ ↦ ⟨h₁, h₂, h₃⟩⟩

variable {t}

theorem Valid.of_sublist {t' : PinTable} (hv : t.Valid) (h : t'.entries.Sublist t.entries) :
    t'.Valid where
  length_lt := lt_of_le_of_lt h.length_le hv.length_lt
  nodup := List.Nodup.sublist (h.map _) hv.nodup
  ordered := List.Pairwise.sublist (h.map _) hv.ordered

theorem pins_modify (i : ℕ) {g : PTEntry → PTEntry} (hpin : ∀ e, (g e).pin = e.pin) :
    ({ t with entries := t.entries.modify i g } : PinTable).pins = t.pins := by
  simp only [pins]
  exact List.map_modify_of_forall hpin _ _

@[simp] theorem pins_addRef (i : ℕ) : (t.addRef i).pins = t.pins :=
  t.pins_modify i fun _ ↦ rfl

theorem Valid.modify (hv : t.Valid) (i : ℕ) (g : PTEntry → PTEntry)
    (hpin : ∀ e, (g e).pin = e.pin) (hts : ∀ e, (g e).timestamp = e.timestamp) :
    ({ t with entries := t.entries.modify i g } : PinTable).Valid where
  length_lt := by simpa using hv.length_lt
  nodup := t.pins_modify i hpin ▸ hv.nodup
  ordered := by
    rw [Ordered, List.map_modify_of_forall hts]
    exact hv.ordered

theorem Valid.addRef (hv : t.Valid) (i : ℕ) : (t.addRef i).Valid :=
  hv.modify i _ (fun _ ↦ rfl) (fun _ ↦ rfl)

/-! ## Removal -/

variable {t' t₁ : PinTable} {q q₁ : List ℕ}

theorem removeTail_eq_some :
    t.removeTail = some (t', q) ↔ ∃ e, t.entries.getLast? = some e ∧ e.ref = 0 ∧
      t.pendingUnpins.length < maxPins ∧
      t' = { t with entries := t.entries.dropLast, pendingUnpins := t.pendingUnpins ++ [e.pin] } ∧
      q = [e.pin] := by
  unfold removeTail
  split
  next hlast => simp [hlast]
  next e hlast =>
    by_cases hc : e.ref = 0 ∧ t.pendingUnpins.length < maxPins
    · simp only [if_pos hc, Option.some.injEq, Prod.mk.injEq, hlast]
      constructor
      · rintro ⟨rfl, rfl⟩
        exact ⟨e, rfl, hc.1, hc.2, rfl, rfl⟩
      · rintro ⟨e', he', -, -, rfl, rfl⟩
        cases he'
        exact ⟨rfl, rfl⟩
    · simp only [if_neg hc, reduceCtorEq, false_iff, not_exists, not_and, hlast, Option.some.injEq]
      rintro e' rfl h₁ h₂
      exact absurd ⟨h₁, h₂⟩ hc

/-- `t'` is `t` after some calls of `PT_RemoveTail`, which queued the pins `q` for `UNPIN`: every
way the table loses entries is one of these. -/
inductive Evicts : PinTable → PinTable → List ℕ → Prop
  | refl (t : PinTable) : Evicts t t []
  | removeTail {t t₁ t' : PinTable} {q₁ q : List ℕ} :
      t.removeTail = some (t₁, q₁) → Evicts t₁ t' q → Evicts t t' (q₁ ++ q)

theorem Evicts.single (h : t.removeTail = some (t', q)) : Evicts t t' q := by
  simpa using Evicts.removeTail h (Evicts.refl t')

theorem Evicts.trans (h₁ : Evicts t t₁ q₁) (h₂ : Evicts t₁ t' q) : Evicts t t' (q₁ ++ q) := by
  induction h₁ with
  | refl => simpa using h₂
  | removeTail hrm _ ih => simpa [List.append_assoc] using Evicts.removeTail hrm (ih h₂)

theorem Evicts.sublist (h : Evicts t t' q) : t'.entries.Sublist t.entries := by
  induction h with
  | refl => exact List.Sublist.refl _
  | removeTail hrm _ ih =>
    obtain ⟨e, -, -, -, rfl, -⟩ := removeTail_eq_some.mp hrm
    exact ih.trans (List.dropLast_sublist _)

theorem Valid.evicts (hv : t.Valid) (h : Evicts t t' q) : t'.Valid :=
  hv.of_sublist h.sublist

theorem cleanLoop_evicts {bound : Timeval} :
    ∀ {t t' : PinTable} {passed : ℕ} {rest : List PTEntry} {q : List ℕ},
      cleanLoop bound t passed rest = some (t', q) → Evicts t t' q
  | t, t', passed, [], q, h => by
    simp only [cleanLoop, Option.some.injEq, Prod.mk.injEq] at h
    obtain ⟨rfl, rfl⟩ := h
    exact Evicts.refl t
  | t, t', passed, e :: rest, q, h => by
    unfold cleanLoop at h
    split at h
    · simp only [Option.some.injEq, Prod.mk.injEq] at h
      obtain ⟨rfl, rfl⟩ := h
      exact Evicts.refl t
    split at h
    · split at h
      · cases h
      next t₁ q₁ hrm =>
        split at h
        · obtain ⟨⟨t'', q'⟩, hloop, heq⟩ := Option.map_eq_some_iff.mp h
          simp only [Prod.mk.injEq] at heq
          obtain ⟨rfl, rfl⟩ := heq
          exact Evicts.removeTail hrm (cleanLoop_evicts hloop)
        · cases h
    · exact cleanLoop_evicts h

theorem clean_evicts {now : Timeval} (h : t.clean now = some (t', q)) : Evicts t t' q :=
  cleanLoop_evicts h

theorem flushLoop_evicts : ∀ {n : ℕ} {t t' : PinTable} {q : List ℕ},
    flushLoop n t = some (t', q) → Evicts t t' q
  | 0, t, t', q, h => by
    simp only [flushLoop, Option.some.injEq, Prod.mk.injEq] at h
    obtain ⟨rfl, rfl⟩ := h
    exact Evicts.refl t
  | n + 1, t, t', q, h => by
    unfold flushLoop at h
    split at h
    · cases h
    next t₁ q₁ hrm =>
      obtain ⟨⟨t'', q'⟩, hloop, heq⟩ := Option.map_eq_some_iff.mp h
      simp only [Prod.mk.injEq] at heq
      obtain ⟨rfl, rfl⟩ := heq
      exact Evicts.removeTail hrm (flushLoop_evicts hloop)

theorem flush_evicts (h : t.flush = some (t', q)) : Evicts t t' q :=
  flushLoop_evicts h

theorem removeRef_evicts {now : Timeval} {i : ℕ} (h : t.removeRef now i = some (t', q)) :
    Evicts { t with entries := t.entries.modify i fun e ↦ { e with ref := e.ref - 1 } } t' q :=
  clean_evicts h

theorem makeRoom_evicts {now : Timeval} (h : t.makeRoom now = some (t', q)) :
    Evicts t t' q ∧ (t.Valid → t'.entries.length < maxPins - 1) := by
  obtain ⟨⟨t₁, q₁⟩, h₁, h⟩ := Option.bind_eq_some_iff.mp h
  -- the clean, when the table is full
  have he₁ : Evicts t t₁ q₁ := by
    split at h₁
    · exact clean_evicts h₁
    · simp only [Option.some.injEq, Prod.mk.injEq] at h₁
      obtain ⟨rfl, rfl⟩ := h₁
      exact Evicts.refl t
  have hlen₁ : t.Valid → t₁.entries.length < maxPins := fun hv ↦ (hv.evicts he₁).length_lt
  dsimp only at h
  split at h
  next hfull =>
    split at h
    · cases h
    · -- the forced removal of the oldest entry
      obtain ⟨⟨t₂, q₂⟩, hrm, heq⟩ := Option.map_eq_some_iff.mp h
      simp only [Prod.mk.injEq] at heq
      obtain ⟨rfl, rfl⟩ := heq
      refine ⟨he₁.trans (Evicts.single hrm), fun _ ↦ ?_⟩
      obtain ⟨e, -, -, -, rfl, -⟩ := removeTail_eq_some.mp hrm
      simp only [List.length_dropLast, hfull]
      decide
  next hroom =>
    simp only [Option.some.injEq, Prod.mk.injEq] at h
    obtain ⟨rfl, rfl⟩ := h
    refine ⟨he₁, fun hv ↦ ?_⟩
    have := hlen₁ hv
    rw [maxPins] at *
    omega

/-! ## Placing a pin -/

theorem findPin_eq_some {pin r : ℕ} (h : t.findPin pin = some r) :
    ∃ hr : r < t.entries.length, t.entries[r].pin = pin := by
  obtain ⟨hr, hp, -⟩ := List.findIdx?_eq_some_iff_getElem.mp h
  exact ⟨hr, by simpa using hp⟩

theorem findPin_eq_none {pin : ℕ} : t.findPin pin = none ↔ pin ∉ t.pins := by
  simp [findPin, pins, List.findIdx?_eq_none_iff]

theorem bubble_perm (new : PTEntry) : ∀ es : List PTEntry, (bubble new es).1.Perm (new :: es)
  | [] => List.Perm.refl _
  | a :: rest => by
    unfold bubble
    split
    · exact List.Perm.refl _
    · exact ((bubble_perm new rest).cons a).trans (List.Perm.swap new a rest)

theorem sublist_bubble (new : PTEntry) : ∀ es : List PTEntry, es.Sublist (bubble new es).1
  | [] => List.nil_sublist _
  | a :: rest => by
    unfold bubble
    split
    · exact List.sublist_cons_self new _
    · exact (sublist_bubble new rest).cons_cons a

theorem getElem?_bubble (new : PTEntry) :
    ∀ es : List PTEntry, (bubble new es).1[(bubble new es).2]? = some new
  | [] => rfl
  | a :: rest => by
    unfold bubble
    split
    · rfl
    · exact getElem?_bubble new rest

theorem ordered_bubble (new : PTEntry) :
    ∀ {es : List PTEntry}, Ordered es → Ordered (bubble new es).1
  | [], _ => List.pairwise_singleton _ _
  | a :: rest, h => by
    rw [Ordered, List.map_cons, List.pairwise_cons] at h
    unfold bubble
    split
    next hlt =>
      have hnew : new.timestamp.lessThan a.timestamp = false :=
        Timeval.lessThan_eq_false_of_lessThan hlt
      rw [Ordered, List.map_cons, List.map_cons, List.pairwise_cons, List.pairwise_cons]
      refine ⟨?_, h⟩
      intro b hb
      rcases List.mem_cons.mp hb with rfl | hb
      · exact hnew
      · exact Timeval.lessThan_eq_false_trans hnew (h.1 b hb)
    next hlt =>
      rw [Ordered, List.map_cons, List.pairwise_cons]
      refine ⟨?_, ordered_bubble new h.2⟩
      intro b hb
      obtain ⟨e, he, rfl⟩ := List.mem_map.mp hb
      rcases List.mem_cons.mp ((bubble_perm new rest).subset he) with rfl | he
      · simpa using hlt
      · exact h.1 _ (List.mem_map_of_mem he)

theorem precedes_bubble {new : PTEntry} {p : ℕ} : ∀ {es : List PTEntry},
    (∃ e ∈ es, e.pin = p ∧ e.timestamp.lessThan new.timestamp = true) →
      RefCount.Precedes ((bubble new es).1.map (·.pin)) new.pin p
  | [], ⟨e, he, _⟩ => absurd he List.not_mem_nil
  | a :: rest, ⟨e, he, hp, hlt⟩ => by
    unfold bubble
    split
    · rw [List.map_cons]
      apply RefCount.precedes_cons_of_mem
      exact List.mem_map.mpr ⟨e, he, hp⟩
    next hge =>
      have he' : e ∈ rest := by
        rcases List.mem_cons.mp he with rfl | he'
        · simp [hlt] at hge
        · exact he'
      rw [List.map_cons]
      exact (precedes_bubble ⟨e, he', hp, hlt⟩).cons a.pin

theorem fitsAt_older {r : ℕ} {ts : Timeval} (h : t.fitsAt r ts = true)
    (hr : r + 1 < t.entries.length) : ts.lessThan t.entries[r + 1].timestamp = false := by
  simp only [fitsAt, List.getElem?_eq_getElem hr, Bool.and_eq_true] at h
  exact Timeval.lessThan_or_eq_iff.mp h.1

theorem fitsAt_newer {r : ℕ} {ts : Timeval} (h : t.fitsAt (r + 1) ts = true)
    (hr : r < t.entries.length) : t.entries[r].timestamp.lessThan ts = false := by
  simp only [fitsAt, List.getElem?_eq_getElem hr, Bool.and_eq_true] at h
  exact Timeval.lessThan_or_eq_iff.mp h.2

theorem fitsAt_newer_all (ho : Ordered t.entries) {r : ℕ} {ts : Timeval}
    (h : t.fitsAt r ts = true) (hr : r < t.entries.length) :
    ∀ j (hj : j < r), t.entries[j].timestamp.lessThan ts = false := by
  intro j hj
  obtain ⟨r, rfl⟩ : ∃ r', r = r' + 1 := ⟨r - 1, by omega⟩
  have hnext := fitsAt_newer h (by omega)
  rcases Nat.lt_or_ge j r with hjr | hjr
  · have hord := List.pairwise_iff_getElem.mp ho j r (by simp; omega) (by simp; omega) hjr
    simp only [List.getElem_map] at hord
    exact Timeval.lessThan_eq_false_trans hord hnext
  · obtain rfl : j = r := by omega
    exact hnext

theorem Ordered.setTimestamp (ho : Ordered t.entries) {r : ℕ} {ts : Timeval}
    (h : t.fitsAt r ts = true) (hr : r < t.entries.length) :
    Ordered (t.entries.modify r fun e ↦ { e with timestamp := ts }) := by
  rw [Ordered] at ho ⊢
  rw [List.map_modify_of_const (b := ts) (fun _ ↦ rfl)]
  refine List.pairwise_set (R := fun a b : Timeval ↦ a.lessThan b = false)
    (fun _ _ _ hab hbc ↦ Timeval.lessThan_eq_false_trans hab hbc) ho ?_ ?_
  · intro j hj hjr
    simp only [List.getElem_map]
    obtain rfl : r = j + 1 := hjr.symm
    exact fitsAt_newer h (by simpa using hj)
  · intro j hj hjr
    subst hjr
    simp only [List.getElem_map]
    exact fitsAt_older h (by simpa using hj)

theorem Valid.place {ts : Timeval} {pin r : ℕ} (hv : t.Valid)
    (hroom : t.entries.length < maxPins - 1) (h : t.place ts pin = some (t', r)) : t'.Valid := by
  unfold PinTable.place at h
  split at h
  next r' hfind =>
    split at h
    next hfit =>
      simp only [Option.some.injEq, Prod.mk.injEq] at h
      obtain ⟨rfl, rfl⟩ := h
      obtain ⟨hr, -⟩ := findPin_eq_some hfind
      refine ⟨by simpa using hv.length_lt, ?_, hv.ordered.setTimestamp hfit hr⟩
      simp only [pins]
      rw [List.map_modify_of_forall (g := fun e : PTEntry ↦ e.pin)
        (f := fun e ↦ { e with timestamp := ts }) (fun _ ↦ rfl)]
      exact hv.nodup
    · cases h
  next hfind =>
    simp only [Option.some.injEq, Prod.mk.injEq] at h
    obtain ⟨rfl, rfl⟩ := h
    have hperm := bubble_perm ⟨pin, ts, 0⟩ t.entries
    refine ⟨?_, ?_, ordered_bubble _ hv.ordered⟩
    · rw [hperm.length_eq, List.length_cons]
      omega
    · rw [pins, (hperm.map _).nodup_iff, List.map_cons, List.nodup_cons]
      exact ⟨findPin_eq_none.mp hfind, hv.nodup⟩

theorem insert_eq_some {now ts : Timeval} {pin r : ℕ} (h : t.insert now ts pin = some (t', q, r)) :
    ∃ t₁, t.makeRoom now = some (t₁, q) ∧ t₁.place ts pin = some (t', r) := by
  obtain ⟨⟨t₁, q₁⟩, hroom, h⟩ := Option.bind_eq_some_iff.mp h
  obtain ⟨⟨t₂, r₂⟩, hplace, heq⟩ := Option.map_eq_some_iff.mp h
  simp only [Prod.mk.injEq] at heq
  obtain ⟨rfl, rfl, rfl⟩ := heq
  exact ⟨t₁, hroom, hplace⟩

theorem Valid.insert {now ts : Timeval} {pin r : ℕ} (hv : t.Valid)
    (h : t.insert now ts pin = some (t', q, r)) : t'.Valid := by
  obtain ⟨t₁, hroom, hplace⟩ := insert_eq_some h
  obtain ⟨he, hlen⟩ := makeRoom_evicts hroom
  exact (hv.evicts he).place (hlen hv) hplace

theorem Valid.removeRef {now : Timeval} {i : ℕ} (hv : t.Valid)
    (h : t.removeRef now i = some (t', q)) : t'.Valid :=
  (hv.modify i (fun e ↦ { e with ref := e.ref - 1 }) (fun _ ↦ rfl) (fun _ ↦ rfl)).evicts
    (removeRef_evicts h)

end PinTable

end TxCache
