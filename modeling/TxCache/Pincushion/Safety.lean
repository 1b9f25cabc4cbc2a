import TxCache.Pincushion.Pincushion

/-!
# No pin a client relies on is unpinned

A client that receives a `FOUND` reply may begin a transaction at any of its pins until it
releases, and so at a pin it inserted. Only the oldest pin of a reply is referenced; the others
are kept by their place in the table. `PT_Clean` and `PT_Insert` remove only the oldest entry,
and only when nothing references it, so every entry newer than a referenced one stays while the
reference does (`RefCount.Precedes`). A pin that a connection inserts while it holds a reference
is protected the same way when the bubble puts it in front of the referenced entry, which it does
when its timestamp is later.

## The invariant

`Guards` ties a table, the connections' references and the observer's windows together: each
count is the number of connections referencing the pin, every referenced pin is in the table, and
every pin of a window is the connection's referenced pin or newer. Every removal keeps it and
takes a pin of no window (`Guards.evicts`); each handler keeps it (`Safe.step`); and the run rule
of `Trace` carries it over every run.

## The proviso on inserts

The client library inserts the pin of a `PIN` taken after its request, stamped with the
database's clock at that moment, so later than every pin it was sent (`insertsAfterReference`).
A pin inserted with a timestamp that is not later than the referenced pin's is bubbled behind it,
unreferenced, and a later clean unpins it while the client still uses it.
-/

namespace TxCache

namespace Pincushion

open Function RefCount

/-! ## What the connections rely on -/

/-- The pin a connection's `data` says it references. -/
def refOf : Option PCHostInfo → Option ℕ
  | some hi => if hi.hasReferencedPin then some hi.referencedPin else none
  | none => none

/-- The pin each connection references. -/
def owner (s : Pincushion) (h : ℕ) : Option ℕ := refOf (s.hostData h)

@[simp] theorem refOf_none : refOf none = none := rfl

@[simp] theorem refOf_some (hi : PCHostInfo) :
    refOf (some hi) = if hi.hasReferencedPin then some hi.referencedPin else none := rfl

theorem refOf_eq_none_of_any {v : Option PCHostInfo} (h : v.any (·.hasReferencedPin) = false) :
    refOf v = none := by
  cases v with
  | none => rfl
  | some hi => simpa using h

theorem refOf_eq_none_of_getD {v : Option PCHostInfo}
    (h : (v.getD ⟨false, pinInvalid⟩).hasReferencedPin = false) : refOf v = none := by
  cases v with
  | none => rfl
  | some hi => simpa using h

theorem refOf_eq_some_of_getD {v : Option PCHostInfo}
    (h : (v.getD ⟨false, pinInvalid⟩).hasReferencedPin = true) :
    ∃ hi, v = some hi ∧ refOf v = some hi.referencedPin := by
  cases v with
  | none => simp at h
  | some hi => exact ⟨hi, rfl, by simpa using h⟩

/-- The pins each connection relies on: those of its last `FOUND` reply and those it inserted
since, until it releases. -/
def windowStep (w : ℕ → List ℕ) : PincushionEffect → ℕ → List ℕ
  | .found h pins => update w h (pins.map (·.pin))
  | .inserted h pin => update w h (pin :: w h)
  | .released h => update w h []
  | _ => w

/-- A pin is queued for `UNPIN` only when no connection relies on it. -/
def Unprotected (w : ℕ → List ℕ) : PincushionEffect → Prop
  | .unpinQueued pin => ∀ h, pin ∉ w h
  | _ => True

/-- The proviso on the clients: a connection that references a pin inserts only pins stamped
later than it. -/
def insertsAfterReference (s : Pincushion) : PincushionOp → Bool
  | .insert h _ stamp =>
    match s.owner h with
    | some p => s.table.entries.all fun e ↦ e.pin != p || e.timestamp.lessThan stamp.tv
    | none => true
  | _ => true

@[simp] theorem foldl_unpins (w : ℕ → List ℕ) (q : List ℕ) : (unpins q).foldl windowStep w = w := by
  induction q with
  | nil => rfl
  | cons x q ih => exact ih

theorem always_unpins {w : ℕ → List ℕ} {q : List ℕ} (hq : ∀ x ∈ q, ∀ h, x ∉ w h) :
    Trace.Always windowStep Unprotected w (unpins q) := by
  induction q with
  | nil => exact Trace.always_nil w
  | cons x q ih =>
    rw [unpins, List.map_cons, Trace.always_cons]
    exact ⟨hq x List.mem_cons_self, ih fun y hy ↦ hq y (List.mem_cons_of_mem x hy)⟩

theorem owner_update (s : Pincushion) (t : PinTable) (h : ℕ) (v : Option PCHostInfo) :
    owner ⟨t, update s.hostData h v⟩ = update s.owner h (refOf v) := by
  funext j
  by_cases hj : j = h
  · subst hj
    simp [owner]
  · simp [owner, hj]

/-! ## Guards -/

/-- How a table guards what the connections rely on. -/
structure Guards (t : PinTable) (owner : ℕ → Option ℕ) (w : ℕ → List ℕ) : Prop where
  counted : ∀ e ∈ t.entries, CountedBy owner e.pin e.ref
  held : ∀ h p, owner h = some p → p ∈ t.pins
  covered : ∀ h q, q ∈ w h → ∃ p, owner h = some p ∧ (q = p ∨ Precedes t.pins q p)

variable {t t' : PinTable} {o : ℕ → Option ℕ} {w : ℕ → List ℕ} {q : List ℕ} {h : ℕ}

theorem Guards.mem_pins (hg : Guards t o w) {x : ℕ} (hx : x ∈ w h) : x ∈ t.pins := by
  obtain ⟨p, hp, hxp⟩ := hg.covered h x hx
  rcases hxp with rfl | hprec
  · exact hg.held h x hp
  · exact hprec.mem_left

theorem Guards.findPin_ne_none (hg : Guards t o w) {p : ℕ} (hp : o h = some p) :
    t.findPin p ≠ none :=
  fun hnone ↦ PinTable.findPin_eq_none.mp hnone (hg.held h p hp)

theorem Guards.of_entries (hg : Guards t o w) (he : t'.entries = t.entries) : Guards t' o w := by
  have hp : t'.pins = t.pins := by rw [PinTable.pins, PinTable.pins, he]
  exact ⟨he ▸ hg.counted, hp ▸ hg.held, hp ▸ hg.covered⟩

theorem Guards.window_eq_nil (hg : Guards t o w) (hfree : o h = none) : w h = [] := by
  rw [List.eq_nil_iff_forall_not_mem]
  intro x hx
  obtain ⟨p, hp, -⟩ := hg.covered h x hx
  simp [hfree] at hp

theorem Guards.clear (hg : Guards t o w) : Guards t o (update w h []) := by
  refine ⟨hg.counted, hg.held, fun j x hx ↦ ?_⟩
  by_cases hj : j = h
  · subst hj
    simp at hx
  · rw [update_of_ne hj] at hx
    exact hg.covered j x hx

theorem Guards.removeTail (hv : t.Valid) (hg : Guards t o w)
    (hrm : t.removeTail = some (t', q)) : Guards t' o w ∧ ∀ x ∈ q, ∀ h, x ∉ w h := by
  obtain ⟨e, hlast, hzero, -, ht', rfl⟩ := PinTable.removeTail_eq_some.mp hrm
  have he : e ∈ t.entries := List.mem_of_getLast? hlast
  have hentries : t'.entries = t.entries.dropLast := by rw [ht']
  have hfree : ∀ i, o i ≠ some e.pin := (hzero ▸ hg.counted e he).ne_of_zero
  have hpins_last : t.pins.getLast? = some e.pin := by
    rw [PinTable.pins, List.getLast?_map, hlast]
    rfl
  have hpins : t'.pins = t.pins.dropLast := by
    rw [PinTable.pins, PinTable.pins, hentries, List.map_dropLast]
  have hlast_ne : ∀ i p, o i = some p → t.pins.getLast? ≠ some p := by
    rintro i p hp hlp
    rw [hpins_last, Option.some.injEq] at hlp
    exact hfree i (hlp ▸ hp)
  refine ⟨⟨fun e' he' ↦ hg.counted e' (List.mem_of_mem_dropLast (hentries ▸ he')), ?_, ?_⟩, ?_⟩
  · intro i p hp
    have hsplit := List.dropLast_append_getLast? e.pin hpins_last
    have hmem := hg.held i p hp
    rw [← hsplit, List.mem_append, List.mem_singleton] at hmem
    rw [hpins]
    exact hmem.resolve_right fun hpe ↦ hfree i (hpe ▸ hp)
  · intro i x hx
    obtain ⟨p, hp, hxp⟩ := hg.covered i x hx
    refine ⟨p, hp, ?_⟩
    rw [hpins]
    exact hxp.imp_right fun hprec ↦ hprec.dropLast (hlast_ne i p hp)
  · intro x hx i hxw
    rw [List.mem_singleton] at hx
    subst hx
    obtain ⟨p, hp, hxp⟩ := hg.covered i e.pin hxw
    rcases hxp with rfl | hprec
    · exact hfree i hp
    · exact hprec.getLast?_ne hv.nodup hpins_last

/-- **Eviction is safe.** Any chain of `PT_RemoveTail`s keeps the guards and queues no pin a
connection relies on. -/
theorem Guards.evicts (hv : t.Valid) (hg : Guards t o w) (he : PinTable.Evicts t t' q) :
    Guards t' o w ∧ ∀ x ∈ q, ∀ h, x ∉ w h := by
  induction he with
  | refl => exact ⟨hg, by simp⟩
  | removeTail hrm _ ih =>
    obtain ⟨hg₁, hq₁⟩ := hg.removeTail hv hrm
    obtain ⟨hg', hq⟩ := ih (hv.evicts (PinTable.Evicts.single hrm)) hg₁
    exact ⟨hg', fun x hx ↦ (List.mem_append.mp hx).elim (hq₁ x) (hq x)⟩

theorem Guards.acquire (hv : t.Valid) (hg : Guards t o w) {i : ℕ} (hi : i < t.entries.length)
    (hfree : o h = none) {W : List ℕ}
    (hW : ∀ x ∈ W, x = t.entries[i].pin ∨ Precedes t.pins x t.entries[i].pin) :
    Guards (t.addRef i) (update o h (some t.entries[i].pin)) (update w h W) := by
  refine ⟨fun e he ↦ ?_, fun j p hp ↦ ?_, fun j x hx ↦ ?_⟩
  · rcases List.mem_modify_of_nodup (g := fun e : PTEntry ↦ e.pin) hv.nodup hi he with rfl | ⟨he, hne⟩
    · exact (hg.counted _ (List.getElem_mem hi)).acquire hfree
    · exact (hg.counted e he).update_of_ne (by simpa using hne.symm) (by simp [hfree])
  · rw [PinTable.pins_addRef]
    by_cases hj : j = h
    · subst hj
      rw [update_self, Option.some.injEq] at hp
      subst hp
      exact List.mem_map_of_mem (List.getElem_mem hi)
    · rw [update_of_ne hj] at hp
      exact hg.held j p hp
  · rw [PinTable.pins_addRef]
    by_cases hj : j = h
    · subst hj
      rw [update_self] at hx
      exact ⟨_, update_self _ _ _, hW x hx⟩
    · rw [update_of_ne hj] at hx
      obtain ⟨p, hp, hxp⟩ := hg.covered j x hx
      exact ⟨p, by rwa [update_of_ne hj], hxp⟩

theorem Guards.release (hv : t.Valid) (hg : Guards t o w) {i : ℕ} (hi : i < t.entries.length)
    (hown : o h = some t.entries[i].pin) :
    Guards { t with entries := t.entries.modify i fun e ↦ { e with ref := e.ref - 1 } }
      (update o h none) (update w h []) := by
  have hpins := t.pins_modify i (g := fun e ↦ { e with ref := e.ref - 1 }) fun _ ↦ rfl
  refine ⟨fun e he ↦ ?_, fun j p hp ↦ ?_, fun j x hx ↦ ?_⟩
  · rcases List.mem_modify_of_nodup (g := fun e : PTEntry ↦ e.pin) hv.nodup hi he with rfl | ⟨he, hne⟩
    · exact (hg.counted _ (List.getElem_mem hi)).release hown
    · exact (hg.counted e he).update_of_ne (by simp) (by simpa [hown] using hne.symm)
  · by_cases hj : j = h
    · subst hj
      simp at hp
    · rw [update_of_ne hj] at hp
      rw [hpins]
      exact hg.held j p hp
  · by_cases hj : j = h
    · subst hj
      simp at hx
    · rw [update_of_ne hj] at hx
      obtain ⟨p, hp, hxp⟩ := hg.covered j x hx
      exact ⟨p, by rwa [update_of_ne hj], hpins ▸ hxp⟩

theorem Guards.extend (hg : Guards t o w) {p x : ℕ} (hown : o h = some p)
    (hx : x = p ∨ Precedes t.pins x p) : Guards t o (update w h (x :: w h)) := by
  refine ⟨hg.counted, hg.held, fun j y hy ↦ ?_⟩
  by_cases hj : j = h
  · subst hj
    rw [update_self, List.mem_cons] at hy
    rcases hy with rfl | hy
    · exact ⟨p, hown, hx⟩
    · exact hg.covered j y hy
  · rw [update_of_ne hj] at hy
    exact hg.covered j y hy

/-! ## Placing a pin -/

theorem Guards.place (hv : t.Valid) (hg : Guards t o w) {ts : Timeval} {pin r : ℕ}
    (hpl : t.place ts pin = some (t', r)) :
    Guards t' o w ∧ ∃ hr : r < t'.entries.length, t'.entries[r].pin = pin := by
  unfold PinTable.place at hpl
  split at hpl
  next r' hfind =>
    split at hpl
    · simp only [Option.some.injEq, Prod.mk.injEq] at hpl
      obtain ⟨rfl, rfl⟩ := hpl
      obtain ⟨hr, hpin⟩ := PinTable.findPin_eq_some hfind
      have hpins := t.pins_modify r' (g := fun e ↦ { e with timestamp := ts }) fun _ ↦ rfl
      refine ⟨⟨fun e he ↦ ?_, hpins ▸ hg.held, hpins ▸ hg.covered⟩, by simpa using hr, ?_⟩
      · rcases List.mem_modify_of_nodup (g := fun e : PTEntry ↦ e.pin) hv.nodup hr he with
          rfl | ⟨he, -⟩
        · exact hg.counted t.entries[r'] (List.getElem_mem hr)
        · exact hg.counted e he
      · simpa [List.getElem_modify] using hpin
    · cases hpl
  next hfind =>
    simp only [Option.some.injEq, Prod.mk.injEq] at hpl
    obtain ⟨rfl, rfl⟩ := hpl
    have hnew := PinTable.findPin_eq_none.mp hfind
    have hperm := PinTable.bubble_perm ⟨pin, ts, 0⟩ t.entries
    have hsub : t.pins.Sublist ((PinTable.bubble ⟨pin, ts, 0⟩ t.entries).1.map (·.pin)) :=
      (PinTable.sublist_bubble _ _).map _
    obtain ⟨hr, hget⟩ := List.getElem?_eq_some_iff.mp (PinTable.getElem?_bubble ⟨pin, ts, 0⟩ t.entries)
    refine ⟨⟨fun e he ↦ ?_, fun j p hp ↦ hsub.subset (hg.held j p hp), fun j x hx ↦ ?_⟩,
      hr, by simp [hget]⟩
    · rcases List.mem_cons.mp (hperm.subset he) with rfl | he
      · exact countedBy_zero fun j hj ↦ hnew (hg.held j _ hj)
      · exact hg.counted e he
    · obtain ⟨p, hp, hxp⟩ := hg.covered j x hx
      exact ⟨p, hp, hxp.imp_right fun hprec ↦ hprec.sublist hsub⟩

theorem place_precedes (hv : t.Valid) {ts : Timeval} {pin r p : ℕ} (hp : p ∈ t.pins)
    (hlater : ∀ e ∈ t.entries, e.pin = p → e.timestamp.lessThan ts = true)
    (hpl : t.place ts pin = some (t', r)) : pin = p ∨ Precedes t'.pins pin p := by
  obtain ⟨j, hj, hjp⟩ := List.mem_iff_getElem.mp hp
  simp only [PinTable.pins, List.length_map, List.getElem_map] at hj hjp
  unfold PinTable.place at hpl
  split at hpl
  next r' hfind =>
    split at hpl
    next hfit =>
      simp only [Option.some.injEq, Prod.mk.injEq] at hpl
      obtain ⟨rfl, rfl⟩ := hpl
      obtain ⟨hr, hpin⟩ := PinTable.findPin_eq_some hfind
      rw [t.pins_modify r' (g := fun e ↦ { e with timestamp := ts }) fun _ ↦ rfl]
      -- the entry of `p` cannot be newer than the one updated: the asserts would have failed
      rcases lt_trichotomy j r' with hjr | rfl | hrj
      · have hnot := PinTable.fitsAt_newer_all hv.ordered hfit hr j hjr
        rw [hlater _ (List.getElem_mem hj) hjp] at hnot
        cases hnot
      · exact Or.inl (hpin.symm.trans hjp)
      · have hprec := precedes_getElem (l := t.pins) hrj (by simpa [PinTable.pins] using hj)
        simp only [PinTable.pins, List.getElem_map, hpin, hjp] at hprec
        exact Or.inr hprec
    · cases hpl
  next hfind =>
    simp only [Option.some.injEq, Prod.mk.injEq] at hpl
    obtain ⟨rfl, rfl⟩ := hpl
    exact Or.inr (PinTable.precedes_bubble
      ⟨t.entries[j], List.getElem_mem hj, hjp, hlater _ (List.getElem_mem hj) hjp⟩)

/-! ## Every handler keeps the table valid -/

section Valid

variable {s s' : Pincushion} {now : Timeval} {es : List PincushionEffect}

theorem valid_releaseHostPin (hv : s.table.Valid) (hrel : s.releaseHostPin h now = some (s', q)) :
    s'.table.Valid := by
  rcases releaseHostPin_eq_some hrel with ⟨-, rfl, -⟩ | ⟨hi, e, t, -, -, -, hrm, rfl⟩
  · exact hv
  · exact hv.removeRef hrm

theorem valid_step {op : PincushionOp} (hv : s.table.Valid) (hs : s.step op = some (s', es)) :
    s'.table.Valid := by
  cases op with
  | request h now freshness =>
    obtain ⟨-, ⟨-, rfl, -⟩ | ⟨n, e, -, -, rfl, -⟩⟩ := handleRequest_eq_some hs
    · exact hv
    · exact hv.addRef n
  | insert h now stamp =>
    obtain ⟨t, q, e, hins, -, ⟨-, rfl⟩ | ⟨-, -, -, rfl⟩⟩ := handleInsert_eq_some hs
    · exact hv.insert hins
    · exact (hv.insert hins).addRef e
  | release h now =>
    obtain ⟨q, hrel, -⟩ := handleRelease_eq_some hs
    exact valid_releaseHostPin hv hrel
  | close h now =>
    obtain ⟨s₁, q, hrel, rfl, -⟩ := handleConnectionClosed_eq_some hs
    have hv₁ : s₁.table.Valid := valid_releaseHostPin hv hrel
    exact hv₁
  | flush =>
    obtain ⟨t, q, hfl, rfl, -⟩ := step_flush_eq_some hs
    exact hv.evicts (PinTable.flush_evicts hfl)
  | sendUnpins =>
    simp only [Pincushion.step, Option.some.injEq, Prod.mk.injEq] at hs
    obtain ⟨rfl, -⟩ := hs
    exact hv.of_sublist (List.Sublist.refl _)

end Valid

/-! ## Every handler keeps the guards -/

/-- What holds of every state the pin cushion reaches, against the windows `w` of its
connections. -/
structure Safe (s : Pincushion) (w : ℕ → List ℕ) : Prop where
  valid : s.table.Valid
  guards : Guards s.table s.owner w

theorem Safe.init (maxStaleness : Timeval) : Safe (init maxStaleness) fun _ ↦ [] where
  valid := ⟨by simp [Pincushion.init, maxPins], List.nodup_nil, List.Pairwise.nil⟩
  guards := ⟨by simp [Pincushion.init], by simp [owner, Pincushion.init], by simp⟩

variable {s s' : Pincushion} {now : Timeval} {es : List PincushionEffect}

theorem Safe.request {freshness : Timeval} (hsafe : Safe s w)
    (hs : s.handleRequest h now freshness = some (s', es)) :
    Trace.Always windowStep Unprotected w es ∧ Safe s' (es.foldl windowStep w) := by
  obtain ⟨hfree, ⟨-, rfl, rfl⟩ | ⟨n, e, -, he, rfl, rfl⟩⟩ := handleRequest_eq_some hs
  · exact ⟨Trace.always_singleton.mpr trivial, hsafe⟩
  obtain ⟨hn, rfl⟩ := List.getElem?_eq_some_iff.mp he
  refine ⟨Trace.always_singleton.mpr trivial, hsafe.valid.addRef n, ?_⟩
  have hW : ∀ x ∈ ((s.table.entries.take (n + 1)).reverse.map
      fun p ↦ (⟨p.pin, p.timestamp⟩ : PinStamp)).map (·.pin),
      x = s.table.entries[n].pin ∨ Precedes s.table.pins x s.table.entries[n].pin := by
    intro x hx
    obtain ⟨_, hst, rfl⟩ := List.mem_map.mp hx
    obtain ⟨p, hp, rfl⟩ := List.mem_map.mp hst
    have hmem : p.pin ∈ s.table.pins.take (n + 1) := by
      rw [PinTable.pins, ← List.map_take]
      exact List.mem_map_of_mem (List.mem_reverse.mp hp)
    simpa [PinTable.pins] using
      eq_or_precedes_of_mem_take hmem (by simpa [PinTable.pins] using hn)
  rw [List.foldl_cons, List.foldl_nil, windowStep, owner_update, refOf_some, if_pos rfl]
  exact hsafe.guards.acquire hsafe.valid hn (refOf_eq_none_of_any hfree) hW

theorem Safe.insert {stamp : PinStamp} (hsafe : Safe s w)
    (hA : insertsAfterReference s (.insert h now stamp) = true)
    (hs : s.handleInsert h now stamp = some (s', es)) :
    Trace.Always windowStep Unprotected w es ∧ Safe s' (es.foldl windowStep w) := by
  obtain ⟨t, q, e, hins, rfl, hcase⟩ := handleInsert_eq_some hs
  obtain ⟨t₁, hroom, hplace⟩ := PinTable.insert_eq_some hins
  obtain ⟨hev, hlen⟩ := PinTable.makeRoom_evicts hroom
  -- room is made at the old end, where no pin a connection relies on stands
  obtain ⟨hg₁, hq⟩ := hsafe.guards.evicts hsafe.valid hev
  have hv₁ := hsafe.valid.evicts hev
  obtain ⟨hg, hr, hpin⟩ := hg₁.place hv₁ hplace
  have hv := hv₁.place (hlen hsafe.valid) hplace
  refine ⟨Trace.always_append.mpr ⟨always_unpins hq, ?_⟩, ?_⟩
  · rw [foldl_unpins]
    exact Trace.always_singleton.mpr trivial
  rw [List.foldl_append, foldl_unpins, List.foldl_cons, List.foldl_nil, windowStep]
  rcases hcase with ⟨href, rfl⟩ | ⟨entry, href, hentry, rfl⟩
  · obtain ⟨hi, -, hown⟩ := refOf_eq_some_of_getD href
    have hlater : ∀ e ∈ t₁.entries, e.pin = hi.referencedPin →
        e.timestamp.lessThan stamp.tv = true := by
      intro e he hep
      simp only [insertsAfterReference, owner, hown, List.all_eq_true] at hA
      simpa [hep] using hA e (hev.sublist.subset he)
    exact ⟨hv, hg.extend hown (place_precedes hv₁ (hg₁.held h _ hown) hlater hplace)⟩
  · have hfree : s.owner h = none := refOf_eq_none_of_getD href
    obtain ⟨-, rfl⟩ := List.getElem?_eq_some_iff.mp hentry
    refine ⟨hv.addRef e, ?_⟩
    rw [hg.window_eq_nil hfree, owner_update, refOf_some, if_pos rfl]
    exact hg.acquire hv hr hfree fun x hx ↦ Or.inl (by simpa [hpin] using hx)

theorem Safe.releaseHostPin (hsafe : Safe s w) (hrel : s.releaseHostPin h now = some (s', q)) :
    (∀ x ∈ q, ∀ j, x ∉ update w h [] j) ∧ Safe s' (update w h []) ∧ s'.owner h = none := by
  rcases releaseHostPin_eq_some hrel with
    ⟨hnone, hs', rfl⟩ | ⟨hi, e, t, hhi, href, hfind, hrm, rfl⟩
  · rw [hs']
    have hown : s.owner h = none := by
      cases hd : s.hostData h with
      | none => simp [owner, hd]
      | some hi => simp [owner, hd, hnone hi hd]
    exact ⟨by simp, ⟨hsafe.valid, hsafe.guards.clear⟩, hown⟩
  obtain ⟨he, hpin⟩ := PinTable.findPin_eq_some hfind
  have hown : s.owner h = some s.table.entries[e].pin := by simp [owner, hhi, href, hpin]
  have hv₀ := hsafe.valid.modify e (fun e ↦ { e with ref := e.ref - 1 }) (fun _ ↦ rfl) fun _ ↦ rfl
  obtain ⟨hg, hq⟩ :=
    (hsafe.guards.release hsafe.valid he hown).evicts hv₀ (PinTable.removeRef_evicts hrm)
  refine ⟨hq, ⟨hsafe.valid.removeRef hrm, ?_⟩, by simp [owner]⟩
  rw [owner_update, refOf_some, if_neg (by simp)]
  exact hg

theorem Safe.release (hsafe : Safe s w) (hs : s.handleRelease h now = some (s', es)) :
    Trace.Always windowStep Unprotected w es ∧ Safe s' (es.foldl windowStep w) := by
  obtain ⟨q, hrel, rfl⟩ := handleRelease_eq_some hs
  obtain ⟨hq, hsafe', -⟩ := hsafe.releaseHostPin hrel
  refine ⟨Trace.always_cons.mpr ⟨trivial, always_unpins hq⟩, ?_⟩
  rw [List.foldl_cons, foldl_unpins]
  exact hsafe'

theorem Safe.close (hsafe : Safe s w) (hs : s.handleConnectionClosed h now = some (s', es)) :
    Trace.Always windowStep Unprotected w es ∧ Safe s' (es.foldl windowStep w) := by
  obtain ⟨s₁, q, hrel, rfl, rfl⟩ := handleConnectionClosed_eq_some hs
  obtain ⟨hq, hsafe₁, hown⟩ := hsafe.releaseHostPin hrel
  refine ⟨Trace.always_cons.mpr ⟨trivial, always_unpins hq⟩, ?_⟩
  rw [List.foldl_cons, foldl_unpins]
  have howner : owner ⟨s₁.table, update s₁.hostData h none⟩ = s₁.owner := by
    rw [owner_update, refOf_none, ← hown, update_eq_self]
  exact ⟨hsafe₁.valid, howner ▸ hsafe₁.guards⟩

theorem Safe.flush (hsafe : Safe s w) (hs : s.step .flush = some (s', es)) :
    Trace.Always windowStep Unprotected w es ∧ Safe s' (es.foldl windowStep w) := by
  obtain ⟨t, q, hfl, rfl, rfl⟩ := step_flush_eq_some hs
  have hev := PinTable.flush_evicts hfl
  obtain ⟨hg, hq⟩ := hsafe.guards.evicts hsafe.valid hev
  rw [foldl_unpins]
  exact ⟨always_unpins hq, hsafe.valid.evicts hev, hg⟩

/-- **Every step is safe**, for an insert that obeys the proviso. -/
theorem safe_step {op : PincushionOp} (hsafe : Safe s w) (hA : insertsAfterReference s op = true)
    (hs : s.step op = some (s', es)) :
    Trace.Always windowStep Unprotected w es ∧ Safe s' (es.foldl windowStep w) := by
  cases op with
  | request h now freshness => exact hsafe.request hs
  | insert h now stamp => exact hsafe.insert hA hs
  | release h now => exact hsafe.release hs
  | close h now => exact hsafe.close hs
  | flush => exact hsafe.flush hs
  | sendUnpins =>
    simp only [Pincushion.step, Option.some.injEq, Prod.mk.injEq] at hs
    obtain ⟨rfl, rfl⟩ := hs
    exact ⟨Trace.always_nil w, hsafe.valid.of_sublist (List.Sublist.refl _),
      hsafe.guards.of_entries rfl⟩

/-! ## Over every run -/

/-- Connection 2 enters pin 10 and lets it go; connection 1 reads it and inserts a later pin;
connection 3 enters and releases pin 12, whose clean keeps everything while connection 1 holds
its reference; connection 1's release then unpins both its pins. -/
def sharedPinRun : List PincushionOp :=
  [.insert 2 ⟨100, 0⟩ ⟨10, ⟨90, 0⟩⟩, .release 2 ⟨100, 0⟩, .request 1 ⟨100, 0⟩ ⟨1000, 0⟩,
    .insert 1 ⟨100, 0⟩ ⟨11, ⟨95, 0⟩⟩, .insert 3 ⟨200, 0⟩ ⟨12, ⟨200, 0⟩⟩, .release 3 ⟨200, 0⟩,
    .release 1 ⟨200, 0⟩, .sendUnpins]

/-- **The pin table stays valid** over every run from `PT_Init`, whatever the clients send: fewer
than `MAX_PINS` entries, no pin twice, and the entries in timestamp order. -/
theorem table_stays_valid (maxStaleness : Timeval) {ops : List PincushionOp} {s : Pincushion}
    {log : List PincushionEffect}
    (hrun : Trace.run Pincushion.step (Pincushion.init maxStaleness) ops = some (s, log)) :
    s.table.Valid :=
  Trace.invariant_run (I := fun s : Pincushion ↦ s.table.Valid) (fun _ _ _ _ ↦ valid_step)
    (Safe.init maxStaleness).valid hrun

theorem sharedPinRun_valid :
    ∃ s log, Trace.run Pincushion.step (Pincushion.init ⟨60, 0⟩) sharedPinRun = some (s, log) ∧
      s.table.Valid := by
  obtain ⟨⟨s, log⟩, hrun⟩ :
      ∃ r, Trace.run Pincushion.step (Pincushion.init ⟨60, 0⟩) sharedPinRun = some r := ⟨_, rfl⟩
  exact ⟨s, log, hrun, table_stays_valid ⟨60, 0⟩ hrun⟩

/-- **No pin a client relies on is unpinned.** Over every run from `PT_Init` in which each
connection inserts only pins later than the one it references: no pin of a `FOUND` reply, and no
pin a connection inserted, is queued for `UNPIN` before the connection releases or closes; each
such pin is in the table at the end; and `PT_FindPin` finds every referenced pin, so
`ReleaseHostPin` never dereferences `NULL`. -/
theorem pins_stay_in_cushion (maxStaleness : Timeval) {ops : List PincushionOp} {s : Pincushion}
    {log : List PincushionEffect}
    (henv : Trace.Obeys Pincushion.step (fun s op ↦ insertsAfterReference s op = true)
      (Pincushion.init maxStaleness) ops)
    (hrun : Trace.run Pincushion.step (Pincushion.init maxStaleness) ops = some (s, log)) :
    Trace.Always windowStep Unprotected (fun _ ↦ []) log ∧
      (∀ h x, x ∈ log.foldl windowStep (fun _ ↦ []) h → x ∈ s.table.pins) ∧
      ∀ h hi, s.hostData h = some hi → hi.hasReferencedPin = true →
        s.table.findPin hi.referencedPin ≠ none := by
  obtain ⟨halways, hsafe⟩ :=
    Trace.always_run (fun _ _ _ _ _ ↦ safe_step) (Safe.init maxStaleness) henv hrun
  refine ⟨halways, fun h x hx ↦ hsafe.guards.mem_pins hx, fun h hi hhi href ↦ ?_⟩
  exact hsafe.guards.findPin_ne_none (h := h) (by simp [owner, hhi, href])

theorem sharedPinRun_safe :
    ∃ s log, Trace.run Pincushion.step (Pincushion.init ⟨60, 0⟩) sharedPinRun = some (s, log) ∧
      PincushionEffect.unpinQueued 11 ∈ log ∧
      Trace.Always windowStep Unprotected (fun _ ↦ []) log ∧
      (∀ h x, x ∈ log.foldl windowStep (fun _ ↦ []) h → x ∈ s.table.pins) ∧
      ∀ h hi, s.hostData h = some hi → hi.hasReferencedPin = true →
        s.table.findPin hi.referencedPin ≠ none := by
  have hmap : (Trace.run Pincushion.step (Pincushion.init ⟨60, 0⟩) sharedPinRun).map Prod.snd =
      some [.inserted 2 10, .released 2, .found 1 [⟨10, ⟨90, 0⟩⟩], .inserted 1 11, .inserted 3 12,
        .released 3, .released 1, .unpinQueued 10, .unpinQueued 11] := by
    decide
  obtain ⟨⟨s, log⟩, hrun, rfl⟩ := Option.map_eq_some_iff.mp hmap
  exact ⟨s, _, hrun, by decide, pins_stay_in_cushion ⟨60, 0⟩ (by decide) hrun⟩

/-- Connection 1 references pin 10 and inserts pin 11 with the same timestamp: the bubble puts it
behind pin 10, unreferenced, and the clean of connection 3's release unpins it while connection 1
relies on it. -/
def sameStampRun : List PincushionOp :=
  [.insert 2 ⟨100, 0⟩ ⟨10, ⟨90, 0⟩⟩, .release 2 ⟨100, 0⟩, .request 1 ⟨100, 0⟩ ⟨1000, 0⟩,
    .insert 1 ⟨100, 0⟩ ⟨11, ⟨90, 0⟩⟩, .insert 3 ⟨200, 0⟩ ⟨12, ⟨200, 0⟩⟩, .release 3 ⟨200, 0⟩]

theorem sameStamp_unpins_inserted :
    ∃ s log, Trace.run Pincushion.step (Pincushion.init ⟨60, 0⟩) sameStampRun = some (s, log) ∧
      ¬ Trace.Always windowStep Unprotected (fun _ ↦ []) log := by
  have hmap : (Trace.run Pincushion.step (Pincushion.init ⟨60, 0⟩) sameStampRun).map Prod.snd =
      some [.inserted 2 10, .released 2, .found 1 [⟨10, ⟨90, 0⟩⟩], .inserted 1 11, .inserted 3 12,
        .released 3, .unpinQueued 11] := by
    decide
  obtain ⟨⟨s, log⟩, hrun, rfl⟩ := Option.map_eq_some_iff.mp hmap
  refine ⟨s, _, hrun, fun hall ↦ ?_⟩
  simp only [Trace.always_cons, Trace.always_nil, and_true] at hall
  exact hall.2.2.2.2.2.2 1 (by decide)

end Pincushion

end TxCache
