import TxCache.Net.IOBuf

/-!
# What an `IOBuf` carries: encoding and decoding

Every sender writes its message as a sequence of `IOBuf_Put*` calls, with `IOBuf_BeginNested`
and `IOBuf_EndNested` around the parts that are read back as a unit, and every receiver reads it
back with the matching `IOBuf_TryGet*` calls, `IOBuf_TryGetNested` for each nested section. An
`Item` is one such call, or a nested section with its own items; `Item.put` makes the calls, and
`Item.get` makes the matching reads, the item it is given saying only which read to make.

`Item.encode` is the layout: fixed-width words least significant byte first, a buffer or a string
after its length, a nested section after the length of its contents. Two theorems connect the
layout to the code. Writing an item appends its encoding (`Writer.putItem`), whenever the buffer's
offsets stay below `2 ^ 32`; and reading where an item's encoding stands gives back the item and
moves past exactly its bytes (`Reads.getItem`), whenever every length in it is below `2 ^ 31`, so
that it reads back as a non-negative `int32_t`. `getAll_putAll` is the round trip.

The bound on the offsets is needed: `IOBuf_BeginNested` keeps the start of a section as a
`uint32_t`, so a section that starts `2 ^ 32 - 1` bytes into the buffer starts at
`NESTED_OFFSET_NONE`, and `IOBuf_EndNested` panics (`putAll_wrapItems_panics`).
-/

namespace TxCache

open Bytes IOBuf

/-- One `IOBuf_Put*` call, or a nested section. A string is its bytes before the terminator. -/
inductive Item
  | int8 (x : BitVec 8)
  | int32 (x : BitVec 32)
  | int64 (x : BitVec 64)
  | double (bits : BitVec 64)
  | buf (data : List UInt8)
  | string (s : List UInt8)
  | nested (items : List Item)
deriving Repr

namespace Item

mutual

/-- The calls that write an item. -/
def put : IOBuf → Item → Option IOBuf
  | b, .int8 x => b.putInt8 x
  | b, .int32 x => b.putInt32 x
  | b, .int64 x => b.putInt64 x
  | b, .double x => b.putDouble x
  | b, .buf d => b.putBuf d
  | b, .string s => b.putString s
  | b, .nested items => (b.beginNested).bind fun b ↦ (putAll b items).bind IOBuf.endNested

/-- The calls that write items in order. -/
def putAll : IOBuf → List Item → Option IOBuf
  | b, [] => some b
  | b, i :: is => (put b i).bind fun b ↦ putAll b is

end

mutual

/-- The reads that match an item's calls: a read that fails fails the whole reading, and a
nested section must be read to its end (`IOBuf_GetEOB`). The values of the item given are not
looked at. -/
def get : IOBuf → Item → Option (IOBuf × Item)
  | b, .int8 _ => (b.tryGetInt8).bind fun (b', x) ↦ x.map fun x ↦ (b', .int8 x)
  | b, .int32 _ => (b.tryGetInt32).bind fun (b', x) ↦ x.map fun x ↦ (b', .int32 x)
  | b, .int64 _ => (b.tryGetInt64).bind fun (b', x) ↦ x.map fun x ↦ (b', .int64 x)
  | b, .double _ => (b.tryGetDouble).bind fun (b', x) ↦ x.map fun x ↦ (b', .double x)
  | b, .buf _ =>
    (b.tryGetBuf).bind fun (b', r) ↦
      r.bind fun (res, count) ↦ (b.load res count).map fun d ↦ (b', .buf d)
  | b, .string _ =>
    (b.tryGetString).bind fun (b', r) ↦ r.bind fun res ↦ (b.loadCString res).map fun s ↦ (b', .string s)
  | b, .nested items =>
    (b.tryGetNested).bind fun (b', v) ↦
      v.bind fun v ↦ (getAll v items).bind fun (v', items') ↦
        v'.getEOB.map fun _ ↦ (b', .nested items')

/-- The reads that match items in order. -/
def getAll : IOBuf → List Item → Option (IOBuf × List Item)
  | b, [] => some (b, [])
  | b, i :: is =>
    (get b i).bind fun (b', i') ↦ (getAll b' is).map fun (b'', is') ↦ (b'', i' :: is')

end

mutual

/-- The bytes an item stands for. -/
def encode : Item → List UInt8
  | .int8 x => toLE 1 x.toNat
  | .int32 x => toLE 4 x.toNat
  | .int64 x => toLE 8 x.toNat
  | .double x => toLE 8 x.toNat
  | .buf d => toLE 4 d.length ++ d
  | .string s => toLE 4 (s.length + 1) ++ (s ++ [0])
  | .nested items => toLE 4 (encodeAll items).length ++ encodeAll items

/-- The bytes items stand for, in order. -/
def encodeAll : List Item → List UInt8
  | [] => []
  | i :: is => encode i ++ encodeAll is

end

mutual

/-- The lengths are below `2 ^ 31`, and a string holds no terminator. -/
def wellFormed : Item → Bool
  | .buf d => d.length < 2 ^ 31
  | .string s => !s.contains 0 && s.length + 1 < 2 ^ 31
  | .nested items => wellFormedAll items && (encodeAll items).length < 2 ^ 31
  | _ => true

def wellFormedAll : List Item → Bool
  | [] => true
  | i :: is => wellFormed i && wellFormedAll is

end

@[simp] theorem wellFormed_string (s : List UInt8) :
    (string s).wellFormed = true ↔ (0 : UInt8) ∉ s ∧ s.length + 1 < 2 ^ 31 := by
  simp [wellFormed]

@[simp] theorem wellFormed_nested (items : List Item) :
    (nested items).wellFormed = true ↔
      wellFormedAll items = true ∧ (encodeAll items).length < 2 ^ 31 := by
  simp [wellFormed]

@[simp] theorem wellFormedAll_cons (i : Item) (is : List Item) :
    wellFormedAll (i :: is) = true ↔ i.wellFormed = true ∧ wellFormedAll is = true := by
  simp [wellFormedAll]

@[simp] theorem encodeAll_cons (i : Item) (is : List Item) :
    encodeAll (i :: is) = i.encode ++ encodeAll is := rfl

end Item

namespace IOBuf

open Item

variable {b : IOBuf} {ys : List UInt8}

/-! ## Writing appends the encoding -/

mutual

theorem Writer.putItem : ∀ (i : Item) {b : IOBuf}, Writer b → i.wellFormed = true →
    (b.mem ++ i.encode).length < 2 ^ 32 →
    ∃ cap, put b i = some (b.appendBytes i.encode cap) ∧ (b.mem ++ i.encode).length ≤ cap ∧
      0 < cap
  | .int8 _, _, hw, _, _ => hw.putBytes _
  | .int32 _, _, hw, _, _ => hw.putBytes _
  | .int64 _, _, hw, _, _ => hw.putBytes _
  | .double _, _, hw, _, _ => hw.putBytes _
  | .buf d, _, hw, _, _ => hw.putBuf d
  | .string _, _, hw, hwf, _ => hw.putString ((wellFormed_string _).mp hwf).1
  | .nested items, b, hw, hwf, hlen => by
    have hwf' := ((wellFormed_nested items).mp hwf).1
    have hl : (b.mem ++ encode (nested items)).length = b.mem.length + 4 + (encodeAll items).length := by
      simp [encode, Nat.add_assoc]
    -- the header first holds the enclosing section's offset
    obtain ⟨c₁, hbegin, hle₁, hpos₁⟩ := hw.beginNested
    have hw₁ := (hw.appendBytes hle₁ hpos₁).setNestedOffset (BitVec.ofNat 32 b.mem.length)
    obtain ⟨c₂, hall, hle₂, hpos₂⟩ := Writer.putItems items hw₁ hwf' (by simp; omega)
    have hmem : ({ b.appendBytes (toLE 4 b.nestedOffset.toNat) c₁ with
        nestedOffset := BitVec.ofNat 32 b.mem.length }.appendBytes (encodeAll items) c₂).mem =
        b.mem ++ toLE 4 b.nestedOffset.toNat ++ encodeAll items := by
      simp [IOBuf.appendBytes]
    -- `IOBuf_EndNested` overwrites it with the section's length
    have hend := (hw₁.appendBytes hle₂ hpos₂).endNested hmem (by simp [IOBuf.appendBytes])
      (by simp; omega)
    refine ⟨c₂, ?_, by simpa [encode] using hle₂, hpos₂⟩
    rw [put, hbegin, Option.bind_some, hall, Option.bind_some, hend]
    simp [IOBuf.appendBytes, encode, Nat.add_assoc]

theorem Writer.putItems : ∀ (is : List Item) {b : IOBuf}, Writer b → wellFormedAll is = true →
    (b.mem ++ encodeAll is).length < 2 ^ 32 →
    ∃ cap, putAll b is = some (b.appendBytes (encodeAll is) cap) ∧
      (b.mem ++ encodeAll is).length ≤ cap ∧ 0 < cap
  | [], _, hw, _, _ => by
    obtain ⟨cap, hcap, hle, hpos⟩ := hw.capacity_eq
    exact ⟨cap, by rw [putAll, encodeAll, appendBytes_nil hcap], by simpa [encodeAll] using hle,
      hpos⟩
  | i :: is, b, hw, hwf, hlen => by
    rw [wellFormedAll_cons] at hwf
    rw [encodeAll_cons] at hlen ⊢
    obtain ⟨c₁, h₁, hle₁, hpos₁⟩ := Writer.putItem i hw hwf.1 (by simp at hlen ⊢; omega)
    obtain ⟨c₂, h₂, hle₂, hpos₂⟩ :=
      Writer.putItems is (hw.appendBytes hle₁ hpos₁) hwf.2 (by simpa using hlen)
    refine ⟨c₂, ?_, by simpa using hle₂, hpos₂⟩
    rw [putAll, h₁, Option.bind_some, h₂, appendBytes_appendBytes]

end

theorem Writer.putNested_panics (hw : Writer b)
    (h : BitVec.ofNat 32 b.mem.length = nestedOffsetNone) : put b (.nested []) = none := by
  obtain ⟨c, hbegin, -⟩ := hw.beginNested
  rw [put, hbegin, Option.bind_some, putAll, Option.bind_some, IOBuf.endNested, if_pos h]

/-! ## Reading gives the items back -/

theorem Reads.tryGetWord_ofNat {r : IOBuf} {n : ℕ} {x : BitVec (8 * n)}
    (h : Reads r (toLE n x.toNat ++ ys)) :
    (r.tryGetWord n).map (fun (b', v) ↦ (b', v.map (BitVec.ofNat (8 * n)))) =
      some ({ r with pos := r.pos + n }, some x) := by
  rw [h.tryGetWord, Option.map_some]
  dsimp only
  rw [Option.map_some, ofNat_toNat_mod]

theorem Reads.load_after_header {r : IOBuf} {d : List UInt8} {c : ℕ}
    (h : Reads r (toLE 4 c ++ d ++ ys)) : r.load (r.pos + 4) d.length = some d := by
  rw [List.append_assoc] at h
  have hload := h.drop.load
  rw [length_toLE] at hload
  exact hload

mutual

theorem Reads.getItem : ∀ (i : Item) {r : IOBuf} {ys : List UInt8}, Reads r (i.encode ++ ys) →
    i.wellFormed = true → get r i = some ({ r with pos := r.pos + i.encode.length }, i)
  | .int8 x, r, _, h, _ => by
    have hword : r.tryGetInt8 = some ({ r with pos := r.pos + 1 }, some x) :=
      Reads.tryGetWord_ofNat (n := 1) h
    rw [Item.get, hword]
    simp [encode]
  | .int32 x, r, _, h, _ => by
    have hword : r.tryGetInt32 = some ({ r with pos := r.pos + 4 }, some x) :=
      Reads.tryGetWord_ofNat (n := 4) h
    rw [Item.get, hword]
    simp [encode]
  | .int64 x, r, _, h, _ => by
    have hword : r.tryGetInt64 = some ({ r with pos := r.pos + 8 }, some x) :=
      Reads.tryGetWord_ofNat (n := 8) h
    rw [Item.get, hword]
    simp [encode]
  | .double x, r, _, h, _ => by
    have hword : r.tryGetDouble = some ({ r with pos := r.pos + 8 }, some x) :=
      Reads.tryGetWord_ofNat (n := 8) h
    rw [Item.get, hword]
    simp [encode]
  | .buf d, r, _, h, hwf => by
    have hd : d.length < 2 ^ 31 := by simpa [wellFormed] using hwf
    rw [encode] at h
    rw [Item.get, h.tryGetBuf hd, Option.bind_some]
    dsimp only
    rw [Option.bind_some, h.load_after_header, Option.map_some]
    simp [encode, Nat.add_assoc]
  | .string s, r, ys, h, hwf => by
    have hs := (wellFormed_string s).mp hwf
    rw [encode] at h
    have hstr : r.loadCString (r.pos + 4) = some s := by
      have h' : Reads r (toLE 4 (s.length + 1) ++ (s ++ [0] ++ ys)) := by simpa using h
      have hload := h'.drop.loadCString hs.1
      rw [length_toLE] at hload
      exact hload
    rw [Item.get, h.tryGetString hs.2, Option.bind_some]
    dsimp only
    rw [Option.bind_some, hstr, Option.map_some]
    simp [encode, Nat.add_assoc]
  | .nested items, r, _, h, hwf => by
    have hwf' := (wellFormed_nested items).mp hwf
    rw [encode] at h
    obtain ⟨hview, hlimit⟩ := h.view hwf'.2
    have hview' : Reads (initView r.mem r.base (r.pos + 4) (encodeAll items).length)
        (encodeAll items ++ []) := by
      rw [List.append_nil]
      exact hview
    have hall := Reads.getItems items hview' hwf'.1
    rw [Item.get, h.tryGetNested hwf'.2, Option.bind_some]
    dsimp only
    rw [Option.bind_some, hall, Option.bind_some]
    dsimp only
    rw [getEOB_of_pos_eq hlimit.symm, Option.map_some]
    simp [encode, Nat.add_assoc]

theorem Reads.getItems : ∀ (is : List Item) {r : IOBuf} {ys : List UInt8},
    Reads r (encodeAll is ++ ys) → wellFormedAll is = true →
    getAll r is = some ({ r with pos := r.pos + (encodeAll is).length }, is)
  | [], r, _, _, _ => by simp [Item.getAll, encodeAll]
  | i :: is, r, _, h, hwf => by
    rw [wellFormedAll_cons] at hwf
    rw [encodeAll_cons, List.append_assoc] at h
    rw [Item.getAll, Reads.getItem i h hwf.1, Option.bind_some]
    dsimp only
    rw [Reads.getItems is h.drop hwf.2, Option.map_some]
    simp [Nat.add_assoc]

end

end IOBuf

namespace Item

open IOBuf

/-- The round trip: a fresh buffer that items are written into reads them back, and the reads
end at the end of the buffer. The block must not wrap the address space, and the message must
stay below `2 ^ 32` bytes, the width of the offsets that nested sections keep. -/
theorem getAll_putAll {items : List Item} (hwf : wellFormedAll items = true)
    (hlen : (encodeAll items).length < 2 ^ 32) {addr : ℕ} (haddr : addr + 2 ^ 32 ≤ 2 ^ 64) :
    ∃ w, putAll (init addr) items = some w ∧ w.mem = encodeAll items ∧
      getAll w items = some ({ w with pos := w.limit }, items) ∧
      ({ w with pos := w.limit } : IOBuf).getEOB = some () := by
  have hw₀ := writer_init haddr
  obtain ⟨cap, hput, hle, hpos⟩ := Writer.putItems items hw₀ hwf (by simpa [init] using hlen)
  have hw := hw₀.appendBytes hle hpos
  have hmem : ((init addr).appendBytes (encodeAll items) cap).mem = encodeAll items := by
    simp [init, IOBuf.appendBytes]
  have hread : Reads ((init addr).appendBytes (encodeAll items) cap) (encodeAll items ++ []) := by
    rw [List.append_nil, ← hmem]
    exact hw.reads (by rw [hmem]; exact hlen)
  have hend : ((init addr).appendBytes (encodeAll items) cap).pos + (encodeAll items).length =
      ((init addr).appendBytes (encodeAll items) cap).limit := by
    simp [init, IOBuf.appendBytes]
  refine ⟨_, hput, hmem, ?_, getEOB_of_pos_eq rfl⟩
  rw [Reads.getItems items hread hwf, hend]

/-- An `int8`, then a nested section holding a string and an `int32`. -/
def sampleItems : List Item := [.int8 1, .nested [.string [104, 105], .int32 7]]

theorem sampleItems_roundTrip : wellFormedAll sampleItems = true ∧
    (encodeAll sampleItems).length < 2 ^ 32 ∧ 0 + 2 ^ 32 ≤ 2 ^ 64 ∧
    ∃ w, putAll (init 0) sampleItems = some w ∧ w.mem = encodeAll sampleItems ∧
      getAll w sampleItems = some ({ w with pos := w.limit }, sampleItems) ∧
      ({ w with pos := w.limit } : IOBuf).getEOB = some () :=
  ⟨by decide, by decide, by norm_num, getAll_putAll (by decide) (by decide) (by norm_num)⟩

theorem putAll_buf_buf_nested {A B : List UInt8}
    (h : 4 + A.length + (4 + B.length) = 2 ^ 32 - 1) :
    putAll (init 0) [.buf A, .buf B, .nested []] = none := by
  have hw₀ := writer_init (show 0 + 2 ^ 32 ≤ 2 ^ 64 by norm_num)
  obtain ⟨c₁, h₁, hle₁, hpos₁⟩ := hw₀.putBuf A
  have hw₁ := hw₀.appendBytes hle₁ hpos₁
  obtain ⟨c₂, h₂, hle₂, hpos₂⟩ := hw₁.putBuf B
  have hstart : BitVec.ofNat 32 (((init 0).appendBytes (toLE 4 A.length ++ A) c₁).appendBytes
      (toLE 4 B.length ++ B) c₂).mem.length = nestedOffsetNone := by
    simp only [init, IOBuf.appendBytes, List.length_append, length_toLE, List.length_nil,
      Nat.zero_add]
    rw [h]
    rfl
  rw [putAll, put, h₁, Option.bind_some, putAll, put, h₂, Option.bind_some, putAll,
    (hw₁.appendBytes hle₂ hpos₂).putNested_panics hstart, Option.bind_none]

/-- Two buffers of `2 ^ 31 - 1` and `2 ^ 31 - 8` bytes, then an empty nested section, which starts
at offset `2 ^ 32 - 1`. -/
def wrapItems : List Item :=
  [.buf (List.replicate (2 ^ 31 - 1) 0), .buf (List.replicate (2 ^ 31 - 8) 0), .nested []]

/-- Every length in `wrapItems` is below `2 ^ 31`, and writing it into a fresh buffer panics. -/
theorem putAll_wrapItems_panics :
    wellFormedAll wrapItems = true ∧ putAll (init 0) wrapItems = none := by
  refine ⟨?_, putAll_buf_buf_nested ?_⟩
  · simp only [wrapItems, wellFormedAll, wellFormed, List.length_replicate, encodeAll]
    norm_num
  · rw [List.length_replicate, List.length_replicate]
    norm_num

end Item

end TxCache
