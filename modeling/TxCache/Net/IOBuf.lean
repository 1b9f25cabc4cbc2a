import TxCache.Lib.Bytes

/-!
# `IOBuf`: the buffers of the wire format

Every message between the client library, the cache servers, the pin cushion and invald is
written into an `IOBuf` and read back from one (`lib/iobuf.c`, `lib/iobuf-getput.h`). A buffer is
four pointers into a block: `buf` at its start, `pos` where the next read starts, `limit` where the
next write goes, and `capacity`, which is `NULL` for a read-only *view*. Writes append at `limit`
and grow the block by doubling; reads check `pos + count` against `limit` and advance `pos`.

The model keeps the pointers as addresses. Pointer arithmetic wraps at `2 ^ 64`, as it does on the
machine: `IOBuf_TryGetBytes` compares `pos + count` with `limit` after the wrap, which is what a
negative count, converted to `size_t`, turns into. The bytes a buffer can reach are those of the
memory `mem` that starts at address `base`; a view that `IOBuf_TryGetNested` returns lies in the
memory of the buffer it was read from. Reading a byte outside that memory is undefined behaviour,
which is `none` here, as a `Panic` is. The words are written in host order, least significant byte
first (the "XXX Byte order" of the source); an `int32_t` is its 32 bits, and a `double` is its 64
bits, which `IOBuf_PutDouble` and `IOBuf_TryGetDouble` copy without reading.

A nested section starts with a header that first holds the offset of the enclosing section's
header (`nestedOffset`, `NESTED_OFFSET_NONE` at the outermost level) and, once `IOBuf_EndNested`
closes the section, its length. The header is read back and overwritten through the same pointers
that reads use, which is why `IOBuf_EndNested` saves and restores `pos`.

## What is not modelled

Allocation never fails, so `error` stays `0`, and `realloc` keeps the block where it is (it may;
the code keeps only offsets across the call either way). `nestedBound` is `NESTED_OFFSET_NONE` in
every buffer (nothing assigns it), so the check of `IOBuf_TryGetBytes` against it never fires.
File-backed buffers, `IOBuf_Shift` and `IOBuf_WriteFile` are left out.
-/

namespace TxCache

open Bytes

/-- `NESTED_OFFSET_NONE`. -/
def nestedOffsetNone : BitVec 32 := BitVec.ofNat 32 0xFFFFFFFF

/-- Pointer addition: addresses are 64-bit and wrap. -/
def ptrAdd (p c : ℕ) : ℕ := (p + c) % 2 ^ 64

/-- A difference of two pointers converted to `uint32_t`. -/
def ptrDiff32 (p q : ℕ) : BitVec 32 := BitVec.ofNat 32 (p + 2 ^ 64 - q)

/-- `(size_t)` of an `int32_t`: a negative count becomes a huge one. -/
def sizeOfInt32 (x : BitVec 32) : ℕ := (x.toInt % 2 ^ 64).toNat

/-- An `IOBuf_t`, its pointers as addresses, with the memory it lies in. -/
structure IOBuf where
  /-- The bytes of the memory the buffer lies in. -/
  mem : List UInt8
  /-- The address of the first byte of `mem`. -/
  base : ℕ
  buf : ℕ
  pos : ℕ
  limit : ℕ
  /-- `capacity - buf`, or `none` for a view (`capacity == NULL`). -/
  capacity : Option ℕ
  nestedOffset : BitVec 32
deriving DecidableEq, Repr

namespace IOBuf

/-- `DEFAULT_SIZE`. -/
def defaultSize : ℕ := 256

/-- `IOBuf_Init`, with `malloc` returning the block at `addr`. -/
def init (addr : ℕ) : IOBuf := ⟨[], addr, addr, addr, addr, some defaultSize, nestedOffsetNone⟩

/-- `IOBuf_InitView` over the `len` bytes at `data` of the memory `mem` starting at `base`. -/
def initView (mem : List UInt8) (base data len : ℕ) : IOBuf :=
  ⟨mem, base, data, data, ptrAdd data len, none, nestedOffsetNone⟩

variable (b : IOBuf)

/-! ## Memory -/

/-- The `n` bytes at address `p`; `none` when one of them lies outside the memory. -/
def load (p n : ℕ) : Option (List UInt8) :=
  if b.base ≤ p ∧ p + n ≤ b.base + b.mem.length then some (readAt b.mem (p - b.base) n) else none

/-- The byte at address `p`. -/
def loadByte (p : ℕ) : Option UInt8 := (b.load p 1).bind List.head?

/-- The C string at address `p`: its bytes up to the terminator, which must lie in the memory. -/
def loadCString (p : ℕ) : Option (List UInt8) :=
  if b.base ≤ p ∧ (0 : UInt8) ∈ b.mem.drop (p - b.base) then
    some ((b.mem.drop (p - b.base)).takeWhile (· ≠ 0))
  else none

/-- A store of `data` at address `p`, which may reach past the end of what was written so far. -/
def store (p : ℕ) (data : List UInt8) : Option IOBuf :=
  if b.base ≤ p ∧ p ≤ b.base + b.mem.length then
    some { b with mem := writeAt b.mem (p - b.base) data }
  else none

/-! ## Positions -/

/-- `IOBuf_GetPos`. -/
def getPos : BitVec 32 := ptrDiff32 b.pos b.buf

/-- `IOBuf_GetLimit`. -/
def getLimit : BitVec 32 := ptrDiff32 b.limit b.buf

/-- `IOBuf_SetPos`: a position beyond the limit panics. -/
def setPos (p : BitVec 32) : Option IOBuf :=
  if ptrAdd b.buf p.toNat > b.limit then none else some { b with pos := ptrAdd b.buf p.toNat }

/-- `IOBuf_InNested`. -/
def inNested : Bool := b.nestedOffset != nestedOffsetNone

/-! ## Writing -/

/-- The doubling loop of `IOBuf_Reserve`, `fuel` bounding the doublings. -/
def growLoop (goal : ℕ) : ℕ → ℕ → ℕ
  | 0, size => size
  | fuel + 1, size => if size < goal then growLoop goal fuel (size * 2) else size

/-- `IOBuf_Reserve`: a view cannot be written; a buffer without room for `count` more bytes grows
to the first doubling of its size that has it. -/
def reserve (count : ℕ) : Option IOBuf :=
  match b.capacity with
  | none => none
  | some cap =>
    if b.limit - b.buf + count > cap then
      let goal := b.limit - b.buf + count
      some { b with capacity := some (growLoop goal goal (cap * 2)) }
    else some b

/-- `IOBuf_MoveLimit`: moving the limit past the capacity panics. -/
def moveLimit (count : ℕ) : Option IOBuf :=
  match b.capacity with
  | none => none
  | some cap =>
    if b.limit - b.buf + count > cap then none else some { b with limit := b.limit + count }

/-- `IOBuf_PutBytes`: reserve, copy to `limit`, and move the limit. -/
def putBytes (data : List UInt8) : Option IOBuf :=
  (b.reserve data.length).bind fun b ↦
    (b.store b.limit data).bind fun b ↦ b.moveLimit data.length

def putInt8 (x : BitVec 8) : Option IOBuf := b.putBytes (toLE 1 x.toNat)

def putInt32 (x : BitVec 32) : Option IOBuf := b.putBytes (toLE 4 x.toNat)

def putInt64 (x : BitVec 64) : Option IOBuf := b.putBytes (toLE 8 x.toNat)

def putDouble (x : BitVec 64) : Option IOBuf := b.putBytes (toLE 8 x.toNat)

/-- `IOBuf_PutBuf`: the count, as an `int32_t`, then the bytes. -/
def putBuf (data : List UInt8) : Option IOBuf :=
  (b.putInt32 (BitVec.ofNat 32 data.length)).bind fun b ↦ b.putBytes data

/-- `IOBuf_PutString`: the string's bytes up to its terminator, with the terminator. -/
def putString (s : List UInt8) : Option IOBuf := b.putBuf (s.takeWhile (· ≠ 0) ++ [0])

/-- `IOBuf_PokeInt32`: the asserts that the buffer is writable and the word lies before `limit`. -/
def pokeInt32 (offset : ℕ) (x : BitVec 32) : Option IOBuf :=
  if b.capacity.isNone ∨ b.buf + offset + 4 > b.limit then none
  else b.store (b.buf + offset) (toLE 4 x.toNat)

/-! ## Reading -/

/-- `IOBuf_TryGetBytes`: `NULL` (`none` in the second component) when `pos + count`, after the
wrap, lies beyond `limit`; otherwise the old position, and `pos` moves on by `count`. -/
def tryGetBytes (count : ℕ) : IOBuf × Option ℕ :=
  if ptrAdd b.pos count > b.limit then (b, none)
  else ({ b with pos := ptrAdd b.pos count }, some b.pos)

/-- `TRY_GET` of an `n`-byte word: the bytes at the pointer `IOBuf_TryGetBytes` returned. -/
def tryGetWord (n : ℕ) : Option (IOBuf × Option ℕ) :=
  match b.tryGetBytes n with
  | (b', none) => some (b', none)
  | (b', some p) => (b.load p n).map fun bytes ↦ (b', some (ofLE bytes))

def tryGetInt8 : Option (IOBuf × Option (BitVec 8)) :=
  (b.tryGetWord 1).map fun (b', x) ↦ (b', x.map (BitVec.ofNat 8))

def tryGetInt32 : Option (IOBuf × Option (BitVec 32)) :=
  (b.tryGetWord 4).map fun (b', x) ↦ (b', x.map (BitVec.ofNat 32))

def tryGetInt64 : Option (IOBuf × Option (BitVec 64)) :=
  (b.tryGetWord 8).map fun (b', x) ↦ (b', x.map (BitVec.ofNat 64))

def tryGetDouble : Option (IOBuf × Option (BitVec 64)) :=
  (b.tryGetWord 8).map fun (b', x) ↦ (b', x.map (BitVec.ofNat 64))

/-- `IOBuf_GetInt32`: a failed `TryGet` panics. -/
def getInt32 : Option (IOBuf × BitVec 32) :=
  (b.tryGetInt32).bind fun (b', x) ↦ x.map (b', ·)

/-- `IOBuf_TryGetBuf`: the count, then that many bytes; the pointer to them and the count, as a
`size_t`. When either read fails the position goes back to where it was. -/
def tryGetBuf : Option (IOBuf × Option (ℕ × ℕ)) :=
  let pos := b.getPos
  (b.tryGetInt32).bind fun (b₁, xcount) ↦
    match xcount with
    | none => (b₁.setPos pos).map fun b ↦ (b, none)
    | some xcount =>
      match b₁.tryGetBytes (sizeOfInt32 xcount) with
      | (b₂, none) => (b₂.setPos pos).map fun b ↦ (b, none)
      | (b₂, some res) => some (b₂, some (res, sizeOfInt32 xcount))

/-- `IOBuf_TryGetString`: a buffer whose byte `res[count-1]` is not the terminator panics. The
index wraps as the `size_t` it is. -/
def tryGetString : Option (IOBuf × Option ℕ) :=
  (b.tryGetBuf).bind fun (b', r) ↦
    match r with
    | none => some (b', none)
    | some (res, count) =>
      (b.loadByte (ptrAdd res (count + 2 ^ 64 - 1))).bind fun c ↦
        if c ≠ 0 then none else some (b', some res)

/-- `IOBuf_TryGetNested`: a view of the buffer that `IOBuf_TryGetBuf` returns. -/
def tryGetNested : Option (IOBuf × Option IOBuf) :=
  (b.tryGetBuf).map fun (b', r) ↦ (b', r.map fun (res, count) ↦ initView b.mem b.base res count)

/-- `IOBuf_GetEOB`: bytes left before the limit panic. -/
def getEOB : Option Unit := if b.getLimit - b.getPos ≠ 0 then none else some ()

/-- `IOBuf_PeekRest`: the `limit - pos` bytes at the pointer `IOBuf_TryGetBytes` returns for a
count of `0`. -/
def peekRest : Option (List UInt8) :=
  match b.tryGetBytes 0 with
  | (_, none) => none
  | (_, some p) => b.load p (b.limit - b.pos)

/-! ## Nested sections -/

/-- `IOBuf_BeginNested`: a header holding the enclosing section's offset. -/
def beginNested : Option IOBuf :=
  let startOffset := b.getLimit
  (b.putInt32 b.nestedOffset).map fun b ↦ { b with nestedOffset := startOffset }

/-- `IOBuf_EndNested`: read the enclosing section's offset back from the header, overwrite the
header with the section's length, and put the position back. -/
def endNested : Option IOBuf :=
  if b.nestedOffset = nestedOffsetNone then none
  else
    let pos := b.getPos
    let startOffset := b.nestedOffset
    let endOffset := b.getLimit
    (b.setPos startOffset).bind fun b₁ ↦
      (b₁.getInt32).bind fun (b₂, parent) ↦
        ({ b₂ with nestedOffset := parent }.pokeInt32 startOffset.toNat
            (endOffset - startOffset - 4)).bind fun b₃ ↦ b₃.setPos pos

/-! ## Addresses that do not wrap -/

theorem ptrAdd_of_lt {p c : ℕ} (h : p + c < 2 ^ 64) : ptrAdd p c = p + c := Nat.mod_eq_of_lt h

theorem ptrDiff32_add (q n : ℕ) : ptrDiff32 (q + n) q = BitVec.ofNat 32 n := by
  apply BitVec.eq_of_toNat_eq
  simp only [ptrDiff32, BitVec.toNat_ofNat]
  omega

variable {b} {p n : ℕ}

theorem setPos_eq {x : BitVec 32} (h : ptrAdd b.buf x.toNat ≤ b.limit) :
    b.setPos x = some { b with pos := ptrAdd b.buf x.toNat } := by
  rw [setPos, if_neg (by omega)]

theorem tryGetBytes_eq (h : ptrAdd b.pos n ≤ b.limit) :
    b.tryGetBytes n = ({ b with pos := ptrAdd b.pos n }, some b.pos) := by
  rw [tryGetBytes, if_neg (by omega)]

theorem load_eq (h₁ : b.base ≤ p) (h₂ : p + n ≤ b.base + b.mem.length) :
    b.load p n = some (readAt b.mem (p - b.base) n) := by
  rw [load, if_pos ⟨h₁, h₂⟩]

theorem store_eq {data : List UInt8} (h₁ : b.base ≤ p) (h₂ : p ≤ b.base + b.mem.length) :
    b.store p data = some { b with mem := writeAt b.mem (p - b.base) data } := by
  rw [store, if_pos ⟨h₁, h₂⟩]

/-! ## Writers -/

/-- A buffer that `IOBuf_Init` made and that only writes changed: it owns its memory, which holds
what was written, no read moved its position, and its addresses do not wrap. -/
structure Writer (b : IOBuf) : Prop where
  buf_eq : b.buf = b.base
  pos_eq : b.pos = b.base
  limit_eq : b.limit = b.base + b.mem.length
  capacity_eq : ∃ cap, b.capacity = some cap ∧ b.mem.length ≤ cap ∧ 0 < cap
  addr_le : b.base + 2 ^ 32 ≤ 2 ^ 64

theorem writer_init {addr : ℕ} (h : addr + 2 ^ 32 ≤ 2 ^ 64) : Writer (init addr) :=
  ⟨rfl, rfl, rfl, ⟨defaultSize, rfl, by simp [init], by decide⟩, h⟩

variable (b) in
/-- The buffer after a write of `data` that left it with capacity `cap`. -/
def appendBytes (data : List UInt8) (cap : ℕ) : IOBuf :=
  { b with mem := b.mem ++ data, limit := b.limit + data.length, capacity := some cap }

theorem Writer.appendBytes (hw : Writer b) {data : List UInt8} {cap : ℕ}
    (hcap : (b.mem ++ data).length ≤ cap) (hpos : 0 < cap) : Writer (b.appendBytes data cap) where
  buf_eq := hw.buf_eq
  pos_eq := hw.pos_eq
  limit_eq := by simp [IOBuf.appendBytes, hw.limit_eq, Nat.add_assoc]
  capacity_eq := ⟨cap, rfl, hcap, hpos⟩
  addr_le := hw.addr_le

@[simp] theorem appendBytes_appendBytes {d₁ d₂ : List UInt8} {c₁ c₂ : ℕ} :
    (b.appendBytes d₁ c₁).appendBytes d₂ c₂ = b.appendBytes (d₁ ++ d₂) c₂ := by
  simp [IOBuf.appendBytes, Nat.add_assoc]

@[simp] theorem nestedOffset_appendBytes {data : List UInt8} {cap : ℕ} :
    (b.appendBytes data cap).nestedOffset = b.nestedOffset := rfl

@[simp] theorem mem_appendBytes {data : List UInt8} {cap : ℕ} :
    (b.appendBytes data cap).mem = b.mem ++ data := rfl

theorem le_growLoop (goal : ℕ) : ∀ fuel size, size ≤ growLoop goal fuel size
  | 0, _ => le_rfl
  | fuel + 1, size => by
    rw [growLoop]
    split
    · exact (Nat.le_mul_of_pos_right size two_pos).trans (le_growLoop goal fuel _)
    · exact le_rfl

theorem growLoop_ge {goal : ℕ} : ∀ {fuel size}, goal ≤ size * 2 ^ fuel →
    goal ≤ growLoop goal fuel size
  | 0, size, h => by simpa [growLoop] using h
  | fuel + 1, size, h => by
    rw [growLoop]
    split
    · exact growLoop_ge (by rw [Nat.mul_assoc, ← pow_succ']; exact h)
    · omega

theorem Writer.reserve (hw : Writer b) (count : ℕ) :
    ∃ cap, b.reserve count = some { b with capacity := some cap } ∧
      b.mem.length + count ≤ cap ∧ 0 < cap := by
  obtain ⟨cap₀, hcap, hle, hpos⟩ := hw.capacity_eq
  have hoff : b.limit - b.buf = b.mem.length := by rw [hw.limit_eq, hw.buf_eq]; omega
  rw [IOBuf.reserve, hcap]
  dsimp only
  split
  next hgrow =>
    -- the doubling starts from twice the size, so `goal` doublings are always enough
    refine ⟨_, rfl, ?_, lt_of_lt_of_le (by omega) (le_growLoop _ _ _)⟩
    rw [← hoff]
    apply growLoop_ge
    calc b.limit - b.buf + count ≤ 2 ^ (b.limit - b.buf + count) := (Nat.lt_two_pow_self).le
      _ ≤ cap₀ * 2 * 2 ^ (b.limit - b.buf + count) := Nat.le_mul_of_pos_left _ (by omega)
  next hroom =>
    refine ⟨cap₀, ?_, by omega, hpos⟩
    rw [← hcap]

theorem Writer.putBytes (hw : Writer b) (data : List UInt8) :
    ∃ cap, b.putBytes data = some (b.appendBytes data cap) ∧
      (b.mem ++ data).length ≤ cap ∧ 0 < cap := by
  obtain ⟨cap, hres, hle, hpos⟩ := hw.reserve data.length
  have hlimit := hw.limit_eq
  have hbuf := hw.buf_eq
  refine ⟨cap, ?_, by simpa using hle, hpos⟩
  rw [IOBuf.putBytes, hres, Option.bind_some, store_eq (by dsimp only; omega) (by dsimp only; omega),
    Option.bind_some]
  dsimp only
  rw [show b.limit - b.base = b.mem.length by omega, writeAt_length, moveLimit]
  dsimp only
  rw [if_neg (by omega)]
  rfl

theorem appendBytes_nil {cap : ℕ} (h : b.capacity = some cap) : b.appendBytes [] cap = b := by
  rw [IOBuf.appendBytes, ← h]
  simp

theorem Writer.putBuf (hw : Writer b) (d : List UInt8) :
    ∃ cap, b.putBuf d = some (b.appendBytes (toLE 4 d.length ++ d) cap) ∧
      (b.mem ++ (toLE 4 d.length ++ d)).length ≤ cap ∧ 0 < cap := by
  have hlen : toLE 4 (BitVec.ofNat 32 d.length).toNat = toLE 4 d.length := by
    rw [BitVec.toNat_ofNat, show (2 : ℕ) ^ 32 = 256 ^ 4 by rfl, toLE_mod]
  obtain ⟨c₁, h₁, hle₁, hpos₁⟩ := hw.putBytes (toLE 4 d.length)
  obtain ⟨c₂, h₂, hle₂, hpos₂⟩ := (hw.appendBytes hle₁ hpos₁).putBytes d
  refine ⟨c₂, ?_, by simpa using hle₂, hpos₂⟩
  rw [IOBuf.putBuf, IOBuf.putInt32, hlen, h₁, Option.bind_some, h₂, appendBytes_appendBytes]

theorem Writer.putString (hw : Writer b) {s : List UInt8} (hs : (0 : UInt8) ∉ s) :
    ∃ cap, b.putString s = some (b.appendBytes (toLE 4 (s.length + 1) ++ (s ++ [0])) cap) ∧
      (b.mem ++ (toLE 4 (s.length + 1) ++ (s ++ [0]))).length ≤ cap ∧ 0 < cap := by
  have hwhile : s.takeWhile (· ≠ 0) = s := by
    rw [List.takeWhile_eq_self_iff]
    intro a ha
    have hne : a ≠ 0 := fun h0 ↦ hs (h0 ▸ ha)
    simpa using hne
  have h := hw.putBuf (s ++ [0])
  rw [List.length_append, List.length_singleton] at h
  rw [IOBuf.putString, hwhile]
  exact h

theorem Writer.getPos (hw : Writer b) : b.getPos = 0 := by
  have h := ptrDiff32_add b.base 0
  rw [Nat.add_zero] at h
  rw [IOBuf.getPos, hw.pos_eq, hw.buf_eq, h]
  rfl

theorem Writer.getLimit (hw : Writer b) : b.getLimit = BitVec.ofNat 32 b.mem.length := by
  rw [IOBuf.getLimit, hw.limit_eq, hw.buf_eq, ptrDiff32_add]

theorem Writer.setNestedOffset (hw : Writer b) (x : BitVec 32) :
    Writer { b with nestedOffset := x } :=
  ⟨hw.buf_eq, hw.pos_eq, hw.limit_eq, hw.capacity_eq, hw.addr_le⟩

theorem Writer.beginNested (hw : Writer b) :
    ∃ cap, b.beginNested = some { b.appendBytes (toLE 4 b.nestedOffset.toNat) cap with
        nestedOffset := BitVec.ofNat 32 b.mem.length } ∧
      (b.mem ++ toLE 4 b.nestedOffset.toNat).length ≤ cap ∧ 0 < cap := by
  obtain ⟨cap, hput, hle, hpos⟩ := hw.putBytes (toLE 4 b.nestedOffset.toNat)
  refine ⟨cap, ?_, hle, hpos⟩
  rw [IOBuf.beginNested, IOBuf.putInt32, hput, hw.getLimit]
  rfl

theorem ofNat_ofLE_toLE_four (x : BitVec 32) : BitVec.ofNat 32 (ofLE (toLE 4 x.toNat)) = x :=
  ofNat_ofLE_toLE (n := 4) x

theorem getInt32_eq (h₁ : ptrAdd b.pos 4 ≤ b.limit) (h₂ : b.base ≤ b.pos)
    (h₃ : b.pos + 4 ≤ b.base + b.mem.length) :
    b.getInt32 = some ({ b with pos := ptrAdd b.pos 4 },
      BitVec.ofNat 32 (ofLE (readAt b.mem (b.pos - b.base) 4))) := by
  rw [getInt32, tryGetInt32, tryGetWord, tryGetBytes_eq h₁]
  dsimp only
  rw [load_eq h₂ h₃]
  rfl

theorem pokeInt32_eq {off : ℕ} {x : BitVec 32} (hcap : b.capacity.isSome)
    (h₁ : b.buf + off + 4 ≤ b.limit) (h₂ : b.base ≤ b.buf + off)
    (h₃ : b.buf + off ≤ b.base + b.mem.length) :
    b.pokeInt32 off x = some { b with mem := writeAt b.mem (b.buf + off - b.base) (toLE 4 x.toNat) } := by
  rw [pokeInt32, if_neg (by simp only [Option.isNone_iff_eq_none]; rintro (h | h) <;> simp_all; omega),
    store_eq h₂ h₃]

theorem Writer.endNested (hw : Writer b) {pre inner : List UInt8} {parent : BitVec 32}
    (hmem : b.mem = pre ++ toLE 4 parent.toNat ++ inner)
    (hoff : b.nestedOffset = BitVec.ofNat 32 pre.length) (hlen : b.mem.length < 2 ^ 32) :
    b.endNested = some
      { b with mem := pre ++ toLE 4 inner.length ++ inner, nestedOffset := parent } := by
  have hl : b.mem.length = pre.length + 4 + inner.length := by simp [hmem, Nat.add_assoc]
  have hb := hw.buf_eq
  have hp := hw.pos_eq
  have hlim := hw.limit_eq
  have ha := hw.addr_le
  have hstart : (BitVec.ofNat 32 pre.length).toNat = pre.length := by
    rw [BitVec.toNat_ofNat]
    omega
  have hne : b.nestedOffset ≠ nestedOffsetNone := by
    rw [hoff]
    intro h
    have := congrArg BitVec.toNat h
    rw [hstart, nestedOffsetNone, BitVec.toNat_ofNat] at this
    omega
  have hval : (BitVec.ofNat 32 b.mem.length - BitVec.ofNat 32 pre.length - 4).toNat =
      inner.length := by
    have h4 : (4 : BitVec 32).toNat = 4 := rfl
    simp only [BitVec.toNat_sub, BitVec.toNat_ofNat, h4]
    omega
  have hheader : readAt b.mem pre.length 4 = toLE 4 parent.toNat := by
    have h := readAt_append pre (toLE 4 parent.toNat) inner
    rw [length_toLE] at h
    rw [hmem, h]
  have hpoke : writeAt b.mem pre.length (toLE 4 inner.length) =
      pre ++ toLE 4 inner.length ++ inner := by
    rw [hmem]
    exact writeAt_append _ _ _ _ (by simp)
  have hstep₁ : b.setPos (BitVec.ofNat 32 pre.length) =
      some { b with pos := b.base + pre.length } := by
    rw [setPos_eq (by rw [hstart, ptrAdd_of_lt (by omega)]; omega), hstart, hb,
      ptrAdd_of_lt (by omega)]
  have hstep₂ : ({ b with pos := b.base + pre.length } : IOBuf).getInt32 =
      some ({ b with pos := b.base + pre.length + 4 }, parent) := by
    rw [getInt32_eq (by dsimp only; rw [ptrAdd_of_lt (by omega)]; omega) (by dsimp only; omega)
      (by dsimp only; omega)]
    dsimp only
    rw [ptrAdd_of_lt (by omega), Nat.add_sub_cancel_left, hheader, ofNat_ofLE_toLE_four]
  have hstep₃ : ({ b with pos := b.base + pre.length + 4, nestedOffset := parent } : IOBuf).pokeInt32
      pre.length (BitVec.ofNat 32 b.mem.length - BitVec.ofNat 32 pre.length - 4) =
      some { b with
        pos := b.base + pre.length + 4
        nestedOffset := parent
        mem := pre ++ toLE 4 inner.length ++ inner } := by
    obtain ⟨cap, hcap, -⟩ := hw.capacity_eq
    rw [pokeInt32_eq (by simp [hcap]) (by dsimp only; omega) (by dsimp only; omega)
      (by dsimp only; omega)]
    dsimp only
    rw [hb, Nat.add_sub_cancel_left, hval, hpoke]
  have hstep₄ : ({ b with
        pos := b.base + pre.length + 4
        nestedOffset := parent
        mem := pre ++ toLE 4 inner.length ++ inner } : IOBuf).setPos 0 =
      some { b with mem := pre ++ toLE 4 inner.length ++ inner, nestedOffset := parent } := by
    have h0 : (0 : BitVec 32).toNat = 0 := rfl
    rw [setPos_eq (by dsimp only; rw [h0, ptrAdd_of_lt (by omega)]; omega)]
    dsimp only
    rw [h0, ptrAdd_of_lt (by omega), hb, Nat.add_zero, ← hp]
  rw [IOBuf.endNested, if_neg hne]
  dsimp only
  rw [hw.getPos, hw.getLimit, hoff, hstep₁, Option.bind_some, hstep₂, Option.bind_some]
  dsimp only
  rw [hstart, hstep₃, Option.bind_some, hstep₄]

/-! ## Readers -/

/-- `b` reads `bytes` next: they stand in its memory from its position on and end at or before
its limit, its addresses do not wrap, and its offsets fit in 32 bits. -/
structure Reads (b : IOBuf) (bytes : List UInt8) : Prop where
  layout : ∃ pre post, b.mem = pre ++ bytes ++ post ∧ b.pos = b.base + pre.length
  le_limit : b.pos + bytes.length ≤ b.limit
  buf_le : b.buf ≤ b.pos
  limit_lt : b.limit < 2 ^ 64
  offset_lt : b.limit - b.buf < 2 ^ 32

variable {xs ys : List UInt8}

theorem Writer.reads (hw : Writer b) (hlen : b.mem.length < 2 ^ 32) : Reads b b.mem where
  layout := ⟨[], [], by simp, by simp [hw.pos_eq]⟩
  le_limit := by rw [hw.pos_eq, hw.limit_eq]
  buf_le := by rw [hw.buf_eq, hw.pos_eq]
  limit_lt := by
    have := hw.addr_le
    rw [hw.limit_eq]
    omega
  offset_lt := by
    rw [hw.limit_eq, hw.buf_eq]
    omega

theorem Reads.tryGetBytes (h : Reads b (xs ++ ys)) :
    b.tryGetBytes xs.length = ({ b with pos := b.pos + xs.length }, some b.pos) := by
  have hle := h.le_limit
  have hlt := h.limit_lt
  simp only [List.length_append] at hle
  rw [tryGetBytes_eq (by rw [ptrAdd_of_lt (by omega)]; omega), ptrAdd_of_lt (by omega)]

theorem Reads.load (h : Reads b (xs ++ ys)) : b.load b.pos xs.length = some xs := by
  obtain ⟨pre, post, hmem, hpos⟩ := h.layout
  have hread : readAt b.mem pre.length xs.length = xs := by
    have hsplit : b.mem = pre ++ xs ++ (ys ++ post) := by rw [hmem]; simp
    rw [hsplit, readAt_append]
  rw [load_eq (by omega) (by rw [hmem]; simp only [List.length_append]; omega), hpos,
    Nat.add_sub_cancel_left, hread]

theorem Reads.drop (h : Reads b (xs ++ ys)) : Reads { b with pos := b.pos + xs.length } ys := by
  obtain ⟨pre, post, hmem, hpos⟩ := h.layout
  have hle := h.le_limit
  simp only [List.length_append] at hle
  exact ⟨⟨pre ++ xs, post, by rw [hmem]; simp, by simp [hpos, Nat.add_assoc]⟩,
    by dsimp only; omega, by have := h.buf_le; dsimp only; omega, h.limit_lt, h.offset_lt⟩

theorem Reads.tryGetWord {n v : ℕ} (h : Reads b (toLE n v ++ ys)) :
    b.tryGetWord n = some ({ b with pos := b.pos + n }, some (v % 256 ^ n)) := by
  have hget := h.tryGetBytes
  have hload := h.load
  rw [length_toLE] at hget hload
  rw [IOBuf.tryGetWord, hget]
  dsimp only
  rw [hload, Option.map_some, ofLE_toLE]

theorem sizeOfInt32_ofNat {n : ℕ} (h : n < 2 ^ 31) : sizeOfInt32 (BitVec.ofNat 32 n) = n := by
  have hn : (BitVec.ofNat 32 n).toNat = n := by
    rw [BitVec.toNat_ofNat]
    omega
  rw [sizeOfInt32, BitVec.toInt_eq_toNat_cond, hn, if_pos (by omega)]
  omega

theorem Reads.tryGetBuf {d : List UInt8} (h : Reads b (toLE 4 d.length ++ d ++ ys))
    (hd : d.length < 2 ^ 31) :
    b.tryGetBuf = some ({ b with pos := b.pos + 4 + d.length }, some (b.pos + 4, d.length)) := by
  rw [List.append_assoc] at h
  have hword := h.tryGetWord
  have hbytes := h.drop.tryGetBytes
  rw [length_toLE] at hbytes
  dsimp only at hbytes
  rw [IOBuf.tryGetBuf, IOBuf.tryGetInt32, hword, Option.map_some, Option.bind_some]
  dsimp only
  rw [Nat.mod_eq_of_lt (by omega : d.length < 256 ^ 4), Option.map_some]
  dsimp only
  rw [sizeOfInt32_ofNat hd, hbytes]

theorem Reads.tryGetString {s : List UInt8} (h : Reads b (toLE 4 (s.length + 1) ++ (s ++ [0]) ++ ys))
    (hs : s.length + 1 < 2 ^ 31) :
    b.tryGetString = some ({ b with pos := b.pos + 4 + (s.length + 1) }, some (b.pos + 4)) := by
  have h' : Reads b (toLE 4 (s ++ [0]).length ++ (s ++ [0]) ++ ys) := by simpa using h
  have hbuf := h'.tryGetBuf (by simpa using hs)
  simp only [List.length_append, List.length_singleton] at hbuf
  have hnul : b.loadByte (ptrAdd (b.pos + 4) (s.length + 1 + 2 ^ 64 - 1)) = some 0 := by
    have hlt := h.limit_lt
    have hle := h.le_limit
    simp only [List.length_append, length_toLE, List.length_singleton] at hle
    have hp : ptrAdd (b.pos + 4) (s.length + 1 + 2 ^ 64 - 1) = b.pos + (4 + s.length) := by
      rw [ptrAdd]
      omega
    have h'' : Reads b ((toLE 4 (s.length + 1) ++ s) ++ ([0] ++ ys)) := by simpa using h
    have hload : b.load (b.pos + (toLE 4 (s.length + 1) ++ s).length) 1 = some [0] :=
      h''.drop.load
    rw [hp, loadByte, show 4 + s.length = (toLE 4 (s.length + 1) ++ s).length by simp, hload]
    rfl
  rw [IOBuf.tryGetString, hbuf, Option.bind_some]
  dsimp only
  rw [hnul, Option.bind_some, if_neg (by simp)]

theorem Reads.tryGetString_zero (h : Reads b (toLE 4 0 ++ ys)) :
    b.tryGetString = some ({ b with pos := b.pos + 4 }, some (b.pos + 4)) := by
  have hbuf := (show Reads b (toLE 4 ([] : List UInt8).length ++ [] ++ ys) by simpa using h).tryGetBuf
    (by simp)
  simp only [List.length_nil, Nat.add_zero] at hbuf
  have hnul : b.loadByte (ptrAdd (b.pos + 4) (0 + 2 ^ 64 - 1)) = some 0 := by
    have hlt := h.limit_lt
    have hle := h.le_limit
    simp only [List.length_append, length_toLE] at hle
    have hp : ptrAdd (b.pos + 4) (0 + 2 ^ 64 - 1) = b.pos + [(0 : UInt8), 0, 0].length := by
      rw [ptrAdd]
      simp only [List.length_cons, List.length_nil]
      omega
    have h' : Reads b ([(0 : UInt8), 0, 0] ++ ([0] ++ ys)) := by simpa [toLE] using h
    have hload : b.load (b.pos + [(0 : UInt8), 0, 0].length) 1 = some [0] := h'.drop.load
    rw [hp, loadByte, hload]
    rfl
  rw [IOBuf.tryGetString, hbuf, Option.bind_some]
  dsimp only
  rw [hnul, Option.bind_some, if_neg (by simp)]

theorem Reads.loadCString {s : List UInt8} (h : Reads b (s ++ [0] ++ ys)) (hs : (0 : UInt8) ∉ s) :
    b.loadCString b.pos = some s := by
  obtain ⟨pre, post, hmem, hpos⟩ := h.layout
  have hdrop : b.mem.drop (b.pos - b.base) = s ++ 0 :: (ys ++ post) := by
    rw [hmem, hpos, Nat.add_sub_cancel_left]
    simp
  rw [IOBuf.loadCString, if_pos ⟨by omega, by rw [hdrop]; simp⟩, hdrop,
    List.takeWhile_append_of_pos (by
      intro a ha
      have hne : a ≠ 0 := fun h0 ↦ hs (h0 ▸ ha)
      simpa using hne)]
  simp

theorem Reads.tryGetNested {inner : List UInt8} (h : Reads b (toLE 4 inner.length ++ inner ++ ys))
    (hd : inner.length < 2 ^ 31) :
    b.tryGetNested = some ({ b with pos := b.pos + 4 + inner.length },
      some (initView b.mem b.base (b.pos + 4) inner.length)) := by
  rw [IOBuf.tryGetNested, h.tryGetBuf hd]
  rfl

theorem Reads.view {inner : List UInt8} (h : Reads b (toLE 4 inner.length ++ inner ++ ys))
    (hd : inner.length < 2 ^ 31) :
    Reads (initView b.mem b.base (b.pos + 4) inner.length) inner ∧
      (initView b.mem b.base (b.pos + 4) inner.length).limit =
        (initView b.mem b.base (b.pos + 4) inner.length).pos + inner.length := by
  obtain ⟨pre, post, hmem, hpos⟩ := h.layout
  have hle := h.le_limit
  have hlt := h.limit_lt
  simp only [List.length_append, length_toLE] at hle
  have hlimit : ptrAdd (b.pos + 4) inner.length = b.pos + 4 + inner.length :=
    ptrAdd_of_lt (by omega)
  refine ⟨⟨⟨pre ++ toLE 4 inner.length, ys ++ post, by simp [initView, hmem], ?_⟩, ?_, le_rfl, ?_,
    ?_⟩, ?_⟩
  · simp only [initView, hpos, List.length_append, length_toLE]
    omega
  · simp only [initView, hlimit, le_refl]
  · simp only [initView, hlimit]
    omega
  · simp only [initView, hlimit]
    omega
  · simp only [initView, hlimit]

theorem getEOB_of_pos_eq (h : b.pos = b.limit) : b.getEOB = some () := by
  rw [getEOB, getLimit, getPos, h, BitVec.sub_self, if_neg (by simp)]

theorem Writer.peekRest (hw : Writer b) : b.peekRest = some b.mem := by
  have haddr := hw.addr_le
  have hpos := hw.pos_eq
  have hlimit := hw.limit_eq
  rw [IOBuf.peekRest, tryGetBytes_eq (by rw [ptrAdd_of_lt (by omega)]; omega)]
  simp only []
  rw [load_eq (by omega) (by omega), hpos, Nat.sub_self, hlimit, Nat.add_sub_cancel_left, readAt]
  simp

theorem reads_initView {data : List UInt8} {addr : ℕ} (haddr : addr + 2 ^ 32 ≤ 2 ^ 64)
    (hlen : data.length < 2 ^ 32) : Reads (initView data addr addr data.length) data := by
  have hlimit : ptrAdd addr data.length = addr + data.length := ptrAdd_of_lt (by omega)
  refine ⟨⟨[], [], by simp [initView], by simp [initView]⟩, ?_, le_rfl, ?_, ?_⟩
  · simp only [initView, hlimit, le_refl]
  · simp only [initView, hlimit]
    omega
  · simp only [initView, hlimit]
    omega

end IOBuf

end TxCache
