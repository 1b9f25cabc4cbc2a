import Mathlib

/-!
# Little-endian byte strings

A word of `n` bytes is stored least significant byte first. `toLE n v` writes the low `n` bytes
of `v`, and `ofLE` reads the number a byte string stands for. Reading what was written gives back
`v` modulo `256 ^ n` (`ofLE_toLE`), so a word of width `8 * n` comes back whole
(`ofNat_ofLE_toLE`); writing what was read gives back the bytes (`toLE_ofLE`).

A buffer is a byte string, and a store of some bytes at an offset replaces as many bytes there
(`writeAt`); the last section says what a read at an offset sees after a store and after an
append.
-/

namespace Bytes

/-- The low `n` bytes of `v`, least significant first. -/
def toLE : ℕ → ℕ → List UInt8
  | 0, _ => []
  | n + 1, v => UInt8.ofNat v :: toLE n (v / 256)

/-- The number a byte string stands for, least significant byte first. -/
def ofLE : List UInt8 → ℕ
  | [] => 0
  | b :: bs => b.toNat + 256 * ofLE bs

@[simp] theorem length_toLE (n v : ℕ) : (toLE n v).length = n := by
  induction n generalizing v with
  | zero => rfl
  | succ n ih => simp [toLE, ih]

theorem ofLE_toLE (n v : ℕ) : ofLE (toLE n v) = v % 256 ^ n := by
  induction n generalizing v with
  | zero => simp [toLE, ofLE, Nat.mod_one]
  | succ n ih =>
    rw [toLE, ofLE, ih, UInt8.toNat_ofNat', show (2 : ℕ) ^ 8 = 256 from rfl, pow_succ',
      Nat.mod_mul]

theorem toLE_ofLE (l : List UInt8) : toLE l.length (ofLE l) = l := by
  induction l with
  | nil => rfl
  | cons b bs ih =>
    have hb := UInt8.toNat_lt b
    have hdiv : (b.toNat + 256 * ofLE bs) / 256 = ofLE bs := by omega
    have hmod : UInt8.ofNat (b.toNat + 256 * ofLE bs) = b := by
      apply UInt8.toNat.inj
      rw [UInt8.toNat_ofNat']
      omega
    rw [List.length_cons, toLE, ofLE, hdiv, ih, hmod]

theorem toLE_mod (n v : ℕ) : toLE n (v % 256 ^ n) = toLE n v := by
  induction n generalizing v with
  | zero => rfl
  | succ n ih =>
    have hbyte : UInt8.ofNat (v % 256 ^ (n + 1)) = UInt8.ofNat v := by
      apply UInt8.toNat.inj
      rw [UInt8.toNat_ofNat', UInt8.toNat_ofNat', pow_succ']
      exact Nat.mod_mod_of_dvd v (Dvd.intro _ rfl)
    have hrest : v % 256 ^ (n + 1) / 256 = v / 256 % 256 ^ n := by
      rw [pow_succ', Nat.mod_mul_right_div_self]
    rw [toLE, toLE, hbyte, hrest, ih]

theorem ofNat_toNat_mod {n : ℕ} (x : BitVec (8 * n)) :
    BitVec.ofNat (8 * n) (x.toNat % 256 ^ n) = x := by
  have hlt : x.toNat < 256 ^ n := by
    rw [show (256 : ℕ) = 2 ^ 8 by rfl, ← pow_mul]
    exact x.isLt
  rw [Nat.mod_eq_of_lt hlt, BitVec.ofNat_toNat, BitVec.setWidth_eq]

theorem ofNat_ofLE_toLE {n : ℕ} (x : BitVec (8 * n)) :
    BitVec.ofNat (8 * n) (ofLE (toLE n x.toNat)) = x := by
  rw [ofLE_toLE, ofNat_toNat_mod]

/-! ## Stores and reads at an offset -/

variable {α : Type*}

/-- The bytes of `mem` with `data` stored at offset `off`. -/
def writeAt (mem : List α) (off : ℕ) (data : List α) : List α :=
  mem.take off ++ data ++ mem.drop (off + data.length)

/-- The `n` bytes of `mem` from offset `off`. -/
def readAt (mem : List α) (off n : ℕ) : List α := (mem.drop off).take n

theorem writeAt_append (pre old post data : List α) (h : old.length = data.length) :
    writeAt (pre ++ old ++ post) pre.length data = pre ++ data ++ post := by
  have hpre : (pre ++ old ++ post).take pre.length = pre := by simp
  have hpost : (pre ++ old ++ post).drop (pre.length + data.length) = post := by
    rw [← h, ← List.length_append, List.drop_left]
  rw [writeAt, hpre, hpost]

theorem writeAt_length (mem data : List α) : writeAt mem mem.length data = mem ++ data := by
  simp [writeAt]

theorem readAt_append (pre data post : List α) :
    readAt (pre ++ data ++ post) pre.length data.length = data := by
  simp [readAt, List.append_assoc]

@[simp] theorem length_writeAt_append (pre old post data : List α)
    (h : old.length = data.length) :
    (writeAt (pre ++ old ++ post) pre.length data).length = (pre ++ old ++ post).length := by
  rw [writeAt_append pre old post data h]
  simp [h]

end Bytes
