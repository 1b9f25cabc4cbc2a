import TxCache.Net.Wire

/-!
# The PHP client's marshaller

`phpclient/marshal.c` turns a PHP value into bytes and back. `txcache_wrap` builds the cache key
of a call from the callback's name and its marshalled arguments, stores the marshalled return
value with the output the call echoed, and on a hit reads both back. `Marshal_PutZVal` writes the
value's type code as an `int32_t`, then a `bool` as one byte, a `long` and a `double` as eight, a
string as `IOBuf_PutBuf` does, and an array as its count and, for each element in the order the
hash table iterates them, its key and its value. A string key is its length and its bytes, an
integer key the sentinel `(uint32_t)~0` and the index as an `int64_t`. A resource or an object
stops the write after its type code, and the call returns false.

`Marshal_GetZVal` reads the same back. It recurses once per level of nesting, and nothing in the
code bounds the depth: the model takes `fuel` for it and is `none` when it runs out.

## The Zend engine

A `ZVal` is a PHP 5 `zval` by its type, with the type codes of PHP 5's `zend.h`. An array is the
list of its elements in iteration order, so `zend_hash_num_elements` is its length.
`add_index_zval` and `add_assoc_zval_ex` are `zend_hash_update`: a key already in the array gets
the new value in its place, and a new key goes last (`hashUpdate`). `add_assoc_zval_ex` goes
through `zend_symtable_update`, which turns a string key that spells a decimal integer into that
index; PHP makes the same conversion on every insertion, so no array holds such a string key, and
the model leaves it out.

## What is proved

Writing a value appends `encode`, the bytes up to the type code of the first value that cannot be
marshalled, and returns whether there was none (`Writer.putZVal`). Reading where a well-formed
value's encoding stands, with fuel for its depth, gives the value back and moves past exactly its
bytes (`Reads.getZVal`). A value is well formed when it can be marshalled, its lengths and counts
are below `2 ^ 31`, so that they read back as non-negative `int32_t`s, its arrays have distinct
keys, and each `bool` is the sign extension of its low byte, as `0` and `1` are. From the two
follow that a cache hit gives back the return value and the output of the call that stored them
(`readHit_putResult`), and that the encoding is prefix-free, so that two calls share a cache key
only when they call one function with equal arguments (`wrapKey_injective`).
-/

namespace TxCache

open Bytes IOBuf

/-- The key of an element of a PHP array: a string key, its `nKeyLength` bytes (with the
terminator PHP 5 counts in them), or an integer index. -/
inductive ZKey
  | str (key : List UInt8)
  | index (i : BitVec 64)
deriving DecidableEq, Repr

/-- A PHP 5 `zval` by its type: a `long` and a `bool` keep `lval`, a `double` the bits of `dval`,
a string its bytes, and an array its elements in the order its hash table iterates them. -/
inductive ZVal
  | null
  | long (lval : BitVec 64)
  | double (dval : BitVec 64)
  | bool (lval : BitVec 64)
  | array (elems : List (ZKey × ZVal))
  | object
  | string (s : List UInt8)
  | resource (lval : BitVec 64)
deriving Repr

namespace Marshal

/-! ## The model -/

/-- `IS_NULL`. -/
def isNull : BitVec 32 := 0
/-- `IS_LONG`. -/
def isLong : BitVec 32 := 1
/-- `IS_DOUBLE`. -/
def isDouble : BitVec 32 := 2
/-- `IS_BOOL`. -/
def isBool : BitVec 32 := 3
/-- `IS_ARRAY`. -/
def isArray : BitVec 32 := 4
/-- `IS_OBJECT`. -/
def isObject : BitVec 32 := 5
/-- `IS_STRING`. -/
def isString : BitVec 32 := 6
/-- `IS_RESOURCE`. -/
def isResource : BitVec 32 := 7

/-- `zend_hash_update`, as `add_index_zval` and `add_assoc_zval_ex` use it: a key already in the
array gets the new value in its place, and a new key goes last. -/
def hashUpdate (arr : List (ZKey × ZVal)) (k : ZKey) (v : ZVal) : List (ZKey × ZVal) :=
  if k ∈ arr.map Prod.fst then arr.map fun p ↦ if p.1 = k then (k, v) else p
  else arr ++ [(k, v)]

/-- The key of an element in `MarshalPutArray`: a string key's length and bytes, or the sentinel
`(uint32_t)~0` and the index. -/
def putKey (b : IOBuf) : ZKey → Option IOBuf
  | .str key => (b.putInt32 (BitVec.ofNat 32 key.length)).bind fun b ↦ b.putBytes key
  | .index i => (b.putInt32 (BitVec.allOnes 32)).bind fun b ↦ b.putInt64 i

mutual

/-- `Marshal_PutZVal`: the type code, then the value; a resource or an object returns false after
its type code. The array case holds `MarshalPutArray`'s count, and `putElems` its loop. -/
def putZVal (b : IOBuf) : ZVal → Option (IOBuf × Bool)
  | .null => (b.putInt32 isNull).map (·, true)
  | .bool lval => (b.putInt32 isBool).bind fun b ↦ (b.putInt8 (lval.setWidth 8)).map (·, true)
  | .long lval => (b.putInt32 isLong).bind fun b ↦ (b.putInt64 lval).map (·, true)
  | .double dval => (b.putInt32 isDouble).bind fun b ↦ (b.putDouble dval).map (·, true)
  | .string s => (b.putInt32 isString).bind fun b ↦ (b.putBuf s).map (·, true)
  | .resource _ => (b.putInt32 isResource).map (·, false)
  | .array elems =>
    (b.putInt32 isArray).bind fun b ↦
      (b.putInt32 (BitVec.ofNat 32 elems.length)).bind fun b ↦ putElems b elems
  | .object => (b.putInt32 isObject).map (·, false)

/-- The loop of `MarshalPutArray`: each element's key and value, until a value fails. -/
def putElems (b : IOBuf) : List (ZKey × ZVal) → Option (IOBuf × Bool)
  | [] => some (b, true)
  | (k, v) :: rest =>
    (putKey b k).bind fun b ↦
      (putZVal b v).bind fun (b, ok) ↦ if ok then putElems b rest else some (b, false)

end

/-- The loop of `MarshalGetArray`: `n` more elements, each a key and a value that `getVal`
(`Marshal_GetZVal`) reads, added to `arr`. The second component is `none` when a read fails. -/
def getElems (getVal : IOBuf → Option (IOBuf × Option ZVal)) :
    ℕ → IOBuf → List (ZKey × ZVal) → Option (IOBuf × Option (List (ZKey × ZVal)))
  | 0, b, arr => some (b, some arr)
  | n + 1, b, arr =>
    (b.tryGetInt32).bind fun (b, keyLen) ↦
      match keyLen with
      | none => some (b, none)
      | some keyLen =>
        if keyLen = BitVec.allOnes 32 then
          (b.tryGetInt64).bind fun (b, i) ↦
            match i with
            | none => some (b, none)
            | some i =>
              (getVal b).bind fun (b, value) ↦
                match value with
                | none => some (b, none)
                | some value => getElems getVal n b (hashUpdate arr (.index i) value)
        else
          -- a negative length becomes a huge `size_t`, which moves `pos` back after the wrap
          match b.tryGetBytes (sizeOfInt32 keyLen) with
          | (b, none) => some (b, none)
          | (b, some key) =>
            (getVal b).bind fun (b, value) ↦
              match value with
              | none => some (b, none)
              | some value =>
                -- `add_assoc_zval_ex` copies the `keyLen` bytes at `key`
                (b.load key keyLen.toNat).bind fun keyBytes ↦
                  getElems getVal n b (hashUpdate arr (.str keyBytes) value)

/-- `MarshalGetArray`: `array_init`, the count, and the loop, which runs `count` times when the
count is positive and not at all otherwise. -/
def getArray (getVal : IOBuf → Option (IOBuf × Option ZVal)) (b : IOBuf) :
    Option (IOBuf × Option (List (ZKey × ZVal))) :=
  (b.tryGetInt32).bind fun (b, count) ↦
    match count with
    | none => some (b, none)
    | some count => getElems getVal count.toInt.toNat b []

/-- The `switch` of `Marshal_GetZVal` on the type code it read, with `getVal` for the values of an
array. A `bool` is read as an `int8_t` and widened with its sign. -/
def getValue (getVal : IOBuf → Option (IOBuf × Option ZVal)) (b : IOBuf) (type : BitVec 32) :
    Option (IOBuf × Option ZVal) :=
  if type = isNull then some (b, some .null)
  else if type = isBool then
    (b.tryGetInt8).map fun (b, v) ↦ (b, v.map fun v ↦ .bool (v.signExtend 64))
  else if type = isLong then (b.tryGetInt64).map fun (b, v) ↦ (b, v.map .long)
  else if type = isDouble then (b.tryGetDouble).map fun (b, v) ↦ (b, v.map .double)
  else if type = isString then
    (b.tryGetBuf).bind fun (b', r) ↦
      match r with
      | none => some (b', none)
      | some (res, len) => (b.load res len).map fun s ↦ (b', some (.string s))
  else if type = isArray then (getArray getVal b).map fun (b, arr) ↦ (b, arr.map .array)
  else some (b, none)

/-- `Marshal_GetZVal`, the depth of its recursion bounded by `fuel`: the value read, or `none` in
the second component when it returns false. -/
def getZVal : ℕ → IOBuf → Option (IOBuf × Option ZVal)
  | 0, _ => none
  | fuel + 1, b =>
    (b.tryGetInt32).bind fun (b, type) ↦
      match type with
      | none => some (b, none)
      | some type => getValue (getZVal fuel) b type

/-! ## `txcache_wrap` -/

/-- The arguments of a wrapped call that go into its key: those after the first three, and after
a fourth that is a database resource. -/
def keyArgs (args : List ZVal) : List ZVal :=
  match args[3]? with
  | some (ZVal.resource _) => args.drop 4
  | _ => args.drop 3

/-- The arguments of the key, in order, until one cannot be marshalled. -/
def putArgs (b : IOBuf) : List ZVal → Option (IOBuf × Bool)
  | [] => some (b, true)
  | v :: rest => (putZVal b v).bind fun (b, ok) ↦ if ok then putArgs b rest else some (b, false)

/-- The cache key `txcache_wrap` builds for a call, in a buffer at `addr`: the callback's name as
a string, then the arguments, and the key data `IOBuf_PeekRest` shows of them. It is `some none`
when an argument cannot be marshalled, and the call is not cached. -/
def wrapKey (addr : ℕ) (name : List UInt8) (args : List ZVal) : Option (Option (List UInt8)) :=
  ((init addr).putString name).bind fun key ↦
    (putArgs key (keyArgs args)).bind fun (key, ok) ↦
      if ok then (key.peekRest).map some else some none

/-- What `txcache_wrap` stores after a call that ran, in a buffer at `addr`: the return value,
then the output the call echoed; `false` when the return value cannot be marshalled. -/
def putResult (addr : ℕ) (returnValue : ZVal) (ob : List UInt8) : Option (IOBuf × Bool) :=
  (putZVal (init addr) returnValue).bind fun (result, ok) ↦
    if ok then (result.putBuf ob).map (·, true) else some (result, false)

/-- A cache hit in `txcache_wrap`: a view of the cached bytes at `addr`, the return value
(`Marshal_GetZVal`, whose failure panics), and the output that `zend_write` echoes
(`IOBuf_TryGetBuf`, whose failure panics). -/
def readHit (fuel addr : ℕ) (resultData : List UInt8) : Option (ZVal × List UInt8) :=
  (getZVal fuel (initView resultData addr addr resultData.length)).bind fun (result, v) ↦
    v.bind fun v ↦
      (result.tryGetBuf).bind fun (result', ob) ↦
        ob.bind fun (obBuf, obBufLen) ↦ (result'.load obBuf obBufLen).map (v, ·)

/-! ## The encoding -/

mutual

/-- A value `Marshal_PutZVal` can write: it holds no resource and no object. -/
def marshalable : ZVal → Bool
  | .resource _ => false
  | .object => false
  | .array elems => marshalableElems elems
  | _ => true

def marshalableElems : List (ZKey × ZVal) → Bool
  | [] => true
  | (_, v) :: rest => marshalable v && marshalableElems rest

end

/-- The bytes of a key. -/
def encodeKey : ZKey → List UInt8
  | .str key => toLE 4 key.length ++ key
  | .index i => toLE 4 (BitVec.allOnes 32).toNat ++ toLE 8 i.toNat

mutual

/-- The bytes `Marshal_PutZVal` writes for a value, up to the type code of the first value it
cannot marshal. -/
def encode : ZVal → List UInt8
  | .null => toLE 4 isNull.toNat
  | .long lval => toLE 4 isLong.toNat ++ toLE 8 lval.toNat
  | .double dval => toLE 4 isDouble.toNat ++ toLE 8 dval.toNat
  | .bool lval => toLE 4 isBool.toNat ++ toLE 1 (lval.setWidth 8).toNat
  | .array elems => toLE 4 isArray.toNat ++ (toLE 4 elems.length ++ encodeElems elems)
  | .object => toLE 4 isObject.toNat
  | .string s => toLE 4 isString.toNat ++ (toLE 4 s.length ++ s)
  | .resource _ => toLE 4 isResource.toNat

def encodeElems : List (ZKey × ZVal) → List UInt8
  | [] => []
  | (k, v) :: rest => encodeKey k ++ encode v ++ if marshalable v then encodeElems rest else []

end

/-- A key whose length reads back as a non-negative `int32_t`, which is not the sentinel. -/
def wellFormedKey : ZKey → Bool
  | .str key => key.length < 2 ^ 31
  | .index _ => true

mutual

/-- A value that reads back as it was written. -/
def wellFormed : ZVal → Bool
  | .bool lval => (lval.setWidth 8).signExtend 64 == lval
  | .string s => s.length < 2 ^ 31
  | .array elems =>
    elems.length < 2 ^ 31 && decide (elems.map Prod.fst).Nodup && wellFormedElems elems
  | .resource _ => false
  | .object => false
  | _ => true

def wellFormedElems : List (ZKey × ZVal) → Bool
  | [] => true
  | (k, v) :: rest => wellFormedKey k && wellFormed v && wellFormedElems rest

end

mutual

/-- The fuel `Marshal_GetZVal` needs for a value: one more than its elements need. -/
def depth : ZVal → ℕ
  | .array elems => depthElems elems + 1
  | _ => 1

def depthElems : List (ZKey × ZVal) → ℕ
  | [] => 0
  | (_, v) :: rest => max (depth v) (depthElems rest)

end

example : wellFormed (.array [(.str [97, 0], .bool 1), (.index 7, .string [0, 1])]) = true := by
  decide

/-- Two elements under one key are not well formed. -/
example : wellFormed (.array [(.index 7, .null), (.index 7, .null)]) = false := by decide

/-! ## Small lemmas -/

theorem toLE_four_ofNat (n : ℕ) : toLE 4 (BitVec.ofNat 32 n).toNat = toLE 4 n := by
  rw [BitVec.toNat_ofNat, show (2 : ℕ) ^ 32 = 256 ^ 4 by rfl, toLE_mod]

theorem toInt_toNat_ofNat {n : ℕ} (h : n < 2 ^ 31) : (BitVec.ofNat 32 n).toInt.toNat = n := by
  have hn : (BitVec.ofNat 32 n).toNat = n := by
    rw [BitVec.toNat_ofNat]
    omega
  rw [BitVec.toInt_eq_toNat_cond, hn, if_pos (by omega)]
  omega

theorem ofNat_ne_allOnes {n : ℕ} (h : n < 2 ^ 31) : BitVec.ofNat 32 n ≠ BitVec.allOnes 32 := by
  intro heq
  have := congrArg BitVec.toNat heq
  rw [BitVec.toNat_ofNat, BitVec.toNat_allOnes] at this
  omega

@[simp] theorem load_with_pos (b : IOBuf) (p q n : ℕ) :
    ({ b with pos := p } : IOBuf).load q n = b.load q n := rfl

theorem hashUpdate_of_not_mem {arr : List (ZKey × ZVal)} {k : ZKey} (v : ZVal)
    (h : k ∉ arr.map Prod.fst) : hashUpdate arr k v = arr ++ [(k, v)] := by
  rw [hashUpdate, if_neg h]

mutual

theorem marshalable_of_wellFormed : ∀ {v : ZVal}, wellFormed v = true → marshalable v = true
  | .null, _ | .long _, _ | .double _, _ | .bool _, _ | .string _, _ => rfl
  | .array elems, h => by
    simp only [wellFormed, Bool.and_eq_true] at h
    exact marshalableElems_of_wellFormedElems h.2
  | .object, h | .resource _, h => by simp [wellFormed] at h

theorem marshalableElems_of_wellFormedElems :
    ∀ {elems : List (ZKey × ZVal)}, wellFormedElems elems = true → marshalableElems elems = true
  | [], _ => rfl
  | (_, v) :: rest, h => by
    simp only [wellFormedElems, Bool.and_eq_true] at h
    simp only [marshalableElems, marshalable_of_wellFormed h.1.2,
      marshalableElems_of_wellFormedElems h.2, Bool.and_self]

end

theorem encodeElems_cons_of_marshalable {k : ZKey} {v : ZVal} {rest : List (ZKey × ZVal)}
    (h : marshalable v = true) :
    encodeElems ((k, v) :: rest) = encodeKey k ++ (encode v ++ encodeElems rest) := by
  rw [encodeElems, if_pos h, List.append_assoc]

theorem four_le_length_encode (v : ZVal) : 4 ≤ (encode v).length := by
  cases v <;> simp [encode]

/-! ## One step of the reader -/

variable {r : IOBuf} {getVal : IOBuf → Option (IOBuf × Option ZVal)} {fuel n : ℕ}
  {arr : List (ZKey × ZVal)}

theorem getZVal_succ {b' : IOBuf} {type : BitVec 32}
    (h : r.tryGetInt32 = some (b', some type)) :
    getZVal (fuel + 1) r = getValue (getZVal fuel) b' type := by
  rw [getZVal, h, Option.bind_some]

@[simp] theorem getValue_isNull (b : IOBuf) : getValue getVal b isNull = some (b, some .null) := by
  simp [getValue]

theorem getValue_isBool (b : IOBuf) :
    getValue getVal b isBool =
      (b.tryGetInt8).map fun (b, v) ↦ (b, v.map fun v ↦ .bool (v.signExtend 64)) := by
  simp [getValue, isNull, isBool]

theorem getValue_isLong (b : IOBuf) :
    getValue getVal b isLong = (b.tryGetInt64).map fun (b, v) ↦ (b, v.map .long) := by
  simp [getValue, isNull, isBool, isLong]

theorem getValue_isDouble (b : IOBuf) :
    getValue getVal b isDouble = (b.tryGetDouble).map fun (b, v) ↦ (b, v.map .double) := by
  simp [getValue, isNull, isBool, isLong, isDouble]

theorem getValue_isString (b : IOBuf) :
    getValue getVal b isString =
      (b.tryGetBuf).bind fun (b', r) ↦
        match r with
        | none => some (b', none)
        | some (res, len) => (b.load res len).map fun s ↦ (b', some (.string s)) := by
  simp [getValue, isNull, isBool, isLong, isDouble, isString]

theorem getValue_isArray (b : IOBuf) :
    getValue getVal b isArray = (getArray getVal b).map fun (b, arr) ↦ (b, arr.map .array) := by
  simp [getValue, isNull, isBool, isLong, isDouble, isString, isArray]

theorem getElems_index {b₁ b₂ b₃ : IOBuf} {i : BitVec 64} {v : ZVal}
    (h₁ : r.tryGetInt32 = some (b₁, some (BitVec.allOnes 32)))
    (h₂ : b₁.tryGetInt64 = some (b₂, some i)) (h₃ : getVal b₂ = some (b₃, some v)) :
    getElems getVal (n + 1) r arr = getElems getVal n b₃ (hashUpdate arr (.index i) v) := by
  rw [getElems, h₁, Option.bind_some]
  simp only [if_true, h₂, Option.bind_some, h₃]

theorem getElems_str {b₁ b₂ b₃ : IOBuf} {keyLen : BitVec 32} {key : ℕ} {keyBytes : List UInt8}
    {v : ZVal} (h₁ : r.tryGetInt32 = some (b₁, some keyLen)) (hne : keyLen ≠ BitVec.allOnes 32)
    (h₂ : b₁.tryGetBytes (sizeOfInt32 keyLen) = (b₂, some key))
    (h₃ : getVal b₂ = some (b₃, some v)) (h₄ : b₃.load key keyLen.toNat = some keyBytes) :
    getElems getVal (n + 1) r arr = getElems getVal n b₃ (hashUpdate arr (.str keyBytes) v) := by
  rw [getElems, h₁, Option.bind_some]
  simp only [if_neg hne, h₂, h₃, Option.bind_some, h₄]

end Marshal

namespace IOBuf

open Marshal

/-! ## Writing appends the encoding -/

variable {b : IOBuf}

theorem Writer.putKey (hw : Writer b) (k : ZKey) :
    ∃ cap, putKey b k = some (b.appendBytes (encodeKey k) cap) ∧
      (b.mem ++ encodeKey k).length ≤ cap ∧ 0 < cap := by
  cases k with
  | str key =>
    obtain ⟨c₁, h₁, hle₁, hpos₁⟩ := hw.putBytes (toLE 4 key.length)
    obtain ⟨c₂, h₂, hle₂, hpos₂⟩ := (hw.appendBytes hle₁ hpos₁).putBytes key
    refine ⟨c₂, ?_, by simpa [encodeKey] using hle₂, hpos₂⟩
    rw [Marshal.putKey, IOBuf.putInt32, toLE_four_ofNat, h₁, Option.bind_some, h₂,
      appendBytes_appendBytes, encodeKey]
  | index i =>
    obtain ⟨c₁, h₁, hle₁, hpos₁⟩ := hw.putBytes (toLE 4 (BitVec.allOnes 32).toNat)
    obtain ⟨c₂, h₂, hle₂, hpos₂⟩ := (hw.appendBytes hle₁ hpos₁).putBytes (toLE 8 i.toNat)
    refine ⟨c₂, ?_, by simpa [encodeKey] using hle₂, hpos₂⟩
    rw [Marshal.putKey, IOBuf.putInt32, h₁, Option.bind_some, IOBuf.putInt64, h₂,
      appendBytes_appendBytes, encodeKey]

theorem Writer.putCode_then (hw : Writer b) (code : BitVec 32) {data : List UInt8}
    (put : IOBuf → Option IOBuf)
    (hput : ∀ {b : IOBuf}, Writer b →
      ∃ cap, put b = some (b.appendBytes data cap) ∧ (b.mem ++ data).length ≤ cap ∧ 0 < cap) :
    ∃ cap, ((b.putInt32 code).bind fun b ↦ (put b).map (·, true)) =
        some (b.appendBytes (toLE 4 code.toNat ++ data) cap, true) ∧
      (b.mem ++ (toLE 4 code.toNat ++ data)).length ≤ cap ∧ 0 < cap := by
  obtain ⟨c₁, h₁, hle₁, hpos₁⟩ := hw.putBytes (toLE 4 code.toNat)
  obtain ⟨c₂, h₂, hle₂, hpos₂⟩ := hput (hw.appendBytes hle₁ hpos₁)
  refine ⟨c₂, ?_, by simpa using hle₂, hpos₂⟩
  rw [IOBuf.putInt32, h₁, Option.bind_some, h₂, Option.map_some, appendBytes_appendBytes]

theorem Writer.putCode_only (hw : Writer b) (code : BitVec 32) :
    ∃ cap, (b.putInt32 code).map (·, false) = some (b.appendBytes (toLE 4 code.toNat) cap, false) ∧
      (b.mem ++ toLE 4 code.toNat).length ≤ cap ∧ 0 < cap := by
  obtain ⟨c₁, h₁, hle₁, hpos₁⟩ := hw.putBytes (toLE 4 code.toNat)
  exact ⟨c₁, by rw [IOBuf.putInt32, h₁, Option.map_some], hle₁, hpos₁⟩

mutual

theorem Writer.putZVal : ∀ (v : ZVal) {b : IOBuf}, Writer b →
    ∃ cap, putZVal b v = some (b.appendBytes (encode v) cap, marshalable v) ∧
      (b.mem ++ encode v).length ≤ cap ∧ 0 < cap
  | .null, b, hw => by
    obtain ⟨c, h, hle, hpos⟩ := hw.putBytes (toLE 4 isNull.toNat)
    exact ⟨c, by rw [Marshal.putZVal, IOBuf.putInt32, h, Option.map_some]; rfl, hle, hpos⟩
  | .bool lval, _, hw => by
    rw [Marshal.putZVal]
    exact hw.putCode_then isBool (fun b ↦ b.putInt8 (lval.setWidth 8)) fun hw ↦ hw.putBytes _
  | .long lval, _, hw => by
    rw [Marshal.putZVal]
    exact hw.putCode_then isLong (fun b ↦ b.putInt64 lval) fun hw ↦ hw.putBytes _
  | .double dval, _, hw => by
    rw [Marshal.putZVal]
    exact hw.putCode_then isDouble (fun b ↦ b.putDouble dval) fun hw ↦ hw.putBytes _
  | .string s, _, hw => by
    rw [Marshal.putZVal]
    exact hw.putCode_then isString (fun b ↦ b.putBuf s) fun hw ↦ hw.putBuf s
  | .resource _, _, hw => by
    rw [Marshal.putZVal]
    exact hw.putCode_only isResource
  | .object, _, hw => by
    rw [Marshal.putZVal]
    exact hw.putCode_only isObject
  | .array elems, b, hw => by
    obtain ⟨c₁, h₁, hle₁, hpos₁⟩ := hw.putBytes (toLE 4 isArray.toNat)
    have hw₁ := hw.appendBytes hle₁ hpos₁
    obtain ⟨c₂, h₂, hle₂, hpos₂⟩ := hw₁.putBytes (toLE 4 elems.length)
    obtain ⟨c₃, h₃, hle₃, hpos₃⟩ := Writer.putElems elems (hw₁.appendBytes hle₂ hpos₂)
    refine ⟨c₃, ?_, by simpa [encode] using hle₃, hpos₃⟩
    rw [Marshal.putZVal, IOBuf.putInt32, h₁, Option.bind_some, IOBuf.putInt32, toLE_four_ofNat, h₂,
      Option.bind_some, h₃, appendBytes_appendBytes, appendBytes_appendBytes]
    simp [encode, marshalable]

theorem Writer.putElems : ∀ (elems : List (ZKey × ZVal)) {b : IOBuf}, Writer b →
    ∃ cap, putElems b elems = some (b.appendBytes (encodeElems elems) cap, marshalableElems elems) ∧
      (b.mem ++ encodeElems elems).length ≤ cap ∧ 0 < cap
  | [], b, hw => by
    obtain ⟨cap, hcap, hle, hpos⟩ := hw.capacity_eq
    exact ⟨cap, by rw [Marshal.putElems, encodeElems, appendBytes_nil hcap]; rfl,
      by simpa [encodeElems] using hle, hpos⟩
  | (k, v) :: rest, b, hw => by
    obtain ⟨c₁, h₁, hle₁, hpos₁⟩ := hw.putKey k
    have hw₁ := hw.appendBytes hle₁ hpos₁
    obtain ⟨c₂, h₂, hle₂, hpos₂⟩ := Writer.putZVal v hw₁
    rw [Marshal.putElems, h₁, Option.bind_some, h₂, Option.bind_some]
    simp only []
    cases hm : marshalable v with
    | true =>
      obtain ⟨c₃, h₃, hle₃, hpos₃⟩ := Writer.putElems rest (hw₁.appendBytes hle₂ hpos₂)
      refine ⟨c₃, ?_, by simpa [encodeElems, hm] using hle₃, hpos₃⟩
      rw [if_pos rfl, h₃, appendBytes_appendBytes, appendBytes_appendBytes]
      simp [encodeElems, marshalableElems, hm]
    | false =>
      -- the loop stops: the key and what was written of the value stay in the buffer
      refine ⟨c₂, ?_, by simpa [encodeElems, hm] using hle₂, hpos₂⟩
      rw [if_neg (by simp), appendBytes_appendBytes]
      simp [encodeElems, marshalableElems, hm]

end

/-! ## Reading gives the value back -/

variable {r : IOBuf} {ys : List UInt8}

theorem Reads.tryGetInt8_eq {x : BitVec 8} (h : Reads r (toLE 1 x.toNat ++ ys)) :
    r.tryGetInt8 = some ({ r with pos := r.pos + 1 }, some x) :=
  Reads.tryGetWord_ofNat (n := 1) h

theorem Reads.tryGetInt32_eq {x : BitVec 32} (h : Reads r (toLE 4 x.toNat ++ ys)) :
    r.tryGetInt32 = some ({ r with pos := r.pos + 4 }, some x) :=
  Reads.tryGetWord_ofNat (n := 4) h

theorem Reads.tryGetInt64_eq {x : BitVec 64} (h : Reads r (toLE 8 x.toNat ++ ys)) :
    r.tryGetInt64 = some ({ r with pos := r.pos + 8 }, some x) :=
  Reads.tryGetWord_ofNat (n := 8) h

theorem Reads.tryGetDouble_eq {x : BitVec 64} (h : Reads r (toLE 8 x.toNat ++ ys)) :
    r.tryGetDouble = some ({ r with pos := r.pos + 8 }, some x) :=
  Reads.tryGetWord_ofNat (n := 8) h

theorem Reads.dropWord {n v : ℕ} (h : Reads r (toLE n v ++ ys)) :
    Reads { r with pos := r.pos + n } ys := by
  have h' := h.drop
  rwa [length_toLE] at h'

theorem Reads.tryGetCount {n : ℕ} (h : Reads r (toLE 4 n ++ ys)) :
    r.tryGetInt32 = some ({ r with pos := r.pos + 4 }, some (BitVec.ofNat 32 n)) := by
  rw [← toLE_four_ofNat] at h
  exact h.tryGetInt32_eq

mutual

theorem Reads.getZVal : ∀ (v : ZVal) {r : IOBuf} {ys : List UInt8} {fuel : ℕ},
    Reads r (encode v ++ ys) → wellFormed v = true → depth v ≤ fuel →
    getZVal fuel r = some ({ r with pos := r.pos + (encode v).length }, some v)
  | .null, r, ys, fuel, h, _, hd => by
    obtain ⟨fuel, rfl⟩ : ∃ f, fuel = f + 1 := ⟨fuel - 1, by simp [depth] at hd; omega⟩
    rw [getZVal_succ h.tryGetInt32_eq, getValue_isNull]
    simp [encode]
  | .bool lval, r, ys, fuel, h, hwf, hd => by
    obtain ⟨fuel, rfl⟩ : ∃ f, fuel = f + 1 := ⟨fuel - 1, by simp [depth] at hd; omega⟩
    have hext : (lval.setWidth 8).signExtend 64 = lval := by simpa [wellFormed] using hwf
    simp only [encode, List.append_assoc] at h
    rw [getZVal_succ h.tryGetInt32_eq, getValue_isBool, h.dropWord.tryGetInt8_eq]
    simp [encode, hext, Nat.add_assoc]
  | .long lval, r, ys, fuel, h, _, hd => by
    obtain ⟨fuel, rfl⟩ : ∃ f, fuel = f + 1 := ⟨fuel - 1, by simp [depth] at hd; omega⟩
    simp only [encode, List.append_assoc] at h
    rw [getZVal_succ h.tryGetInt32_eq, getValue_isLong, h.dropWord.tryGetInt64_eq]
    simp [encode, Nat.add_assoc]
  | .double dval, r, ys, fuel, h, _, hd => by
    obtain ⟨fuel, rfl⟩ : ∃ f, fuel = f + 1 := ⟨fuel - 1, by simp [depth] at hd; omega⟩
    simp only [encode, List.append_assoc] at h
    rw [getZVal_succ h.tryGetInt32_eq, getValue_isDouble, h.dropWord.tryGetDouble_eq]
    simp [encode, Nat.add_assoc]
  | .string s, r, ys, fuel, h, hwf, hd => by
    obtain ⟨fuel, rfl⟩ : ∃ f, fuel = f + 1 := ⟨fuel - 1, by simp [depth] at hd; omega⟩
    have hs : s.length < 2 ^ 31 := by simpa [wellFormed] using hwf
    simp only [encode, List.append_assoc] at h
    have h₁ : Reads { r with pos := r.pos + 4 } (toLE 4 s.length ++ s ++ ys) := by
      simpa using h.dropWord
    rw [getZVal_succ h.tryGetInt32_eq, getValue_isString, h₁.tryGetBuf hs, Option.bind_some]
    simp only []
    rw [h₁.load_after_header, Option.map_some]
    simp only [encode, List.length_append, length_toLE, Nat.add_assoc]
  | .array elems, r, ys, fuel, h, hwf, hd => by
    obtain ⟨fuel, rfl⟩ : ∃ f, fuel = f + 1 := ⟨fuel - 1, by simp [depth] at hd; omega⟩
    simp only [wellFormed, Bool.and_eq_true, decide_eq_true_eq] at hwf
    obtain ⟨⟨hcount, hnodup⟩, hwf⟩ := hwf
    have hd' : depthElems elems ≤ fuel := by simp [depth] at hd; omega
    simp only [encode, List.append_assoc] at h
    have h₁ := h.dropWord
    have hall := Reads.getElems elems [] h₁.dropWord hwf (by simpa using hnodup) hd'
    rw [getZVal_succ h.tryGetInt32_eq, getValue_isArray, getArray, h₁.tryGetCount,
      Option.bind_some]
    simp only []
    rw [toInt_toNat_ofNat hcount, hall, Option.map_some]
    simp only [encode, List.length_append, length_toLE, List.nil_append, Nat.add_assoc,
      Option.map_some]
  | .object, _, _, _, _, hwf, _ => by simp [wellFormed] at hwf
  | .resource _, _, _, _, _, hwf, _ => by simp [wellFormed] at hwf

theorem Reads.getElems : ∀ (elems : List (ZKey × ZVal)) {r : IOBuf} {ys : List UInt8} {fuel : ℕ}
    (arr : List (ZKey × ZVal)), Reads r (encodeElems elems ++ ys) →
    wellFormedElems elems = true → ((arr ++ elems).map Prod.fst).Nodup →
    depthElems elems ≤ fuel →
    getElems (getZVal fuel) elems.length r arr =
      some ({ r with pos := r.pos + (encodeElems elems).length }, some (arr ++ elems))
  | [], r, _, _, arr, _, _, _, _ => by simp [Marshal.getElems, encodeElems]
  | (k, v) :: rest, r, ys, fuel, arr, h, hwf, hnodup, hd => by
    simp only [wellFormedElems, Bool.and_eq_true] at hwf
    obtain ⟨⟨hk, hv⟩, hrest⟩ := hwf
    have hdv : depth v ≤ fuel := le_trans (le_max_left _ _) hd
    have hdr : depthElems rest ≤ fuel := le_trans (le_max_right _ _) hd
    -- the key is new, so `zend_hash_update` puts the element last
    have hnew : k ∉ arr.map Prod.fst := by
      simp only [List.map_append, List.map_cons, List.nodup_append] at hnodup
      exact fun hmem ↦ hnodup.2.2 _ hmem _ List.mem_cons_self rfl
    have hnodup' : (((arr ++ [(k, v)]) ++ rest).map Prod.fst).Nodup := by simpa using hnodup
    have hcons : encodeElems ((k, v) :: rest) = encodeKey k ++ (encode v ++ encodeElems rest) :=
      encodeElems_cons_of_marshalable (marshalable_of_wellFormed hv)
    rw [hcons] at h
    cases k with
    | index i =>
      simp only [encodeKey, List.append_assoc] at h
      have h₂ := h.dropWord
      have h₃ := h₂.dropWord
      have hval := Reads.getZVal v h₃ hv hdv
      have hrd := Reads.getElems rest (arr ++ [(.index i, v)]) h₃.drop hrest hnodup' hdr
      rw [List.length_cons, getElems_index h.tryGetInt32_eq h₂.tryGetInt64_eq hval,
        hashUpdate_of_not_mem v hnew, hrd, hcons]
      simp only [encodeKey, List.length_append, length_toLE, List.append_assoc, List.singleton_append,
        Nat.add_assoc]
    | str key =>
      have hkey : key.length < 2 ^ 31 := by simpa [wellFormedKey] using hk
      simp only [encodeKey, List.append_assoc] at h
      have h₂ := h.dropWord
      have h₃ := h₂.drop
      have hval := Reads.getZVal v h₃ hv hdv
      have hbytes : ({ r with pos := r.pos + 4 } : IOBuf).tryGetBytes
          (sizeOfInt32 (BitVec.ofNat 32 key.length)) =
          ({ r with pos := r.pos + 4 + key.length }, some (r.pos + 4)) := by
        rw [sizeOfInt32_ofNat hkey]
        exact h₂.tryGetBytes
      have hload : ({ r with pos := r.pos + 4 + key.length + (encode v).length } : IOBuf).load
          (r.pos + 4) (BitVec.ofNat 32 key.length).toNat = some key := by
        rw [BitVec.toNat_ofNat, Nat.mod_eq_of_lt (by omega)]
        exact h₂.load
      have hrd := Reads.getElems rest (arr ++ [(.str key, v)]) h₃.drop hrest hnodup' hdr
      rw [List.length_cons, getElems_str (h.tryGetCount) (ofNat_ne_allOnes hkey) hbytes
        hval hload, hashUpdate_of_not_mem v hnew, hrd, hcons]
      simp [encodeKey, Nat.add_assoc]

end

theorem Writer.putArgs : ∀ (args : List ZVal) {b : IOBuf}, Writer b →
    (∀ v ∈ args, marshalable v = true) →
    ∃ cap, putArgs b args = some (b.appendBytes (args.flatMap encode) cap, true) ∧
      (b.mem ++ args.flatMap encode).length ≤ cap ∧ 0 < cap
  | [], b, hw, _ => by
    obtain ⟨cap, hcap, hle, hpos⟩ := hw.capacity_eq
    exact ⟨cap, by rw [Marshal.putArgs, List.flatMap_nil, appendBytes_nil hcap], by simpa using hle,
      hpos⟩
  | v :: rest, b, hw, hm => by
    obtain ⟨c₁, h₁, hle₁, hpos₁⟩ := Writer.putZVal v hw
    obtain ⟨c₂, h₂, hle₂, hpos₂⟩ := Writer.putArgs rest (hw.appendBytes hle₁ hpos₁)
      fun w hw ↦ hm w (List.mem_cons_of_mem _ hw)
    refine ⟨c₂, ?_, by simpa using hle₂, hpos₂⟩
    rw [Marshal.putArgs, h₁, Option.bind_some]
    simp only [hm v List.mem_cons_self, if_true]
    rw [h₂, appendBytes_appendBytes, List.flatMap_cons]

end IOBuf

namespace Marshal

/-! ## A cache hit gives back what the call stored -/

/-- A cache hit in `txcache_wrap` gives back the return value and the output of the call that
stored them, for every well-formed return value and output that fit the length fields, wherever
the stored bytes are read. -/
theorem readHit_putResult {returnValue : ZVal} {ob : List UInt8}
    (hwf : wellFormed returnValue = true) (hob : ob.length < 2 ^ 31)
    (hlen : (encode returnValue).length + 4 + ob.length < 2 ^ 32) {addr addr' fuel : ℕ}
    (haddr : addr + 2 ^ 32 ≤ 2 ^ 64) (haddr' : addr' + 2 ^ 32 ≤ 2 ^ 64)
    (hfuel : depth returnValue ≤ fuel) :
    ∃ result, putResult addr returnValue ob = some (result, true) ∧
      readHit fuel addr' result.mem = some (returnValue, ob) := by
  have hw₀ := writer_init haddr
  obtain ⟨c₁, h₁, hle₁, hpos₁⟩ := hw₀.putZVal returnValue
  obtain ⟨c₂, h₂, -, -⟩ := (hw₀.appendBytes hle₁ hpos₁).putBuf ob
  have hmem : (((init addr).appendBytes (encode returnValue) c₁).appendBytes
      (toLE 4 ob.length ++ ob) c₂).mem = encode returnValue ++ (toLE 4 ob.length ++ ob) := by
    simp [init, IOBuf.appendBytes]
  refine ⟨((init addr).appendBytes (encode returnValue) c₁).appendBytes (toLE 4 ob.length ++ ob) c₂,
    ?_, ?_⟩
  · rw [putResult, h₁, Option.bind_some]
    simp only [marshalable_of_wellFormed hwf, if_true]
    rw [h₂, Option.map_some]
  · rw [readHit, hmem]
    generalize hdata : encode returnValue ++ (toLE 4 ob.length ++ ob) = data
    have hview : Reads (initView data addr' addr' data.length)
        (encode returnValue ++ (toLE 4 ob.length ++ ob)) := by
      rw [hdata]
      exact reads_initView haddr' (by rw [← hdata]; simp; omega)
    have hob' := hview.drop
    rw [← List.append_nil (toLE 4 ob.length ++ ob)] at hob'
    rw [hview.getZVal returnValue hwf hfuel, Option.bind_some]
    simp only [Option.bind_some]
    rw [hob'.tryGetBuf hob, Option.bind_some]
    have hload := hob'.load_after_header
    simp only [Option.bind_some, load_with_pos] at hload ⊢
    rw [hload, Option.map_some]

/-- The return value of a call: an array under a string key and an integer key. -/
def sampleResult : ZVal := .array [(.str [97, 0], .bool 1), (.index 7, .string [104, 105])]

/-- Stored at address `0` with two bytes of output, and read back at `4096`. -/
theorem sampleResult_hit :
    ∃ result, putResult 0 sampleResult [111, 107] = some (result, true) ∧
      readHit 2 4096 result.mem = some (sampleResult, [111, 107]) :=
  readHit_putResult (by decide) (by decide) (by decide) (by norm_num) (by norm_num) (by decide)

/-! ## Cache keys -/

/-- The key data of a call: the callback's name as a string, then the key's arguments. -/
def keyData (name : List UInt8) (args : List ZVal) : List UInt8 :=
  toLE 4 (name.length + 1) ++ (name ++ [0]) ++ (keyArgs args).flatMap encode

theorem wrapKey_eq {addr : ℕ} {name : List UInt8} {args : List ZVal}
    (haddr : addr + 2 ^ 32 ≤ 2 ^ 64) (hname : (0 : UInt8) ∉ name)
    (hm : ∀ v ∈ keyArgs args, marshalable v = true) :
    wrapKey addr name args = some (some (keyData name args)) := by
  have hw₀ := writer_init haddr
  obtain ⟨c₁, h₁, hle₁, hpos₁⟩ := hw₀.putString hname
  have hw₁ := hw₀.appendBytes hle₁ hpos₁
  obtain ⟨c₂, h₂, hle₂, hpos₂⟩ := hw₁.putArgs (keyArgs args) hm
  rw [wrapKey, h₁, Option.bind_some, h₂, Option.bind_some]
  simp only [if_true]
  rw [(hw₁.appendBytes hle₂ hpos₂).peekRest, Option.map_some]
  simp [keyData, init, IOBuf.appendBytes]

theorem append_cons_inj_of_not_mem {α : Type*} {d : α} :
    ∀ {s t xs zs : List α}, d ∉ s → d ∉ t → s ++ d :: xs = t ++ d :: zs → s = t ∧ xs = zs
  | [], [], _, _, _, _, h => ⟨rfl, (List.cons.inj h).2⟩
  | [], c :: _, _, _, _, ht, h => absurd ((List.cons.inj h).1 ▸ List.mem_cons_self) ht
  | a :: _, [], _, _, hs, _, h => absurd ((List.cons.inj h).1.symm ▸ List.mem_cons_self) hs
  | a :: s, c :: t, _, _, hs, ht, h => by
    obtain ⟨rfl, h'⟩ := List.cons.inj h
    obtain ⟨rfl, hrest⟩ := append_cons_inj_of_not_mem (fun h ↦ hs (List.mem_cons_of_mem _ h))
      (fun h ↦ ht (List.mem_cons_of_mem _ h)) h'
    exact ⟨rfl, hrest⟩

theorem encode_append_inj {v w : ZVal} {ys zs : List UInt8} (hv : wellFormed v = true)
    (hw : wellFormed w = true) (h : encode v ++ ys = encode w ++ zs)
    (hlen : (encode v ++ ys).length < 2 ^ 32) : v = w ∧ ys = zs := by
  obtain ⟨r, hr⟩ : ∃ r, Reads r (encode v ++ ys) :=
    ⟨_, reads_initView (show 0 + 2 ^ 32 ≤ 2 ^ 64 by norm_num) hlen⟩
  have hr' : Reads r (encode w ++ zs) := h ▸ hr
  have h₁ := hr.getZVal v hv (le_max_left (depth v) (depth w))
  have h₂ := hr'.getZVal w hw (le_max_right (depth v) (depth w))
  rw [h₁] at h₂
  simp only [Option.some.injEq, Prod.mk.injEq] at h₂
  obtain rfl := h₂.2
  exact ⟨rfl, List.append_cancel_left h⟩

theorem flatMap_encode_inj : ∀ {args₁ args₂ : List ZVal}, (∀ v ∈ args₁, wellFormed v = true) →
    (∀ v ∈ args₂, wellFormed v = true) → args₁.flatMap encode = args₂.flatMap encode →
    (args₁.flatMap encode).length < 2 ^ 32 → args₁ = args₂
  | [], [], _, _, _, _ => rfl
  | [], w :: _, _, _, h, _ => by
    have hl := congrArg List.length h
    have := four_le_length_encode w
    simp only [List.flatMap_nil, List.length_nil, List.flatMap_cons, List.length_append] at hl
    omega
  | v :: _, [], _, _, h, _ => by
    have hl := congrArg List.length h
    have := four_le_length_encode v
    simp only [List.flatMap_nil, List.length_nil, List.flatMap_cons, List.length_append] at hl
    omega
  | v :: r₁, w :: r₂, hw₁, hw₂, h, hlen => by
    rw [List.flatMap_cons, List.flatMap_cons] at h
    rw [List.flatMap_cons] at hlen
    obtain ⟨rfl, hr⟩ := encode_append_inj (hw₁ v List.mem_cons_self) (hw₂ w List.mem_cons_self) h
      hlen
    rw [flatMap_encode_inj (fun u hu ↦ hw₁ u (List.mem_cons_of_mem _ hu))
      (fun u hu ↦ hw₂ u (List.mem_cons_of_mem _ hu)) hr (by rw [List.length_append] at hlen; omega)]

/-- Two calls whose keys `txcache_wrap` builds to the same key data call one function with equal
key arguments, when the callbacks' names are C strings, the key arguments are well formed, and the
key data is shorter than `2 ^ 32` bytes. -/
theorem wrapKey_injective {addr₁ addr₂ : ℕ} {name₁ name₂ : List UInt8} {args₁ args₂ : List ZVal}
    {key : List UInt8} (haddr₁ : addr₁ + 2 ^ 32 ≤ 2 ^ 64) (haddr₂ : addr₂ + 2 ^ 32 ≤ 2 ^ 64)
    (hname₁ : (0 : UInt8) ∉ name₁) (hname₂ : (0 : UInt8) ∉ name₂)
    (hwf₁ : ∀ v ∈ keyArgs args₁, wellFormed v = true)
    (hwf₂ : ∀ v ∈ keyArgs args₂, wellFormed v = true)
    (h₁ : wrapKey addr₁ name₁ args₁ = some (some key))
    (h₂ : wrapKey addr₂ name₂ args₂ = some (some key)) (hlen : key.length < 2 ^ 32) :
    name₁ = name₂ ∧ keyArgs args₁ = keyArgs args₂ := by
  rw [wrapKey_eq haddr₁ hname₁ fun v hv ↦ marshalable_of_wellFormed (hwf₁ v hv)] at h₁
  rw [wrapKey_eq haddr₂ hname₂ fun v hv ↦ marshalable_of_wellFormed (hwf₂ v hv)] at h₂
  have hk₁ : key = keyData name₁ args₁ := (Option.some.inj (Option.some.inj h₁)).symm
  have hk₂ : key = keyData name₂ args₂ := (Option.some.inj (Option.some.inj h₂)).symm
  have hargsLen : ((keyArgs args₁).flatMap encode).length < 2 ^ 32 := by
    rw [hk₁, keyData] at hlen
    simp only [List.length_append] at hlen
    omega
  have hkey := hk₁.symm.trans hk₂
  simp only [keyData, List.append_assoc, List.singleton_append] at hkey
  obtain ⟨-, hrest⟩ := List.append_inj hkey (by simp)
  obtain ⟨hname, hargs⟩ := append_cons_inj_of_not_mem hname₁ hname₂ hrest
  exact ⟨hname, flatMap_encode_inj hwf₁ hwf₂ hargs hargsLen⟩

/-- A call with a database resource as its fourth argument, and the same call without it. -/
def sampleArgsWithDb : List ZVal := [.resource 1, .bool 1, .string [102], .resource 3, .long 5]

def sampleArgs : List ZVal := [.resource 1, .bool 0, .string [102], .long 5]

/-- The two calls get one key, and their key arguments are equal. -/
theorem wrapKey_skips_database :
    ([102] : List UInt8) = [102] ∧ keyArgs sampleArgsWithDb = keyArgs sampleArgs := by
  have h₁ : wrapKey 0 [102] sampleArgsWithDb = some (some (keyData [102] sampleArgsWithDb)) :=
    wrapKey_eq (by norm_num) (by decide) (by decide)
  have h₂ : wrapKey 4096 [102] sampleArgs = some (some (keyData [102] sampleArgsWithDb)) :=
    wrapKey_eq (by norm_num) (by decide) (by decide)
  exact wrapKey_injective (by norm_num) (by norm_num) (by decide) (by decide) (by decide)
    (by decide) h₁ h₂ (by decide)

end Marshal

end TxCache
