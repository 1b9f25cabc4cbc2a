import Mathlib.Data.List.Basic

/-!
# `lookup3`'s `hashlittle`

`lib/lookup3.c` is Bob Jenkins' `lookup3`, cut down to `hashlittle`, `hashbig` and the entry point
`hash`, which on a little-endian machine is `hashlittle`. `hashlittle` starts `a`, `b` and `c` at
`0xdeadbeef` plus the length plus the seed, adds the key twelve bytes at a time, each byte shifted
to its place in a little-endian word, mixes after every block but the last, and ends with `final`;
an empty key returns `c` unmixed.

`hashlittle` reads the key in one of three ways, as the key's address is aligned to four, two or
one bytes. On a little-endian machine the word and half-word reads add the same bytes at the same
places as the byte-at-a-time read, which is the one modelled here.
-/

namespace TxCache

namespace Lookup3

/-- `rot(x,k)`: rotate left by `k`. -/
def rot (x k : UInt32) : UInt32 := (x <<< k) ||| (x >>> (32 - k))

/-- `mix(a,b,c)`: the mixing after each twelve-byte block but the last. -/
def mix (a b c : UInt32) : UInt32 × UInt32 × UInt32 :=
  let a := a - c; let a := a ^^^ rot c 4; let c := c + b
  let b := b - a; let b := b ^^^ rot a 6; let a := a + c
  let c := c - b; let c := c ^^^ rot b 8; let b := b + a
  let a := a - c; let a := a ^^^ rot c 16; let c := c + b
  let b := b - a; let b := b ^^^ rot a 19; let a := a + c
  let c := c - b; let c := c ^^^ rot b 4; let b := b + a
  (a, b, c)

/-- `final(a,b,c)`: the last mixing, into `c`. -/
def final (a b c : UInt32) : UInt32 :=
  let c := c ^^^ b; let c := c - rot b 14
  let a := a ^^^ c; let a := a - rot c 11
  let b := b ^^^ a; let b := b - rot a 25
  let c := c ^^^ b; let c := c - rot b 16
  let a := a ^^^ c; let a := a - rot c 4
  let b := b ^^^ a; let b := b - rot a 14
  let c := c ^^^ b; let c := c - rot b 24
  c

/-- `x += k[0]; x += ((uint32_t)k[1])<<8; …` for the up to four bytes of one word: the cases of
the last block's `switch` fall through, so each byte present is added at its place. -/
def addBytes (x : UInt32) : List UInt8 → UInt32
  | [] => x
  | [k0] => x + k0.toUInt32
  | [k0, k1] => x + k0.toUInt32 + (k1.toUInt32 <<< 8)
  | [k0, k1, k2] => x + k0.toUInt32 + (k1.toUInt32 <<< 8) + (k2.toUInt32 <<< 16)
  | k0 :: k1 :: k2 :: k3 :: _ =>
    x + k0.toUInt32 + (k1.toUInt32 <<< 8) + (k2.toUInt32 <<< 16) + (k3.toUInt32 <<< 24)

/-- The byte-at-a-time read of `hashlittle` from the internal state `a`, `b`, `c`: `while (length >
12)` adds a block and mixes, and the `switch` on the last one to twelve bytes adds them and ends
with `final`, or returns `c` for none. -/
def blocks : List UInt8 → UInt32 → UInt32 → UInt32 → UInt32
  | k0 :: k1 :: k2 :: k3 :: k4 :: k5 :: k6 :: k7 :: k8 :: k9 :: k10 :: k11 :: k12 :: rest, a, b, c =>
    let (a, b, c) := mix (addBytes a [k0, k1, k2, k3]) (addBytes b [k4, k5, k6, k7])
      (addBytes c [k8, k9, k10, k11])
    blocks (k12 :: rest) a b c
  | [], _, _, c => c
  | k, a, b, c =>
    final (addBytes a (k.take 4)) (addBytes b ((k.drop 4).take 4)) (addBytes c (k.drop 8))

/-- `hashlittle(key, length, initval)`. -/
def hashlittle (key : List UInt8) (initval : UInt32) : UInt32 :=
  let s := 0xdeadbeef + key.length.toUInt32 + initval
  blocks key s s s

-- the two values `lookup3`'s own test driver prints for "Four score and seven years ago"
set_option maxRecDepth 4096 in
example : hashlittle [70, 111, 117, 114, 32, 115, 99, 111, 114, 101, 32, 97, 110, 100, 32, 115,
    101, 118, 101, 110, 32, 121, 101, 97, 114, 115, 32, 97, 103, 111] 0 = 0x17770551 := by rfl

set_option maxRecDepth 4096 in
example : hashlittle [70, 111, 117, 114, 32, 115, 99, 111, 114, 101, 32, 97, 110, 100, 32, 115,
    101, 118, 101, 110, 32, 121, 101, 97, 114, 115, 32, 97, 103, 111] 1 = 0xcd628161 := by rfl

example : hashlittle [] 0 = 0xdeadbeef := by decide

end Lookup3

/-- `hash(key, length, initval)` of `lib/hash.h`: `hashlittle` on the little-endian machines the
code is built for. -/
def hash (key : List UInt8) (initval : UInt32) : UInt32 := Lookup3.hashlittle key initval

end TxCache
