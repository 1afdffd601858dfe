import Mcfreeze.Lib.Bytes

/-!
# The hash function xxHash64

The 64-bit xxHash of a byte string with a seed: four accumulators consume stripes of 32
bytes, and what is left is mixed in by eight, four and single bytes.
-/

namespace XxHash

open Bytes

def prime1 : UInt64 := 11400714785074694791
def prime2 : UInt64 := 14029467366897019727
def prime3 : UInt64 := 1609587929392839161
def prime4 : UInt64 := 9650029242287828579
def prime5 : UInt64 := 2870177450012600261

def rotl (x r : UInt64) : UInt64 :=
  (x <<< r) ||| (x >>> (64 - r))

def round (acc lane : UInt64) : UInt64 :=
  rotl (acc + lane * prime2) 31 * prime1

def mergeRound (h v : UInt64) : UInt64 :=
  (h ^^^ round 0 v) * prime1 + prime4

/-- The first `n` bytes as a number. -/
def lane (n : Nat) (b : Bytes) : UInt64 :=
  UInt64.ofNat (leNat (b.take n))

/-- Consume `n` stripes of 32 bytes. -/
def stripes : Nat → Bytes → UInt64 → UInt64 → UInt64 → UInt64 → UInt64
  | 0, _, v₁, v₂, v₃, v₄ =>
    let h := rotl v₁ 1 + rotl v₂ 7 + rotl v₃ 12 + rotl v₄ 18
    mergeRound (mergeRound (mergeRound (mergeRound h v₁) v₂) v₃) v₄
  | n + 1, b, v₁, v₂, v₃, v₄ =>
    stripes n (b.drop 32) (round v₁ (lane 8 b)) (round v₂ (lane 8 (b.drop 8)))
      (round v₃ (lane 8 (b.drop 16))) (round v₄ (lane 8 (b.drop 24)))

/-- Mix in `n` groups of eight bytes. -/
def tail8 : Nat → Bytes → UInt64 → UInt64
  | 0, _, h => h
  | n + 1, b, h => tail8 n (b.drop 8) (rotl (h ^^^ round 0 (lane 8 b)) 27 * prime1 + prime4)

/-- Mix in single bytes. -/
def tail1 : Bytes → UInt64 → UInt64
  | [], h => h
  | c :: b, h => tail1 b (rotl (h ^^^ (c.toUInt64 * prime5)) 11 * prime1)

/-- Mix in what is left after the stripes. -/
def tail (b : Bytes) (h : UInt64) : UInt64 :=
  let h := tail8 (b.length / 8) b h
  let b := b.drop (b.length / 8 * 8)
  if 4 ≤ b.length then
    tail1 (b.drop 4) (rotl (h ^^^ (lane 4 b * prime1)) 23 * prime2 + prime3)
  else tail1 b h

def avalanche (h : UInt64) : UInt64 :=
  let h := (h ^^^ (h >>> 33)) * prime2
  let h := (h ^^^ (h >>> 29)) * prime3
  h ^^^ (h >>> 32)

def xxh64 (b : Bytes) (seed : UInt64) : UInt64 :=
  let start :=
    if 32 ≤ b.length then
      stripes (b.length / 32) b (seed + prime1 + prime2) (seed + prime2) seed (seed - prime1)
    else seed + prime5
  avalanche (tail (b.drop (b.length / 32 * 32)) (start + UInt64.ofNat b.length))

end XxHash
