import Granule.Bytes

/-!
# XXH64

The 64-bit hash that guards the content of a Zstandard frame. Stripes of 32
bytes go through four lanes of 8 bytes each; what is left over is mixed in by
eights, then by four, then byte by byte.
-/

namespace Granule.XxHash64

/-! ## §1 Words -/

/-- Multiplies lanes and single bytes after their turn. -/
def prime1 : UInt64 := 0x9E3779B185EBCA87

/-- Multiplies the words that go into a lane. -/
def prime2 : UInt64 := 0xC2B2AE3D27D4EB4F

/-- Added after four bytes, and a factor of the last mixing. -/
def prime3 : UInt64 := 0x165667B19E3779F9

/-- Added after a lane or a word of eight bytes. -/
def prime4 : UInt64 := 0x85EBCA77C2B2AE63

/-- Starts the hash of a short input, and multiplies single bytes. -/
def prime5 : UInt64 := 0x27D4EB2F165667C5

def rotateLeft (x count : UInt64) : UInt64 := (x <<< count) ||| (x >>> (64 - count))

/-- The little-endian word at the front of a byte string. -/
def word (bs : Bytes) : UInt64 := UInt64.ofNat (Bytes.toNatLE (bs.take 8))

def round (lane input : UInt64) : UInt64 :=
  rotateLeft (lane + input * prime2) 31 * prime1

def mergeRound (hash lane : UInt64) : UInt64 :=
  (hash ^^^ round 0 lane) * prime1 + prime4

/-! ## §2 Stripes -/

/-- The four lanes. -/
structure Lanes where
  first : UInt64
  second : UInt64
  third : UInt64
  fourth : UInt64

def Lanes.start (seed : UInt64) : Lanes :=
  ⟨seed + prime1 + prime2, seed + prime2, seed, seed - prime1⟩

/-- Takes in `n` stripes and returns what follows them. -/
def stripes : (n : Nat) → Lanes → Bytes → Lanes × Bytes
  | 0, lanes, bs => (lanes, bs)
  | n + 1, lanes, bs =>
    stripes n
      ⟨round lanes.first (word bs), round lanes.second (word (bs.drop 8)),
        round lanes.third (word (bs.drop 16)), round lanes.fourth (word (bs.drop 24))⟩
      (bs.drop 32)

/-- The hash that the lanes amount to. -/
def Lanes.converge (l : Lanes) : UInt64 :=
  let sum := rotateLeft l.first 1 + rotateLeft l.second 7
    + rotateLeft l.third 12 + rotateLeft l.fourth 18
  mergeRound (mergeRound (mergeRound (mergeRound sum l.first) l.second) l.third) l.fourth

/-! ## §3 The end of the input -/

/-- Mixes in words of eight bytes, `n` of them, and returns what follows. -/
def eights : (n : Nat) → UInt64 → Bytes → UInt64 × Bytes
  | 0, hash, bs => (hash, bs)
  | n + 1, hash, bs =>
    eights n (rotateLeft (hash ^^^ round 0 (word bs)) 27 * prime1 + prime4) (bs.drop 8)

/-- Mixes in four bytes, if there are as many, and returns what follows. -/
def four (hash : UInt64) (bs : Bytes) : UInt64 × Bytes :=
  if bs.length < 4 then (hash, bs)
  else
    (rotateLeft (hash ^^^ (UInt64.ofNat (Bytes.toNatLE (bs.take 4)) * prime1)) 23 * prime2 + prime3,
      bs.drop 4)

def ones (hash : UInt64) (bs : Bytes) : UInt64 :=
  bs.foldl (fun h b => rotateLeft (h ^^^ (b.toUInt64 * prime5)) 11 * prime1) hash

/-- Spreads every bit of the hash. -/
def avalanche (hash : UInt64) : UInt64 :=
  let h := (hash ^^^ (hash >>> 33)) * prime2
  let h := (h ^^^ (h >>> 29)) * prime3
  h ^^^ (h >>> 32)

/-- The hash of a byte string under a seed. -/
def ofBytes (seed : UInt64) (bs : Bytes) : UInt64 :=
  let (lanes, rest) := stripes (bs.length / 32) (Lanes.start seed) bs
  let hash := if bs.length < 32 then seed + prime5 else lanes.converge
  let (hash, rest) := eights (rest.length / 8) (hash + UInt64.ofNat bs.length) rest
  let (hash, rest) := four hash rest
  avalanche (ones hash rest)

end Granule.XxHash64
