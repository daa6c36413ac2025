import Granule.Bytes
import Granule.Codec.Filter

/-!
# Bit Streams

Compressed data is read bit by bit. A bit stream is the list of the bits still
to come, and a `BitDecoder` is a computation that takes bits off its front.

Bytes become bits in three ways: each byte from its least significant bit on,
each byte from its most significant bit on, or backwards from the last byte,
where the topmost bit that is set marks the end and is not part of the data.
-/

namespace Granule

/-- Bits still to be read, the next one first. -/
abbrev BitStream := List Bool

/-- A computation that reads bits and may find them malformed. -/
abbrev BitDecoder := StateT BitStream (Except CodecFault)

namespace BitStream

/-! ## §1 Bytes as bits -/

def lowFirst (b : UInt8) : BitStream :=
  (List.range 8).map fun i => b.toNat.testBit i

@[simp] theorem length_lowFirst (b : UInt8) : (lowFirst b).length = 8 := by
  simp [lowFirst]

def highFirst (b : UInt8) : BitStream := (lowFirst b).reverse

/-- The bits of a byte string, each byte from its least significant bit on. -/
def ofBytes (bs : Bytes) : BitStream := bs.flatMap lowFirst

/-- The bits of a byte string from its last byte backwards, after the end mark. -/
def backward (bs : Bytes) : Except CodecFault BitStream :=
  match bs.reverse with
  | [] => .error .truncated
  | last :: earlier =>
    match (highFirst last).dropWhile (!·) with
    | [] => .error (.malformed "end mark of a bit stream")
    | _ :: bits => .ok (bits ++ earlier.flatMap highFirst)

/-! ## §2 Reading -/

/-- The next bit. -/
def bit : BitDecoder Bool := fun s =>
  match s with
  | [] => .error .truncated
  | b :: rest => .ok (b, rest)

/-- A number of `n` bits, least significant first. -/
def bits : (n : Nat) → BitDecoder Nat
  | 0 => pure 0
  | n + 1 => do
    let low ← bit
    let high ← bits n
    pure (low.toNat + 2 * high)

/-- Continues a number by `n` bits, most significant first. -/
def highBitsFrom : (n value : Nat) → BitDecoder Nat
  | 0, value => pure value
  | n + 1, value => do
    let b ← bit
    highBitsFrom n (2 * value + b.toNat)

def highBits (n : Nat) : BitDecoder Nat := highBitsFrom n 0

def require (condition : Bool) (fault : CodecFault) : BitDecoder Unit :=
  if condition then pure () else throw fault

end BitStream

end Granule
