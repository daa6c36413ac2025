import Granule.Bytes
import Granule.Codec.Filter

/-!
# Decoded Output

Decoders build their output from literal bytes and from copies of what they
have put out already. A copy may overlap its own end, so it goes byte by byte.
-/

namespace Granule

/-- What a decoder has put out so far. -/
abbrev Output := Array UInt8

namespace Output

theorem back_lt_size {out : Output} {distance : Nat} (h : 0 < distance ∧ distance ≤ out.size) :
    out.size - distance < out.size := by
  omega

/-- Puts out `len` bytes, each the one that stands `distance` bytes back. -/
def copyBack (out : Output) (distance : Nat) : (len : Nat) → Except CodecFault Output
  | 0 => .ok out
  | n + 1 =>
    if h : 0 < distance ∧ distance ≤ out.size then
      have := back_lt_size h
      copyBack (out.push out[out.size - distance]) distance n
    else .error (.malformed "distance of a copy")

/-- Puts out literal bytes, unless the output grows past `limit` bytes. -/
def appendWithin (out : Output) (limit : Nat) (literals : Bytes) : Except CodecFault Output :=
  if out.size + literals.length ≤ limit then .ok (out ++ literals) else .error (.tooLong limit)

/-- Copies `len` bytes from `distance` back, unless the output grows past `limit` bytes. -/
def copyWithin (out : Output) (limit distance len : Nat) : Except CodecFault Output :=
  if out.size + len ≤ limit then out.copyBack distance len else .error (.tooLong limit)

end Output

end Granule
