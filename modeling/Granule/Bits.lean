import Granule.Bytes

/-!
# Bit Fields

A byte string is also a string of bits, the most significant bit of each byte
first. A `BitCursor` walks over it and reads fields of one to sixty-four bits,
unsigned or with a leading sign bit.

A field is put together in a machine word of sixty-four bits, from one piece for
each byte that holds some of its bits.

A failed step leaves the cursor where it was: every step that can fail returns
the cursor only when it succeeds.
-/

namespace Granule

/-! ## §1 Failures -/

/-- Why a bit field could not be read. -/
inductive BitFault where
  /-- More bits were asked for than are left. -/
  | exhausted (wanted available : Nat)
  /-- A field has one to sixty-four bits. -/
  | width (bits : Nat)
deriving DecidableEq, Repr

/-- The text of a bit field failure. -/
def BitFault.message : BitFault → String
  | .exhausted wanted available =>
    s!"Bit field of {wanted} bits requested with only {available} bits left"
  | .width bits => s!"Bit field width {bits} outside 1..=64"

/-! ## §2 Fields in words -/

/-- The `take` bits of a byte behind its first `offset` ones, moved to the low end. -/
def bitPiece (b : UInt8) (offset take : Nat) : UInt8 :=
  b >>> UInt8.ofNat (8 - offset - take) &&& 0xff >>> UInt8.ofNat (8 - take)

/-- Appends the `left` bits of a byte string from bit `pos` on to a word, at its low end. Each
byte that holds some of them gives one piece. -/
def Bytes.appendBits (bs : Bytes) (pos left : Nat) (word : UInt64) : UInt64 :=
  if left = 0 then word
  else
    let take := min left (8 - pos % 8)
    let piece := bitPiece (bs.getD (pos / 8) 0) (pos % 8) take
    appendBits bs (pos + take) (left - take) (word <<< UInt64.ofNat take ||| piece.toUInt64)
termination_by left

/-- The number in a word of `width` bits whose first bit is the sign and whose other bits are the
magnitude. -/
def signMagnitude (width : Nat) (word : UInt64) : Int64 :=
  let sign : UInt64 := 1 <<< UInt64.ofNat (width - 1)
  let magnitude := (word &&& (sign - 1)).toInt64
  if word &&& sign ≠ 0 then -magnitude else magnitude

/-! ## §3 The cursor -/

/-- A walk over the bits of a byte string. -/
structure BitCursor where
  /-- The bytes under the walk. -/
  data : Bytes
  /-- Bits passed so far. -/
  position : Nat := 0

namespace BitCursor

def remaining (r : BitCursor) : Nat :=
  8 * r.data.length - r.position

/-- Reads a field into a word. -/
def field (r : BitCursor) (width : Nat) : Except BitFault (UInt64 × BitCursor) :=
  if width = 0 ∨ 64 < width then .error (.width width)
  else if r.remaining < width then .error (.exhausted width r.remaining)
  else
    .ok (r.data.appendBits r.position width 0, { r with position := r.position + width })

/-- Reads an unsigned field. -/
def unsigned (r : BitCursor) (width : Nat) : Except BitFault (Nat × BitCursor) :=
  match r.field width with
  | .ok (word, rest) => .ok (word.toNat, rest)
  | .error e => .error e

/-- Reads a field with a leading sign bit. -/
def signed (r : BitCursor) (width : Nat) : Except BitFault (Int × BitCursor) :=
  match r.field width with
  | .ok (word, rest) => .ok ((signMagnitude width word).toInt, rest)
  | .error e => .error e

/-- The largest width that a failed skip reports. -/
def skipReportLimit : Nat := 2 ^ 32 - 1

def skip (r : BitCursor) (count : Nat) : Except BitFault BitCursor :=
  if r.remaining < count then .error (.exhausted (min count skipReportLimit) r.remaining)
  else .ok { r with position := r.position + count }

def align (r : BitCursor) : BitCursor :=
  { r with position := (r.position + 7) / 8 * 8 }

/-! ## §4 When fields are read -/

end BitCursor

end Granule
