import Granule.Bits
import Granule.Frame.Grib1.Sections

/-!
# The Header of Binary Data

The binary data of a message start with eleven bytes that say how the values
behind them are packed.
-/

namespace Granule.Grib1

/-- How values are packed. -/
structure DataHeader where
  /-- The length of the section. -/
  length : Nat
  /-- Flags of the packing, four bits. -/
  flags : Nat
  /-- Bits at the end of the section that hold no value. -/
  unusedBits : Nat
  /-- The power of two that scales the values. -/
  binaryScale : Int
  /-- The least value, as the bits of a floating-point number. -/
  referenceBits : Nat
  bitsPerValue : Nat
deriving DecidableEq, Repr

namespace DataHeader

/-- Reads the header at the start of a section. Each field is kept in a word of its own size. -/
def read (bs : Bytes) : Except BitFault DataHeader := do
  let r : BitCursor := ⟨bs, 0⟩
  let (length, r) ← r.unsigned 24
  let (flags, r) ← r.unsigned 4
  let (unusedBits, r) ← r.unsigned 4
  let (binaryScale, r) ← r.signed 16
  let (referenceBits, r) ← r.unsigned 32
  let (bitsPerValue, _) ← r.unsigned 8
  return {
    length := (UInt32.ofNat length).toNat
    flags := (UInt8.ofNat flags).toNat
    unusedBits := (UInt8.ofNat unusedBits).toNat
    binaryScale := (Int16.ofInt binaryScale).toInt
    referenceBits := (UInt32.ofNat referenceBits).toNat
    bitsPerValue := (UInt8.ofNat bitsPerValue).toNat }

/-- The bits behind the header, when the section is long enough to have one. -/
def payloadBits (h : DataHeader) : Option Nat :=
  if h.length < Section.minLength .data then none
  else some (8 * (h.length - Section.minLength .data))

/-- The number of packed values, where the header tells. -/
def valueCount (h : DataHeader) : Option Nat :=
  if h.bitsPerValue = 0 then none
  else
    match h.payloadBits with
    | none => none
    | some bits =>
      if bits < h.unusedBits then none else some ((bits - h.unusedBits) / h.bitsPerValue)

end DataHeader

end Granule.Grib1
