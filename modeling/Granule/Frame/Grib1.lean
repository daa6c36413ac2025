import Granule.Frame.Grib1.LargeMessage

/-!
# GRIB Messages, Edition 1

A message is the letters `GRIB`, its total length in three bytes, the edition,
its sections, and the letters `7777`. Grid definitions recur from message to
message and are kept once.

**Main statements**:
- `Grib1.minLength_le_of_divide` : only a frame of at least twelve bytes is divided
- `Grib1.recurs_iff` : grid definitions are the parts that are kept once
-/

namespace Granule.Grib1

def magic : Bytes := [0x47, 0x52, 0x49, 0x42]

def trailer : Bytes := [0x37, 0x37, 0x37, 0x37]

def edition : UInt8 := 1

def minLength : Nat := indicatorLength + trailer.length

/-- Reads the length and the edition; a magic before another edition is not ours. -/
def preamble (source : Source) (magicAt : Nat) : Except IoError PreambleReading := do
  let start := magicAt + magic.length
  let field ← source.readNat start 3
  let found ← readByte source (start + 3)
  return {
    resume := start + 4
    preamble := if found = edition then some ⟨magicAt, field, field⟩ else none }

/-- Where the data section says that the message ends. -/
def impliedEnd (source : Source) (magicAt : Nat) : Except IoError (Option Nat) := do
  let productStart := magicAt + indicatorLength
  let productLength ← source.readNat productStart lengthWidth
  let flags ← readByte source (productStart + flagsOffset)
  let start ← dataStart source productStart productLength flags
  match start with
  | none => return none
  | some start =>
    let length ← source.readNat start lengthWidth
    if length < lengthWidth then
      return none
    return some (start + length + trailer.length)

/-- Divides a message into indicator and sections. -/
def divide (frame : Bytes) : Except DivisionError (List Span) :=
  let size := frame.length
  if size < minLength then .error (.truncated minLength size)
  else if magic.isPrefixOf frame then
    let limit := size - trailer.length
    match Section.span .product frame limit indicatorLength with
    | .error e => .error e
    | .ok product =>
      let flags := frame.getD (indicatorLength + flagsOffset) 0
      (Section.spans frame limit product.stop (Section.announced flags ++ [.data])).map
        fun rest => ⟨indicatorKind, 0, indicatorLength⟩ :: product :: rest
  else .error (.malformed (.start "GRIB"))

/-- The format of messages, with a rule for lengths that the field cannot hold. -/
def format (repair : LengthRule) : WireFormat where
  name := "grib1"
  magic
  trailer
  minLength
  preamble
  repair
  impliedEnd
  divide
  recurs kind := kind = Section.kind .grid

def standard : WireFormat := format largeMessageRepair

/-- Only a frame of at least twelve bytes is divided. -/
theorem minLength_le_of_divide {frame : Bytes} {spans : List Span}
    (h : divide frame = .ok spans) : minLength ≤ frame.length := by
  unfold divide at h
  simp only at h
  split at h
  · cases h
  · omega

/-- Grid definitions are the parts that are kept once. -/
theorem recurs_iff (repair : LengthRule) (kind : Kind) :
    (format repair).recurs kind = true ↔ kind = Section.kind .grid := by
  simp [format]

end Granule.Grib1
