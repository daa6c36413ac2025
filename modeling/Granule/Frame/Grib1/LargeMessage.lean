import Granule.Frame.Grib1.Sections

/-!
# Large GRIB Messages

A total length has twenty-four bits. Messages of centre 98 that are longer set
the top bit of the length field and hold the length in units of 120 bytes in the
others; the length field of their data section then holds, not the length of the
section, but how many bytes the units have too many.

**Main statement**: `Grib1.largeLength_eq` — the length that such fields stand for.
-/

namespace Granule.Grib1

/-- The centre whose large messages are measured in units. -/
def largeCentre : UInt8 := 98

def largeUnit : Nat := 120

/-- The length field that marks a large message, less its units. -/
def largeMark : Nat := 0x800000

def isLarge (field : Nat) : Bool := field / largeMark % 2 = 1

/-- The length of a large message, of which `excess` bytes are too many. -/
def largeLength (field excess : Nat) : Option Nat :=
  let units := field % largeMark
  if excess ≤ units * largeUnit + 4 then some (units * largeUnit + 4 - excess) else none

/-- Finds the true length of a large message: the product definition names the
centre, and the data section holds the excess. -/
def largeMessageRepair : LengthRule := fun source p => do
  if !isLarge p.field then
    return none
  let productStart := p.magicAt + indicatorLength
  let productLength ← source.readNat productStart lengthWidth
  let centre ← readByte source (productStart + 4)
  if centre ≠ largeCentre then
    return none
  let flags ← readByte source (productStart + flagsOffset)
  let start ← dataStart source productStart productLength flags
  match start with
  | none => return none
  | some start =>
    let excess ← source.readNat start lengthWidth
    -- a greater number is a true section length, not an excess
    if largeUnit ≤ excess then
      return none
    return largeLength p.field excess

/-- The length that the fields of a large message stand for. -/
theorem largeLength_eq {units excess : Nat} (hu : units < largeMark)
    (hx : excess ≤ units * largeUnit + 4) :
    isLarge (largeMark + units) = true ∧
      largeLength (largeMark + units) excess = some (units * largeUnit + 4 - excess) := by
  have hmod : (largeMark + units) % largeMark = units := by
    rw [Nat.add_mod_left, Nat.mod_eq_of_lt hu]
  have hdiv : (largeMark + units) / largeMark = 1 := by
    simp only [largeMark] at hu ⊢
    omega
  exact ⟨by simp [isLarge, hdiv], by simp [largeLength, hmod, hx]⟩

end Granule.Grib1
