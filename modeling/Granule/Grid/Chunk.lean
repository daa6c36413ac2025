import Granule.Bytes

/-!
# Chunks

A chunk is a run of elements that lie next to each other both where they are
stored and where they are wanted. A chunk that lies in a decoded buffer can be
viewed as its bytes, and read as numbers of a fixed width.

**Main statement**: `Chunk.length_view` — a view has exactly the bytes of its chunk.
-/

namespace Granule

/-! ## §1 Chunks -/

/-- Where the elements of a chunk lie. -/
inductive ChunkPlace where
  /-- From byte `pos` of a storage stream on. -/
  | stored (pos : Nat)
  /-- From element `elem` of a decoded buffer on. -/
  | decoded (buf : Bytes) (elem : Nat)
deriving DecidableEq, Repr

/-- A run of elements, contiguous where it lies and in its destination. -/
structure Chunk where
  place : ChunkPlace
  /-- How many elements there are. -/
  count : Nat
  /-- The place of the first one among the selected elements. -/
  dest : Nat
  /-- Bytes per element. -/
  elemSize : Nat
deriving DecidableEq, Repr

/-- The bytes of a chunk that lies in a buffer. -/
structure ElementView where
  bytes : Bytes
  elemSize : Nat
deriving DecidableEq, Repr

namespace Chunk

/-- The byte of the storage stream at which a stored chunk starts. -/
def storedPos (c : Chunk) : Option Nat :=
  match c.place with
  | .stored pos => some pos
  | .decoded _ _ => none

/-- The element of its buffer at which a decoded chunk starts. -/
def bufferElem (c : Chunk) : Option Nat :=
  match c.place with
  | .stored _ => none
  | .decoded _ elem => some elem

def byteCount (c : Chunk) : Nat := c.count * c.elemSize

def destOffset (c : Chunk) : Nat := c.dest * c.elemSize

/-- The bytes of a decoded chunk, unless its buffer is too short. -/
def view (c : Chunk) : Option ElementView :=
  match c.place with
  | .stored _ => none
  | .decoded buf elem => (buf.slice? (elem * c.elemSize) c.byteCount).map (⟨·, c.elemSize⟩)

/-- A view has exactly the bytes of its chunk. -/
theorem length_view {c : Chunk} {v : ElementView} (h : c.view = some v) :
    v.bytes.length = c.byteCount ∧ v.elemSize = c.elemSize := by
  unfold view at h
  split at h
  · cases h
  · obtain ⟨part, hpart, hv⟩ := Option.map_eq_some_iff.mp h
    subst hv
    exact ⟨Bytes.length_of_slice? hpart, rfl⟩

end Chunk

/-! ## §2 Numbers in chunks -/

/-- The order of the bytes of a number. -/
inductive ByteOrder where
  | little
  | big
deriving DecidableEq, Repr

def ByteOrder.toNat : ByteOrder → Bytes → Nat
  | .little, bs => bs.toNatLE
  | .big, bs => bs.toNatBE

/-- The types of number that elements are read as. -/
inductive NumberType where
  | int16 | uint16 | int32 | uint32 | int64 | float32 | float64
deriving DecidableEq, Repr

/-- A number read from an element. A floating-point number is kept as its bits. -/
inductive Number where
  | integer (value : Int)
  | float32 (bits : Nat)
  | float64 (bits : Nat)
deriving DecidableEq, Repr

namespace NumberType

/-- Bytes per number. -/
def width : NumberType → Nat
  | .int16 | .uint16 => 2
  | .int32 | .uint32 | .float32 => 4
  | .int64 | .float64 => 8

/-- The number whose bits, as a number without sign, are `raw`. -/
def ofBits : NumberType → (raw : Nat) → Number
  | .int16, raw => .integer (Int.bmod raw (2 ^ 16))
  | .int32, raw => .integer (Int.bmod raw (2 ^ 32))
  | .int64, raw => .integer (Int.bmod raw (2 ^ 64))
  | .uint16, raw | .uint32, raw => .integer raw
  | .float32, raw => .float32 raw
  | .float64, raw => .float64 raw

end NumberType

/-- Why a view cannot be read as asked. -/
inductive ViewFault where
  /-- The elements are not as wide as the type of number. -/
  | width
  /-- The view does not hold the number of values asked for. -/
  | count
deriving DecidableEq, Repr

namespace ElementView

def length (v : ElementView) : Nat :=
  if v.elemSize = 0 then 0 else v.bytes.length / v.elemSize

def isEmpty (v : ElementView) : Bool := v.bytes.isEmpty

/-- The numbers in consecutive stretches of bytes, `count` of them. -/
def numbers (type : NumberType) (order : ByteOrder) : (count : Nat) → Bytes → List Number
  | 0, _ => []
  | n + 1, bs =>
    type.ofBits (order.toNat (bs.take type.width)) :: numbers type order n (bs.drop type.width)

/-- Reads the whole view as `count` numbers. -/
def readAll (v : ElementView) (type : NumberType) (order : ByteOrder) (count : Nat) :
    Except ViewFault (List Number) :=
  if v.elemSize ≠ type.width then .error .width
  else if v.bytes.length ≠ count * type.width then .error .count
  else .ok (numbers type order count v.bytes)

end ElementView

end Granule
