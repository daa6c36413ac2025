import Granule.Grid.Shape

/-!
# Selections

A selection picks, along each dimension of an array, evenly spaced indices. The
selected elements form an array of their own, which is walked row by row:
`Selection.elemAt` gives the storage element of each step of that walk.

Indices and sizes are exact numbers; `Granule.Words.Plan` has them in words.

**Main statement**: `IndexRange.last_eq_none_iff` — only an empty range has no last index.
-/

namespace Granule

/-! ## §1 Ranges -/

/-- The indices `start, start + stride, …`, `count` of them, along one dimension. -/
structure IndexRange where
  start : Nat
  stride : Nat
  count : Nat
deriving DecidableEq, Repr

namespace IndexRange

def all (extent : Nat) : IndexRange := ⟨0, 1, extent⟩

def adjacent (start count : Nat) : IndexRange := ⟨start, 1, count⟩

def last (r : IndexRange) : Option Nat :=
  if r.count = 0 then none else some (r.start + (r.count - 1) * r.stride)

def isGapless (r : IndexRange) : Bool :=
  r.stride = 1 ∨ r.count ≤ 1

def isWhole (r : IndexRange) (extent : Nat) : Bool :=
  r.start = 0 ∧ r.count = extent ∧ r.isGapless

/-- Every selected index is below the extent; an empty range may start at the extent. -/
def isWithin (r : IndexRange) (extent : Nat) : Bool :=
  match r.last with
  | some last => last < extent
  | none => r.start ≤ extent

theorem last_eq_none_iff (r : IndexRange) : r.last = none ↔ r.count = 0 := by
  unfold last
  split <;> simp_all

end IndexRange

/-! ## §2 Selections -/

/-- One range per dimension, outermost first. -/
structure Selection where
  ranges : List IndexRange
deriving DecidableEq, Repr

namespace Selection

-- the empty product is the literal one, also where that of a monoid is in scope
attribute [local instance (1100)] One.ofOfNat1

def all (shape : Shape) : Selection := ⟨shape.extents.map IndexRange.all⟩

def rank (s : Selection) : Nat := s.ranges.length

def size (s : Selection) : Nat := (s.ranges.map (·.count)).prod

def outputShape (s : Selection) : Shape := ⟨s.ranges.map (·.count)⟩

/-- The storage element that step `j` of a row-by-row walk reaches, in an array
with the given extents. -/
def walk : List Nat → List IndexRange → Nat → Nat
  | _ :: inner, r :: rs, j =>
    let within := (rs.map (·.count)).prod
    (r.start + (j / within) * r.stride) * inner.prod + walk inner rs (j % within)
  | _, _, _ => 0

def elemAt (s : Selection) (shape : Shape) (j : Nat) : Nat :=
  walk shape.extents s.ranges j

/-! ## §3 Faults -/

/-- Why a selection, or what comes with it, is refused. -/
inductive Fault where
  /-- Elements have at least one byte. -/
  | elementSize
  /-- The selection and the array differ in their number of dimensions. -/
  | rank (selection shape : Nat)
  /-- A stride is at least one. -/
  | stride (dimension : Nat)
  /-- A range leaves its dimension. -/
  | bounds (dimension : Nat) (range : IndexRange) (extent : Nat)
  /-- The bytes to be written are not as many as the selection needs. -/
  | sourceLength (holds needs : Nat)
deriving DecidableEq, Repr

/-- The text of a fault. -/
def Fault.message : Fault → String
  | .elementSize => "element size must be at least 1"
  | .rank selection shape => s!"section rank {selection} does not match shape rank {shape}"
  | .stride d => s!"dimension {d}: stride must be at least 1"
  | .bounds d r extent =>
    s!"dimension {d}: range start={r.start} stride={r.stride} count={r.count} " ++
      s!"exceeds extent {extent}"
  | .sourceLength holds needs => s!"source holds {holds} bytes, section needs {needs}"

/-- The first dimension, from number `d` on, whose range is refused. -/
def faultFrom : (d : Nat) → List IndexRange → List Nat → Option Fault
  | d, r :: rs, e :: es =>
    if r.stride = 0 then some (.stride d)
    else if r.isWithin e then faultFrom (d + 1) rs es
    else some (.bounds d r e)
  | _, _, _ => none

/-- The first reason to refuse a selection of an array, if there is any. -/
def fault? (s : Selection) (shape : Shape) : Option Fault :=
  if s.rank = shape.rank then faultFrom 0 s.ranges shape.extents
  else some (.rank s.rank shape.rank)

/-- A selection fits an array when there is no reason to refuse it. -/
def Fits (s : Selection) (shape : Shape) : Prop :=
  s.fault? shape = none

instance (s : Selection) (shape : Shape) : Decidable (s.Fits shape) :=
  inferInstanceAs (Decidable (s.fault? shape = none))

end Selection

end Granule
