/-!
# Shapes

The shape of an array that is stored row by row: one extent per dimension, the
outermost first, so that the last dimension varies fastest.
-/

namespace Granule

/-- Extents per dimension, outermost first. -/
structure Shape where
  extents : List Nat
deriving DecidableEq, Repr

namespace Shape

-- the empty product is the literal one, also where that of a monoid is in scope
attribute [local instance (1100)] One.ofOfNat1

def scalar : Shape := ⟨[]⟩

instance : Inhabited Shape := ⟨scalar⟩

def rank (s : Shape) : Nat := s.extents.length

def size (s : Shape) : Nat := s.extents.prod

/-- For each dimension the distance, in elements, of two neighbours along it. -/
def stridesOf : List Nat → List Nat
  | [] => []
  | _ :: inner => inner.prod :: stridesOf inner

/-- The distances of neighbours along each dimension, outermost first. -/
def strides (s : Shape) : List Nat := stridesOf s.extents

end Shape

end Granule
