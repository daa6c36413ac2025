import Mathlib.Data.List.Forall2
import Granule.Proofs.Grid.Walk

/-!
# The Selected Elements Come in Storage Order

A selection that is not refused has, along each dimension, a range that moves on
and stays inside. Its row-by-row walk then climbs: every step reaches a storage
element of the array, and a later one than the step before.

**Main statements**:
- `Selection.fits_iff` : a selection fits when each of its ranges fits its dimension
- `Selection.pairwise_elems` : the selected elements come in storage order
- `Selection.lt_size_of_mem_elems` : and are elements of the array
-/

namespace Granule

/-! ## §1 Ranges that fit their dimension -/

/-- A range that is not refused: it moves on, and stays below the extent. -/
structure IndexRange.Fits (r : IndexRange) (extent : Nat) : Prop where
  stride_pos : 0 < r.stride
  within : r.isWithin extent = true

theorem IndexRange.Fits.index_lt {r : IndexRange} {extent i : Nat} (h : r.Fits extent)
    (hi : i < r.count) : r.start + i * r.stride < extent := by
  have hlast : r.last = some (r.start + (r.count - 1) * r.stride) := if_neg (by omega)
  have hwithin := h.within
  rw [isWithin, hlast, decide_eq_true_eq] at hwithin
  calc r.start + i * r.stride
      ≤ r.start + (r.count - 1) * r.stride :=
        Nat.add_le_add_left (Nat.mul_le_mul_right _ (by omega)) _
    _ < extent := hwithin

namespace Selection

private theorem faultFrom_eq_none_iff {ranges : List IndexRange} {extents : List Nat}
    (hrank : ranges.length = extents.length) (d : Nat) :
    faultFrom d ranges extents = none ↔ List.Forall₂ IndexRange.Fits ranges extents := by
  induction ranges generalizing extents d with
  | nil =>
    rw [List.length_nil, eq_comm, List.length_eq_zero_iff] at hrank
    subst hrank
    simp [faultFrom]
  | cons r rs ih =>
    cases extents with
    | nil => cases hrank
    | cons e es =>
      rw [List.forall₂_cons, ← ih (Nat.succ.inj hrank) (d + 1), faultFrom]
      constructor
      · intro h
        split at h
        · cases h
        · rename_i hstride
          split at h
          · rename_i hwithin
            exact ⟨⟨Nat.pos_of_ne_zero hstride, hwithin⟩, h⟩
          · cases h
      · rintro ⟨hr, hrest⟩
        rw [if_neg (Nat.ne_of_gt hr.stride_pos), if_pos hr.within]
        exact hrest

/-- A selection fits an array when each of its ranges fits its dimension. -/
theorem fits_iff {s : Selection} {shape : Shape} :
    s.Fits shape ↔ List.Forall₂ IndexRange.Fits s.ranges shape.extents := by
  constructor
  · intro h
    have hrank := rank_eq_of_fits h
    rw [Fits, fault?, if_pos (show s.rank = shape.rank from hrank)] at h
    exact (faultFrom_eq_none_iff hrank 0).mp h
  · intro h
    have hrank := h.length_eq
    rw [Fits, fault?, if_pos (show s.rank = shape.rank from hrank)]
    exact (faultFrom_eq_none_iff hrank 0).mpr h

/-! ## §2 The walk climbs -/

section Walk

variable {ranges : List IndexRange} {extents : List Nat}

/-- Of two numbers with one digit in front, the digit decides, whatever the rest of the larger. -/
private theorem digit_lt_digit {a b n u : Nat} (hu : u < n) (hab : a < b) (v : Nat) :
    a * n + u < b * n + v :=
  calc a * n + u
      < a * n + n := Nat.add_lt_add_left hu _
    _ = (a + 1) * n := (Nat.succ_mul a n).symm
    _ ≤ b * n := Nat.mul_le_mul_right n hab
    _ ≤ b * n + v := Nat.le_add_right _ v

theorem walk_lt (h : List.Forall₂ IndexRange.Fits ranges extents) {j : Nat}
    (hj : j < (ranges.map (·.count)).prod) : walk extents ranges j < extents.prod := by
  induction h generalizing j with
  | nil => exact Nat.one_pos
  | cons hr _ ih =>
    rw [List.map_cons, List.prod_cons, Nat.mul_comm] at hj
    have hpos := Nat.pos_of_mul_pos_right (Nat.zero_lt_of_lt hj)
    have hindex := hr.index_lt (Nat.div_lt_of_lt_mul hj)
    rw [walk, List.prod_cons]
    exact digit_lt_digit (ih (Nat.mod_lt j hpos)) hindex 0

/-- A later step of the walk reaches a later element. -/
theorem walk_lt_walk (h : List.Forall₂ IndexRange.Fits ranges extents) {i j : Nat} (hij : i < j)
    (hj : j < (ranges.map (·.count)).prod) : walk extents ranges i < walk extents ranges j := by
  induction h generalizing i j with
  | nil =>
    rw [List.map_nil, List.prod_nil] at hj
    omega
  | @cons r e rs es hr hrest ih =>
    rw [List.map_cons, List.prod_cons, Nat.mul_comm] at hj
    rw [walk, walk]
    set within := (rs.map (·.count)).prod
    have hpos : 0 < within := Nat.pos_of_mul_pos_right (Nat.zero_lt_of_lt hj)
    rcases (Nat.div_le_div_right (c := within) hij.le).eq_or_lt with hsame | hless
    · -- both steps stand at one index of this dimension, so the inner walk climbs
      have hinner : i % within < j % within := by
        have hi := Nat.div_add_mod i within
        have hj' := Nat.div_add_mod j within
        rw [hsame] at hi
        omega
      rw [hsame]
      exact Nat.add_lt_add_left (ih hinner (Nat.mod_lt j hpos)) _
    · -- the index moves on, and the inner walk cannot make up for it
      have hindex := Nat.mul_lt_mul_of_pos_right hless hr.stride_pos
      exact digit_lt_digit (walk_lt hrest (Nat.mod_lt i hpos)) (Nat.add_lt_add_left hindex _) _

end Walk

/-! ## §3 The selected elements -/

def elems (s : Selection) (shape : Shape) : List Nat :=
  (List.range s.size).map (s.storageElem shape)

variable {s : Selection} {shape : Shape}

/-- The selected elements come in storage order. -/
theorem pairwise_elems (h : s.Fits shape) : (s.elems shape).Pairwise (· < ·) := by
  rw [elems, List.pairwise_map]
  refine List.pairwise_lt_range.imp_of_mem ?_
  intro i j _ hj hij
  rw [← elemAt_eq_storageElem, ← elemAt_eq_storageElem]
  exact walk_lt_walk (fits_iff.mp h) hij (List.mem_range.mp hj)

/-- The selected elements are elements of the array. -/
theorem lt_size_of_mem_elems (h : s.Fits shape) {e : Nat} (he : e ∈ s.elems shape) :
    e < shape.size := by
  obtain ⟨j, hj, rfl⟩ := List.mem_map.mp he
  rw [← elemAt_eq_storageElem]
  exact walk_lt (fits_iff.mp h) (List.mem_range.mp hj)

end Selection

end Granule
