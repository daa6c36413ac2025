import Granule.Proofs.Grid.Gather
import Granule.Words.Plan

/-!
# Plans Made on a Machine

What a machine reckons when it makes a plan comes out as the plan, and the numbers on the way
to a sum or to a product are bounded by where it ends.

**Main statements**:
- `Reckoning.all_productFrom_le` : multiplying, no number is larger than the product of bounds
- `Plan.result_reckon` : what a machine reckons comes out as the plan
- `Plan.ofSelection_of_ofSelectionChecked` : a machine makes no other plan, and refuses no more
-/

namespace Granule

open Reckoning

/-! ## §1 Sums and products -/

namespace Reckoning

theorem result_sumFrom_eq (hand : Nat) (ns : List Nat) :
    (sumFrom hand ns).result = hand + ns.sum := by
  induction ns generalizing hand with
  | nil => rfl
  | cons n ns ih =>
    rw [List.sum_cons, ← Nat.add_assoc]
    exact ih (hand + n)

/-- Adding up, no number is larger than the sum of all. -/
theorem all_sumFrom_le (hand : Nat) (ns : List Nat) :
    (sumFrom hand ns).All (· ≤ hand + ns.sum) := by
  induction ns generalizing hand with
  | nil => exact all_pure hand
  | cons n ns ih =>
    rw [sumFrom, all_bind, all_plus, result_plus, List.sum_cons, ← Nat.add_assoc]
    exact ⟨Nat.le_add_right _ _, ih (hand + n)⟩

/-- The last number that comes up is the sum of all. -/
theorem all_sumFrom_iff {limit : Nat} (hand : Nat) (ns : List Nat) (hhand : hand < limit) :
    (sumFrom hand ns).All (· < limit) ↔ hand + ns.sum < limit := by
  constructor
  · intro h
    induction ns generalizing hand with
    | nil => exact hhand
    | cons n ns ih =>
      rw [sumFrom, all_bind, all_plus, result_plus] at h
      rw [List.sum_cons, ← Nat.add_assoc]
      exact ih (hand + n) h.1 h.2
  · exact fun h => (all_sumFrom_le hand ns).mono fun n hn => Nat.lt_of_le_of_lt hn h

/-- Multiplying, no number is larger than the product of bounds that are not zero. -/
theorem all_productFrom_le (hand : Nat) {ns bounds : List Nat}
    (h : List.Forall₂ (· ≤ ·) ns bounds) (hpos : ∀ b ∈ bounds, 0 < b) :
    (productFrom hand ns).All (· ≤ hand * bounds.prod) := by
  induction h generalizing hand with
  | nil => exact all_pure hand
  | @cons n b ns bounds hle hrest ih =>
    obtain ⟨hb, hbounds⟩ := List.forall_mem_cons.mp hpos
    rw [productFrom, all_bind, all_times, result_times, List.prod_cons, ← Nat.mul_assoc]
    have hstep : hand * n ≤ hand * b := Nat.mul_le_mul_left hand hle
    have hinner : 0 < bounds.prod :=
      Nat.pos_of_ne_zero (List.prod_ne_zero fun hzero => Nat.lt_irrefl 0 (hbounds 0 hzero))
    refine ⟨hstep.trans (Nat.le_mul_of_pos_right _ hinner), ?_⟩
    exact (ih (hand * n) hbounds).mono fun m hm => hm.trans (Nat.mul_le_mul_right _ hstep)

end Reckoning

theorem Repetition.sum_reckonParts (repetitions : List Repetition) (digits : List Nat) :
    (reckonParts repetitions digits).result.sum = reach repetitions digits := by
  have hsum := result_sumFrom_eq 0 (reckonParts repetitions digits).result
  rw [result_sumFrom, foldl_reckonParts, Nat.zero_add, Nat.zero_add] at hsum
  exact hsum.symm

/-! ## §2 Making a plan -/

namespace Fusion

def runs (f : Fusion) : Runs := ⟨f.run, f.isOpen, f.repetitions⟩

theorem result_extend (f : Fusion) (extent : Nat) (r : IndexRange) :
    (f.runs.extend extent r f.stride).result = (f.extend extent r).runs := by
  unfold Runs.extend extend runs
  split
  · rfl
  · split <;> rfl

theorem stride_ofRanges {extents : List Nat} {ranges : List IndexRange}
    (h : ranges.length = extents.length) : (ofRanges extents ranges).stride = extents.prod :=
  (Covers.ofRanges h).stride_eq

@[simp] theorem result_reckon {extents : List Nat} {ranges : List IndexRange}
    (h : ranges.length = extents.length) :
    (Runs.reckon extents ranges (Shape.stridesOf extents)).result =
      (ofRanges extents ranges).runs := by
  induction extents generalizing ranges with
  | nil =>
    cases ranges with
    | nil => rfl
    | cons => cases h
  | cons e es ih =>
    cases ranges with
    | nil => cases h
    | cons r rs =>
      have hlength : rs.length = es.length := Nat.succ.inj h
      rw [Shape.stridesOf, Runs.reckon, result_bind, ih hlength, ← stride_ofRanges hlength,
        result_extend, ofRanges]

end Fusion

/-- The storage elements that the starts of the ranges stand for, each along its own dimension. -/
def Selection.starts (s : Selection) (shape : Shape) : List Nat :=
  (s.ranges.zip shape.strides).map fun (r, stride) => r.start * stride

/-- The first selected element is where the starts of all ranges add up to. -/
theorem Fusion.base_ofRanges {extents : List Nat} {ranges : List IndexRange}
    (h : ranges.length = extents.length) :
    (Fusion.ofRanges extents ranges).base =
      ((Selection.mk ranges).starts ⟨extents⟩).sum := by
  induction extents generalizing ranges with
  | nil =>
    cases ranges with
    | nil => rfl
    | cons => cases h
  | cons e es ih =>
    cases ranges with
    | nil => cases h
    | cons r rs =>
      have hlength : rs.length = es.length := Nat.succ.inj h
      -- whether the dimension fuses or not, its start is added to the base
      have hbase : (Fusion.ofRanges (e :: es) (r :: rs)).base =
          r.start * (Fusion.ofRanges es rs).stride + (Fusion.ofRanges es rs).base := by
        rw [Fusion.ofRanges, Fusion.extend]
        split
        · rfl
        · split <;> rfl
      rw [hbase, ih hlength, Fusion.stride_ofRanges hlength]
      simp [Selection.starts, Shape.strides, Shape.stridesOf]

variable {shape : Shape} {selection : Selection} {elemSize dataStart : Nat} {p : Plan}

/-- Laid open, the making of a plan comes out as the plan. -/
theorem Plan.result_reckon (hplan : ofSelection shape elemSize selection dataStart = .ok p) :
    (reckon shape elemSize selection dataStart).result = (p, p.chunkCount) := by
  obtain ⟨-, hfits, rfl⟩ := ofSelection_eq_ok_iff.mp hplan
  have hrank := Selection.rank_eq_of_fits hfits
  have hbase := Fusion.base_ofRanges hrank
  simp only [reckon, result_bind, result_each, Shape.result_reckonStrides,
    Fusion.result_reckon hrank, result_sumFrom_eq, result_productFrom, Nat.zero_add, Nat.one_mul,
    result_times]
  rw [Selection.starts, Shape.strides] at hbase
  rw [← hbase, chunkCount, Selection.size]
  split <;> simp [*, Fusion.runs, Repetition.total]

/-- A machine plans, or refuses, in the same way. -/
theorem Plan.result_reckonOfSelection (shape : Shape) (elemSize : Nat) (selection : Selection)
    (dataStart : Nat) :
    (reckonOfSelection shape elemSize selection dataStart).result =
      ofSelection shape elemSize selection dataStart := by
  cases hmade : ofSelection shape elemSize selection dataStart with
  | ok p =>
    obtain ⟨hsize, hfits, -⟩ := ofSelection_eq_ok_iff.mp hmade
    rw [Selection.Fits] at hfits
    simp only [reckonOfSelection, if_neg (Nat.ne_of_gt hsize), result_bind,
      Selection.result_reckonFault?, hfits, result_reckon hmade, result_pure]
  | error fault =>
    rw [← hmade, reckonOfSelection, ofSelection]
    split
    · rfl
    · rw [result_bind, Selection.result_reckonFault?]
      cases hfault : selection.fault? shape with
      | some fault => rfl
      | none =>
        exfalso
        rename_i hsize
        rw [ofSelection, if_neg hsize, hfault] at hmade
        cases hmade

theorem Plan.ofSelection_of_ofSelectionChecked {made : Except Selection.Fault Plan}
    (h : ofSelectionChecked shape elemSize selection dataStart = .ok made) :
    ofSelection shape elemSize selection dataStart = made :=
  (result_reckonOfSelection shape elemSize selection dataStart).symm.trans (result_of_run h)

end Granule
