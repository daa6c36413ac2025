import Mathlib.Algebra.BigOperators.Ring.List
import Mathlib.Tactic.Ring
import Mathlib.Logic.Function.Iterate
import Granule.Grid.Plan

/-!
# Plans Walk Their Selection

The chunks of a plan are the selected elements, row by row: the element that a
chunk holds at place `i` is the one that the walk over the selection reaches at
step `dest + i`.

The proof follows the two halves of a plan. Fusing a dimension keeps an account
of the dimensions fused so far (`Fusion.Covers`), with one case for each way a
dimension can join; the odometer shows the number of the next chunk
(`PlanCursor.InStep`), so that the `k`-th pull gives the run that the account
speaks of.

**Main statements**:
- `Fusion.Covers.ofRanges` : fusing all dimensions accounts for all elements of a selection
- `PlanCursor.iterate_after` : after `k` pulls a cursor stands at chunk `k`
-/

namespace Granule

/-! ## §1 The row-by-row walk -/

/-- The index along each dimension of step `j` of a row-by-row walk, the last index
varying fastest. -/
def Shape.unravelFrom : List Nat → (j : Nat) → List Nat
  | [], _ => []
  | _ :: inner, j => j / inner.prod :: unravelFrom inner (j % inner.prod)

def Shape.unravel (s : Shape) (j : Nat) : List Nat := unravelFrom s.extents j

namespace Selection

/-- The storage element of the `j`-th selected element: the sum, over all dimensions, of the
index that the selection picks there, times the stride of the array. -/
def storageElem (s : Selection) (shape : Shape) (j : Nat) : Nat :=
  (List.zipWith (· * ·)
    (List.zipWith (fun r i => r.start + i * r.stride) s.ranges (s.outputShape.unravel j))
    shape.strides).sum

private theorem walk_eq_sum (extents : List Nat) (ranges : List IndexRange) (j : Nat) :
    walk extents ranges j =
      (List.zipWith (· * ·)
        (List.zipWith (fun r i => r.start + i * r.stride) ranges
          (Shape.unravelFrom (ranges.map (·.count)) j))
        (Shape.stridesOf extents)).sum := by
  induction extents generalizing ranges j with
  | nil => cases ranges <;> simp [walk, Shape.stridesOf]
  | cons e es ih =>
    cases ranges with
    | nil => simp [walk]
    | cons r rs => simp [walk, Shape.unravelFrom, Shape.stridesOf, ih]

theorem elemAt_eq_storageElem (s : Selection) (shape : Shape) (j : Nat) :
    s.elemAt shape j = s.storageElem shape j :=
  walk_eq_sum shape.extents s.ranges j

theorem rank_eq_of_fits {s : Selection} {shape : Shape} (h : s.Fits shape) :
    s.ranges.length = shape.extents.length := by
  unfold Fits fault? at h
  split at h
  · assumption
  · cases h

end Selection

/-! ## §2 What a fusion of dimensions stands for -/

/-- The account of the dimensions that were fused: the size of the array and of the
selection, and the storage element of every selected one. -/
structure Fusion.Covers (f : Fusion) (extents : List Nat) (ranges : List IndexRange) : Prop where
  stride_eq : f.stride = extents.prod
  count_eq : f.run * Repetition.total f.repetitions = (ranges.map (·.count)).prod
  walk_eq : ∀ k < Repetition.total f.repetitions, ∀ i < f.run,
    Selection.walk extents ranges (k * f.run + i) =
      f.base + Repetition.offset f.repetitions k + i
  /-- While the run may grow, everything so far is selected, and is one run. -/
  whole : f.isOpen = true →
    f.repetitions = [] ∧ f.base = 0 ∧ (ranges.map (·.count)).prod = extents.prod

namespace Fusion.Covers

variable {f : Fusion} {extents : List Nat} {ranges : List IndexRange} {e : Nat} {r : IndexRange}

theorem point : Fusion.point.Covers [] [] where
  stride_eq := rfl
  count_eq := rfl
  walk_eq := by
    intro k hk i hi
    have hk0 : k = 0 := by simpa [Fusion.point, Repetition.total] using hk
    have hi0 : i = 0 := by simpa [Fusion.point] using hi
    subst hk0 hi0
    rfl
  whole := fun _ => ⟨rfl, rfl, rfl⟩

/-- While the run may grow, the walk over all dimensions so far is the walk over storage. -/
theorem walk_of_open (h : f.Covers extents ranges) (hopen : f.isOpen = true) {i : Nat}
    (hi : i < f.run) : Selection.walk extents ranges i = i := by
  obtain ⟨hreps, hbase, -⟩ := h.whole hopen
  have hwalk := h.walk_eq 0 (by simp [hreps, Repetition.total]) i hi
  simpa [hreps, hbase, Repetition.offset] using hwalk

/-- A dimension of adjacent indices on top of an open run selects adjacent elements. -/
private theorem walk_gapless (h : f.Covers extents ranges) (hopen : f.isOpen = true)
    (hgapless : r.isGapless = true) {i : Nat} (hi : i < f.run * r.count) :
    Selection.walk (e :: extents) (r :: ranges) i = r.start * f.stride + i := by
  obtain ⟨hreps, -, hall⟩ := h.whole hopen
  have hrun : f.run = extents.prod := by
    simpa [hreps, Repetition.total, hall] using h.count_eq
  have hpos : 0 < f.run := Nat.pos_of_ne_zero fun h0 => by simp [h0] at hi
  have hinner := h.walk_of_open hopen (Nat.mod_lt i hpos)
  -- with one index only, the stride of the range plays no part
  have hsteps : i / f.run * r.stride = i / f.run := by
    simp only [IndexRange.isGapless, Bool.decide_or, Bool.or_eq_true, decide_eq_true_eq]
      at hgapless
    rcases hgapless with hone | hfew
    · rw [hone, Nat.mul_one]
    · have hlt : i < f.run := by
        calc i < f.run * r.count := hi
          _ ≤ f.run * 1 := Nat.mul_le_mul_left _ hfew
          _ = f.run := Nat.mul_one _
      rw [Nat.div_eq_of_lt hlt, Nat.zero_mul]
  rw [Selection.walk, hall, ← hrun, h.stride_eq, ← hrun]
  simp only [hsteps, hinner]
  rw [Nat.add_mul, Nat.add_assoc, Nat.mul_comm (i / f.run), Nat.div_add_mod]

/-- A dimension of adjacent indices joins an open run; if it is selected whole, the run may
stay open. -/
private theorem joined (h : f.Covers extents ranges) (hopen : f.isOpen = true)
    (hgapless : r.isGapless = true) {stays : Bool}
    (hstays : stays = true → r.start = 0 ∧ r.count = e) :
    Covers { f with run := f.run * r.count, isOpen := stays, base := r.start * f.stride + f.base,
                    stride := e * f.stride } (e :: extents) (r :: ranges) := by
  obtain ⟨hreps, hbase, hall⟩ := h.whole hopen
  refine ⟨?stride, ?count, ?walk, ?whole⟩
  case stride => simp [h.stride_eq]
  case count =>
    have hone := h.count_eq
    simp only [hreps, Repetition.total, List.map_nil, List.prod_nil, Nat.mul_one] at hone
    simp [hreps, Repetition.total, hone, Nat.mul_comm]
  case walk =>
    intro k hk i hi
    -- there is one run only
    have hk0 : k = 0 := by simpa [hreps, Repetition.total] using hk
    subst hk0
    have hwalk := h.walk_gapless (e := e) hopen hgapless hi
    simpa [hreps, Repetition.offset, hbase] using hwalk
  case whole =>
    intro hopen
    obtain ⟨hstart, hcount⟩ := hstays hopen
    exact ⟨hreps, by simp [hstart, hbase], by simp [hcount, hall]⟩

private theorem extend_whole (h : f.Covers extents ranges) (hopen : f.isOpen = true)
    (hwhole : r.isWhole e = true) : (f.extend e r).Covers (e :: extents) (r :: ranges) := by
  obtain ⟨hstart, hcount, hgapless⟩ : r.start = 0 ∧ r.count = e ∧ r.isGapless = true := by
    simpa [IndexRange.isWhole] using hwhole
  have hextend : f.extend e r =
      { f with run := f.run * r.count, isOpen := true, base := r.start * f.stride + f.base,
               stride := e * f.stride } := by
    simp [Fusion.extend, hopen, hwhole, hcount]
  rw [hextend]
  exact h.joined hopen hgapless fun _ => ⟨hstart, hcount⟩

private theorem extend_gapless (h : f.Covers extents ranges) (hopen : f.isOpen = true)
    (hwhole : r.isWhole e = false) (hgapless : r.isGapless = true) :
    (f.extend e r).Covers (e :: extents) (r :: ranges) := by
  have hextend : f.extend e r =
      { f with run := f.run * r.count, isOpen := false, base := r.start * f.stride + f.base,
               stride := e * f.stride } := by
    simp [Fusion.extend, hopen, hwhole, hgapless]
  rw [hextend]
  exact h.joined hopen hgapless fun hopen => by cases hopen

/-- Any other dimension repeats the runs within it. -/
private theorem extend_repeated (h : f.Covers extents ranges)
    (hclosed : f.isOpen = false ∨ r.isGapless = false) :
    (f.extend e r).Covers (e :: extents) (r :: ranges) := by
  have hextend : f.extend e r =
      { f with isOpen := false, base := r.start * f.stride + f.base, stride := e * f.stride
               repetitions := ⟨r.count, r.stride * f.stride⟩ :: f.repetitions } := by
    rcases hclosed with hf | hr
    · simp [Fusion.extend, hf]
    · have hwhole : r.isWhole e = false := by simp [IndexRange.isWhole, hr]
      simp [Fusion.extend, hr, hwhole]
  rw [hextend]
  refine ⟨?stride, ?count, ?walk, ?whole⟩
  case stride => simp [h.stride_eq]
  case count =>
    rw [Repetition.total_cons, Nat.mul_left_comm, h.count_eq]
    simp
  case walk =>
    intro k hk i hi
    rw [Repetition.total_cons] at hk
    have hpos : 0 < Repetition.total f.repetitions :=
      Nat.pos_of_ne_zero fun h0 => by simp [h0] at hk
    have hrun : 0 < f.run := Nat.zero_lt_of_lt hi
    have hdivRun : (k * f.run + i) / f.run = k := by
      rw [Nat.mul_comm, Nat.mul_add_div hrun, Nat.div_eq_of_lt hi, Nat.add_zero]
    have hmodRun : (k * f.run + i) % f.run = i := by
      rw [Nat.mul_comm, Nat.mul_add_mod, Nat.mod_eq_of_lt hi]
    -- the outer index is the number of the run over the runs within, the rest stays inside
    have hdiv : (k * f.run + i) / (f.run * Repetition.total f.repetitions) =
        k / Repetition.total f.repetitions := by
      rw [← Nat.div_div_eq_div_mul, hdivRun]
    have hmod : (k * f.run + i) % (f.run * Repetition.total f.repetitions) =
        k % Repetition.total f.repetitions * f.run + i := by
      rw [Nat.mod_mul, hdivRun, hmodRun, Nat.mul_comm, Nat.add_comm]
    have hwalk := h.walk_eq _ (Nat.mod_lt k hpos) i hi
    simp only [Selection.walk, Repetition.offset, ← h.count_eq, hdiv, hmod, hwalk, h.stride_eq]
    ring
  case whole =>
    intro hopen
    cases hopen

theorem extend (h : f.Covers extents ranges) :
    (f.extend e r).Covers (e :: extents) (r :: ranges) := by
  -- one case for each branch of the fusion
  by_cases hclosed : f.isOpen = false ∨ r.isGapless = false
  · exact h.extend_repeated hclosed
  · simp only [not_or, Bool.not_eq_false] at hclosed
    cases hwhole : r.isWhole e with
    | true => exact h.extend_whole hclosed.1 hwhole
    | false => exact h.extend_gapless hclosed.1 hwhole hclosed.2

/-- Fusing all dimensions of a selection accounts for all of its elements. -/
theorem ofRanges {extents : List Nat} {ranges : List IndexRange}
    (hrank : ranges.length = extents.length) :
    (Fusion.ofRanges extents ranges).Covers extents ranges := by
  induction extents generalizing ranges with
  | nil =>
    cases ranges with
    | nil => exact point
    | cons r rs => simp at hrank
  | cons e es ih =>
    cases ranges with
    | nil => simp at hrank
    | cons r rs => exact (ih (by simpa using hrank)).extend

end Fusion.Covers

/-! ## §3 Pulls -/

namespace PlanCursor

/-- The cursor after one pull; at the end it stays where it is. -/
def after (c : PlanCursor) : PlanCursor :=
  match c.next with
  | some (_, rest) => rest
  | none => c

/-- After `k` pulls a cursor stands at chunk `k`, or at the end. -/
theorem iterate_after (p : Plan) (k : Nat) :
    (after^[k] ⟨p, 0⟩).plan = p ∧ (after^[k] ⟨p, 0⟩).InStep ∧
      (after^[k] ⟨p, 0⟩).odometer.pulled = min k p.chunkCount := by
  induction k with
  | zero => exact ⟨rfl, inStep_zero p, by simp [OfNat.ofNat]⟩
  | succ k ih =>
    obtain ⟨hplan, hstep, hpulled⟩ := ih
    rw [Function.iterate_succ_apply']
    generalize after^[k] ⟨p, 0⟩ = c at *
    have hnext := next_eq hstep
    unfold after
    by_cases hmore : c.odometer.pulled < c.plan.chunkCount
    · rw [if_pos (by simpa [hasNext] using hmore)] at hnext
      rw [hnext]
      refine ⟨hplan, hstep.pass, ?_⟩
      simp only [pass, Odometer.advance]
      rw [hplan] at hmore
      omega
    · rw [if_neg (by simpa [hasNext] using hmore)] at hnext
      rw [hnext]
      refine ⟨hplan, hstep, ?_⟩
      simp only
      rw [hplan] at hmore
      omega

end PlanCursor

/-- The elements of all chunks together are the selected ones. -/
theorem Plan.sum_count_chunks (p : Plan) :
    (p.chunks.map (·.count)).sum = p.chunkCount * p.perChunk := by
  have hconst : (Chunk.count ∘ p.chunk) = fun _ => p.perChunk := rfl
  rw [chunks, List.map_map, hconst, List.map_const', List.sum_replicate_nat, List.length_range]

end Granule
