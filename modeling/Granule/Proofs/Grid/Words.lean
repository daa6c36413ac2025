import Mathlib.Algebra.Order.BigOperators.Group.List
import Granule.Proofs.Grid.Reckoning
import Granule.Proofs.Grid.Sequence

/-!
# How Large the Numbers of a Plan Become

An array of `size` elements that starts at byte `dataStart` has its last byte in
front of `dataStart + size * elemSize`. If that place can be named in a word, then so
can nearly every number that comes up when a selection of the array is planned: strides,
runs, places and counts are all held by the array, one dimension at a time. Where a
dimension is empty the array holds nothing, and the same is true of the array in which
such a dimension has one index (`Shape.span`).

Two kinds of numbers are not held. The step of a repeated dimension is its stride times
that of the array, and a range of one index may have any stride at all. An empty range may
start at the very end of its dimension, and several of them, each at its end, add up to
a place behind the array. Neither number is of any use to the transfer
(`Plan.Idle`): the one is only ever multiplied by zero, and the other belongs to a plan
without chunks. A machine that has places for these two, too, makes the plan
(`Selection.HasRoom`).

**Main statements**:
- `Plan.gives_ofSelectionChecked` : what a machine makes of a selection that fits is its plan
- `PlanCursor.gives_nextChecked` : what it pulls is the next chunk
- `Plan.keeps_to_words` : which numbers stay within words when a plan is made, and that all of
  them do when its chunks are pulled
-/

namespace Granule

open Reckoning

variable {ranges : List IndexRange} {extents : List Nat} {r : IndexRange} {e : Nat}

/-! ## §1 Ranges -/

namespace IndexRange.Fits

/-- No more indices are selected than there are. -/
theorem count_le (h : r.Fits e) : r.count ≤ e := by
  by_cases hzero : r.count = 0
  · omega
  · have hlast := h.index_lt (i := r.count - 1) (by omega)
    have hsteps : r.count - 1 ≤ (r.count - 1) * r.stride := Nat.le_mul_of_pos_right _ h.stride_pos
    omega

theorem start_le (h : r.Fits e) : r.start ≤ e := by
  obtain ⟨hindex, hempty⟩ := (isWithin_iff h.stride_pos).mp h.within
  by_cases hzero : r.count = 0
  · exact hempty hzero
  · have hfirst := hindex 0 (by omega)
    omega

/-- Where there are two indices, they are less than an extent apart. -/
theorem stride_le (h : r.Fits e) (htwo : 2 ≤ r.count) : r.stride ≤ e := by
  have hsecond := h.index_lt (i := 1) htwo
  omega

theorem all_reckonLast (h : r.Fits e) : r.reckonLast.All (· ≤ e) := by
  unfold reckonLast
  split
  · exact all_pure none
  · have hlast := h.index_lt (i := r.count - 1) (by omega)
    simp only [all_bind, all_times, all_plus, result_times, all_pure, and_true]
    omega

end IndexRange.Fits

/-! ## §2 Dimensions -/

/-- The number of elements, where an empty dimension counts like one with a single index. -/
def Shape.spanOf (extents : List Nat) : Nat := (extents.map (max 1)).prod

def Shape.span (s : Shape) : Nat := spanOf s.extents

namespace Shape

theorem spanOf_cons (e : Nat) (inner : List Nat) :
    spanOf (e :: inner) = max 1 e * spanOf inner := by
  rw [spanOf, List.map_cons, List.prod_cons, ← spanOf]

theorem spanOf_pos (extents : List Nat) : 0 < spanOf extents := by
  induction extents with
  | nil => exact Nat.one_pos
  | cons e inner ih =>
    rw [spanOf_cons]
    exact Nat.mul_pos (le_max_left 1 e) ih

theorem prod_le_spanOf (extents : List Nat) : extents.prod ≤ spanOf extents := by
  induction extents with
  | nil => exact Nat.le_refl 1
  | cons e inner ih =>
    rw [spanOf_cons, List.prod_cons]
    exact Nat.mul_le_mul (le_max_right 1 e) ih

theorem size_le_span (s : Shape) : s.size ≤ s.span := prod_le_spanOf s.extents

/-- Without an empty dimension this is the number of elements. -/
theorem span_eq_size {s : Shape} (h : ∀ e ∈ s.extents, 1 ≤ e) : s.span = s.size := by
  have hsame : s.extents.map (max 1) = s.extents := by
    conv_rhs => rw [← List.map_id s.extents]
    exact List.map_congr_left fun e he => max_eq_right (h e he)
  rw [span, spanOf, hsame, size]

/-- Numbers held by the inner dimensions are held by all. -/
private theorem le_spanOf_cons {n : Nat} (e : Nat) (h : n ≤ spanOf extents) :
    n ≤ spanOf (e :: extents) := by
  rw [spanOf_cons]
  exact h.trans (Nat.le_mul_of_pos_left _ (le_max_left 1 e))

private theorem mul_le_spanOf_cons {n m : Nat} (hn : n ≤ e) (hm : m ≤ spanOf extents) :
    n * m ≤ spanOf (e :: extents) := by
  rw [spanOf_cons]
  exact Nat.mul_le_mul (hn.trans (le_max_right 1 e)) hm

theorem all_reckonStrides_le (extents : List Nat) :
    (reckonStrides extents).All (· ≤ spanOf extents) := by
  fun_induction reckonStrides extents with
  | case1 => exact all_pure []
  | case2 => exact all_pure [1]
  | case3 outer e inner ih =>
    simp only [all_bind, all_times, all_pure, and_true, result_reckonStrides, stridesOf,
      List.headD_cons]
    refine ⟨ih.mono fun n hn => le_spanOf_cons outer hn, le_spanOf_cons outer ?_⟩
    rw [Nat.mul_comm]
    exact mul_le_spanOf_cons le_rfl (prod_le_spanOf inner)

end Shape

open Shape (spanOf)

theorem Selection.all_reckonLast_le (h : List.Forall₂ IndexRange.Fits ranges extents) :
    ∀ r ∈ ranges, r.reckonLast.All (· ≤ spanOf extents) := by
  induction h with
  | nil => simp
  | @cons r e rs es hr _ ih =>
    refine List.forall_mem_cons.mpr ⟨?_, fun r' hr' => ?_⟩
    · refine hr.all_reckonLast.mono fun n hn => ?_
      have hheld := Shape.mul_le_spanOf_cons hn (Shape.spanOf_pos es)
      rwa [Nat.mul_one] at hheld
    · exact (ih r' hr').mono fun n hn => Shape.le_spanOf_cons e hn

/-- What comes up when a selection is checked comes up at one of its ranges. -/
theorem Selection.all_reckonFault? {q : Nat → Prop} {s : Selection} (shape : Shape)
    (h : ∀ r ∈ s.ranges, r.reckonLast.All q) : (s.reckonFault? shape).All q := by
  -- only the last index of a range is reckoned, and only until the first fault
  have hfrom : ∀ (d : Nat) (ranges : List IndexRange) (extents : List Nat),
      (∀ r ∈ ranges, r.reckonLast.All q) → (reckonFaultFrom d ranges extents).All q := by
    intro d ranges extents hranges
    fun_induction reckonFaultFrom d ranges extents with
    | case1 => exact all_pure _
    | case2 d r rs e es hstride ih =>
      obtain ⟨hr, hrs⟩ := List.forall_mem_cons.mp hranges
      rw [all_bind]
      refine ⟨?_, ?_⟩
      · rw [IndexRange.reckonWithin, all_bind]
        refine ⟨hr, ?_⟩
        split <;> exact all_pure _
      · split
        · exact ih hrs
        · exact all_pure _
    | case3 => exact all_pure _
  unfold reckonFault?
  split
  · exact hfrom 0 s.ranges shape.extents h
  · exact all_pure _

/-- A run lies inside the dimensions that it was made of. -/
theorem Fusion.run_le (h : List.Forall₂ IndexRange.Fits ranges extents) :
    (ofRanges extents ranges).run ≤ spanOf extents := by
  induction h with
  | nil => exact Nat.le_refl 1
  | @cons r e rs es hr _ ih =>
    rw [ofRanges, extend]
    split
    · exact (Nat.mul_comm _ _).trans_le (Shape.mul_le_spanOf_cons le_rfl ih)
    · split
      · exact (Nat.mul_comm _ _).trans_le (Shape.mul_le_spanOf_cons hr.count_le ih)
      · exact Shape.le_spanOf_cons e ih

/-- Taking in a dimension changes nothing about those that are repeated further in. -/
private theorem Fusion.mem_extend (f : Fusion) {rep : Repetition} (h : rep ∈ f.repetitions) :
    rep ∈ (f.extend e r).repetitions := by
  unfold extend
  split
  · exact h
  · split
    · exact h
    · exact List.mem_cons_of_mem _ h

/-- A number that is the step of a dimension along which nothing is repeated. -/
def Fusion.IsIdleStep (f : Fusion) (n : Nat) : Prop :=
  ∃ rep ∈ f.repetitions, rep.count ≤ 1 ∧ n = rep.step

/-- Taking in a dimension, only the step of a range with at most one index can leave the array. -/
theorem Fusion.all_extend {f : Fusion} (hr : r.Fits e) (hrun : f.run ≤ spanOf extents)
    (hstride : f.stride ≤ spanOf extents) :
    (f.runs.extend e r f.stride).All fun n =>
      n ≤ spanOf (e :: extents) ∨ (f.extend e r).IsIdleStep n := by
  unfold Runs.extend extend runs
  by_cases hwhole : (f.isOpen && r.isWhole e) = true
  · simp only [hwhole, if_true, all_bind, all_times, all_pure, and_true]
    exact .inl ((Nat.mul_comm _ _).trans_le (Shape.mul_le_spanOf_cons le_rfl hrun))
  · by_cases hgapless : (f.isOpen && r.isGapless) = true
    · simp only [hwhole, hgapless, if_true, if_false, Bool.false_eq_true, all_bind, all_times,
        all_pure, and_true]
      exact .inl ((Nat.mul_comm _ _).trans_le (Shape.mul_le_spanOf_cons hr.count_le hrun))
    · simp only [hwhole, hgapless, if_false, Bool.false_eq_true, all_bind, all_times, all_pure,
        and_true]
      -- only two indices or more keep the stride below the extent
      by_cases hfew : r.count ≤ 1
      · exact .inr ⟨_, List.mem_cons_self, hfew, rfl⟩
      · exact .inl (Shape.mul_le_spanOf_cons (hr.stride_le (by omega)) hstride)

/-- The step of a dimension that is repeated comes up when it is taken in. -/
theorem Fusion.step_of_all_extend {p : Nat → Prop} {f : Fusion}
    (h : (f.runs.extend e r f.stride).All p) (hinner : ∀ rep ∈ f.repetitions, p rep.step) :
    ∀ rep ∈ (f.extend e r).repetitions, p rep.step := by
  unfold Runs.extend runs at h
  unfold extend
  split
  · exact hinner
  · rename_i hwhole
    rw [if_neg hwhole] at h
    split
    · exact hinner
    · rename_i hgapless
      rw [if_neg hgapless] at h
      exact List.forall_mem_cons.mpr ⟨(all_times _ _).mp ((all_bind _ _).mp h).1, hinner⟩

theorem Fusion.all_reckon (h : List.Forall₂ IndexRange.Fits ranges extents) :
    (Runs.reckon extents ranges (Shape.stridesOf extents)).All fun n =>
      n ≤ spanOf extents ∨ (ofRanges extents ranges).IsIdleStep n := by
  induction h with
  | nil => exact all_pure _
  | @cons r e rs es hr hrest ih =>
    have hstride := stride_ofRanges hrest.length_eq
    rw [Shape.stridesOf, Runs.reckon, all_bind, result_reckon hrest.length_eq, ofRanges,
      ← hstride]
    refine ⟨ih.mono fun n hn => ?_,
      all_extend hr (run_le hrest) (hstride.trans_le (Shape.prod_le_spanOf es))⟩
    rcases hn with hn | ⟨rep, hrep, hidle⟩
    · exact .inl (Shape.le_spanOf_cons e hn)
    · exact .inr ⟨rep, mem_extend _ hrep, hidle⟩

/-- Every step comes up when dimensions are fused. -/
theorem Fusion.step_of_all {p : Nat → Prop} (h : List.Forall₂ IndexRange.Fits ranges extents)
    (hall : (Runs.reckon extents ranges (Shape.stridesOf extents)).All p) :
    ∀ rep ∈ (ofRanges extents ranges).repetitions, p rep.step := by
  induction h with
  | nil => simp [ofRanges, point]
  | @cons r e rs es _ hrest ih =>
    have hrank := hrest.length_eq
    rw [Shape.stridesOf, Runs.reckon, all_bind, result_reckon hrank,
      ← stride_ofRanges hrank] at hall
    exact step_of_all_extend hall.2 (ih hall.1)

/-- The start of a range stands for a place inside the array, or for its end. -/
theorem Selection.all_starts_le (h : List.Forall₂ IndexRange.Fits ranges extents) :
    ∀ pair ∈ ranges.zip (Shape.stridesOf extents), pair.1.start * pair.2 ≤ spanOf extents := by
  induction h with
  | nil => simp
  | @cons r e rs es hr _ ih =>
    rw [Shape.stridesOf, List.zip_cons_cons]
    refine List.forall_mem_cons.mpr ⟨?_, fun pair hpair => Shape.le_spanOf_cons e (ih pair hpair)⟩
    exact Shape.mul_le_spanOf_cons hr.start_le (Shape.prod_le_spanOf es)

theorem Selection.forall₂_count_le (h : List.Forall₂ IndexRange.Fits ranges extents) :
    List.Forall₂ (· ≤ ·) (ranges.map (·.count)) extents := by
  induction h with
  | nil => exact .nil
  | cons hr _ ih => exact .cons hr.count_le ih

/-- Not more elements are selected than there are. -/
theorem Selection.size_le_size {shape : Shape} {selection : Selection}
    (hfits : selection.Fits shape) : selection.size ≤ shape.size := by
  have hcounts := forall₂_count_le (fits_iff.mp hfits)
  exact List.Forall₂.prod_le_prod' hcounts

/-- Multiplying the counts one by one, no number is larger than the span. -/
theorem Selection.all_counts_le (h : List.Forall₂ IndexRange.Fits ranges extents) :
    (productFrom 1 (ranges.map (·.count))).All (· ≤ spanOf extents) := by
  have hcounts : List.Forall₂ (· ≤ ·) (ranges.map (·.count)) (extents.map (max 1)) := by
    rw [List.forall₂_map_right_iff]
    exact (forall₂_count_le h).imp fun _ _ hle => hle.trans (le_max_right _ _)
  have hpos : ∀ b ∈ extents.map (max 1), 0 < b := by
    refine List.forall_mem_map.mpr fun e _ => ?_
    exact le_max_left 1 e
  exact (all_productFrom_le 1 hcounts hpos).mono fun n hn => hn.trans_eq (Nat.one_mul _)

/-! ## §3 Plans -/

/-- There are places in words for a selection that fits: for the end of the array, for the steps of
dimensions along which nothing is repeated, and for where an empty selection starts. -/
structure Selection.HasRoom (s : Selection) (shape : Shape) (elemSize dataStart : Nat) : Prop where
  stop : dataStart + shape.span * elemSize < wordLimit
  step : ∀ rep ∈ (Fusion.ofRanges shape.extents s.ranges).repetitions,
    rep.count ≤ 1 → rep.step < wordLimit
  base : s.size = 0 → (Fusion.ofRanges shape.extents s.ranges).base < wordLimit

instance (s : Selection) (shape : Shape) (elemSize dataStart : Nat) :
    Decidable (s.HasRoom shape elemSize dataStart) :=
  decidable_of_iff (dataStart + shape.span * elemSize < wordLimit ∧
      (∀ rep ∈ (Fusion.ofRanges shape.extents s.ranges).repetitions,
        rep.count ≤ 1 → rep.step < wordLimit) ∧
      (s.size = 0 → (Fusion.ofRanges shape.extents s.ranges).base < wordLimit))
    ⟨fun h => ⟨h.1, h.2.1, h.2.2⟩, fun h => ⟨h.stop, h.step, h.base⟩⟩

namespace Plan

variable {shape : Shape} {selection : Selection} {elemSize dataStart : Nat} {p : Plan}

/-- All chunks together hold no more elements than there are. -/
theorem runs_le_size (hplan : ofSelection shape elemSize selection dataStart = .ok p) :
    p.chunkCount * p.perChunk ≤ shape.size :=
  (chunkCount_mul_perChunk hplan).trans_le (Selection.size_le_size (fits_of_ofSelection hplan))

theorem chunkCount_le_size (hplan : ofSelection shape elemSize selection dataStart = .ok p) :
    p.chunkCount ≤ shape.size := by
  by_cases hnone : p.chunkCount = 0
  · omega
  · have hpos := perChunk_pos hplan (Nat.pos_of_ne_zero hnone)
    exact (Nat.le_mul_of_pos_right _ hpos).trans (runs_le_size hplan)

/-- Up to the end of a chunk, no more elements are selected than there are. -/
theorem dest_le_size (hplan : ofSelection shape elemSize selection dataStart = .ok p) {k : Nat}
    (hk : k < p.chunkCount) : k * p.perChunk + p.perChunk ≤ shape.size := by
  rw [← Nat.succ_mul]
  exact (Nat.mul_le_mul_right _ hk).trans (runs_le_size hplan)

/-- Where something is selected, there are chunks. -/
theorem chunkCount_pos (hplan : ofSelection shape elemSize selection dataStart = .ok p)
    (hsome : p.total ≠ 0) : 0 < p.chunkCount := by
  have htotal := chunkCount_mul_perChunk hplan
  obtain ⟨-, -, rfl⟩ := ofSelection_eq_ok_iff.mp hplan
  refine Nat.pos_of_ne_zero fun hnone => hsome ?_
  rw [hnone, Nat.zero_mul] at htotal
  exact htotal.symm

/-- Where something is selected, the first element is one of the array. -/
theorem base_le_size (hplan : ofSelection shape elemSize selection dataStart = .ok p)
    (hcount : 0 < p.chunkCount) : p.base ≤ shape.size := by
  have hinside := elemOf_add_perChunk_le_size hplan hcount
  rw [elemOf] at hinside
  omega

/-- The numbers that a transfer has no use for: the step of a dimension along which nothing is
repeated, and what the starts of an empty selection add up to. -/
def Idle (p : Plan) (n : Nat) : Prop :=
  (∃ rep ∈ p.repetitions, rep.count ≤ 1 ∧ n = rep.step) ∨ (p.total = 0 ∧ n ≤ p.base)

/-- What comes up when a plan is made, part by part. -/
private theorem all_reckon_iff {q : Nat → Prop}
    (hplan : ofSelection shape elemSize selection dataStart = .ok p) :
    (reckonOfSelection shape elemSize selection dataStart).All q ↔
      (selection.reckonFault? shape).All q ∧ (Shape.reckonStrides shape.extents).All q ∧
        (Runs.reckon shape.extents selection.ranges (Shape.stridesOf shape.extents)).All q ∧
        (∀ n ∈ selection.starts shape, q n) ∧ (sumFrom 0 (selection.starts shape)).All q ∧
        (productFrom 1 (selection.ranges.map (·.count))).All q ∧
        (p.total ≠ 0 → (productFrom 1 (p.repetitions.map (·.count))).All q) := by
  obtain ⟨hsize, hfits, rfl⟩ := ofSelection_eq_ok_iff.mp hplan
  have hrank := Selection.rank_eq_of_fits hfits
  rw [Selection.Fits] at hfits
  have hcount : ∀ {total : Nat} {counts : List Nat} {f : Nat → Plan × Nat},
      (if total = 0 then pure 0 >>= fun n => pure (f n)
        else productFrom 1 counts >>= fun n => pure (f n)).All q ↔
        (total ≠ 0 → (productFrom 1 counts).All q) := by
    intro total counts f
    by_cases hnone : total = 0 <;> simp [hnone]
  simp only [reckonOfSelection, if_neg (Nat.ne_of_gt hsize), reckon, all_bind, all_each,
    Selection.result_reckonFault?, hfits, Shape.result_reckonStrides, Fusion.result_reckon hrank,
    result_each, result_times, result_sumFrom_eq, result_productFrom, Nat.zero_add, Nat.one_mul,
    all_times, hcount, Selection.starts, Shape.strides, List.forall_mem_map, Selection.size,
    all_pure, and_true]
  rfl

/-- Making a plan, every number is held by the array, or is of no use. -/
theorem all_reckonOfSelection (hplan : ofSelection shape elemSize selection dataStart = .ok p) :
    (reckonOfSelection shape elemSize selection dataStart).All fun n =>
      n ≤ shape.span ∨ p.Idle n := by
  have hcount := chunkCount_le_size hplan
  have hspan := shape.size_le_span
  have hbase := base_le_size hplan
  obtain ⟨-, hfits, hp⟩ := ofSelection_eq_ok_iff.mp hplan
  have hranges := Selection.fits_iff.mp hfits
  -- the last of the partial sums is the base of the plan
  have hsum : (selection.starts shape).sum = p.base := by
    rw [hp]
    exact (Fusion.base_ofRanges hranges.length_eq).symm
  have hheld : ∀ {α : Type} {x : Reckoning α}, x.All (· ≤ shape.span) →
      x.All fun n => n ≤ shape.span ∨ p.Idle n := fun h => h.mono fun n hn => .inl hn
  rw [all_reckon_iff hplan]
  refine ⟨hheld ?fault, hheld (Shape.all_reckonStrides_le _), ?runs, ?starts, ?base,
    hheld (Selection.all_counts_le hranges), ?count⟩
  case fault => exact Selection.all_reckonFault? shape (Selection.all_reckonLast_le hranges)
  case runs =>
    refine (Fusion.all_reckon hranges).mono fun n hn => hn.imp_right fun hidle => ?_
    exact .inl (hp ▸ hidle)
  case starts =>
    exact List.forall_mem_map.mpr fun pair hpair =>
      .inl (Selection.all_starts_le hranges pair hpair)
  case base =>
    refine (all_sumFrom_le 0 _).mono fun n hn => ?_
    rw [Nat.zero_add, hsum] at hn
    -- only a plan without chunks can have its base behind the array
    by_cases hnone : p.total = 0
    · exact .inr (.inr ⟨hnone, hn⟩)
    · exact .inl ((hn.trans (hbase (chunkCount_pos hplan hnone))).trans hspan)
  case count =>
    intro hsome
    have hmore := chunkCount_pos hplan hsome
    have htotal := chunkCount_eq_total hmore
    -- where there is a chunk, no repetition is empty
    have hcounts : ∀ c ∈ p.repetitions.map (·.count), 0 < c := by
      refine fun c hc => Nat.pos_of_ne_zero fun hzero => ?_
      have hprod : Repetition.total p.repetitions = 0 := List.prod_eq_zero (hzero ▸ hc)
      omega
    refine hheld ((all_productFrom_le 1 (List.forall₂_same.mpr fun c _ => le_rfl) hcounts).mono
      fun n hn => ?_)
    rw [Nat.one_mul] at hn
    exact (hn.trans (htotal.symm.trans_le hcount)).trans hspan

/-- Where a plan is made within words, so are its steps, and the place it starts at. -/
private theorem step_lt_and_base_lt {limit : Nat} (hlimit : 0 < limit)
    (hplan : ofSelection shape elemSize selection dataStart = .ok p)
    (hall : (reckonOfSelection shape elemSize selection dataStart).All (· < limit)) :
    (∀ rep ∈ p.repetitions, rep.step < limit) ∧ p.base < limit := by
  obtain ⟨-, -, hruns, -, hstarts, -⟩ := (all_reckon_iff hplan).mp hall
  obtain ⟨-, hfits, hp⟩ := ofSelection_eq_ok_iff.mp hplan
  have hranges := Selection.fits_iff.mp hfits
  rw [hp]
  refine ⟨Fusion.step_of_all hranges hruns, ?_⟩
  rw [all_sumFrom_iff 0 _ hlimit, Nat.zero_add] at hstarts
  exact (Fusion.base_ofRanges hranges.length_eq).trans_lt hstarts

/-- A machine comes to a plan unless a number of no use has no place in a word. -/
theorem run_reckonOfSelection_iff
    (hplan : ofSelection shape elemSize selection dataStart = .ok p)
    (hspan : shape.span < wordLimit) :
    ofSelectionChecked shape elemSize selection dataStart = .ok (.ok p) ↔
      (∀ rep ∈ p.repetitions, rep.count ≤ 1 → rep.step < wordLimit) ∧
        (p.total = 0 → p.base < wordLimit) := by
  rw [ofSelectionChecked, run_eq_ok_iff, result_reckonOfSelection, hplan, and_iff_left rfl]
  constructor
  · intro hall
    obtain ⟨hsteps, hbase⟩ := step_lt_and_base_lt (by decide) hplan hall
    exact ⟨fun rep hrep _ => hsteps rep hrep, fun _ => hbase⟩
  · rintro ⟨hsteps, hbase⟩
    refine (all_reckonOfSelection hplan).mono fun n hn => ?_
    rcases hn with hle | ⟨rep, hrep, hfew, rfl⟩ | ⟨hnone, hle⟩
    · exact hle.trans_lt hspan
    · exact hsteps rep hrep hfew
    · exact hle.trans_lt (hbase hnone)

/-- What lies in front of the end of the array. -/
private theorem le_stop {n span : Nat} (helem : 1 ≤ elemSize) (h : n ≤ span) :
    n ≤ dataStart + span * elemSize :=
  calc n ≤ span * elemSize := h.trans (Nat.le_mul_of_pos_right _ helem)
    _ ≤ dataStart + span * elemSize := Nat.le_add_left _ _

/-- What a machine makes of a selection that fits is its plan. -/
theorem gives_ofSelectionChecked
    (hplan : ofSelection shape elemSize selection dataStart = .ok p) :
    (ofSelectionChecked shape elemSize selection dataStart).Gives
      (selection.HasRoom shape elemSize dataStart) (· = .ok p) := by
  refine .of_eq (fun made hmade => ?_) fun hroom => ?_
  · exact hplan.symm.trans (ofSelection_of_ofSelectionChecked hmade)
  · obtain ⟨helem, -, hp⟩ := ofSelection_eq_ok_iff.mp hplan
    refine (run_reckonOfSelection_iff hplan ((le_stop helem le_rfl).trans_lt hroom.stop)).mpr ?_
    rw [hp]
    exact ⟨hroom.step, hroom.base⟩

end Plan

/-! ## §4 Pulls -/

namespace Repetition

theorem all_reckonParts_le (repetitions : List Repetition) (digits : List Nat) :
    (reckonParts repetitions digits).All (· ≤ reach repetitions digits) := by
  induction repetitions generalizing digits with
  | nil => exact all_pure []
  | cons outer inner ih =>
    simp only [reckonParts, all_bind, all_times, all_pure, and_true, reach]
    refine ⟨(Nat.mul_comm _ _).trans_le (Nat.le_add_right _ _), ?_⟩
    exact (ih digits.tail).mono fun n hn => hn.trans (Nat.le_add_left _ _)

/-- A digit turns up to the count of its dimension at most. -/
theorem all_reckonTurn_le {repetitions : List Repetition} {digits : List Nat}
    (h : InRange repetitions digits) :
    (reckonTurn repetitions digits).All (· ≤ total repetitions) := by
  induction repetitions generalizing digits with
  | nil => exact all_pure _
  | cons outer inner ih =>
    obtain ⟨hdigit, hinner⟩ := h
    have hruns : 0 < total inner := Nat.zero_lt_of_lt (value_lt hinner)
    rw [reckonTurn, all_bind, total_cons]
    refine ⟨(ih hinner).mono fun n hn => hn.trans (Nat.le_mul_of_pos_left _ (by omega)), ?_⟩
    split
    · simp only [all_bind, all_plus, all_pure, and_true]
      exact Nat.le_trans hdigit (Nat.le_mul_of_pos_right _ hruns)
    · exact all_pure _

end Repetition

section Pulls

variable {shape : Shape} {selection : Selection} {elemSize dataStart : Nat} {p : Plan}

/-- Pulling a chunk, every number is a place in front of the end of the array. -/
theorem PlanCursor.all_reckonNext_le {c : PlanCursor}
    (hplan : Plan.ofSelection shape elemSize selection dataStart = .ok c.plan) (h : c.InStep) :
    c.reckonNext.All (· ≤ dataStart + shape.size * elemSize) := by
  have helem := (Plan.ofSelection_eq_ok_iff.mp hplan).1
  unfold reckonNext
  split
  case isFalse => exact all_pure none
  rename_i hnext
  have hmore : c.odometer.pulled < c.plan.chunkCount := of_decide_eq_true hnext
  obtain ⟨hrange, hvalue⟩ := h hmore
  -- the digits stand for the chunk that comes next
  have hreach : c.plan.base + Repetition.reach c.plan.repetitions c.odometer.digits =
      c.plan.elemOf c.odometer.pulled := by
    rw [Plan.elemOf, Repetition.reach_eq_offset hrange, hvalue]
  have hinside := Plan.elemOf_add_perChunk_le_size hplan hmore
  have hcount := Plan.chunkCount_le_size hplan
  have htotal := Plan.chunkCount_eq_total (Nat.zero_lt_of_lt hmore)
  have hdest := Plan.dest_le_size hplan hmore
  have hbyte : (c.plan.elemOf c.odometer.pulled) * elemSize ≤ shape.size * elemSize :=
    Nat.mul_le_mul_right _ (by omega)
  -- what counts elements is bounded by the end of the array, as an element has a byte at least
  have hheld : ∀ {α : Type} {x : Reckoning α}, x.All (· ≤ shape.size) →
      x.All (· ≤ dataStart + shape.size * elemSize) :=
    fun h => h.mono fun n hn => Plan.le_stop helem hn
  simp only [all_bind, all_plus, all_times, all_pure, and_true, result_sumFrom_eq, result_plus,
    result_times, Repetition.sum_reckonParts, Nat.zero_add, hreach, Plan.elemSize_eq hplan,
    Plan.dataStart_eq hplan]
  refine ⟨hheld ?parts, hheld ?reach, Plan.le_stop helem ?elem, ?byte, ?pos,
    Plan.le_stop helem ?dest, Plan.le_stop helem ?pulled, hheld ?turn⟩
  case parts => exact (Repetition.all_reckonParts_le _ _).mono fun n hn => by omega
  case reach =>
    refine (all_sumFrom_le 0 _).mono fun n hn => ?_
    rw [Repetition.sum_reckonParts] at hn
    omega
  case elem => omega
  case byte => omega
  case pos => omega
  case dest => omega
  case pulled => omega
  case turn => exact (Repetition.all_reckonTurn_le hrange).mono fun n hn => by omega

/-- What a machine pulls is the next chunk. -/
theorem PlanCursor.gives_nextChecked {c : PlanCursor}
    (hplan : Plan.ofSelection shape elemSize selection dataStart = .ok c.plan) (h : c.InStep) :
    c.nextChecked.Gives (dataStart + shape.size * elemSize < wordLimit) (· = c.next) := by
  refine .of_eq (fun _ hpulled => next_of_nextChecked hpulled) fun hroom => ?_
  rw [← result_reckonNext]
  exact run_of_all ((all_reckonNext_le hplan h).mono fun n hn => hn.trans_lt hroom)

/-- The end of what a chunk fills lies inside the destination. -/
theorem Chunk.destOffset_add_byteCount_le
    (hplan : Plan.ofSelection shape elemSize selection dataStart = .ok p) {k : Nat}
    (hk : k < p.chunkCount) :
    (p.chunk k).destOffset + (p.chunk k).byteCount ≤ selection.size * elemSize := by
  have hend : (k + 1) * p.perChunk ≤ selection.size :=
    (Nat.mul_le_mul_right _ hk).trans_eq (Plan.chunkCount_mul_perChunk hplan)
  have hbytes := Nat.mul_le_mul_right p.elemSize hend
  rw [Nat.succ_mul, Nat.add_mul] at hbytes
  rw [← Plan.elemSize_eq hplan]
  exact hbytes

/-- The bytes that a chunk fills have places in words where the selection has. -/
theorem Chunk.gives_destChecked
    (hplan : Plan.ofSelection shape elemSize selection dataStart = .ok p) {k : Nat}
    (hk : k < p.chunkCount) :
    (p.chunk k).destChecked.Gives (selection.size * elemSize < wordLimit)
      (· = ((p.chunk k).destOffset, (p.chunk k).destOffset + (p.chunk k).byteCount)) := by
  have hstop := Chunk.destOffset_add_byteCount_le hplan hk
  rw [destOffset, byteCount] at hstop
  refine .bind (.word fun hroom => by omega) fun start hstart => ?_
  refine .bind (.word fun hroom => by omega) fun count hcount => ?_
  subst hstart hcount
  exact .bind (.word fun hroom => by omega) fun stop hstop => .ok (by rw [hstop]; rfl)

end Pulls

/-! ## §5 Whole transfers -/

/-- What is reckoned while a selection is planned and its chunks are pulled, and which numbers of
it have a place in a word. -/
structure Plan.KeepsToWords (p : Plan) (made : Reckoning (Except Selection.Fault Plan)) :
    Prop where
  /-- What comes out is the plan. -/
  result : made.result = .ok p
  /-- What does not have a place in a word is of no use. -/
  idle : made.All fun n => n < wordLimit ∨ p.Idle n
  /-- A machine makes the plan, unless one of two numbers of no use is too large. -/
  run_iff : made.run = .ok (.ok p) ↔
    (∀ rep ∈ p.repetitions, rep.count ≤ 1 → rep.step < wordLimit) ∧
      (p.total = 0 → p.base < wordLimit)
  /-- A machine pulls every chunk, and has a place in a word for all that it needs, and for the
  chunk's bytes. -/
  pull : ∀ k < p.chunkCount, ∃ chunk,
    (PlanCursor.after^[k] ⟨p, 0⟩).nextChecked =
      .ok (some (chunk, PlanCursor.after^[k + 1] ⟨p, 0⟩)) ∧
    (PlanCursor.after^[k] ⟨p, 0⟩).reckonNext.All (· < wordLimit) ∧
    chunk.byteCountChecked = .ok chunk.byteCount ∧ chunk.destOffsetChecked = .ok chunk.destOffset

/-- A selection that fits is planned and transferred within words, where the bytes of the array
have places in words: only the step of a dimension along which nothing is repeated, and the place
at which an empty selection starts, can be too large. -/
theorem Plan.keeps_to_words (shape : Shape) (selection : Selection) (elemSize dataStart : Nat)
    (hextents : ∀ e ∈ shape.extents, 1 ≤ e) (hfits : selection.Fits shape) (helem : 1 ≤ elemSize)
    (hroom : dataStart + shape.size * elemSize < wordLimit) :
    ∃ p, ofSelection shape elemSize selection dataStart = .ok p ∧
      p.KeepsToWords (reckonOfSelection shape elemSize selection dataStart) := by
  obtain ⟨p, hplan⟩ : ∃ p, ofSelection shape elemSize selection dataStart = .ok p :=
    ⟨_, ofSelection_eq_ok_iff.mpr ⟨helem, hfits, rfl⟩⟩
  have hspan : shape.span < wordLimit :=
    (Shape.span_eq_size hextents).trans_lt ((le_stop helem le_rfl).trans_lt hroom)
  refine ⟨p, hplan, (result_reckonOfSelection _ _ _ _).trans hplan, ?idle,
    run_reckonOfSelection_iff hplan hspan, ?pull⟩
  case idle =>
    exact (all_reckonOfSelection hplan).mono fun n hn => hn.imp_left fun hle => hle.trans_lt hspan
  case pull =>
    intro k hk
    -- the cursor after `k` pulls stands at chunk number `k`
    obtain ⟨hcursor, hstep, hpulled⟩ := PlanCursor.iterate_after p k
    have hnext := PlanCursor.next_eq hstep
    have hafter : PlanCursor.after^[k + 1] ⟨p, 0⟩ =
        (PlanCursor.after^[k] ⟨p, 0⟩).after := Function.iterate_succ_apply' _ _ _
    rw [hafter, PlanCursor.after]
    generalize PlanCursor.after^[k] ⟨p, 0⟩ = c at *
    subst hcursor
    have hat : c.odometer.pulled = k := by omega
    have hmore : c.hasNext = true := decide_eq_true (hat ▸ hk)
    rw [if_pos hmore, hat] at hnext
    have hstop := Chunk.destOffset_add_byteCount_le hplan hk
    have hsize := Nat.mul_le_mul_right elemSize (Selection.size_le_size hfits)
    refine ⟨c.plan.chunk k, ?_, ?_, Checked.word_of_lt ?_, Checked.word_of_lt ?_⟩
    · rw [(PlanCursor.gives_nextChecked hplan hstep).eq_ok hroom, hnext]
    · exact (PlanCursor.all_reckonNext_le hplan hstep).mono fun n hn => hn.trans_lt hroom
    · rw [Chunk.byteCount] at hstop
      omega
    · rw [Chunk.destOffset] at hstop
      omega

/-- One element of every second column is planned, and the step along the one row is of no use,
but too large: a machine does not make the plan. -/
theorem Plan.keeps_to_words_single_row :
    ∃ p, ofSelection ⟨[5, 4]⟩ 1 ⟨[⟨3, 2 ^ 63, 1⟩, ⟨0, 2, 2⟩]⟩ 0 = .ok p ∧
      p.KeepsToWords (reckonOfSelection ⟨[5, 4]⟩ 1 ⟨[⟨3, 2 ^ 63, 1⟩, ⟨0, 2, 2⟩]⟩ 0) ∧
      p.Idle (2 ^ 65) ∧
      ofSelectionChecked ⟨[5, 4]⟩ 1 ⟨[⟨3, 2 ^ 63, 1⟩, ⟨0, 2, 2⟩]⟩ 0 = .error .overflow := by
  obtain ⟨p, hplan, hwords⟩ := keeps_to_words ⟨[5, 4]⟩ ⟨[⟨3, 2 ^ 63, 1⟩, ⟨0, 2, 2⟩]⟩ 1 0
    (by decide) (by decide) (by decide) (by decide)
  have hsingle : ⟨1, 2 ^ 65⟩ ∈ p.repetitions := by
    obtain ⟨-, -, rfl⟩ := ofSelection_eq_ok_iff.mp hplan
    decide
  exact ⟨p, hplan, hwords, .inl ⟨_, hsingle, le_rfl, rfl⟩, by decide⟩

end Granule
