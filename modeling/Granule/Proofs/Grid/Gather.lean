import Granule.Grid.Transfer
import Granule.Proofs.Bytes
import Granule.Proofs.Grid.Order

/-!
# Gathering Copies the Selected Elements

The runs of a plan, element by element, are the selected elements in storage
order (`Plan.elems_eq`). A storage that holds them all is therefore gathered
into the bytes of the selected elements, one after the other.

**Main statement**: `Plan.copy_eq_elements` — what is copied out of a storage are the bytes of the
selected elements.
-/

namespace Granule

/-! ## §1 Elements in storage -/

namespace Bytes

/-- The bytes of a storage element. -/
def element (storage : Bytes) (elemSize elem : Nat) : Bytes :=
  storage.between (elem * elemSize) ((elem + 1) * elemSize)

def elements (storage : Bytes) (elemSize : Nat) (elems : List Nat) : Bytes :=
  elems.flatMap (storage.element elemSize)

@[simp] theorem elements_nil (storage : Bytes) (elemSize : Nat) :
    storage.elements elemSize [] = [] := rfl

theorem elements_append (storage : Bytes) (elemSize : Nat) (a b : List Nat) :
    storage.elements elemSize (a ++ b) =
      storage.elements elemSize a ++ storage.elements elemSize b :=
  List.flatMap_append

/-- Neighbouring elements are one stretch of the storage. -/
theorem elements_range' (storage : Bytes) (elemSize first count : Nat) :
    storage.elements elemSize (List.range' first count) =
      storage.between (first * elemSize) ((first + count) * elemSize) := by
  induction count generalizing first with
  | zero => rw [Nat.add_zero, between_self]; rfl
  | succ n ih =>
    rw [List.range'_succ, elements, List.flatMap_cons, ← elements, ih, element,
      between_append_between, Nat.add_right_comm first 1 n, Nat.add_assoc first n 1]
    · exact Nat.mul_le_mul_right _ (Nat.le_succ first)
    · exact Nat.mul_le_mul_right _ (Nat.le_add_right _ n)

end Bytes

/-! ## §2 The elements of a plan -/

def Stretch.elems (run : Stretch) : List Nat := List.range' run.elem run.count

theorem Stretch.elems_eq_cons {run : Stretch} (h : 0 < run.count) :
    run.elems = run.elem :: List.range' (run.elem + 1) (run.count - 1) := by
  rw [elems, ← List.range'_succ, Nat.sub_add_cancel h]

namespace Plan

def elems (p : Plan) : List Nat :=
  (List.range p.chunkCount).flatMap fun k => (p.stretch k).elems

/-- A transfer can be planned when elements have bytes and the selection fits the array. -/
theorem ofSelection_eq_ok_iff {shape : Shape} {selection : Selection} {elemSize dataStart : Nat}
    {p : Plan} :
    ofSelection shape elemSize selection dataStart = .ok p ↔
      0 < elemSize ∧ selection.Fits shape ∧
        p = { elemSize, dataStart
              total := selection.size
              perChunk := (Fusion.ofRanges shape.extents selection.ranges).run
              repetitions := (Fusion.ofRanges shape.extents selection.ranges).repetitions
              base := (Fusion.ofRanges shape.extents selection.ranges).base } := by
  rw [ofSelection, Selection.Fits]
  by_cases hzero : elemSize = 0
  · rw [if_pos hzero]
    simp [hzero]
  · rw [if_neg hzero]
    cases selection.fault? shape with
    | some fault => simp
    | none => simp [Nat.pos_of_ne_zero hzero, eq_comm]

variable {shape : Shape} {selection : Selection} {elemSize dataStart : Nat} {p : Plan}

theorem elemSize_eq (hplan : ofSelection shape elemSize selection dataStart = .ok p) :
    p.elemSize = elemSize := by
  obtain ⟨-, -, rfl⟩ := ofSelection_eq_ok_iff.mp hplan
  rfl

theorem dataStart_eq (hplan : ofSelection shape elemSize selection dataStart = .ok p) :
    p.dataStart = dataStart := by
  obtain ⟨-, -, rfl⟩ := ofSelection_eq_ok_iff.mp hplan
  rfl

theorem totalBytes_eq (hplan : ofSelection shape elemSize selection dataStart = .ok p) :
    p.totalBytes = selection.size * elemSize := by
  obtain ⟨-, -, rfl⟩ := ofSelection_eq_ok_iff.mp hplan
  rfl

/-- The runs have as many elements together as are selected. -/
theorem chunkCount_mul_perChunk
    (hplan : ofSelection shape elemSize selection dataStart = .ok p) :
    p.chunkCount * p.perChunk = selection.size := by
  obtain ⟨-, hfits, rfl⟩ := ofSelection_eq_ok_iff.mp hplan
  have hcovers := Fusion.Covers.ofRanges (Selection.rank_eq_of_fits hfits)
  unfold chunkCount
  split
  · rename_i hnone
    rw [Nat.zero_mul]
    exact hnone.symm
  · rw [Nat.mul_comm]
    exact hcovers.count_eq

/-- No run is empty. -/
theorem perChunk_pos (hplan : ofSelection shape elemSize selection dataStart = .ok p)
    (hmore : 0 < p.chunkCount) : 0 < p.perChunk := by
  have htotal := chunkCount_mul_perChunk hplan
  have hpos : 0 < selection.size := by
    obtain ⟨-, -, rfl⟩ := ofSelection_eq_ok_iff.mp hplan
    exact total_pos_of_chunkCount hmore
  rw [← htotal] at hpos
  exact Nat.pos_of_mul_pos_left hpos

/-- Element `i` of run `k` is step `k * perChunk + i` of the walk over the selection. -/
theorem walk_eq (hplan : ofSelection shape elemSize selection dataStart = .ok p) {k i : Nat}
    (hk : k < p.chunkCount) (hi : i < p.perChunk) :
    Selection.walk shape.extents selection.ranges (k * p.perChunk + i) = p.elemOf k + i := by
  obtain ⟨-, hfits, rfl⟩ := ofSelection_eq_ok_iff.mp hplan
  have hcovers := Fusion.Covers.ofRanges (Selection.rank_eq_of_fits hfits)
  exact hcovers.walk_eq k (chunkCount_eq_total (Nat.zero_lt_of_lt hk) ▸ hk) i hi

/-- So it is the storage element that this step selects. -/
theorem storageElem_eq (hplan : ofSelection shape elemSize selection dataStart = .ok p) {k i : Nat}
    (hk : k < p.chunkCount) (hi : i < p.perChunk) :
    selection.storageElem shape (k * p.perChunk + i) = p.elemOf k + i := by
  rw [← Selection.elemAt_eq_storageElem]
  exact walk_eq hplan hk hi

/-- Numbers below a product, block by block. -/
private theorem map_range_mul {α : Type} (f : Nat → α) (n m : Nat) :
    (List.range (n * m)).map f =
      (List.range n).flatMap fun k => (List.range m).map fun i => f (k * m + i) := by
  induction n with
  | zero => rw [Nat.zero_mul]; rfl
  | succ n ih =>
    rw [Nat.succ_mul, List.range_add, List.map_append, ih, List.map_map, List.range_succ,
      List.flatMap_append, List.flatMap_singleton]
    rfl

/-- The elements of a plan are the selected ones. -/
theorem elems_eq (hplan : ofSelection shape elemSize selection dataStart = .ok p) :
    p.elems = selection.elems shape := by
  rw [elems, Selection.elems, ← chunkCount_mul_perChunk hplan, map_range_mul]
  refine List.flatMap_congr fun k hk => ?_
  rw [Stretch.elems, List.range'_eq_map_range]
  refine List.map_congr_left fun i hi => ?_
  exact (storageElem_eq hplan (List.mem_range.mp hk) (List.mem_range.mp hi)).symm

end Plan

namespace PlanCursor

def elems (c : PlanCursor) : List Nat :=
  (List.range' c.odometer.pulled c.left).flatMap fun k => (c.plan.stretch k).elems

theorem elems_zero (p : Plan) : elems ⟨p, 0⟩ = p.elems := by
  rw [Plan.elems, List.range_eq_range']
  rfl

theorem elems_of_nextStretch {c rest : PlanCursor} {run : Stretch} (h : c.InStep)
    (hnext : c.nextStretch = some (run, rest)) :
    c.elems = run.elems ++ rest.elems ∧ rest.InStep ∧ rest.plan = c.plan ∧
      run.count = c.plan.perChunk := by
  have hleft := left_nextStretch hnext
  rw [nextStretch_eq h] at hnext
  split at hnext
  · cases hnext
    refine ⟨?_, h.pass, rfl, rfl⟩
    rw [elems, ← hleft, List.range'_succ, List.flatMap_cons]
    rfl
  · cases hnext

theorem elems_of_nextStretch_eq_none {c : PlanCursor} (hnext : c.nextStretch = none) :
    c.elems = [] := by
  have hleft : c.left = 0 := by
    simp only [nextStretch, hasNext, ite_eq_right_iff, decide_eq_true_eq, reduceCtorEq,
      imp_false, Nat.not_lt] at hnext
    exact Nat.sub_eq_zero_of_le hnext
  rw [elems, hleft]
  rfl

/-- A cursor in step pulls the run whose elements come first, or none if no elements are left. -/
theorem InStep.next_cases {c : PlanCursor} (h : c.InStep) :
    (c.next = none ∧ c.elems = []) ∨
      (c.odometer.pulled < c.plan.chunkCount ∧
        c.next = some (c.plan.chunk c.odometer.pulled, c.pass) ∧
        c.elems = (c.plan.stretch c.odometer.pulled).elems ++ c.pass.elems) := by
  have hnext := nextStretch_eq h
  by_cases hmore : c.hasNext
  · rw [if_pos hmore] at hnext
    refine .inr ⟨of_decide_eq_true hmore, ?_, (elems_of_nextStretch h hnext).1⟩
    rw [next_eq h, if_pos hmore]
  · rw [if_neg hmore] at hnext
    refine .inl ⟨?_, elems_of_nextStretch_eq_none hnext⟩
    rw [next_eq h, if_neg hmore]

end PlanCursor

namespace Plan

variable {shape : Shape} {selection : Selection} {elemSize dataStart : Nat} {p : Plan}

/-! ## §3 Copying out of memory -/

/-- What is collected when every part can be fetched: all parts, in order. -/
theorem collect_eq_ok {p : Plan} {fetch : (pos count : Nat) → Except IoError Bytes}
    {part : Nat → Bytes}
    (h : ∀ k < p.chunkCount, fetch (p.bytePos k) (p.perChunk * p.elemSize) = .ok (part k)) :
    p.collect fetch = .ok ((List.range p.chunkCount).flatMap part) := by
  have hparts : ∀ numbers : List Nat, (∀ k ∈ numbers, k < p.chunkCount) →
      numbers.mapM (fun k => fetch (p.bytePos k) (p.perChunk * p.elemSize)) =
        .ok (numbers.map part) := by
    intro numbers hnumbers
    induction numbers with
    | nil => rfl
    | cons k rest ih =>
      obtain ⟨hk, hrest⟩ := List.forall_mem_cons.mp hnumbers
      rw [List.mapM_cons, h k hk, ih hrest]
      rfl
  rw [collect_eq, hparts _ fun k hk => List.mem_range.mp hk]
  rfl

/-- A chunk of a plan starts in the storage stream where its first element lies. -/
theorem storedPos_chunk (p : Plan) (k : Nat) :
    (p.chunk k).storedPos = some (p.bytePos k) := rfl

/-- No run is without bytes. -/
theorem byteCount_pos (hplan : ofSelection shape elemSize selection dataStart = .ok p) {k : Nat}
    (hk : k < p.chunkCount) : 0 < p.perChunk * p.elemSize := by
  rw [elemSize_eq hplan]
  exact Nat.mul_pos (perChunk_pos hplan (Nat.zero_lt_of_lt hk)) (ofSelection_eq_ok_iff.mp hplan).1

/-- A run reaches as far as the last of its elements. -/
theorem run_inside_iff {k : Nat} (hpos : 0 < p.perChunk) {stop : Nat} :
    p.bytePos k + p.perChunk * p.elemSize ≤ stop ↔
      ∀ e ∈ (p.stretch k).elems, p.dataStart + (e + 1) * p.elemSize ≤ stop := by
  have hend : p.bytePos k + p.perChunk * p.elemSize =
      p.dataStart + (p.elemOf k + p.perChunk) * p.elemSize := by
    rw [bytePos, Nat.add_mul, Nat.add_assoc]
  rw [hend]
  constructor
  · intro hstop e he
    have hlt := (List.mem_range'_1.mp he).2
    exact le_trans (Nat.add_le_add_left (Nat.mul_le_mul_right _ hlt) _) hstop
  · intro hall
    have hlast := hall (p.elemOf k + p.perChunk - 1) (List.mem_range'_1.mpr (by
      simp only [stretch]
      omega))
    rwa [Nat.sub_add_cancel (by omega)] at hlast

/-- The selected elements are all there if the runs of the plan are. -/
theorem elems_inside_iff (hplan : ofSelection shape elemSize selection dataStart = .ok p)
    {stop : Nat} :
    (∀ e ∈ selection.elems shape, dataStart + (e + 1) * elemSize ≤ stop) ↔
      ∀ k < p.chunkCount, p.bytePos k + p.perChunk * p.elemSize ≤ stop := by
  rw [← elems_eq hplan, ← dataStart_eq hplan, ← elemSize_eq hplan, elems, List.forall_mem_flatMap]
  refine forall_congr' fun k => ?_
  rw [List.mem_range]
  exact imp_congr_right fun hk =>
    (run_inside_iff (perChunk_pos hplan (Nat.zero_lt_of_lt hk))).symm

/-- What is copied out of a storage that holds the selected elements are their bytes. -/
theorem copy_eq_elements (hplan : ofSelection shape elemSize selection dataStart = .ok p)
    {storage : Bytes}
    (hstorage : ∀ e ∈ selection.elems shape, dataStart + (e + 1) * elemSize ≤ storage.length) :
    p.copy storage =
      .ok (Bytes.elements (storage.drop dataStart) elemSize (selection.elems shape)) := by
  rw [elems_inside_iff hplan] at hstorage
  rw [← elems_eq hplan, elems, Bytes.elements, List.flatMap_assoc]
  refine collect_eq_ok fun k hk => ?_
  have hcut : storage.slice? (p.bytePos k) (p.perChunk * p.elemSize) =
      some (Bytes.elements (storage.drop dataStart) elemSize (p.stretch k).elems) := by
    rw [Bytes.slice?_of_le (hstorage k hk), Stretch.elems, Bytes.elements_range',
      Bytes.between_drop, bytePos, stretch, elemSize_eq hplan, dataStart_eq hplan, Nat.add_mul,
      ← Nat.add_assoc]
  rw [hcut]
  rfl

end Plan

end Granule
