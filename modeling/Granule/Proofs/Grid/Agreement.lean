import Mathlib.Order.Bounds.Basic
import Granule.Proofs.Grid.Assemblies

/-!
# Assemblies Agree with Copies

Segments that hold the bytes of a storage are assembled into what a copy out of the storage gives,
as far as they reach: the least selected element that none of them holds is reported. So it is on
a machine, as long as it does not give up.

**Main statement**: `Assembly.agrees_of_inside` — an assembly from known segments agrees with a copy.
-/

namespace Granule

open Checked

/-- Where a storage has its bytes in words, there is room for the segments that hold them. -/
theorem Segment.Holds.hasRoom {s : Segment} {elemSize : Nat} {storage : Bytes}
    (h : s.Holds elemSize storage) (hsize : 0 < elemSize) (hstorage : storage.length < wordLimit)
    (hfirst : s.first < wordLimit) : s.HasRoom elemSize := by
  by_cases hempty : s.count = 0
  · have hstop : s.stop = s.first := by rw [stop, hempty, Nat.add_zero]
    refine ⟨hstop ▸ hfirst, ?_⟩
    rw [hempty, Nat.zero_mul]
    decide
  · -- the last element ends inside the storage
    have hlast : s.contains (s.stop - 1) := contains_iff.mpr (by rw [stop]; omega)
    have hinside := h.inside hsize hlast
    have hend : s.stop - 1 + 1 = s.stop := by
      rw [stop]
      omega
    rw [hend] at hinside
    have hcount : s.count ≤ s.stop := Nat.le_add_left _ _
    have hbytes := Nat.mul_le_mul_right elemSize hcount
    have hstop : s.stop ≤ s.stop * elemSize := Nat.le_mul_of_pos_right _ hsize
    exact ⟨by omega, by omega⟩

namespace Assembly

variable {σ : Type}

/-- An assembly of the given elements agrees with a copy out of a storage: it succeeds if segments
hold all of the elements, and then with what the copy gives; otherwise it names the least element
that no segment holds. -/
structure Agrees [CheckedSupplier σ] (a : Assembly σ) (plan : Plan) (storage : Bytes)
    (selected : List Nat) (segments : List Segment) (wide : Prop) : Prop where
  succeeds : a.runChecked.Gives wide fun result =>
    (∃ bytes, result = .ok bytes) ↔ ∀ e ∈ selected, Segment.Held segments e
  copies : (∀ e ∈ selected, Segment.Held segments e) →
    ∃ bytes, (plan.copyChecked storage).Gives wide (· = .ok bytes) ∧
      a.runChecked.Gives wide (· = .ok bytes)
  missing : (¬ ∀ e ∈ selected, Segment.Held segments e) →
    ∃ e, IsLeast {e | e ∈ selected ∧ ¬ Segment.Held segments e} e ∧
      a.runChecked.Gives wide (· = .error (.missingSegment e))

/-- The first element found in an increasing list is the least. -/
private theorem isLeast_of_find? {xs : List Nat} (h : xs.Pairwise (· < ·)) {p : Nat → Bool}
    {x : Nat} (hfind : xs.find? p = some x) : IsLeast {y | y ∈ xs ∧ p y} x := by
  obtain ⟨hp, before, after, rfl, hbefore⟩ := List.find?_eq_some_iff_append.mp hfind
  refine ⟨⟨List.mem_append_right _ List.mem_cons_self, hp⟩, ?_⟩
  rintro y ⟨hy, hpy⟩
  rcases List.mem_append.mp hy with hy | hy
  · have hnot := hbefore y hy
    rw [hpy] at hnot
    cases hnot
  · obtain ⟨-, hrest, -⟩ := List.pairwise_append.mp h
    rcases List.mem_cons.mp hy with rfl | hy
    · exact le_rfl
    · exact ((List.pairwise_cons.mp hrest).1 y hy).le

variable [CheckedSupplier σ] {segments : List Segment} {wide : Prop}

/-- A run that ends with the first element that no segment holds, or else with the bytes of the
copy, agrees with the copy. -/
theorem agrees_of_run {a : Assembly σ} {plan : Plan} {storage bytes : Bytes} {selected : List Nat}
    (hsorted : selected.Pairwise (· < ·))
    (hcopy : (∀ e ∈ selected, Segment.Held segments e) →
      (plan.copyChecked storage).Gives wide (· = .ok bytes))
    (hrun : a.runChecked.Gives wide
      (· = match selected.find? fun e => ¬ Segment.Held segments e with
        | some e => .error (.missingSegment e)
        | none => .ok bytes)) : a.Agrees plan storage selected segments wide := by
  cases hfind : selected.find? fun e => ¬ Segment.Held segments e with
  | none =>
    rw [hfind] at hrun
    have hall : ∀ e ∈ selected, Segment.Held segments e := by
      simpa [List.find?_eq_none] using hfind
    exact ⟨hrun.mono fun result hresult => ⟨fun _ => hall, fun _ => ⟨bytes, hresult⟩⟩,
      fun _ => ⟨bytes, hcopy hall, hrun⟩, fun hnot => absurd hall hnot⟩
  | some e =>
    rw [hfind] at hrun
    -- the selection climbs, so the first element missing is the least one
    have hleast := isLeast_of_find? hsorted hfind
    simp only [decide_eq_true_eq] at hleast
    have hnot : ¬ ∀ e ∈ selected, Segment.Held segments e := fun hall =>
      hleast.1.2 (hall e hleast.1.1)
    refine ⟨hrun.mono fun result hresult => ⟨?_, fun hall => absurd hall hnot⟩,
      fun hall => absurd hall hnot, fun _ => ⟨e, hleast, hrun⟩⟩
    rintro ⟨given, rfl⟩
    cases hresult

variable {shape : Shape} {selection : Selection} {elemSize : Nat} {source : σ}
  {Fit : Nat → σ → Prop}

/-- An assembly from segments that hold the bytes of a storage gives what a copy out of the storage
gives, or names the least element that none of them holds. The copy matters only where all selected
elements are held, so only then they have to lie inside the storage. -/
theorem agrees_of_inside (hknows : SegmentSupplier.Knows segments Fit) (hfit : Fit 0 source)
    {storage : Bytes} (hsize : 0 < elemSize) (hfits : selection.Fits shape)
    (hinside : (∀ e ∈ selection.elems shape, Segment.Held segments e) →
      ∀ e ∈ selection.elems shape, (e + 1) * elemSize ≤ storage.length)
    (hholds : ∀ s ∈ segments, s.Holds elemSize storage)
    (hwide : wide → (shape.size * elemSize < wordLimit ∧ CheckedSupplier.HasRoom elemSize source) ∧
      selection.size * elemSize < bufferLimit) :
    ∃ plan a, (Plan.makeChecked shape elemSize selection 0).Gives
        (selection.HasRoom shape elemSize 0) (· = .ok plan) ∧
      (startChecked shape elemSize selection source).Gives
        (selection.HasRoom shape elemSize 0) (· = .ok a) ∧
      a.Agrees plan storage (selection.elems shape) segments wide := by
  obtain ⟨plan, hplan⟩ : ∃ plan, Plan.ofSelection shape elemSize selection 0 = .ok plan :=
    ⟨_, Plan.ofSelection_eq_ok_iff.mpr ⟨hsize, hfits, rfl⟩⟩
  refine ⟨plan, { cursor := ⟨plan, 0⟩, source }, Plan.gives_makeChecked hplan,
    gives_startChecked hplan source, ?_⟩
  have hwidth : Assembly.elemSize { cursor := ⟨plan, 0⟩, source } = elemSize :=
    Plan.elemSize_eq hplan
  -- from the start nothing is collected and the whole selection is to do
  have hrun := (gives_runChecked_start hfits hplan source).of_wide hwide
  rw [run, (ready_start hknows hfit hfits hplan).collect_eq hknows (hwidth ▸ hholds) #[],
    todo_start hplan, hwidth] at hrun
  refine agrees_of_run (Selection.pairwise_elems hfits) (fun hheld => ?_) hrun
  have hcopy := (Plan.gives_copyChecked hplan storage).of_wide fun hw : wide =>
    ⟨(Nat.zero_add _).trans_lt (hwide hw).1.1, (hwide hw).2⟩
  rwa [Plan.copy_eq_elements hplan fun e he => by rw [Nat.zero_add]; exact hinside hheld e he]
    at hcopy

end Assembly

end Granule
