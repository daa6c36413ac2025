import Granule.Proofs.Grid.Agreement

/-!
# Segments in Memory Agree with the Storage

A queue passes a segment only when it ends at or before the element asked for, so
it always holds the segments that reach further (`SegmentQueue.Ahead`). They are
in storage order: if any of them holds the element, the first one does, whatever
overlaps it and however many empty ones there are. The queue therefore knows the
segments it was given, and assembling from it agrees with a direct copy.

**Main statement**: `Assembly.run_agrees_with_copy` — segments in memory, in any order, overlapping
or empty, are assembled into what a copy out of the storage gives.
-/

namespace Granule

open Checked

namespace SegmentQueue

/-- Where a queue of segments stands when it has been asked for an element: no segment that ends
after the element is missing from it. -/
structure Ahead (segments : List Segment) (elem : Nat) (q : SegmentQueue) : Prop where
  ordered : q.pending.Pairwise (·.first ≤ ·.first)
  known : ∀ s ∈ q.pending, s ∈ segments
  kept : ∀ s ∈ segments, elem < s.stop → s ∈ q.pending

variable {segments : List Segment} {elem : Nat} {q : SegmentQueue}

theorem ahead_ofSegments (segments : List Segment) (elem : Nat) :
    Ahead segments elem (ofSegments segments) where
  ordered := by
    have htrans : ∀ a b c : Segment, decide (a.first ≤ b.first) → decide (b.first ≤ c.first) →
        decide (a.first ≤ c.first) := by
      intro a b c hab hbc
      exact decide_eq_true ((of_decide_eq_true hab).trans (of_decide_eq_true hbc))
    have htotal : ∀ a b : Segment, decide (a.first ≤ b.first) || decide (b.first ≤ a.first) := by
      intro a b
      simpa using Nat.le_total a.first b.first
    exact (List.pairwise_mergeSort htrans htotal segments).imp of_decide_eq_true
  known := fun s hs => List.mem_mergeSort.mp hs
  kept := fun s hs _ => List.mem_mergeSort.mpr hs

namespace Ahead

theorem later (h : Ahead segments elem q) {next : Nat} (hle : elem ≤ next) :
    Ahead segments next q where
  ordered := h.ordered
  known := h.known
  kept := fun s hs hstop => h.kept s hs (Nat.lt_of_le_of_lt hle hstop)

theorem supply (h : Ahead segments elem q) : Ahead segments elem (q.supply elem).2 where
  ordered := h.ordered.sublist (List.dropWhile_sublist _)
  known := fun s hs => h.known s ((List.dropWhile_sublist _).subset hs)
  kept := fun s hs hstop => pending_supply (h.kept s hs hstop) hstop

/-- If a segment holds the element, the first one that is left does. -/
theorem exists_supply (h : Ahead segments elem q) (hheld : Segment.Held segments elem) :
    ∃ s, (q.supply elem).1 = some s ∧ s.contains elem := by
  obtain ⟨s, hs, hcontains⟩ := hheld
  obtain ⟨hfirst, hstop⟩ := Segment.contains_iff.mp hcontains
  -- the segment that holds the element ends behind it, so it was not passed
  have hmem : s ∈ q.pending.dropWhile (·.stop ≤ elem) := pending_supply (h.kept s hs hstop) hstop
  have hordered := h.supply.ordered
  simp only [SegmentQueue.supply] at hordered ⊢
  cases hleft : q.pending.dropWhile (·.stop ≤ elem) with
  | nil =>
    rw [hleft] at hmem
    cases hmem
  | cons t rest =>
    have hreaches : elem < t.stop := by
      have hhead := List.head?_dropWhile_not (·.stop ≤ elem) q.pending
      rw [hleft] at hhead
      simpa using hhead
    -- the first one left starts no later, for the queue is sorted
    have hstarts : t.first ≤ s.first := by
      rw [hleft] at hmem hordered
      rcases List.mem_cons.mp hmem with rfl | hrest
      · exact le_rfl
      · exact (List.pairwise_cons.mp hordered).1 s hrest
    have ht := Segment.contains_iff.mpr ⟨hstarts.trans hfirst, hreaches⟩
    exact ⟨t, by rw [List.head?_cons, Option.filter_some, if_pos ht], ht⟩

end Ahead

/-- A queue knows the segments that it was made of. -/
theorem knows (segments : List Segment) : SegmentSupplier.Knows segments (Ahead segments) where
  later := fun h => h.later
  supply := fun {q elem} h => ⟨(q.supply elem).1, (q.supply elem).2, rfl,
    fun _ hle _ => h.supply.later hle, fun _ hs => h.known _ (contains_of_supply hs).2,
    h.exists_supply⟩

/-! On a machine, a queue gives up only where the end of a segment has no place in a word. -/

theorem gives_passChecked (elem : Nat) (segments : List Segment) :
    (passChecked elem segments).Gives (∀ s ∈ segments, s.stop < wordLimit)
      (· = segments.dropWhile (·.stop ≤ elem)) := by
  refine ⟨fun _ hrest => (dropWhile_of_passChecked hrest).symm, fun hroom => ?_⟩
  induction segments with
  | nil => exact ⟨_, rfl⟩
  | cons s rest ih =>
    obtain ⟨hs, hrest⟩ := List.forall_mem_cons.mp hroom
    have hstop : s.stopChecked = .ok s.stop := word_of_lt hs
    rw [passChecked, hstop, ok_bind]
    split
    · exact ⟨_, rfl⟩
    · exact ih hrest

theorem gives_supplyChecked (q : SegmentQueue) (elem : Nat) :
    (q.supplyChecked elem).Gives (∀ s ∈ q.pending, s.stop < wordLimit)
      (· = SegmentSupplier.supply q elem) := by
  refine ⟨fun _ hanswer => (supply_of_supplyChecked hanswer).symm, fun hroom => ?_⟩
  simp only [supplyChecked, (gives_passChecked elem q.pending).eq_ok hroom, ok_bind]
  cases hleft : q.pending.dropWhile (·.stop ≤ elem) with
  | nil => exact ⟨_, rfl⟩
  | cons s rest =>
    have hmem : s ∈ q.pending :=
      (List.dropWhile_sublist _).subset (hleft ▸ List.mem_cons_self)
    simp only [(s.gives_containsChecked elem).eq_ok (hroom s hmem), ok_bind]
    exact ⟨_, rfl⟩

theorem hasRoom {elemSize : Nat} (h : ∀ s ∈ q.pending, s.HasRoom elemSize) :
    CheckedSupplier.HasRoom elemSize q := by
  refine .of_invariant (fun q => ∀ s ∈ q.pending, s.HasRoom elemSize) (fun q elem hq => ?_) h
  refine ⟨_, (q.gives_supplyChecked elem).eq_ok fun s hs => (hq s hs).stop, fun s hs => ?_,
    fun s hs => ?_⟩
  · exact hq s ((List.dropWhile_sublist _).subset hs)
  · exact hq s (contains_of_supply (Except.ok.inj hs)).2

end SegmentQueue

/-- **Assembly agrees with the direct copy**: segments that hold the bytes of a storage, in any
order, overlapping or not, empty or not, are assembled into what a copy out of the storage gives,
provided that each selected element is held by one of them; otherwise the least one that is not
is reported. A machine can only give up where a number of the plan has no place in a word. -/
theorem Assembly.run_agrees_with_copy (shape : Shape) (selection : Selection) (elemSize : Nat)
    (storage : Bytes) (segments : List Segment) (hsize : 0 < elemSize)
    (hfits : selection.Fits shape) (hstorage : storage.length = shape.size * elemSize)
    (hholds : ∀ s ∈ segments, s.Holds elemSize storage) :
    ∃ plan a, (Plan.makeChecked shape elemSize selection 0).Gives
        (selection.HasRoom shape elemSize 0) (· = .ok plan) ∧
      (startChecked shape elemSize selection (SegmentQueue.ofSegments segments)).Gives
        (selection.HasRoom shape elemSize 0) (· = .ok a) ∧
      a.Agrees plan storage (selection.elems shape) segments
        (storage.length < bufferLimit ∧ ∀ s ∈ segments, s.first < wordLimit) := by
  refine agrees_of_inside (SegmentQueue.knows segments) (SegmentQueue.ahead_ofSegments segments 0)
    hsize hfits (fun _ e he => ?inside) hholds fun ⟨hbuffer, hfirst⟩ => ?room
  case inside =>
    rw [hstorage]
    exact Nat.mul_le_mul_right _ (Selection.lt_size_of_mem_elems hfits he)
  case room =>
    have hword : storage.length < wordLimit := hbuffer.trans (by decide)
    have hselected := Nat.mul_le_mul_right elemSize (Selection.size_le_size hfits)
    refine ⟨⟨hstorage ▸ hword, SegmentQueue.hasRoom fun s hs => ?_⟩, by omega⟩
    have hs := List.mem_mergeSort.mp hs
    exact (hholds s hs).hasRoom hsize hword (hfirst s hs)

/-- The last two columns of a small array, from segments out of order, overlapping and empty. -/
theorem Assembly.run_agrees_with_copy_columns :
    (0 < 2 ∧ (⟨[⟨0, 1, 2⟩, ⟨1, 1, 2⟩]⟩ : Selection).Fits ⟨[2, 3]⟩ ∧
      ([0, 1, 2, 3, 4, 5, 6, 7, 8, 9, 10, 11] : Bytes).length = (⟨[2, 3]⟩ : Shape).size * 2 ∧
      ∀ s ∈ ([⟨3, 3, [6, 7, 8, 9, 10, 11]⟩, ⟨2, 0, []⟩, ⟨0, 2, [0, 1, 2, 3]⟩,
        ⟨1, 2, [2, 3, 4, 5]⟩] : List Segment), s.Holds 2 [0, 1, 2, 3, 4, 5, 6, 7, 8, 9, 10, 11]) ∧
      ∃ plan a, Plan.makeChecked ⟨[2, 3]⟩ 2 ⟨[⟨0, 1, 2⟩, ⟨1, 1, 2⟩]⟩ 0 = .ok (.ok plan) ∧
        startChecked ⟨[2, 3]⟩ 2 ⟨[⟨0, 1, 2⟩, ⟨1, 1, 2⟩]⟩ (SegmentQueue.ofSegments
          [⟨3, 3, [6, 7, 8, 9, 10, 11]⟩, ⟨2, 0, []⟩, ⟨0, 2, [0, 1, 2, 3]⟩,
            ⟨1, 2, [2, 3, 4, 5]⟩]) = .ok (.ok a) ∧
        ∃ bytes, a.runChecked = .ok (.ok bytes) ∧
          plan.copyChecked [0, 1, 2, 3, 4, 5, 6, 7, 8, 9, 10, 11] = .ok (.ok bytes) := by
  have hholds : ∀ s ∈ ([⟨3, 3, [6, 7, 8, 9, 10, 11]⟩, ⟨2, 0, []⟩, ⟨0, 2, [0, 1, 2, 3]⟩,
      ⟨1, 2, [2, 3, 4, 5]⟩] : List Segment),
      s.Holds 2 [0, 1, 2, 3, 4, 5, 6, 7, 8, 9, 10, 11] := by decide
  obtain ⟨plan, a, hplan, hstart, hagrees⟩ := run_agrees_with_copy ⟨[2, 3]⟩
    ⟨[⟨0, 1, 2⟩, ⟨1, 1, 2⟩]⟩ 2 _ _ (by decide) (by decide) (by decide) hholds
  obtain ⟨bytes, hcopy, hrun⟩ := hagrees.copies (by decide)
  exact ⟨by decide, plan, a, hplan.eq_ok (by decide), hstart.eq_ok (by decide), bytes,
    hrun.eq_ok (by decide), hcopy.eq_ok (by decide)⟩

end Granule
