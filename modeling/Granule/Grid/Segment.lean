import Granule.Grid.Error

/-!
# Segments

A segment is a decoded run of storage elements. Segments come from a supplier
that is asked for one storage element after another; what a supplier is asked
for may change what it answers later, so every answer comes with the supplier
that the next question goes to.

Two suppliers are defined here: a queue of segments in memory, and a script that
gives its answers in turn whatever it is asked.

Where a segment stops is an exact number here, and a sum of words in `Granule.Words.Assembly`.

**Main statements**:
- `SegmentQueue.contains_of_supply` : a queue answers with a segment that holds the element
- `SegmentQueue.pending_supply` : and discards nothing that ends after the element
-/

namespace Granule

/-! ## §1 Segments and their suppliers -/

/-- The storage elements from `first` on, `count` of them, and their bytes. -/
structure Segment where
  first : Nat
  count : Nat
  data : Bytes
deriving DecidableEq, Repr

namespace Segment

def stop (s : Segment) : Nat := s.first + s.count

def contains (s : Segment) (elem : Nat) : Bool :=
  s.first ≤ elem ∧ elem < s.stop

@[simp] theorem contains_iff {s : Segment} {elem : Nat} :
    s.contains elem ↔ s.first ≤ elem ∧ elem < s.stop := decide_eq_true_iff

end Segment

/-- A supplier of segments. -/
class SegmentSupplier (σ : Type) where
  /-- Asks for the segment that holds a storage element. -/
  supply : σ → (elem : Nat) → Except GridError (Option Segment) × σ

/-! ## §2 Segments in memory -/

/-- The segments that have not been passed yet, in storage order. -/
structure SegmentQueue where
  pending : List Segment
deriving DecidableEq, Repr

namespace SegmentQueue

/-- Brings segments into storage order; those that start at the same element
keep the order they came in. -/
def ofSegments (segments : List Segment) : SegmentQueue :=
  ⟨segments.mergeSort (fun a b => a.first ≤ b.first)⟩

/-- Passes the leading segments that end at or before the element, and answers
with the first of the others if it holds the element. -/
def supply (q : SegmentQueue) (elem : Nat) : Option Segment × SegmentQueue :=
  let rest := q.pending.dropWhile (fun s => s.stop ≤ elem)
  (rest.head?.filter (·.contains elem), ⟨rest⟩)

instance : SegmentSupplier SegmentQueue where
  supply q elem := (.ok (q.supply elem).1, (q.supply elem).2)

/-- A queue answers only with a segment of its own that holds the element. -/
theorem contains_of_supply {q : SegmentQueue} {elem : Nat} {s : Segment}
    (h : (q.supply elem).1 = some s) : s.contains elem ∧ s ∈ q.pending := by
  simp only [supply, Option.filter_eq_some_iff] at h
  obtain ⟨hhead, hcontains⟩ := h
  exact ⟨hcontains, (List.dropWhile_sublist _).subset (List.mem_of_mem_head? hhead)⟩

/-- A segment that ends after the element is not discarded. -/
theorem pending_supply {q : SegmentQueue} {elem : Nat} {s : Segment}
    (hmem : s ∈ q.pending) (hend : elem < s.stop) :
    s ∈ (q.supply elem).2.pending := by
  obtain ⟨pending⟩ := q
  simp only [supply] at hmem ⊢
  induction pending with
  | nil => cases hmem
  | cons t rest ih =>
    rw [List.dropWhile_cons]
    split
    · rename_i ht
      rcases List.mem_cons.mp hmem with rfl | hrest
      · simp only [decide_eq_true_eq] at ht
        omega
      · exact ih hrest
    · exact hmem

end SegmentQueue

/-! ## §3 Scripted answers -/

/-- Answers still to be given, and the elements asked for so far, latest first. -/
structure SegmentScript where
  answers : List (Option Segment)
  asked : List Nat := []
deriving DecidableEq, Repr

namespace SegmentScript

/-- Gives the next answer, whatever the element; a script that is used up has none. -/
def supply (s : SegmentScript) (elem : Nat) : Option Segment × SegmentScript :=
  (s.answers.headD none, ⟨s.answers.tail, elem :: s.asked⟩)

instance : SegmentSupplier SegmentScript where
  supply s elem := (.ok (s.supply elem).1, (s.supply elem).2)

end SegmentScript

end Granule
