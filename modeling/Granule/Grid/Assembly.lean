import Granule.Grid.Plan
import Granule.Grid.Segment

/-!
# Assembly from Segments

An assembly carries out a plan whose elements come from a supplier of segments.
Each run of the plan is served from the segment at hand, or else from a newly
supplied one; a run that reaches past the end of a segment is split there, and
the rest of it is served next. Every chunk handed out therefore lies in one
buffer, and chunks continue each other in the destination.

The first failure ends the assembly.

Elements and bytes are counted in exact numbers, and chunks are joined in their order. A machine
counts in words and puts every chunk into its place of a buffer: see `Granule.Words.Assembly`.

**Main statements**:
- `Assembly.left_next` : a chunk handed out leaves less to do
- `Assembly.contains_of_accept` : an accepted segment holds the element and all its bytes
- `Assembly.contains_of_cover` : a covering segment holds the element
-/

namespace Granule

/-- A plan being carried out from the segments of a supplier. -/
structure Assembly (σ : Type) where
  /-- The runs that are still whole. -/
  cursor : PlanCursor
  source : σ
  /-- The segment supplied last. -/
  current : Option Segment := none
  /-- What is left of a run that was split. -/
  pending : Option Stretch := none
  /-- A failure was reported. -/
  failed : Bool := false

namespace Assembly

variable {σ : Type}

/-- Starts the assembly of a selection of an array. -/
def start (shape : Shape) (elemSize : Nat) (selection : Selection) (source : σ) :
    Except GridError (Assembly σ) :=
  match Plan.ofSelection shape elemSize selection 0 with
  | .ok plan => .ok { cursor := ⟨plan, 0⟩, source }
  | .error fault => .error (.invalid fault)

def elemSize (a : Assembly σ) : Nat := a.cursor.plan.elemSize

def total (a : Assembly σ) : Nat := a.cursor.plan.total

/-! ## §1 The segment for an element -/

/-- A supplied segment is accepted when it holds the element and the bytes of all
its elements. -/
def accept (elemSize elem : Nat) (supplied : Option Segment) : Except GridError Segment :=
  match supplied.filter (·.contains elem) with
  | none => .error (.missingSegment elem)
  | some s =>
    if s.data.length < s.count * elemSize then
      .error (.shortSegment s.first (s.count * elemSize) s.data.length)
    else .ok s

/-- The segment that an element is served from: the current one if it holds the
element, else what the supplier answers. -/
def cover [SegmentSupplier σ] (a : Assembly σ) (elem : Nat) :
    Except GridError Segment × Assembly σ :=
  match a.current.filter (·.contains elem) with
  | some s => (.ok s, a)
  | none =>
    let (answer, source) := SegmentSupplier.supply a.source elem
    let a := { a with source }
    match answer with
    | .error e => (.error e, a)
    | .ok supplied =>
      match accept a.elemSize elem supplied with
      | .error e => (.error e, a)
      | .ok s => (.ok s, { a with current := some s })

/-- An accepted segment holds the element, and the bytes of all its elements. -/
theorem contains_of_accept {elemSize elem : Nat} {supplied : Option Segment} {s : Segment}
    (h : accept elemSize elem supplied = .ok s) :
    s.contains elem ∧ s.count * elemSize ≤ s.data.length := by
  unfold accept at h
  split at h
  · cases h
  · rename_i t ht
    split at h
    · cases h
    · cases h
      exact ⟨(Option.filter_eq_some_iff.mp ht).2, by omega⟩

/-- A covering segment holds the element. -/
theorem contains_of_cover [SegmentSupplier σ] {a after : Assembly σ} {elem : Nat} {s : Segment}
    (h : a.cover elem = (.ok s, after)) : s.contains elem := by
  unfold cover at h
  split at h
  · rename_i t ht
    cases h
    exact (Option.filter_eq_some_iff.mp ht).2
  · simp only at h
    split at h
    · cases h
    · split at h
      · cases h
      · rename_i haccept
        cases h
        exact (contains_of_accept haccept).1

/-- Looking for a segment moves neither the plan nor the pending rest of a run. -/
theorem cursor_cover [SegmentSupplier σ] (a : Assembly σ) (elem : Nat) :
    (a.cover elem).2.cursor = a.cursor ∧ (a.cover elem).2.pending = a.pending := by
  unfold cover
  split
  · simp
  · simp only
    split
    · simp
    · split <;> simp

/-! ## §2 One chunk after another -/

/-- The run to serve next: the rest of the one that was split, or a whole one. -/
def take (a : Assembly σ) : Option (Stretch × Assembly σ) :=
  match a.pending with
  | some run => some (run, { a with pending := none })
  | none =>
    match a.cursor.nextStretch with
    | some (run, cursor) => some (run, { a with cursor })
    | none => none

/-- Serves as much of a run as a segment holds, and keeps the rest. -/
def serve (a : Assembly σ) (run : Stretch) (s : Segment) : Chunk × Assembly σ :=
  let served := min run.count (s.stop - run.elem)
  let chunk : Chunk := {
    place := .decoded s.data (run.elem - s.first)
    count := served
    dest := run.dest
    elemSize := a.elemSize }
  if served < run.count then
    (chunk, { a with
      pending := some ⟨run.elem + served, run.count - served, run.dest + served⟩ })
  else (chunk, a)

/-- The next chunk, the failure that ends the assembly, or nothing more. -/
def next [SegmentSupplier σ] (a : Assembly σ) : Option (Except GridError Chunk) × Assembly σ :=
  if a.failed then (none, a)
  else
    match a.take with
    | none => (none, a)
    | some (run, a) =>
      match a.cover run.elem with
      | (.error e, a) => (some (.error e), { a with failed := true })
      | (.ok s, a) => (some (.ok (a.serve run s).1), (a.serve run s).2)

def pendingWork : Option Stretch → Nat
  | none => 0
  | some run => run.count + 1

/-- What an assembly still has to do: whole runs first, then the rest of a split one. -/
def work (a : Assembly σ) : Nat × Nat := (a.cursor.left, pendingWork a.pending)

theorem take_facts {a after : Assembly σ} {run : Stretch}
    (h : a.take = some (run, after)) :
    after.pending = none ∧
      ((after.cursor = a.cursor ∧ a.pending = some run) ∨
        after.cursor.left < a.cursor.left) := by
  unfold take at h
  split at h
  · rename_i run' hp
    cases h
    exact ⟨rfl, .inl ⟨rfl, hp⟩⟩
  · rename_i hp
    split at h
    · rename_i run' cursor hn
      cases h
      have := PlanCursor.left_nextStretch hn
      exact ⟨hp, .inr (by simp only; omega)⟩
    · cases h

theorem serve_facts (a : Assembly σ) (run : Stretch) (s : Segment)
    (hs : s.contains run.elem) (hp : a.pending = none) :
    (a.serve run s).2.cursor = a.cursor ∧
      pendingWork (a.serve run s).2.pending < run.count + 1 := by
  simp only [Segment.contains, decide_eq_true_eq] at hs
  unfold serve
  simp only
  split
  · refine ⟨rfl, ?_⟩
    simp only [pendingWork]
    omega
  · exact ⟨rfl, by simp [hp, pendingWork]⟩

/-- A chunk handed out leaves less to do. -/
theorem left_next [SegmentSupplier σ] {a after : Assembly σ} {c : Chunk}
    (h : a.next = (some (.ok c), after)) :
    Prod.Lex (· < ·) (· < ·) after.work a.work := by
  unfold next at h
  split at h
  · cases h
  · split at h
    · cases h
    · rename_i run taken htake
      obtain ⟨hnone, hless⟩ := take_facts htake
      split at h
      · cases h
      · rename_i s covered hcover
        cases h
        have hcursor := cursor_cover taken run.elem
        simp only [hcover] at hcursor
        obtain ⟨hc, hp⟩ := serve_facts covered run s (contains_of_cover hcover)
          (hcursor.2.trans hnone)
        simp only [work, hc, hcursor.1]
        -- the rest of a split run shrinks, or a whole run is used up
        rcases hless with ⟨hsame, hrun⟩ | hless
        · rw [hsame, hrun]
          exact Prod.Lex.right _ hp
        · exact Prod.Lex.left _ _ hless

/-! ## §3 All chunks -/

/-- Appends the bytes of all chunks still to come to those in hand. -/
def collect [SegmentSupplier σ] (a : Assembly σ) (hand : Array UInt8) : Except GridError Bytes :=
  match h : a.next with
  | (none, _) => .ok hand.toList
  | (some (.error e), _) => .error e
  | (some (.ok c), after) =>
    have := left_next h
    match c.view with
    | none => .error .misplacedChunk
    | some v => collect after (hand ++ v.bytes)
termination_by a.work
decreasing_by assumption

section Collect

variable [SegmentSupplier σ] {a after : Assembly σ} {c : Chunk} {v : ElementView} {e : GridError}

theorem collect_of_done (h : a.next.1 = none) (hand : Array UInt8) :
    a.collect hand = .ok hand.toList := by
  rw [collect]
  split <;> simp_all

theorem collect_of_error (h : a.next.1 = some (.error e)) (hand : Array UInt8) :
    a.collect hand = .error e := by
  rw [collect]
  split <;> simp_all

/-- The bytes of a chunk are added to those in hand. -/
theorem collect_of_chunk (h : a.next = (some (.ok c), after)) (hview : c.view = some v)
    (hand : Array UInt8) : a.collect hand = after.collect (hand ++ v.bytes) := by
  rw [collect]
  split <;> simp_all

theorem collect_of_misplaced (h : a.next = (some (.ok c), after)) (hview : c.view = none)
    (hand : Array UInt8) : a.collect hand = .error .misplacedChunk := by
  rw [collect]
  split <;> simp_all

end Collect

/-- The bytes of the selected elements, in row-by-row order. -/
def run [SegmentSupplier σ] (a : Assembly σ) : Except GridError Bytes :=
  a.collect #[]

end Assembly

end Granule
