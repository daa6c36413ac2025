import Granule.Grid.Plan
import Granule.Words.Reckoning

/-!
# Plans on a Machine

A plan is made, and its chunks are pulled, by products and sums of numbers that a machine
keeps in words. They are written down in the order in which a machine comes to them: a
selection is checked dimension by dimension, strides are made from the inside out, and the
sums and products of several numbers one by one from the front.

**Main statements**:
- `Selection.result_reckonFault?` : a selection is refused for the reason for which it is refused
  in exact numbers
- `PlanCursor.result_reckonNext` : and so is a chunk pulled
- `PlanCursor.next_of_nextChecked` : a machine pulls no other chunk
-/

namespace Granule

open Reckoning

/-! ## §1 Shapes and ranges -/

def Shape.sizeChecked (s : Shape) : Checked Nat := (productFrom 1 s.extents).run

def Selection.sizeChecked (s : Selection) : Checked Nat :=
  (productFrom 1 (s.ranges.map (·.count))).run

/-- The distances of neighbours along each dimension: the innermost is one, and every other one
comes from the next further in. -/
def Shape.reckonStrides : List Nat → Reckoning (List Nat)
  | [] => pure []
  | [_] => pure [1]
  | _ :: e :: inner => do
    let strides ← reckonStrides (e :: inner)
    let outer ← times (strides.headD 1) e
    pure (outer :: strides)

def Shape.stridesChecked (s : Shape) : Checked (List Nat) := (reckonStrides s.extents).run

/-- The last index of a range, unless the range is empty. -/
def IndexRange.reckonLast (r : IndexRange) : Reckoning (Option Nat) :=
  if r.count = 0 then pure none
  else do
    let far ← times (r.count - 1) r.stride
    let last ← plus r.start far
    pure (some last)

def IndexRange.lastChecked (r : IndexRange) : Checked (Option Nat) := r.reckonLast.run

/-- Every selected index is below the extent; an empty range may start at the extent. -/
def IndexRange.reckonWithin (r : IndexRange) (extent : Nat) : Reckoning Bool := do
  match ← r.reckonLast with
  | some last => pure (last < extent)
  | none => pure (r.start ≤ extent)

namespace Selection

/-- The first dimension, from number `d` on, whose range is refused. -/
def reckonFaultFrom : (d : Nat) → List IndexRange → List Nat → Reckoning (Option Fault)
  | d, r :: rs, e :: es =>
    if r.stride = 0 then pure (some (.stride d))
    else do
      let within ← r.reckonWithin e
      if within then reckonFaultFrom (d + 1) rs es else pure (some (.bounds d r e))
  | _, _, _ => pure none

/-- The first reason to refuse a selection of an array, if there is any. -/
def reckonFault? (s : Selection) (shape : Shape) : Reckoning (Option Fault) :=
  if s.rank = shape.rank then reckonFaultFrom 0 s.ranges shape.extents
  else pure (some (.rank s.rank shape.rank))

def faultChecked? (s : Selection) (shape : Shape) : Checked (Option Fault) :=
  (s.reckonFault? shape).run

end Selection

@[simp] theorem Shape.result_reckonStrides (extents : List Nat) :
    (reckonStrides extents).result = stridesOf extents := by
  fun_induction reckonStrides extents with
  | case1 => rfl
  | case2 => rfl
  | case3 _ e inner ih => simp [ih, stridesOf, Nat.mul_comm]

@[simp] theorem IndexRange.result_reckonLast (r : IndexRange) : r.reckonLast.result = r.last := by
  unfold reckonLast last
  split <;> rfl

@[simp] theorem IndexRange.result_reckonWithin (r : IndexRange) (extent : Nat) :
    (r.reckonWithin extent).result = r.isWithin extent := by
  simp only [reckonWithin, result_bind, result_reckonLast, isWithin]
  cases r.last <;> simp

theorem Selection.result_reckonFaultFrom (d : Nat) (ranges : List IndexRange)
    (extents : List Nat) :
    (reckonFaultFrom d ranges extents).result = faultFrom d ranges extents := by
  fun_induction faultFrom d ranges extents with
  | case1 d r rs e es hzero => simp [reckonFaultFrom, hzero]
  | case2 d r rs e es hstride hwithin ih => simp [reckonFaultFrom, hstride, hwithin, ih]
  | case3 d r rs e es hstride hwithin => simp [reckonFaultFrom, hstride, hwithin]
  | case4 ranges d extents hnone =>
    cases ranges with
    | nil => rfl
    | cons r rs =>
      cases extents with
      | nil => rfl
      | cons e es => exact absurd rfl (hnone r rs e es rfl)

/-- In exact numbers, the reason to refuse a selection is the same. -/
@[simp] theorem Selection.result_reckonFault? (s : Selection) (shape : Shape) :
    (s.reckonFault? shape).result = s.fault? shape := by
  unfold reckonFault? fault?
  split
  · exact result_reckonFaultFrom 0 s.ranges shape.extents
  · rfl

/-! ## §2 Making a plan -/

/-- How the chunks of a plan are made up. -/
structure Runs where
  /-- Elements per chunk. -/
  run : Nat
  /-- The next dimension outward may still join. -/
  isOpen : Bool
  /-- The dimensions along which chunks are repeated, outermost first. -/
  repetitions : List Repetition

namespace Runs

/-- Takes in the next dimension outward, with its stride: it joins the run, or it is repeated. -/
def extend (inner : Runs) (extent : Nat) (r : IndexRange) (stride : Nat) : Reckoning Runs :=
  if inner.isOpen && r.isWhole extent then do
    let run ← times inner.run extent
    pure { inner with run }
  else if inner.isOpen && r.isGapless then do
    let run ← times inner.run r.count
    pure { inner with run, isOpen := false }
  else do
    let step ← times r.stride stride
    pure { inner with isOpen := false, repetitions := ⟨r.count, step⟩ :: inner.repetitions }

/-- Takes in all dimensions with their strides, the innermost first. -/
def reckon : List Nat → List IndexRange → (strides : List Nat) → Reckoning Runs
  | e :: es, r :: rs, stride :: strides => do
    let inner ← reckon es rs strides
    inner.extend e r stride
  | _, _, _ => pure ⟨1, true, []⟩

end Runs

namespace Plan

/-- A plan for the transfer of a selection that fits its array, and the number of its chunks. -/
def reckon (shape : Shape) (elemSize : Nat) (selection : Selection) (dataStart : Nat) :
    Reckoning (Plan × Nat) := do
  let strides ← Shape.reckonStrides shape.extents
  let runs ← Runs.reckon shape.extents selection.ranges strides
  let starts ← each (fun (r, stride) => times r.start stride) (selection.ranges.zip strides)
  let base ← sumFrom 0 starts
  let total ← productFrom 1 (selection.ranges.map (·.count))
  let chunkCount ←
    if total = 0 then pure 0 else productFrom 1 (runs.repetitions.map (·.count))
  pure (⟨elemSize, dataStart, total, runs.run, runs.repetitions, base⟩, chunkCount)

/-- Plans the transfer of a selection of an array, or says why it is refused. -/
def reckonOfSelection (shape : Shape) (elemSize : Nat) (selection : Selection)
    (dataStart : Nat) : Reckoning (Except Selection.Fault Plan) :=
  if elemSize = 0 then pure (.error .elementSize)
  else do
    match ← selection.reckonFault? shape with
    | some fault => pure (.error fault)
    | none =>
      let (plan, _) ← reckon shape elemSize selection dataStart
      pure (.ok plan)

def ofSelectionChecked (shape : Shape) (elemSize : Nat) (selection : Selection)
    (dataStart : Nat) : Checked (Except Selection.Fault Plan) :=
  (reckonOfSelection shape elemSize selection dataStart).run

end Plan

/-! ## §3 Pulling chunks -/

/-- Along each repeated dimension, the storage elements that its digit stands for. -/
def Repetition.reckonParts : List Repetition → (digits : List Nat) → Reckoning (List Nat)
  | [], _ => pure []
  | outer :: inner, digits => do
    let part ← times outer.step (digits.headD 0)
    let parts ← reckonParts inner digits.tail
    pure (part :: parts)

/-- One turn of the digits. -/
def Repetition.reckonTurn : List Repetition → (digits : List Nat) → Reckoning (Bool × List Nat)
  | [], _ => pure (true, [])
  | outer :: inner, digits => do
    let turned ← reckonTurn inner digits.tail
    if turned.1 then do
      let digit ← plus (digits.headD 0) 1
      pure (if digit < outer.count then (false, digit :: turned.2) else (true, 0 :: turned.2))
    else pure (false, digits.headD 0 :: turned.2)

namespace PlanCursor

/-- The next chunk of a plan, if there is one. -/
def reckonNext (c : PlanCursor) : Reckoning (Option (Chunk × PlanCursor)) :=
  if c.hasNext then do
    let parts ← Repetition.reckonParts c.plan.repetitions c.odometer.digits
    let reach ← sumFrom 0 parts
    let elem ← plus c.plan.base reach
    let byte ← times elem c.plan.elemSize
    let pos ← plus c.plan.dataStart byte
    let dest ← times c.odometer.pulled c.plan.perChunk
    let pulled ← plus c.odometer.pulled 1
    let turned ← Repetition.reckonTurn c.plan.repetitions c.odometer.digits
    pure (some (⟨.stored pos, c.plan.perChunk, dest, c.plan.elemSize⟩,
      ⟨c.plan, ⟨pulled, turned.2⟩⟩))
  else pure none

def nextChecked (c : PlanCursor) : Checked (Option (Chunk × PlanCursor)) := c.reckonNext.run

end PlanCursor

theorem Repetition.foldl_reckonParts (hand : Nat) (repetitions : List Repetition)
    (digits : List Nat) : (reckonParts repetitions digits).result.foldl (· + ·) hand =
      hand + reach repetitions digits := by
  induction repetitions generalizing hand digits with
  | nil => rfl
  | cons outer inner ih => simp [reckonParts, reach, ih, Nat.mul_comm, Nat.add_assoc]

@[simp] theorem Repetition.result_reckonTurn (repetitions : List Repetition)
    (digits : List Nat) : (reckonTurn repetitions digits).result = turn repetitions digits := by
  induction repetitions generalizing digits with
  | nil => rfl
  | cons outer inner ih =>
    rw [reckonTurn, turn, result_bind, ih]
    rcases turn inner digits.tail with ⟨carry, rest⟩
    cases carry <;> rfl

namespace PlanCursor

/-- In exact numbers, the chunk that is pulled is the same. -/
theorem result_reckonNext (c : PlanCursor) : c.reckonNext.result = c.next := by
  unfold reckonNext next nextStretch
  split
  · simp only [result_bind, result_sumFrom, Repetition.foldl_reckonParts, result_plus, result_times,
      result_pure, Repetition.result_reckonTurn, Nat.zero_add, Option.map_some]
    rfl
  · rfl

/-- A machine pulls no other chunk. -/
theorem next_of_nextChecked {c : PlanCursor} {pulled : Option (Chunk × PlanCursor)}
    (h : c.nextChecked = .ok pulled) : c.next = pulled :=
  c.result_reckonNext.symm.trans (result_of_run h)

/-- Folds over the chunks still to come, until one fails. -/
def foldChecked {β ε : Type} (f : β → Chunk → Checked (Except ε β)) (c : PlanCursor) (acc : β) :
    Checked (Except ε β) :=
  match h : c.nextChecked with
  | .error p => .error p
  | .ok none => .ok (.ok acc)
  | .ok (some (chunk, rest)) =>
    have := left_next (next_of_nextChecked h)
    match f acc chunk with
    | .ok (.ok next) => foldChecked f rest next
    | .ok (.error e) => .ok (.error e)
    | .error p => .error p
termination_by c.left

end PlanCursor

/-! ## §4 Bytes of chunks -/

namespace Chunk

def byteCountChecked (c : Chunk) : Checked Nat := .word (c.count * c.elemSize)

def destOffsetChecked (c : Chunk) : Checked Nat := .word (c.dest * c.elemSize)

/-- The bytes of the destination that a chunk fills: where they start, and where they end. -/
def destChecked (c : Chunk) : Checked (Nat × Nat) := do
  let start ← c.destOffsetChecked
  let count ← c.byteCountChecked
  let stop ← .word (start + count)
  return (start, stop)

/-- The bytes of a decoded chunk, unless its buffer is too short. -/
def viewChecked (c : Chunk) : Checked (Option ElementView) :=
  match c.place with
  | .stored _ => .ok none
  | .decoded buf elem => do
    let start ← .word (elem * c.elemSize)
    let count ← c.byteCountChecked
    let _ ← .word (start + count)
    return (buf.slice? start count).map (⟨·, c.elemSize⟩)

theorem view_of_viewChecked {c : Chunk} {v : Option ElementView} (h : c.viewChecked = .ok v) :
    c.view = v := by
  obtain ⟨place, count, dest, elemSize⟩ := c
  cases place with
  | stored pos => exact Except.ok.inj h
  | decoded buf elem =>
    simp only [viewChecked, byteCountChecked, Checked.bind_eq_ok_iff,
      Checked.word_eq_ok_iff] at h
    obtain ⟨start, ⟨-, rfl⟩, count, ⟨-, rfl⟩, -, -, hv⟩ := h
    exact Except.ok.inj hv

end Chunk

end Granule
