import Granule.Grid.Selection
import Granule.Grid.Chunk

/-!
# Transfer Plans

A plan serves a selection with as few contiguous runs as its ranges allow. All
runs of one plan have the same length, and they come in storage order, each
continuing the destination where the one before it ended.

Dimensions are fused from the innermost outward. A dimension that is selected
whole multiplies the run and lets the next one in; the first dimension that is
not whole still joins the run when its indices are adjacent; every dimension
further out becomes a `Repetition` of the run. The repetitions are counted by an
`Odometer`, which turns once with every chunk that is pulled.

All numbers are exact here. Which of them a machine has room for, and where it gives up, is
told in `Granule.Words.Plan`.

**Main statements**:
- `Repetition.value_turn` : a turn counts one further, or goes back to zero after the last run
- `Repetition.reach_eq_offset` : the digits reach the run whose number they show
- `PlanCursor.next_eq` : a cursor that keeps count pulls the chunks of its plan in order
- `Plan.foldChunks_eq` : a fold over a plan is a fold over its chunks in order
-/

namespace Granule

/-! ## §1 Repeated dimensions -/

/-- A dimension along which runs are repeated. -/
structure Repetition where
  /-- How many times. -/
  count : Nat
  /-- Storage elements from one run to the next. -/
  step : Nat
deriving DecidableEq, Repr

namespace Repetition

-- the empty product is the literal one, also where that of a monoid is in scope
attribute [local instance (1100)] One.ofOfNat1

def total (repetitions : List Repetition) : Nat := (repetitions.map (·.count)).prod

/-- Storage elements from the first run to run number `k`, the last dimension
varying fastest. -/
def offset : List Repetition → (k : Nat) → Nat
  | [], _ => 0
  | outer :: inner, k => k / total inner * outer.step + offset inner (k % total inner)

/-- Storage elements from the first run to the one that the digits show, one digit per
dimension, the outermost first. A missing digit is zero. -/
def reach : List Repetition → (digits : List Nat) → Nat
  | [], _ => 0
  | outer :: inner, digits => digits.headD 0 * outer.step + reach inner digits.tail

/-- Turns the digits once, the last one first: a digit that reaches the count of its
dimension goes back to zero, and only then the next one outward turns. The flag says that
all of them went back. -/
def turn : List Repetition → (digits : List Nat) → Bool × List Nat
  | [], _ => (true, [])
  | outer :: inner, digits =>
    match turn inner digits.tail with
    | (false, rest) => (false, digits.headD 0 :: rest)
    | (true, rest) =>
      if digits.headD 0 + 1 < outer.count then (false, (digits.headD 0 + 1) :: rest)
      else (true, 0 :: rest)

def value : List Repetition → (digits : List Nat) → Nat
  | [], _ => 0
  | _ :: inner, digits => digits.headD 0 * total inner + value inner digits.tail

/-- Every digit is below the count of its dimension. -/
def InRange : List Repetition → (digits : List Nat) → Prop
  | [], _ => True
  | outer :: inner, digits => digits.headD 0 < outer.count ∧ InRange inner digits.tail

theorem total_cons (outer : Repetition) (inner : List Repetition) :
    total (outer :: inner) = outer.count * total inner := by
  simp [total]

/-- A number below `a * n` is shown by a digit below `a` and the rest below `n`. -/
private theorem digit_add_lt {digit rest a n : Nat} (hd : digit < a) (hr : rest < n) :
    digit * n + rest < a * n := by
  have hle : (digit + 1) * n ≤ a * n := Nat.mul_le_mul_right n hd
  rw [Nat.succ_mul] at hle
  omega

theorem value_lt {repetitions : List Repetition} {digits : List Nat}
    (h : InRange repetitions digits) : value repetitions digits < total repetitions := by
  induction repetitions generalizing digits with
  | nil => simp [value, total]
  | cons outer inner ih =>
    rw [value, total_cons]
    exact digit_add_lt h.1 (ih h.2)

/-- The digits reach the run whose number they show. -/
theorem reach_eq_offset {repetitions : List Repetition} {digits : List Nat}
    (h : InRange repetitions digits) :
    reach repetitions digits = offset repetitions (value repetitions digits) := by
  induction repetitions generalizing digits with
  | nil => rfl
  | cons outer inner ih =>
    have hrest := value_lt h.2
    have hdiv : (digits.headD 0 * total inner + value inner digits.tail) / total inner =
        digits.headD 0 := by
      rw [Nat.mul_comm, Nat.mul_add_div (by omega), Nat.div_eq_of_lt hrest, Nat.add_zero]
    have hmod : (digits.headD 0 * total inner + value inner digits.tail) % total inner =
        value inner digits.tail := by
      rw [Nat.mul_comm, Nat.mul_add_mod, Nat.mod_eq_of_lt hrest]
    rw [reach, offset, value, hdiv, hmod, ih h.2]

/-- No digits at all show the first run, where every dimension has one. -/
theorem inRange_nil {repetitions : List Repetition} (h : 0 < total repetitions) :
    InRange repetitions [] ∧ value repetitions [] = 0 := by
  induction repetitions with
  | nil => exact ⟨trivial, rfl⟩
  | cons outer inner ih =>
    rw [total_cons] at h
    have hinner := ih (Nat.pos_of_mul_pos_left h)
    exact ⟨⟨Nat.pos_of_mul_pos_right h, hinner.1⟩, by simpa [value] using hinner.2⟩

/-- A turn counts one further, or goes back to zero after the last run. -/
theorem value_turn {repetitions : List Repetition} {digits : List Nat}
    (h : InRange repetitions digits) :
    InRange repetitions (turn repetitions digits).2 ∧
      if (turn repetitions digits).1 then
        value repetitions digits + 1 = total repetitions ∧
          value repetitions (turn repetitions digits).2 = 0
      else value repetitions (turn repetitions digits).2 = value repetitions digits + 1 := by
  induction repetitions generalizing digits with
  | nil => simp [turn, InRange, value, total]
  | cons outer inner ih =>
    obtain ⟨hin, hvalue⟩ := ih h.2
    have hdigit := h.1
    rw [turn]
    rcases hturn : turn inner digits.tail with ⟨carry, rest⟩
    simp only [hturn] at hin hvalue
    cases carry with
    | false =>
      simp only [Bool.false_eq_true, if_false] at hvalue ⊢
      exact ⟨⟨hdigit, hin⟩, by simp only [value, List.headD_cons, List.tail_cons]; omega⟩
    | true =>
      simp only [if_true] at hvalue
      -- the inner digits went back to zero, so this one turns
      simp only
      split
      · rename_i hlt
        refine ⟨⟨hlt, hin⟩, ?_⟩
        simp only [Bool.false_eq_true, if_false, value, List.headD_cons, List.tail_cons,
          Nat.succ_mul]
        omega
      · have hlast : digits.headD 0 + 1 = outer.count := by omega
        refine ⟨⟨by simp only [List.headD_cons]; omega, hin⟩, ?_⟩
        simp only [if_true, value, List.headD_cons, List.tail_cons, total_cons, ← hlast,
          Nat.succ_mul]
        omega

end Repetition

/-! ## §2 Fusion -/

/-- What the dimensions seen so far, from the innermost outward, amount to. -/
structure Fusion where
  /-- Elements per run. -/
  run : Nat
  /-- The next dimension outward may still join the run. -/
  isOpen : Bool
  /-- The repeated dimensions, outermost first. -/
  repetitions : List Repetition
  /-- The storage element of the first selected element. -/
  base : Nat
  /-- Storage elements between neighbours along the next dimension outward. -/
  stride : Nat
deriving DecidableEq, Repr

/-- Before any dimension: single elements. -/
def Fusion.point : Fusion := ⟨1, true, [], 0, 1⟩

/-- Takes in the next dimension outward. -/
def Fusion.extend (f : Fusion) (extent : Nat) (r : IndexRange) : Fusion :=
  let outer := { f with base := r.start * f.stride + f.base, stride := extent * f.stride }
  if f.isOpen && r.isWhole extent then
    { outer with run := f.run * extent }
  else if f.isOpen && r.isGapless then
    { outer with run := f.run * r.count, isOpen := false }
  else
    { outer with isOpen := false, repetitions := ⟨r.count, r.stride * f.stride⟩ :: f.repetitions }

def Fusion.ofRanges : List Nat → List IndexRange → Fusion
  | e :: es, r :: rs => (ofRanges es rs).extend e r
  | _, _ => point

/-! ## §3 Plans -/

/-- A contiguous run of storage elements and its place among the selected ones. -/
structure Stretch where
  /-- The first storage element. -/
  elem : Nat
  /-- How many elements there are. -/
  count : Nat
  /-- The place of the first one among the selected elements. -/
  dest : Nat
deriving DecidableEq, Repr

/-- How a selection is transferred. -/
structure Plan where
  /-- Bytes per element. -/
  elemSize : Nat
  /-- The byte of the storage stream at which element 0 starts. -/
  dataStart : Nat
  /-- The number of selected elements. -/
  total : Nat
  /-- Elements per chunk. -/
  perChunk : Nat
  /-- The dimensions along which chunks are repeated, outermost first. -/
  repetitions : List Repetition
  /-- The storage element at which the first chunk starts. -/
  base : Nat
deriving DecidableEq, Repr

namespace Plan

/-- Plans the transfer of a selection of an array, or says why it is refused. -/
def ofSelection (shape : Shape) (elemSize : Nat) (selection : Selection) (dataStart : Nat) :
    Except Selection.Fault Plan :=
  if elemSize = 0 then .error .elementSize
  else
    match selection.fault? shape with
    | some fault => .error fault
    | none =>
      let fusion := Fusion.ofRanges shape.extents selection.ranges
      .ok {
        elemSize, dataStart
        total := selection.size
        perChunk := fusion.run
        repetitions := fusion.repetitions
        base := fusion.base }

/-- The number of chunks: none at all when nothing is selected. -/
def chunkCount (p : Plan) : Nat :=
  if p.total = 0 then 0 else Repetition.total p.repetitions

def elemOf (p : Plan) (k : Nat) : Nat := p.base + Repetition.offset p.repetitions k

def stretch (p : Plan) (k : Nat) : Stretch :=
  ⟨p.elemOf k, p.perChunk, k * p.perChunk⟩

/-- A run of elements as a chunk of the storage stream. -/
def stored (p : Plan) (run : Stretch) : Chunk where
  place := .stored (p.dataStart + run.elem * p.elemSize)
  count := run.count
  dest := run.dest
  elemSize := p.elemSize

def chunk (p : Plan) (k : Nat) : Chunk := p.stored (p.stretch k)

/-- All chunks, in storage order. -/
def chunks (p : Plan) : List Chunk := (List.range p.chunkCount).map p.chunk

def totalBytes (p : Plan) : Nat := p.total * p.elemSize

/-- A plan with chunks has elements selected. -/
theorem total_pos_of_chunkCount {p : Plan} (h : 0 < p.chunkCount) : 0 < p.total := by
  unfold chunkCount at h
  split at h
  · omega
  · omega

/-- A plan with chunks repeats them as often as its repetitions say. -/
theorem chunkCount_eq_total {p : Plan} (h : 0 < p.chunkCount) :
    p.chunkCount = Repetition.total p.repetitions := by
  unfold chunkCount at h ⊢
  split at h
  · omega
  · rename_i hne
    rw [if_neg hne]

end Plan

/-! ## §4 Pulling chunks one by one -/

/-- How far a plan has been carried out. -/
structure Odometer where
  /-- The number of chunks pulled. -/
  pulled : Nat := 0
  /-- How far each repetition has come, the outermost first; a missing digit is zero. -/
  digits : List Nat := []
deriving DecidableEq, Repr

/-- The odometer before any chunk is pulled. -/
instance : OfNat Odometer 0 := ⟨{}⟩

def Odometer.advance (o : Odometer) (repetitions : List Repetition) : Odometer :=
  ⟨o.pulled + 1, (Repetition.turn repetitions o.digits).2⟩

/-- A plan together with how far it has been carried out. -/
structure PlanCursor where
  plan : Plan
  odometer : Odometer := 0
deriving DecidableEq, Repr

namespace PlanCursor

def left (c : PlanCursor) : Nat := c.plan.chunkCount - c.odometer.pulled

def hasNext (c : PlanCursor) : Bool := c.odometer.pulled < c.plan.chunkCount

def elem (c : PlanCursor) : Nat :=
  c.plan.base + Repetition.reach c.plan.repetitions c.odometer.digits

def stretch (c : PlanCursor) : Stretch :=
  ⟨c.elem, c.plan.perChunk, c.odometer.pulled * c.plan.perChunk⟩

def pass (c : PlanCursor) : PlanCursor :=
  { c with odometer := c.odometer.advance c.plan.repetitions }

def nextStretch (c : PlanCursor) : Option (Stretch × PlanCursor) :=
  if c.hasNext then some (c.stretch, c.pass) else none

/-- Pulls the next chunk, if there is one. -/
def next (c : PlanCursor) : Option (Chunk × PlanCursor) :=
  c.nextStretch.map fun (run, rest) => (c.plan.stored run, rest)

/-- A pull uses up one chunk. -/
theorem left_nextStretch {c rest : PlanCursor} {s : Stretch}
    (h : c.nextStretch = some (s, rest)) : rest.left + 1 = c.left := by
  unfold nextStretch at h
  split at h
  · rename_i hn
    cases h
    simp only [hasNext, decide_eq_true_eq] at hn
    simp only [left, pass, Odometer.advance]
    omega
  · cases h

theorem left_next {c rest : PlanCursor} {chunk : Chunk} (h : c.next = some (chunk, rest)) :
    rest.left + 1 = c.left := by
  obtain ⟨⟨run, after⟩, hrun, heq⟩ := Option.map_eq_some_iff.mp h
  cases heq
  exact left_nextStretch hrun

/-- The digits show the number of the next chunk, as long as there is one. -/
def InStep (c : PlanCursor) : Prop :=
  c.odometer.pulled < c.plan.chunkCount →
    Repetition.InRange c.plan.repetitions c.odometer.digits ∧
      Repetition.value c.plan.repetitions c.odometer.digits = c.odometer.pulled

/-- A plan that has not been started is in step. -/
theorem inStep_zero (p : Plan) : InStep ⟨p, 0⟩ := by
  intro h
  have hcount : 0 < p.chunkCount := h
  exact Repetition.inRange_nil (Plan.chunkCount_eq_total hcount ▸ hcount)

/-- Pulling a chunk keeps the digits in step with the number of chunks pulled. -/
theorem InStep.pass {c : PlanCursor} (h : c.InStep) : c.pass.InStep := by
  intro hmore
  have hmore' : c.odometer.pulled + 1 < c.plan.chunkCount := hmore
  obtain ⟨hin, hvalue⟩ := h (by omega)
  obtain ⟨hin', hturn⟩ := Repetition.value_turn hin
  have htotal := Plan.chunkCount_eq_total (p := c.plan) (by omega)
  refine ⟨hin', ?_⟩
  -- the odometer cannot go round here, as there is a chunk after this one
  split at hturn
  · omega
  · exact hturn.trans (congrArg (· + 1) hvalue)

/-- A cursor in step pulls the run whose number it has come to. -/
theorem nextStretch_eq {c : PlanCursor} (h : c.InStep) :
    c.nextStretch =
      if c.hasNext then some (c.plan.stretch c.odometer.pulled, c.pass) else none := by
  unfold nextStretch
  split
  · rename_i hnext
    obtain ⟨hin, hvalue⟩ := h (by simpa [hasNext] using hnext)
    have hrun : c.stretch = c.plan.stretch c.odometer.pulled := by
      rw [stretch, Plan.stretch, elem, Plan.elemOf, Repetition.reach_eq_offset hin, hvalue]
    rw [hrun]
  · rfl

/-- A cursor in step pulls the chunk whose number it has come to. -/
theorem next_eq {c : PlanCursor} (h : c.InStep) :
    c.next = if c.hasNext then some (c.plan.chunk c.odometer.pulled, c.pass) else none := by
  rw [next, nextStretch_eq h]
  split <;> rfl

/-- Folds over the chunks still to come, until one fails. -/
def fold {β ε : Type} (f : β → Chunk → Except ε β) (c : PlanCursor) (acc : β) : Except ε β :=
  match h : c.next with
  | none => .ok acc
  | some (chunk, rest) =>
    have := left_next h
    match f acc chunk with
    | .ok next => fold f rest next
    | .error e => .error e
termination_by c.left

theorem fold_eq {β ε : Type} (f : β → Chunk → Except ε β) (c : PlanCursor) (acc : β)
    (h : c.InStep) :
    c.fold f acc =
      ((List.range' c.odometer.pulled c.left).map c.plan.chunk).foldlM f acc := by
  fun_induction fold f c acc with
  | case1 c acc hnext =>
    rw [next_eq h] at hnext
    have hnone : c.left = 0 := by
      simp only [hasNext, decide_eq_true_eq, ite_eq_right_iff, reduceCtorEq, imp_false] at hnext
      simp only [left]
      omega
    rw [hnone]
    rfl
  | case2 c acc chunk rest hnext _ next hf ih =>
    have hleft := left_next hnext
    rw [next_eq h] at hnext
    split at hnext
    · cases hnext
      rw [ih h.pass, ← hleft, List.range'_succ, List.map_cons, List.foldlM_cons, hf]
      rfl
    · cases hnext
  | case3 c acc chunk rest hnext _ e hf =>
    have hleft := left_next hnext
    rw [next_eq h] at hnext
    split at hnext
    · cases hnext
      rw [← hleft, List.range'_succ, List.map_cons, List.foldlM_cons, hf]
      rfl
    · cases hnext

end PlanCursor

/-- Folds over the chunks of a plan in order, until one fails. -/
def Plan.foldChunks {β ε : Type} (p : Plan) (f : β → Chunk → Except ε β) (acc : β) :
    Except ε β :=
  PlanCursor.fold f ⟨p, 0⟩ acc

/-- The fold over a plan is the fold over the list of its chunks. -/
theorem Plan.foldChunks_eq {β ε : Type} (p : Plan) (f : β → Chunk → Except ε β) (acc : β) :
    p.foldChunks f acc = p.chunks.foldlM f acc := by
  rw [foldChunks, PlanCursor.fold_eq f _ acc (PlanCursor.inStep_zero p), chunks,
    List.range_eq_range']
  rfl

end Granule
