import Granule.Grid.Assembly
import Granule.Words.Transfer

/-!
# Assembly on a Machine

The suppliers of segments, and the assembly from what they answer, with the sums and
products that a machine makes for it: where a segment stops, how many bytes its elements
need, where a view starts, and where its bytes go. The element at which a run starts is not
handed over by the plan but found again from the byte of its chunk.

**Main statements**:
- `SegmentQueue.supply_of_supplyChecked` : a queue gives no other answer on a machine
- `Assembly.next_of_nextChecked` : an assembly hands out no other chunk there
-/

namespace Granule

variable {σ : Type}

/-! ## §1 Segments -/

namespace Segment

def stopChecked (s : Segment) : Checked Nat := .word (s.first + s.count)

/-- The segment holds this storage element; where it stops matters only behind its first element. -/
def containsChecked (s : Segment) (elem : Nat) : Checked Bool :=
  if elem < s.first then .ok false
  else do
    let stop ← s.stopChecked
    return elem < stop

theorem contains_of_containsChecked {s : Segment} {elem : Nat} {holds : Bool}
    (h : s.containsChecked elem = .ok holds) : s.contains elem = holds := by
  unfold containsChecked at h
  unfold contains stop
  split at h
  · cases Except.ok.inj h
    simp only [decide_eq_false_iff_not]
    omega
  · simp only [stopChecked, Checked.bind_eq_ok_iff, Checked.word_eq_ok_iff] at h
    obtain ⟨stop, ⟨-, rfl⟩, hholds⟩ := h
    cases Except.ok.inj hholds
    simp only [decide_eq_decide]
    omega

end Segment

/-! ## §2 Suppliers -/

/-- A supplier on a machine. Where the machine does not give up, the answer is the exact one. -/
class CheckedSupplier (σ : Type) extends SegmentSupplier σ where
  supplyChecked : σ → (elem : Nat) → Checked (Except GridError (Option Segment) × σ)
  supply_of_supplyChecked {source : σ} {elem : Nat}
      {answer : Except GridError (Option Segment) × σ} :
    supplyChecked source elem = .ok answer → supply source elem = answer

/-- A supplier that makes no sums or products. -/
abbrev CheckedSupplier.ofSupplier [SegmentSupplier σ] : CheckedSupplier σ where
  supplyChecked source elem := .ok (SegmentSupplier.supply source elem)
  supply_of_supplyChecked h := Except.ok.inj h

instance : CheckedSupplier SegmentScript := .ofSupplier

namespace SegmentQueue

/-- Passes the leading segments that end at or before the element. -/
def passChecked (elem : Nat) : List Segment → Checked (List Segment)
  | [] => .ok []
  | s :: rest => do
    let stop ← s.stopChecked
    if elem < stop then return s :: rest else passChecked elem rest

/-- Passes the leading segments that end at or before the element, and answers with the first
of the others if it holds the element. -/
def supplyChecked (q : SegmentQueue) (elem : Nat) :
    Checked (Except GridError (Option Segment) × SegmentQueue) := do
  match ← passChecked elem q.pending with
  | [] => return (.ok none, ⟨[]⟩)
  | s :: rest =>
    let holds ← s.containsChecked elem
    return (.ok (if holds then some s else none), ⟨s :: rest⟩)

theorem dropWhile_of_passChecked {elem : Nat} {segments rest : List Segment}
    (h : passChecked elem segments = .ok rest) :
    segments.dropWhile (fun s => s.stop ≤ elem) = rest := by
  induction segments with
  | nil => exact Except.ok.inj h
  | cons s segments ih =>
    simp only [passChecked, Segment.stopChecked, Checked.bind_eq_ok_iff,
      Checked.word_eq_ok_iff] at h
    obtain ⟨stop, ⟨-, rfl⟩, h⟩ := h
    rw [List.dropWhile_cons, Segment.stop]
    split at h
    · cases Except.ok.inj h
      rw [if_neg (by simp only [decide_eq_true_eq]; omega)]
    · rw [if_pos (by simp only [decide_eq_true_eq]; omega)]
      exact ih h

/-- A queue gives no other answer on a machine. -/
theorem supply_of_supplyChecked {q : SegmentQueue} {elem : Nat}
    {answer : Except GridError (Option Segment) × SegmentQueue}
    (h : q.supplyChecked elem = .ok answer) : SegmentSupplier.supply q elem = answer := by
  simp only [supplyChecked, Checked.bind_eq_ok_iff] at h
  obtain ⟨rest, hrest, h⟩ := h
  have hpassed := dropWhile_of_passChecked hrest
  show (Except.ok (q.supply elem).1, (q.supply elem).2) = answer
  rw [supply, hpassed]
  cases rest with
  | nil => exact Except.ok.inj h
  | cons s rest =>
    simp only [Checked.bind_eq_ok_iff] at h
    obtain ⟨holds, hholds, h⟩ := h
    cases Except.ok.inj h
    rw [List.head?_cons, Option.filter_some, Segment.contains_of_containsChecked hholds]

instance : CheckedSupplier SegmentQueue where
  supplyChecked := supplyChecked
  supply_of_supplyChecked := supply_of_supplyChecked

end SegmentQueue

/-! ## §3 The segment for an element -/

namespace Assembly

/-- Starts the assembly of a selection of an array. -/
def startChecked (shape : Shape) (elemSize : Nat) (selection : Selection) (source : σ) :
    Checked (Except GridError (Assembly σ)) := do
  match ← Plan.ofSelectionChecked shape elemSize selection 0 with
  | .ok plan => return .ok { cursor := ⟨plan, 0⟩, source }
  | .error fault => return .error (.invalid fault)

/-- A supplied segment is accepted when it holds the element and the bytes of all
its elements. -/
def acceptChecked (elemSize elem : Nat) (supplied : Option Segment) :
    Checked (Except GridError Segment) :=
  match supplied with
  | none => .ok (.error (.missingSegment elem))
  | some s => do
    if ← s.containsChecked elem then
      let expected ← .word (s.count * elemSize)
      return if s.data.length < expected then .error (.shortSegment s.first expected s.data.length)
        else .ok s
    else return .error (.missingSegment elem)

/-- The current segment, if it holds the element. -/
def keptChecked (a : Assembly σ) (elem : Nat) : Checked (Option Segment) :=
  match a.current with
  | none => .ok none
  | some s => do
    let holds ← s.containsChecked elem
    return if holds then some s else none

/-- The segment that an element is served from: the current one if it holds the
element, else what the supplier answers. -/
def coverChecked [CheckedSupplier σ] (a : Assembly σ) (elem : Nat) :
    Checked (Except GridError Segment × Assembly σ) := do
  match ← a.keptChecked elem with
  | some s => return (.ok s, a)
  | none =>
    let (answer, source) ← CheckedSupplier.supplyChecked a.source elem
    match answer with
    | .error e => return (.error e, { a with source })
    | .ok supplied =>
      match ← acceptChecked a.elemSize elem supplied with
      | .error e => return (.error e, { a with source })
      | .ok s => return (.ok s, { a with source, current := some s })

theorem accept_of_acceptChecked {elemSize elem : Nat} {supplied : Option Segment}
    {accepted : Except GridError Segment} (h : acceptChecked elemSize elem supplied = .ok accepted) :
    accept elemSize elem supplied = accepted := by
  cases supplied with
  | none => exact Except.ok.inj h
  | some s =>
    simp only [acceptChecked, Checked.bind_eq_ok_iff] at h
    obtain ⟨holds, hholds, h⟩ := h
    have hcontains := Segment.contains_of_containsChecked hholds
    unfold accept
    rw [Option.filter_some, hcontains]
    cases holds with
    | false => exact Except.ok.inj h
    | true =>
      simp only [if_true, Checked.bind_eq_ok_iff, Checked.word_eq_ok_iff] at h
      obtain ⟨expected, ⟨-, rfl⟩, h⟩ := h
      exact Except.ok.inj h

theorem kept_of_keptChecked {a : Assembly σ} {elem : Nat} {kept : Option Segment}
    (h : a.keptChecked elem = .ok kept) : a.current.filter (·.contains elem) = kept := by
  unfold keptChecked at h
  cases hcurrent : a.current with
  | none =>
    rw [hcurrent] at h
    exact Except.ok.inj h
  | some s =>
    simp only [hcurrent, Checked.bind_eq_ok_iff] at h
    obtain ⟨holds, hholds, h⟩ := h
    rw [Option.filter_some, Segment.contains_of_containsChecked hholds]
    exact Except.ok.inj h

/-- A machine looks for no other segment. -/
theorem cover_of_coverChecked [CheckedSupplier σ] {a : Assembly σ} {elem : Nat}
    {covered : Except GridError Segment × Assembly σ}
    (h : a.coverChecked elem = .ok covered) : a.cover elem = covered := by
  simp only [coverChecked, Checked.bind_eq_ok_iff] at h
  obtain ⟨kept, hkept, h⟩ := h
  unfold cover
  rw [kept_of_keptChecked hkept]
  cases kept with
  | some s => exact Except.ok.inj h
  | none =>
    simp only [Checked.bind_eq_ok_iff] at h
    obtain ⟨⟨answer, source⟩, hsupply, h⟩ := h
    simp only [CheckedSupplier.supply_of_supplyChecked hsupply]
    cases answer with
    | error e => exact Except.ok.inj h
    | ok supplied =>
      simp only [Checked.bind_eq_ok_iff] at h
      obtain ⟨accepted, haccepted, h⟩ := h
      have haccept := accept_of_acceptChecked haccepted
      simp only [elemSize] at haccept ⊢
      rw [haccept]
      cases accepted with
      | error e => exact Except.ok.inj h
      | ok s => exact Except.ok.inj h

/-! ## §4 One chunk after another -/

/-- The run to serve next. The storage element at which a whole one starts is found from the byte
at which its chunk starts. -/
def takeChecked (a : Assembly σ) : Checked (Option (Stretch × Assembly σ)) :=
  match a.pending with
  | some run => .ok (some (run, { a with pending := none }))
  | none => do
    match ← a.cursor.nextChecked with
    | none => return none
    | some (c, cursor) =>
      return c.storedPos.map fun pos => (⟨pos / a.elemSize, c.count, c.dest⟩, { a with cursor })

/-- Serves as much of a run as a segment holds, and keeps the rest. -/
def serveChecked (a : Assembly σ) (run : Stretch) (s : Segment) :
    Checked (Chunk × Assembly σ) := do
  let stop ← s.stopChecked
  let served := min run.count (stop - run.elem)
  let chunk : Chunk := {
    place := .decoded s.data (run.elem - s.first)
    count := served
    dest := run.dest
    elemSize := a.elemSize }
  if served < run.count then
    let elem ← .word (run.elem + served)
    let dest ← .word (run.dest + served)
    return (chunk, { a with pending := some ⟨elem, run.count - served, dest⟩ })
  else return (chunk, a)

/-- The next chunk, the failure that ends the assembly, or nothing more. -/
def nextChecked [CheckedSupplier σ] (a : Assembly σ) :
    Checked (Option (Except GridError Chunk) × Assembly σ) :=
  if a.failed then .ok (none, a)
  else do
    match ← a.takeChecked with
    | none => return (none, a)
    | some (run, a) =>
      match ← a.coverChecked run.elem with
      | (.error e, a) => return (some (.error e), { a with failed := true })
      | (.ok s, a) =>
        let (c, a) ← a.serveChecked run s
        return (some (.ok c), a)

theorem serve_of_serveChecked {a : Assembly σ} {run : Stretch} {s : Segment}
    {served : Chunk × Assembly σ} (h : a.serveChecked run s = .ok served) :
    a.serve run s = served := by
  simp only [serveChecked, Segment.stopChecked, Checked.bind_eq_ok_iff] at h
  obtain ⟨stop, hstop, h⟩ := h
  obtain ⟨-, rfl⟩ : _ ∧ s.stop = stop := Checked.word_eq_ok_iff.mp hstop
  unfold serve
  split at h
  · rename_i hmore
    simp only [Checked.bind_eq_ok_iff, Checked.word_eq_ok_iff] at h
    obtain ⟨elem, ⟨-, rfl⟩, dest, ⟨-, rfl⟩, h⟩ := h
    simp only [if_pos hmore]
    exact Except.ok.inj h
  · rename_i hall
    simp only [if_neg hall]
    exact Except.ok.inj h

/-- Where storage starts at byte zero, dividing the byte at which a chunk starts by the size of an
element gives the element. -/
theorem take_of_takeChecked {a : Assembly σ} {taken : Option (Stretch × Assembly σ)}
    (hstart : a.cursor.plan.dataStart = 0) (hsize : 0 < a.elemSize)
    (h : a.takeChecked = .ok taken) : a.take = taken := by
  unfold takeChecked at h
  unfold take
  cases hpending : a.pending with
  | some run =>
    rw [hpending] at h
    exact Except.ok.inj h
  | none =>
    simp only [hpending, Checked.bind_eq_ok_iff] at h
    obtain ⟨pulled, hpulled, h⟩ := h
    have hnext := PlanCursor.next_of_nextChecked hpulled
    unfold PlanCursor.next at hnext
    cases hstretch : a.cursor.nextStretch with
    | none =>
      rw [hstretch] at hnext
      cases hnext
      exact Except.ok.inj h
    | some pair =>
      obtain ⟨run, cursor⟩ := pair
      rw [hstretch] at hnext
      cases hnext
      -- the element is got back from its byte, since the array starts at the first one
      have helem : (a.cursor.plan.dataStart + run.elem * a.cursor.plan.elemSize) / a.elemSize =
          run.elem := by
        rw [hstart, Nat.zero_add, ← elemSize, Nat.mul_div_cancel _ hsize]
      have htaken := Except.ok.inj h
      simp only [Plan.stored, Chunk.storedPos, Option.map_some, helem] at htaken
      exact htaken

/-- A machine hands out no other chunk, and fails for no other reason. -/
theorem next_of_nextChecked [CheckedSupplier σ] {a : Assembly σ}
    {pulled : Option (Except GridError Chunk) × Assembly σ}
    (hstart : a.cursor.plan.dataStart = 0) (hsize : 0 < a.elemSize)
    (h : a.nextChecked = .ok pulled) : a.next = pulled := by
  unfold nextChecked at h
  unfold next
  split at h
  case isTrue hfailed =>
    rw [if_pos hfailed]
    exact Except.ok.inj h
  case isFalse hworking =>
    rw [if_neg hworking]
    simp only [Checked.bind_eq_ok_iff] at h
    obtain ⟨taken, htaken, h⟩ := h
    rw [take_of_takeChecked hstart hsize htaken]
    cases taken with
    | none => exact Except.ok.inj h
    | some taken =>
      obtain ⟨run, taken⟩ := taken
      simp only [Checked.bind_eq_ok_iff] at h
      obtain ⟨⟨answer, covered⟩, hcovered, h⟩ := h
      have hcover := cover_of_coverChecked hcovered
      cases answer with
      | error e =>
        simp only [hcover]
        exact Except.ok.inj h
      | ok s =>
        simp only [Checked.bind_eq_ok_iff] at h
        obtain ⟨⟨chunk, served⟩, hserved, h⟩ := h
        simp only [hcover, serve_of_serveChecked hserved]
        exact Except.ok.inj h

/-- Runs that are taken use up the plan, or are the rest of one that was split. -/
theorem takeChecked_facts {a after : Assembly σ} {run : Stretch}
    (h : a.takeChecked = .ok (some (run, after))) :
    after.pending = none ∧
      ((after.cursor = a.cursor ∧ a.pending = some run) ∨
        after.cursor.left < a.cursor.left) := by
  unfold takeChecked at h
  cases hpending : a.pending with
  | some rest =>
    rw [hpending] at h
    cases Except.ok.inj h
    exact ⟨rfl, .inl ⟨rfl, rfl⟩⟩
  | none =>
    simp only [hpending, Checked.bind_eq_ok_iff] at h
    obtain ⟨pulled, hpulled, h⟩ := h
    cases pulled with
    | none => cases Except.ok.inj h
    | some pulled =>
      obtain ⟨c, cursor⟩ := pulled
      obtain ⟨pos, -, hrun⟩ := Option.map_eq_some_iff.mp (Except.ok.inj h)
      cases hrun
      have := PlanCursor.left_next (PlanCursor.next_of_nextChecked hpulled)
      exact ⟨rfl, .inr (by simp only; omega)⟩

/-- A chunk handed out leaves less to do. -/
theorem left_nextChecked [CheckedSupplier σ] {a after : Assembly σ} {c : Chunk}
    (h : a.nextChecked = .ok (some (.ok c), after)) :
    Prod.Lex (· < ·) (· < ·) after.work a.work := by
  unfold nextChecked at h
  split at h
  · cases Except.ok.inj h
  · simp only [Checked.bind_eq_ok_iff] at h
    obtain ⟨taken, htaken, h⟩ := h
    cases taken with
    | none => cases Except.ok.inj h
    | some taken =>
      obtain ⟨run, taken⟩ := taken
      obtain ⟨hnone, hless⟩ := takeChecked_facts htaken
      simp only [Checked.bind_eq_ok_iff] at h
      obtain ⟨⟨answer, covered⟩, hcovered, h⟩ := h
      have hcover := cover_of_coverChecked hcovered
      cases answer with
      | error e => cases Except.ok.inj h
      | ok s =>
        simp only [Checked.bind_eq_ok_iff] at h
        obtain ⟨⟨chunk, served⟩, hserved, h⟩ := h
        cases Except.ok.inj h
        have hcursor := cursor_cover taken run.elem
        simp only [hcover] at hcursor
        obtain ⟨hc, hp⟩ := serve_facts covered run s (contains_of_cover hcover)
          (hcursor.2.trans hnone)
        rw [serve_of_serveChecked hserved] at hc hp
        simp only at hc hp
        simp only [work, hc, hcursor.1]
        -- the rest of a split run shrinks, or a whole run is used up
        rcases hless with ⟨hsame, hrun⟩ | hless
        · rw [hsame, hrun]
          exact Prod.Lex.right _ hp
        · exact Prod.Lex.left _ _ hless

/-! ## §5 All chunks -/

/-- Puts the bytes of all chunks still to come into their places. -/
def fillChecked [CheckedSupplier σ] (a : Assembly σ) (dest : Array UInt8) :
    Checked (Except GridError Bytes) :=
  match h : a.nextChecked with
  | .error p => .error p
  | .ok (none, _) => .ok (.ok dest.toList)
  | .ok (some (.error e), _) => .ok (.error e)
  | .ok (some (.ok c), after) =>
    have := left_nextChecked h
    match c.viewChecked with
    | .error p => .error p
    | .ok none => .ok (.error .misplacedChunk)
    | .ok (some v) =>
      match c.destChecked with
      | .error p => .error p
      | .ok (start, stop) =>
        match Bytes.putChecked dest start stop v.bytes with
        | .error p => .error p
        | .ok filled => fillChecked after filled
termination_by a.work
decreasing_by assumption

/-- The bytes of the selected elements, in row-by-row order. -/
def runChecked [CheckedSupplier σ] (a : Assembly σ) : Checked (Except GridError Bytes) := do
  let size ← .word (a.total * a.elemSize)
  .buffer size
  a.fillChecked (Array.replicate size 0)

end Assembly

end Granule
