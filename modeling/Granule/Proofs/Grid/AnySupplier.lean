import Granule.Proofs.Grid.Alike
import Granule.Proofs.Grid.Scatter

/-!
# Assembly from Any Supplier

Nothing is assumed of a supplier: it may fail, have no answer, answer with a
segment that does not hold the element or has too few bytes, with segments that
overlap or go backwards, and answer the same question differently each time. An
assembly is safe all the same. It takes a segment only if that holds the element
and all its bytes, and it hands out the selected elements in turn, so each chunk
continues the one before it and lies in the segment accepted last.

To speak of what a supplier was asked and answered, it is watched: a `Watched`
supplier answers as the supplier itself does, and keeps a log.

**Main statements**:
- `Assembly.Underway.pull` : what one pull does, whatever the supplier answers
- `Assembly.Underway.safeRun` : what all pulls and a whole run do
-/

namespace Granule

/-! ## §1 Watched suppliers -/

/-- A supplier, and what it was asked for and answered so far. -/
structure Watched (σ : Type) where
  source : σ
  log : List (Nat × Except GridError (Option Segment)) := []

variable {σ : Type}

instance [SegmentSupplier σ] : SegmentSupplier (Watched σ) where
  supply w elem :=
    let (answer, source) := SegmentSupplier.supply w.source elem
    (answer, ⟨source, w.log ++ [(elem, answer)]⟩)

namespace Watched

theorem supply_eq [SegmentSupplier σ] (w : Watched σ) (elem : Nat) :
    SegmentSupplier.supply w elem = ((SegmentSupplier.supply w.source elem).1,
      ⟨(SegmentSupplier.supply w.source elem).2,
        w.log ++ [(elem, (SegmentSupplier.supply w.source elem).1)]⟩) := rfl

def asked (w : Watched σ) : List Nat := w.log.map Prod.fst

/-- The segments that were accepted. -/
def accepted (elemSize : Nat) (w : Watched σ) : List Segment :=
  w.log.filterMap fun (elem, answer) =>
    match answer with
    | .ok supplied => (Assembly.accept elemSize elem supplied).toOption
    | .error _ => none

end Watched

/-- The chunks that are left have the same number of elements each. -/
theorem PlanCursor.length_elems (c : PlanCursor) : c.elems.length = c.left * c.plan.perChunk := by
  simp [elems, Stretch.elems, Plan.stretch, List.length_flatMap]

namespace Assembly

/-- The assembly as it is when nobody watches its supplier. -/
def unwatch (a : Assembly (Watched σ)) : Assembly σ :=
  { cursor := a.cursor, source := a.source.source, current := a.current, pending := a.pending,
    failed := a.failed }

def after [SegmentSupplier σ] (a : Assembly σ) (k : Nat) : Assembly σ := (fun a => a.next.2)^[k] a

def pulled [SegmentSupplier σ] (a : Assembly σ) (k : Nat) : Option (Except GridError Chunk) :=
  (a.after k).next.1

def countOf : Option (Except GridError Chunk) → Nat
  | some (.ok c) => c.count
  | _ => 0

def handed [SegmentSupplier σ] (a : Assembly σ) (k : Nat) : Nat :=
  ((List.range k).map fun i => countOf (a.pulled i)).sum

/-! Watching changes nothing that an assembly does. -/

variable [SegmentSupplier σ]

theorem next_unwatch (a : Assembly (Watched σ)) :
    a.unwatch.next = (a.next.1, a.next.2.unwatch) := by
  obtain ⟨source, hnext, rfl⟩ := next_withSource
    (fun (watched : Watched σ) source => watched.source = source) (a := a) rfl
    fun _ _ _ => ⟨rfl, rfl⟩
  exact hnext

/-- Watching changes no pull. -/
theorem after_unwatch (a : Assembly (Watched σ)) (k : Nat) :
    a.unwatch.after k = (a.after k).unwatch := by
  induction k generalizing a with
  | zero => rfl
  | succ k ih =>
    rw [after, Function.iterate_succ_apply, ← after, next_unwatch, ih]
    rfl

theorem pulled_unwatch (a : Assembly (Watched σ)) (k : Nat) :
    a.unwatch.pulled k = a.pulled k := by
  rw [pulled, after_unwatch, next_unwatch]
  rfl

theorem collect_unwatch (a : Assembly (Watched σ)) (hand : Array UInt8) :
    a.unwatch.collect hand = a.collect hand :=
  collect_withSource (fun a source => a.source.source = source)
    (fun a _ h => ⟨_, h ▸ next_unwatch a, fun _ _ => rfl⟩) rfl hand

/-! ## §2 The segment for an element -/

/-- The element is asked for, and this is the answer; the segment accepted last, if any, does not
hold the element. -/
structure Asks (elemSize : Nat) (before after : Watched σ) (elem : Nat)
    (answer : Except GridError (Option Segment)) : Prop where
  log_eq : after.log = before.log ++ [(elem, answer)]
  needed : ∀ s, (before.accepted elemSize).getLast? = some s → ¬ s.contains elem

/-- The answer ends the assembly with this failure: it is that failure, or it is not accepted. -/
def Refused (elemSize elem : Nat) (answer : Except GridError (Option Segment)) (e : GridError) :
    Prop :=
  answer = .error e ∨ ∃ supplied, answer = .ok supplied ∧ accept elemSize elem supplied = .error e

/-- What looking for the segment of an element can do. -/
inductive Covers (a : Assembly (Watched σ)) (elem : Nat) :
    Except GridError Segment → Assembly (Watched σ) → Prop
  /-- The segment accepted last holds the element. -/
  | kept {s : Segment} (h : a.current = some s) (hcontains : s.contains elem) :
      Covers a elem (.ok s) a
  /-- The answer is accepted. -/
  | accepted {s : Segment} {supplied : Option Segment} {source : Watched σ}
      (hasks : Asks a.elemSize a.source source elem (.ok supplied))
      (haccept : accept a.elemSize elem supplied = .ok s) :
      Covers a elem (.ok s) { a with source, current := some s }
  /-- The supplier failed, or its answer is refused. -/
  | refused {e : GridError} {answer : Except GridError (Option Segment)} {source : Watched σ}
      (hasks : Asks a.elemSize a.source source elem answer)
      (hrefused : Refused a.elemSize elem answer e) :
      Covers a elem (.error e) { a with source }

/-- Looking for a segment goes one of the three ways. -/
theorem covers {a : Assembly (Watched σ)}
    (hcurrent : a.current = (a.source.accepted a.elemSize).getLast?) (elem : Nat) :
    Covers a elem (a.cover elem).1 (a.cover elem).2 := by
  unfold cover
  cases hreuse : a.current.filter (·.contains elem) with
  | some s =>
    obtain ⟨hs, hcontains⟩ := Option.filter_eq_some_iff.mp hreuse
    exact .kept hs hcontains
  | none =>
    -- the last segment accepted is the current one, and it does not cover the element
    have hneeded : ∀ s, (a.source.accepted a.elemSize).getLast? = some s → ¬ s.contains elem := by
      intro s hs hcontains
      rw [hcurrent, hs, Option.filter_some, if_pos hcontains] at hreuse
      cases hreuse
    simp only [Watched.supply_eq]
    cases hanswer : (SegmentSupplier.supply a.source.source elem).1 with
    | error e => exact .refused ⟨rfl, hneeded⟩ (.inl rfl)
    | ok supplied =>
      cases haccept : accept a.cursor.plan.elemSize elem supplied with
      | error e =>
        simp only [Assembly.elemSize, haccept]
        exact .refused ⟨rfl, hneeded⟩ (.inr ⟨supplied, rfl, haccept⟩)
      | ok s =>
        simp only [Assembly.elemSize, haccept]
        exact .accepted ⟨rfl, hneeded⟩ haccept

omit [SegmentSupplier σ] in
/-- Once an answer is accepted, its segment is the one accepted last. -/
theorem Asks.accepted_eq {elemSize elem : Nat} {before after : Watched σ}
    {supplied : Option Segment} {s : Segment} (h : Asks elemSize before after elem (.ok supplied))
    (haccept : accept elemSize elem supplied = .ok s) :
    after.accepted elemSize = before.accepted elemSize ++ [s] := by
  simp [Watched.accepted, h.log_eq, haccept, Except.toOption]

omit [SegmentSupplier σ] in
theorem Asks.asked_eq {elemSize elem : Nat} {before after : Watched σ}
    {answer : Except GridError (Option Segment)} (h : Asks elemSize before after elem answer) :
    after.asked = before.asked ++ [elem] := by
  simp [Watched.asked, h.log_eq]

omit [SegmentSupplier σ] in
/-- An accepted segment has the bytes of all its elements. -/
theorem length_of_accepted {elemSize : Nat} {w : Watched σ} {s : Segment}
    (h : s ∈ w.accepted elemSize) : s.count * elemSize ≤ s.data.length := by
  obtain ⟨⟨elem, answer⟩, -, hs⟩ := List.mem_filterMap.mp h
  cases answer with
  | error e => cases hs
  | ok supplied =>
    cases haccept : accept elemSize elem supplied with
    | error e => simp [haccept, Except.toOption] at hs
    | ok t =>
      simp only [haccept, Except.toOption, Option.some.injEq] at hs
      exact (hs ▸ contains_of_accept haccept).2

/-! ## §3 One pull -/

/-- A chunk hands out the selected elements from number `done` on, from this segment. -/
structure Serves (selection : Selection) (shape : Shape) (elemSize : Nat) (s : Segment)
    (done : Nat) (c : Chunk) : Prop where
  dest_eq : c.dest = done
  count_pos : 0 < c.count
  inside : done + c.count ≤ selection.size
  /-- The elements are neighbours in storage. -/
  elems : ∀ i < c.count,
    selection.storageElem shape (done + i) = selection.storageElem shape done + i
  held : s.first ≤ selection.storageElem shape done
  place_eq : c.place = .decoded s.data (selection.storageElem shape done - s.first)
  /-- The buffer has all the bytes. -/
  view_eq : ∃ bytes, bytes.length = c.count * elemSize ∧ c.view = some ⟨bytes, elemSize⟩ ∧
    s.data.HasAt ((selection.storageElem shape done - s.first) * elemSize) bytes

/-- Where an assembly stands that has handed out `done` elements. -/
structure Underway (selection : Selection) (shape : Shape) (plan : Plan) (done : Nat)
    (a : Assembly (Watched σ)) : Prop extends a.Steady where
  plan_eq : a.cursor.plan = plan
  working : a.failed = false
  todo_eq : a.todo = (selection.elems shape).drop done
  done_le : done ≤ selection.size
  placed : ∀ run, a.pending = some run → run.dest = done
  current_eq : a.current = (a.source.accepted plan.elemSize).getLast?
  /-- What is left comes behind what was asked for. -/
  ordered : (a.source.asked ++ a.todo).Pairwise (· < ·)

omit [SegmentSupplier σ] in
/-- The run that is served next goes where the chunks so far end. -/
theorem Underway.dest_eq {shape : Shape} {elemSize : Nat} {selection : Selection} {plan : Plan}
    (hplan : Plan.ofSelection shape elemSize selection 0 = .ok plan) {done : Nat}
    {a taken : Assembly (Watched σ)} (h : Underway selection shape plan done a) {run : Stretch}
    (htake : a.take = some (run, taken)) : run.dest = done := by
  unfold take at htake
  cases hpending : a.pending with
  | some rest =>
    rw [hpending] at htake
    cases htake
    exact h.placed run hpending
  | none =>
    -- the chunks that are left have as many elements as are left of the selection
    have hlength := congrArg List.length h.todo_eq
    rw [todo, hpending, Option.elim_none, List.nil_append, PlanCursor.length_elems,
      List.length_drop, Selection.length_elems, PlanCursor.left, h.plan_eq, Nat.sub_mul,
      Plan.chunkCount_mul_perChunk hplan] at hlength
    simp only [hpending, PlanCursor.nextStretch] at htake
    split at htake
    · rename_i hnext
      split at hnext
      · rename_i hmore
        cases hnext
        cases htake
        have hle : a.cursor.odometer.pulled * plan.perChunk ≤ plan.chunkCount * plan.perChunk :=
          Nat.mul_le_mul_right _ (h.plan_eq ▸ (of_decide_eq_true hmore).le)
        rw [Plan.chunkCount_mul_perChunk hplan] at hle
        have hdone := h.done_le
        show a.cursor.odometer.pulled * a.cursor.plan.perChunk = done
        rw [h.plan_eq]
        omega
      · cases hnext
    · cases htake

omit [SegmentSupplier σ] in
/-- A segment that was found holds the element, has all its bytes, and was accepted last. -/
theorem Covers.of_ok {a after : Assembly (Watched σ)} {elem : Nat} {s : Segment}
    (hcurrent : a.current = (a.source.accepted a.elemSize).getLast?)
    (h : Covers a elem (.ok s) after) :
    ∃ source, after = { a with source, current := some s } ∧ s.contains elem ∧
      (source.accepted a.elemSize).getLast? = some s ∧
      (source.log = a.source.log ∨
        ∃ supplied, Asks a.elemSize a.source source elem (.ok supplied)) := by
  cases h with
  | kept hs hcontains =>
    refine ⟨a.source, ?_, hcontains, hcurrent ▸ hs, .inl rfl⟩
    rw [← hs]
  | accepted hasks haccept =>
    refine ⟨_, rfl, (contains_of_accept haccept).1, ?_, .inr ⟨_, hasks⟩⟩
    rw [hasks.accepted_eq haccept, List.getLast?_concat]

/-- The chunk that is served from a segment with all its bytes serves the elements that come
first. -/
theorem serves_of_todo {shape : Shape} {selection : Selection} {elemSize done n : Nat}
    {s : Segment} {elem : Nat} {rest : List Nat} (hn : 0 < n)
    (htodo : (selection.elems shape).drop done = List.range' elem n ++ rest)
    (hfirst : s.first ≤ elem) (hstop : elem + n ≤ s.stop)
    (hlong : s.count * elemSize ≤ s.data.length) :
    Serves selection shape elemSize s done ⟨.decoded s.data (elem - s.first), n, done, elemSize⟩ := by
  have hlength := congrArg List.length htodo
  rw [List.length_drop, Selection.length_elems, List.length_append, List.length_range'] at hlength
  -- the walk has no gap for as long as the run goes on
  have helem : ∀ i < n, selection.storageElem shape (done + i) = elem + i := by
    intro i hi
    have hget : (selection.elems shape)[done + i]? = some (elem + i) := by
      rw [← List.getElem?_drop, htodo, List.getElem?_append_left (by simpa using hi),
        List.getElem?_range' hi, Nat.one_mul]
    obtain ⟨hin, hget⟩ := List.getElem?_eq_some_iff.mp hget
    rwa [Selection.getElem_elems] at hget
  have hstart : selection.storageElem shape done = elem := helem 0 hn
  -- the segment is long enough for all that it is asked for
  have hroom : (elem - s.first) * elemSize + n * elemSize ≤ s.data.length := by
    refine le_trans ?_ hlong
    rw [← Nat.add_mul]
    rw [Segment.stop] at hstop
    exact Nat.mul_le_mul_right _ (by omega)
  refine ⟨rfl, hn, ?_, fun i hi => ?_, ?_, ?_, ?_⟩
  · show done + n ≤ selection.size
    omega
  · rw [helem i hi, hstart]
  · rwa [hstart]
  · rw [hstart]
  · rw [hstart]
    have hslice : s.data.slice? ((elem - s.first) * elemSize) (n * elemSize) =
        some ((s.data.drop ((elem - s.first) * elemSize)).take (n * elemSize)) := if_pos hroom
    refine ⟨_, Bytes.length_of_slice? hslice, ?_, List.take_prefix _ _⟩
    exact congrArg (Option.map _) hslice

/-- What a pull can do when `done` elements have been handed out. -/
inductive Pulls (selection : Selection) (shape : Shape) (plan : Plan) (elemSize done : Nat)
    (a : Assembly (Watched σ)) : Option (Except GridError Chunk) → Assembly (Watched σ) → Prop
  /-- All elements have been handed out. -/
  | finished (h : done = selection.size) : Pulls selection shape plan elemSize done a none a
  /-- A failure was reported before. -/
  | stopped (h : a.failed = true) : Pulls selection shape plan elemSize done a none a
  /-- An element is asked for, and the answer is a failure or not accepted. -/
  | failed {e : GridError} {elem : Nat} {answer : Except GridError (Option Segment)}
      {after : Assembly (Watched σ)} (hfailed : after.failed = true)
      (hasks : Asks elemSize a.source after.source elem answer)
      (hrefused : Refused elemSize elem answer e)
      (hordered : after.source.asked.Pairwise (· < ·)) :
      Pulls selection shape plan elemSize done a (some (.error e)) after
  /-- The next elements are handed out from the segment accepted last. -/
  | chunk {c : Chunk} {s : Segment} {after : Assembly (Watched σ)}
      (hafter : Underway selection shape plan (done + c.count) after)
      (hlast : (after.source.accepted elemSize).getLast? = some s)
      (hserves : Serves selection shape elemSize s done c)
      (hasked : after.source.log = a.source.log ∨
        ∃ elem answer, Asks elemSize a.source after.source elem answer) :
      Pulls selection shape plan elemSize done a (some (.ok c)) after

/-- **One pull.** Whatever the supplier answers, a pull of an assembly under way is of one of the
kinds. -/
theorem Underway.pull {shape : Shape} {elemSize : Nat} {selection : Selection} {plan : Plan}
    (hplan : Plan.ofSelection shape elemSize selection 0 = .ok plan) {done : Nat}
    {a : Assembly (Watched σ)} (h : Underway selection shape plan done a) :
    Pulls selection shape plan elemSize done a a.next.1 a.next.2 := by
  have hwidth : plan.elemSize = elemSize := Plan.elemSize_eq hplan
  rcases h.toSteady.next_cases h.working with
    ⟨hdone, hnext⟩ | ⟨run, cursor, htake, hsame, hrun, htodo, hsteady, hnext⟩
  · -- nothing is left, so all has been handed out
    have hlength := congrArg List.length h.todo_eq
    rw [hdone, List.length_nil, List.length_drop, Selection.length_elems] at hlength
    have hle := h.done_le
    rw [hnext]
    exact .finished (by omega)
  have hdest := h.dest_eq hplan htake
  set taken : Assembly (Watched σ) := { a with cursor, pending := none } with htaken
  have hsize : taken.elemSize = elemSize := by
    rw [← hwidth, ← h.plan_eq]
    exact congrArg Plan.elemSize hsame
  have hcurrent : taken.current = (taken.source.accepted taken.elemSize).getLast? := by
    rw [hsize, ← hwidth]
    exact h.current_eq
  have hfront : run.elem ∈ a.todo := by
    rw [htodo, Stretch.elems_eq_cons hrun]
    exact List.mem_cons_self
  have hcovers := covers hcurrent run.elem
  rcases hcover : taken.cover run.elem with ⟨e | s, covered⟩
  · rw [hcover] at hcovers hnext
    cases hcovers with
    | refused hasks hrefused =>
      rw [hsize] at hasks hrefused
      rw [hnext]
      refine .failed rfl hasks hrefused ?_
      rw [hasks.asked_eq]
      exact h.ordered.sublist ((List.singleton_sublist.mpr hfront).append_left _)
  · rw [hcover] at hcovers hnext
    obtain ⟨source, rfl, hcontains, hlast, hasked⟩ := hcovers.of_ok hcurrent
    have hcovered : Steady { taken with source, current := some s } :=
      ⟨hsteady.inStep, hsteady.whole, hsteady.rest⟩
    obtain ⟨n, pending, hn, hstop, hrest, hserve, hafter, hparts⟩ := hcovered.serve rfl hrun hcontains
    simp only [hserve] at hnext
    have hsplit := htodo.trans hparts
    rw [hsize] at hlast hasked
    have hserves := serves_of_todo hn (h.todo_eq.symm.trans hsplit)
      (Segment.contains_iff.mp hcontains).1 hstop (length_of_accepted (List.mem_of_getLast? hlast))
    -- what was asked for by now comes before what is left, as the element that was served first does
    have hordered : (source.asked ++ todo { taken with source, current := some s, pending }).Pairwise
        (· < ·) := by
      refine h.ordered.sublist ?_
      rw [hsplit]
      rcases hasked with hsame | ⟨supplied, hasks⟩
      · rw [show source.asked = a.source.asked from congrArg (List.map Prod.fst) hsame]
        exact (List.sublist_append_right _ _).append_left _
      · rw [hasks.asked_eq, List.append_assoc]
        refine List.Sublist.append_left (List.Sublist.append_right ?_ _) _
        rw [List.singleton_sublist, List.mem_range'_1]
        omega
    rw [hnext]
    refine .chunk ?underway hlast ?serves ?asked
    case serves =>
      show Serves selection shape elemSize s done ⟨_, n, run.dest, taken.elemSize⟩
      rwa [hdest, hsize]
    case asked => exact hasked.imp_right fun ⟨supplied, hasks⟩ => ⟨_, _, hasks⟩
    case underway =>
      refine ⟨hafter, hsame.trans h.plan_eq, h.working, ?_, hserves.inside, ?_, ?_, hordered⟩
      · rw [← List.drop_drop, ← h.todo_eq, hsplit, List.drop_left' List.length_range']
      · intro rest hpending
        rw [hrest rest hpending, hdest]
      · rw [hwidth]
        exact hlast.symm

/-! ## §4 All pulls -/

section Pulls

variable {shape : Shape} {elemSize : Nat} {selection : Selection} {plan : Plan} {done : Nat}
  {a : Assembly (Watched σ)}

omit [SegmentSupplier σ] in
theorem underway_start (hfits : selection.Fits shape)
    (hplan : Plan.ofSelection shape elemSize selection 0 = .ok plan) (source : σ) :
    Underway selection shape plan 0 { cursor := ⟨plan, 0⟩, source := (⟨source, []⟩ : Watched σ) } where
  inStep := PlanCursor.inStep_zero plan
  whole := Plan.perChunk_pos hplan
  rest := nofun
  plan_eq := rfl
  working := rfl
  todo_eq := todo_start hplan _
  done_le := Nat.zero_le _
  placed := nofun
  current_eq := rfl
  ordered := by
    rw [todo_start hplan]
    exact Selection.pairwise_elems hfits

/-- An assembly is under way, or has reported a failure. -/
def Standing (selection : Selection) (shape : Shape) (plan : Plan) (done : Nat)
    (a : Assembly (Watched σ)) : Prop :=
  Underway selection shape plan done a ∨ a.failed = true ∧ a.source.asked.Pairwise (· < ·)

theorem Standing.pull (hplan : Plan.ofSelection shape elemSize selection 0 = .ok plan)
    (h : Standing selection shape plan done a) :
    Pulls selection shape plan elemSize done a a.next.1 a.next.2 := by
  rcases h with hunder | ⟨hfailed, -⟩
  · exact hunder.pull hplan
  · have hnext : a.next = (none, a) := if_pos hfailed
    rw [hnext]
    exact .stopped hfailed

theorem Standing.next (hplan : Plan.ofSelection shape elemSize selection 0 = .ok plan)
    (h : Standing selection shape plan done a) :
    Standing selection shape plan (done + countOf a.next.1) a.next.2 := by
  have hpull := h.pull hplan
  generalize a.next = result at hpull
  obtain ⟨answer, after⟩ := result
  cases hpull with
  | finished => exact h
  | stopped => exact h
  | failed hfailed _ _ hordered => exact .inr ⟨hfailed, hordered⟩
  | chunk hafter => exact .inl hafter

theorem after_succ (a : Assembly (Watched σ)) (k : Nat) : a.after (k + 1) = (a.after k).next.2 :=
  Function.iterate_succ_apply' _ _ _

theorem handed_succ (a : Assembly (Watched σ)) (k : Nat) :
    a.handed (k + 1) = a.handed k + countOf (a.pulled k) := by
  simp [handed, List.range_succ]

theorem Standing.after (hplan : Plan.ofSelection shape elemSize selection 0 = .ok plan)
    (h : Standing selection shape plan 0 a) (k : Nat) :
    Standing selection shape plan (a.handed k) (a.after k) := by
  induction k with
  | zero => exact h
  | succ k ih =>
    rw [after_succ, handed_succ]
    exact ih.next hplan

/-- **Every pull** of an assembly is of one of the kinds. -/
theorem Standing.pulls (hplan : Plan.ofSelection shape elemSize selection 0 = .ok plan)
    (h : Standing selection shape plan 0 a) (k : Nat) :
    Pulls selection shape plan elemSize (a.handed k) (a.after k) (a.pulled k) (a.after (k + 1)) := by
  rw [after_succ]
  exact (h.after hplan k).pull hplan

/-- After a pull that gives no chunk, the next one gives nothing. -/
theorem Standing.pulled_succ (hplan : Plan.ofSelection shape elemSize selection 0 = .ok plan)
    (h : Standing selection shape plan 0 a) {k : Nat} (hk : ∀ c, a.pulled k ≠ some (.ok c)) :
    a.pulled (k + 1) = none := by
  have hpull := h.pulls hplan k
  generalize hanswer : a.pulled k = answer at hpull hk
  generalize hnext : a.after (k + 1) = next at hpull
  cases hpull with
  | finished =>
    rw [pulled, hnext]
    exact hanswer
  | stopped =>
    rw [pulled, hnext]
    exact hanswer
  | failed hfailed =>
    rw [pulled, hnext, Assembly.next, if_pos hfailed]
  | chunk => exact absurd rfl (hk _)

theorem Standing.pulled_eq_none (hplan : Plan.ofSelection shape elemSize selection 0 = .ok plan)
    (h : Standing selection shape plan 0 a) {last : Nat}
    (hlast : ∀ c, a.pulled last ≠ some (.ok c)) {k : Nat} (hk : last < k) : a.pulled k = none := by
  obtain ⟨j, rfl⟩ := Nat.exists_eq_add_of_lt hk
  induction j with
  | zero => exact h.pulled_succ hplan hlast
  | succ j ih =>
    refine h.pulled_succ hplan fun c => ?_
    rw [← Nat.add_assoc, ih (by omega)]
    exact nofun

/-- As long as pulls give chunks, the assembly is under way, and each has handed out something. -/
theorem Underway.after_chunks (hplan : Plan.ofSelection shape elemSize selection 0 = .ok plan)
    (h : Underway selection shape plan 0 a) {m : Nat}
    (hchunks : ∀ k < m, ∃ c, a.pulled k = some (.ok c)) :
    Underway selection shape plan (a.handed m) (a.after m) ∧ m ≤ a.handed m := by
  induction m with
  | zero => exact ⟨h, Nat.zero_le _⟩
  | succ m ih =>
    obtain ⟨hunder, hle⟩ := ih fun k hk => hchunks k (Nat.lt_succ_of_lt hk)
    obtain ⟨c, hc⟩ := hchunks m (Nat.lt_succ_self m)
    have hpull := hunder.pull hplan
    rw [show (a.after m).next.1 = some (.ok c) from hc, ← after_succ] at hpull
    cases hpull with
    | chunk hafter _ hserves =>
      have hpos := hserves.count_pos
      rw [handed_succ, hc]
      exact ⟨hafter, by simp only [countOf]; omega⟩

/-- **The end.** There are at most as many chunks as elements. Then a pull gives nothing, when all
elements have been handed out, or a failure; and from then on nothing is given. -/
theorem Underway.ends (hplan : Plan.ofSelection shape elemSize selection 0 = .ok plan)
    (h : Underway selection shape plan 0 a) :
    ∃ last ≤ selection.size, (∀ k < last, ∃ c, a.pulled k = some (.ok c)) ∧
      (a.pulled last = none ∧ a.handed last = selection.size ∨
        ∃ e, a.pulled last = some (.error e)) ∧
      ∀ k > last, a.pulled k = none := by
  -- not all of so many pulls can give a chunk, so there is a first one that does not
  have hsome : ∃ k, ¬ ∃ c, a.pulled k = some (.ok c) := by
    by_contra hall
    push Not at hall
    obtain ⟨hunder, hle⟩ :=
      h.after_chunks hplan fun k (_ : k < selection.size + 1) => hall k
    have := hunder.done_le
    omega
  classical
  have hchunks : ∀ k < Nat.find hsome, ∃ c, a.pulled k = some (.ok c) :=
    fun k hk => not_not.mp (Nat.find_min hsome hk)
  have hlast : ∀ c, a.pulled (Nat.find hsome) ≠ some (.ok c) :=
    fun c hc => Nat.find_spec hsome ⟨c, hc⟩
  obtain ⟨hunder, hle⟩ := h.after_chunks hplan hchunks
  refine ⟨Nat.find hsome, hle.trans hunder.done_le, hchunks, ?_,
    fun k hk => Standing.pulled_eq_none hplan (.inl h) hlast hk⟩
  have hpull := hunder.pull hplan
  rw [show (a.after (Nat.find hsome)).next.1 = a.pulled (Nat.find hsome) from rfl] at hpull
  generalize a.pulled (Nat.find hsome) = answer at hpull hlast ⊢
  generalize (a.after (Nat.find hsome)).next.2 = next at hpull
  cases hpull with
  | finished hdone => exact .inl ⟨rfl, hdone⟩
  | stopped hfailed =>
    rw [hunder.working] at hfailed
    cases hfailed
  | failed => exact .inr ⟨_, rfl⟩
  | chunk => exact absurd rfl (hlast _)

/-- An assembly fails only where a pull does. -/
theorem Underway.exists_of_collect_error
    (hplan : Plan.ofSelection shape elemSize selection 0 = .ok plan) {done : Nat}
    {a : Assembly (Watched σ)} (h : Underway selection shape plan done a) {hand : Array UInt8}
    {e : GridError} (herror : a.collect hand = .error e) : ∃ k, a.pulled k = some (.error e) := by
  have hpull := h.pull hplan
  rcases hnext : a.next with ⟨answer, after⟩
  rw [hnext] at hpull
  cases hpull with
  | finished => rw [collect_of_done (by rw [hnext])] at herror; cases herror
  | stopped => rw [collect_of_done (by rw [hnext])] at herror; cases herror
  | @failed e' =>
    have hfirst : a.next.1 = some (.error e') := by rw [hnext]
    rw [collect_of_error hfirst] at herror
    cases herror
    exact ⟨0, hfirst⟩
  | chunk hafter _ hserves =>
    obtain ⟨bytes, -, hview, -⟩ := hserves.view_eq
    rw [collect_of_chunk hnext hview] at herror
    -- the error comes in a later pull, one further from here
    obtain ⟨k, hk⟩ := hafter.exists_of_collect_error hplan herror
    refine ⟨k + 1, ?_⟩
    rw [pulled, Assembly.after, Function.iterate_succ_apply, hnext]
    exact hk
termination_by a.work
decreasing_by exact left_next hnext

end Pulls

/-! ## §5 Safety -/

/-- What holds of all pulls of an assembly, and of its run. -/
structure SafeRun (selection : Selection) (shape : Shape) (elemSize : Nat)
    (a : Assembly (Watched σ)) : Prop where
  /-- Each chunk hands out the elements that come next, from the segment accepted last. -/
  chunks : ∀ k c, a.pulled k = some (.ok c) → ∃ s,
    ((a.after (k + 1)).source.accepted elemSize).getLast? = some s ∧
      Serves selection shape elemSize s (a.handed k) c
  /-- The elements that are asked for increase. -/
  asked : ∀ k, (a.after k).source.asked.Pairwise (· < ·)
  /-- A pull asks for one element at most, which the segment accepted last does not hold. -/
  needed : ∀ k, (a.after (k + 1)).source.log = (a.after k).source.log ∨
    ∃ elem answer, Asks elemSize (a.after k).source (a.after (k + 1)).source elem answer
  /-- A failure is the last answer, or says why that was not accepted. -/
  failures : ∀ k e, a.pulled k = some (.error e) → ∃ elem answer,
    Asks elemSize (a.after k).source (a.after (k + 1)).source elem answer ∧
      Refused elemSize elem answer e
  /-- Chunks come first, then the end with all elements handed out, or a failure; then nothing. -/
  ends : ∃ last ≤ selection.size, (∀ k < last, ∃ c, a.pulled k = some (.ok c)) ∧
    (a.pulled last = none ∧ a.handed last = selection.size ∨
      ∃ e, a.pulled last = some (.error e)) ∧
    ∀ k > last, a.pulled k = none
  /-- A run fails as one of its pulls does. -/
  fails : ∀ e, a.run = .error e → ∃ k, a.pulled k = some (.error e)
  /-- No chunk lacks a view, so that failure is one that the supplier answered with. -/
  viewed : a.run = .error .misplacedChunk →
    ∃ k elem, (elem, .error .misplacedChunk) ∈ (a.after k).source.log

/-- A refusal names what a segment lacks, so a misplaced chunk is the supplier's own failure. -/
theorem Refused.answer_eq {elemSize elem : Nat} {answer : Except GridError (Option Segment)}
    (h : Refused elemSize elem answer .misplacedChunk) : answer = .error .misplacedChunk := by
  rcases h with rfl | ⟨supplied, -, haccept⟩
  · rfl
  · unfold accept at haccept
    split at haccept
    · cases haccept
    · split at haccept <;> cases haccept

theorem Underway.safeRun {shape : Shape} {elemSize : Nat} {selection : Selection} {plan : Plan}
    (hplan : Plan.ofSelection shape elemSize selection 0 = .ok plan) {a : Assembly (Watched σ)}
    (h : Underway selection shape plan 0 a) : a.SafeRun selection shape elemSize := by
  have hpulls := Standing.pulls hplan (.inl h)
  -- a failure is what an answer was refused with, whatever pull it came from
  have hfailures : ∀ k e, a.pulled k = some (.error e) → ∃ elem answer,
      Asks elemSize (a.after k).source (a.after (k + 1)).source elem answer ∧
        Refused elemSize elem answer e := by
    intro k e herror
    have hpull := hpulls k
    rw [herror] at hpull
    cases hpull with
    | failed _ hasks hrefused => exact ⟨_, _, hasks, hrefused⟩
  have hfails : ∀ e, a.run = .error e → ∃ k, a.pulled k = some (.error e) :=
    fun _ hrun => h.exists_of_collect_error hplan hrun
  refine ⟨?chunks, ?asked, ?needed, hfailures, h.ends hplan, hfails, ?viewed⟩
  case chunks =>
    intro k c hchunk
    have hpull := hpulls k
    rw [hchunk] at hpull
    cases hpull with
    | chunk _ hlast hserves => exact ⟨_, hlast, hserves⟩
  case asked =>
    intro k
    rcases Standing.after hplan (.inl h) k with hunder | ⟨-, hordered⟩
    · exact (List.pairwise_append.mp hunder.ordered).1
    · exact hordered
  case needed =>
    intro k
    have hpull := hpulls k
    generalize a.pulled k = answer at hpull
    generalize a.after (k + 1) = next at hpull ⊢
    cases hpull with
    | finished => exact .inl rfl
    | stopped => exact .inl rfl
    | failed _ hasks => exact .inr ⟨_, _, hasks⟩
    | chunk _ _ _ hasked => exact hasked
  case viewed =>
    intro hrun
    obtain ⟨k, hk⟩ := hfails _ hrun
    obtain ⟨elem, answer, hasks, hrefused⟩ := hfailures k _ hk
    -- only a supplier that answers with this failure makes a run end with it
    obtain rfl := hrefused.answer_eq
    refine ⟨k + 1, elem, ?_⟩
    rw [hasks.log_eq]
    exact List.mem_concat_self

end Assembly

end Granule
