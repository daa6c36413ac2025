import Granule.Proofs.Grid.AnySupplier
import Granule.Words.Assembly

/-!
# Assemblies on a Machine Are Assemblies

A machine hands out the chunks of an assembly, whatever the supplier answers, until it gives up.
It can give up where the selection has no room in words, or where a segment does that the supplier
answers with: its end, or the number of its bytes (`Assembly.HasRoom`).

A run puts the bytes of each chunk into a buffer of the size of the selection. What is put there
never leaves the buffer, since a chunk continues the one before it and none goes beyond the
selection; so a run gives up only where one of its pulls does, or where the buffer is too large.

**Main statements**:
- `Assembly.Underway.gives_nextChecked` : one pull on a machine
- `Assembly.Standing.gives_pullChecked` : every pull
- `Assembly.Underway.fillChecked_cases` : a run gives up only where one of its pulls does
- `Assembly.gives_runChecked_start` : what a run gives, where there is room
-/

namespace Granule

open Checked

variable {σ : Type}

/-! ## §1 Requests -/

namespace SegmentSupplier

variable [SegmentSupplier σ]

/-- What becomes of a supplier that is asked for these elements. -/
def after (s : σ) (elems : List Nat) : σ := elems.foldl (fun s elem => (supply s elem).2) s

/-- What a supplier answers when it is asked for these elements, one after another. -/
def answers : σ → List Nat → List (Except GridError (Option Segment))
  | _, [] => []
  | s, elem :: elems => (supply s elem).1 :: answers (supply s elem).2 elems

theorem after_concat (s : σ) (elems : List Nat) (elem : Nat) :
    after s (elems ++ [elem]) = (supply (after s elems) elem).2 := by
  rw [after, List.foldl_append]
  rfl

end SegmentSupplier

/-- The end of a segment, and the number of the bytes of its elements, have places in words. -/
structure Segment.HasRoom (s : Segment) (elemSize : Nat) : Prop where
  stop : s.stop < wordLimit
  bytes : s.count * elemSize < wordLimit

instance (s : Segment) (elemSize : Nat) : Decidable (s.HasRoom elemSize) :=
  decidable_of_iff (s.stop < wordLimit ∧ s.count * elemSize < wordLimit)
    ⟨fun h => ⟨h.1, h.2⟩, fun h => ⟨h.stop, h.bytes⟩⟩

/-- What a machine answers when a supplier is asked for these elements, one after another, and what
becomes of the supplier. -/
def CheckedSupplier.answersChecked [CheckedSupplier σ] :
    σ → List Nat → Checked (List (Except GridError (Option Segment)) × σ)
  | source, [] => .ok ([], source)
  | source, elem :: elems => do
    let (answer, after) ← supplyChecked source elem
    let (others, last) ← answersChecked after elems
    return (answer :: others, last)

/-- The answers on a machine are the answers, and none is missing where the supplier stays in states
in which it answers. -/
theorem CheckedSupplier.gives_answersChecked [CheckedSupplier σ] {wide : Prop} (Kept : σ → Prop)
    (hkept : ∀ source elem, Kept source → ∃ answer, supplyChecked source elem = .ok answer ∧
      Kept answer.2)
    {source : σ} (h : wide → Kept source) (elems : List Nat) :
    (answersChecked source elems).Gives wide
      (· = (SegmentSupplier.answers source elems, SegmentSupplier.after source elems)) := by
  induction elems generalizing source with
  | nil => exact .ok rfl
  | cons elem elems ih =>
    have hsupply : (supplyChecked source elem).Gives wide
        (· = SegmentSupplier.supply source elem) := by
      refine ⟨fun _ hanswer => (supply_of_supplyChecked hanswer).symm, fun hwide => ?_⟩
      obtain ⟨answer, hanswer, -⟩ := hkept source elem (h hwide)
      exact ⟨answer, hanswer⟩
    refine .bind hsupply fun answer hanswer => ?_
    subst hanswer
    -- what is kept is kept by the supplier that answered
    have hnext : wide → Kept (SegmentSupplier.supply source elem).2 := by
      intro hwide
      obtain ⟨answer, hanswer, hkeeps⟩ := hkept source elem (h hwide)
      rwa [supply_of_supplyChecked hanswer]
    refine .bind (ih hnext) fun others hothers => ?_
    rw [hothers]
    exact .ok rfl

/-- Whatever a supplier is asked for, one element after another, a machine does not give up on it,
and there is room for every segment that it answers with. -/
def CheckedSupplier.HasRoom [CheckedSupplier σ] (elemSize : Nat) (source : σ) : Prop :=
  ∀ asked elem, ∃ answer, supplyChecked (SegmentSupplier.after source asked) elem = .ok answer ∧
    ∀ s, answer.1 = .ok (some s) → s.HasRoom elemSize

namespace CheckedSupplier.HasRoom

variable [CheckedSupplier σ] {elemSize : Nat} {source : σ}

theorem supply (h : HasRoom elemSize source) (elem : Nat) :
    supplyChecked source elem = .ok (SegmentSupplier.supply source elem) ∧
      (∀ s, (SegmentSupplier.supply source elem).1 = .ok (some s) → s.HasRoom elemSize) ∧
      HasRoom elemSize (SegmentSupplier.supply source elem).2 := by
  obtain ⟨answer, hanswer, hroom⟩ := h [] elem
  have hanswer : supplyChecked source elem = .ok answer := hanswer
  rw [supply_of_supplyChecked hanswer]
  refine ⟨hanswer, hroom, fun asked next => ?_⟩
  rw [← supply_of_supplyChecked hanswer]
  exact h (elem :: asked) next

/-- A supplier that stays in states in which it answers with room has room. -/
theorem of_invariant (Kept : σ → Prop)
    (hkept : ∀ source elem, Kept source → ∃ answer, supplyChecked source elem = .ok answer ∧
      Kept answer.2 ∧ ∀ s, answer.1 = .ok (some s) → s.HasRoom elemSize)
    (h : Kept source) : HasRoom elemSize source := by
  intro asked
  induction asked generalizing source with
  | nil =>
    intro elem
    obtain ⟨answer, hanswer, -, hroom⟩ := hkept source elem h
    exact ⟨answer, hanswer, hroom⟩
  | cons first asked ih =>
    obtain ⟨answer, hanswer, hnext, -⟩ := hkept source first h
    have hrest := ih hnext
    rwa [← supply_of_supplyChecked hanswer] at hrest

end CheckedSupplier.HasRoom

/-! ## §2 One pull -/

theorem Segment.gives_containsChecked (s : Segment) (elem : Nat) :
    (s.containsChecked elem).Gives (s.stop < wordLimit) (· = s.contains elem) := by
  refine .of_eq (fun _ h => contains_of_containsChecked h) fun hroom => ?_
  unfold containsChecked
  split
  · rename_i hbefore
    have hnot : s.contains elem = false := by
      rw [← Bool.not_eq_true, contains_iff]
      omega
    rw [hnot]
  · rename_i hreaches
    have hstop : s.stopChecked = .ok s.stop := word_of_lt hroom
    rw [hstop]
    refine congrArg Except.ok ?_
    rw [contains, decide_eq_decide]
    omega

namespace Assembly

/-- There is room for the segment supplied last, and for all that the supplier answers. -/
structure HasRoom [CheckedSupplier σ] (elemSize : Nat) (a : Assembly σ) : Prop where
  current : ∀ s, a.current = some s → s.HasRoom elemSize
  source : CheckedSupplier.HasRoom elemSize a.source

theorem current_of_cover [SegmentSupplier σ] {a after : Assembly σ} {elem : Nat} {s : Segment}
    (h : a.cover elem = (.ok s, after)) : after.current = some s := by
  unfold cover at h
  split at h
  · rename_i t hreuse
    cases h
    exact (Option.filter_eq_some_iff.mp hreuse).1
  · simp only at h
    split at h
    · cases h
    · split at h
      · cases h
      · cases h
        rfl

/-- Only a segment that was supplied is accepted. -/
theorem eq_some_of_accept {elemSize elem : Nat} {supplied : Option Segment} {s : Segment}
    (h : accept elemSize elem supplied = .ok s) : supplied = some s := by
  unfold accept at h
  split at h
  · cases h
  · rename_i t ht
    split at h
    · cases h
    · cases h
      exact (Option.filter_eq_some_iff.mp ht).1

section Pull

variable [CheckedSupplier σ] {a : Assembly σ} {elemSize elem : Nat}

omit [CheckedSupplier σ] in
theorem gives_takeChecked {shape : Shape} {selection : Selection}
    (hplan : Plan.ofSelection shape elemSize selection 0 = .ok a.cursor.plan) (h : a.Steady) :
    a.takeChecked.Gives (shape.size * elemSize < wordLimit) (· = a.take) := by
  have hsize : 0 < a.elemSize := by
    rw [Assembly.elemSize, Plan.elemSize_eq hplan]
    exact (Plan.ofSelection_eq_ok_iff.mp hplan).1
  refine ⟨fun _ htaken => (take_of_takeChecked (Plan.dataStart_eq hplan) hsize htaken).symm,
    fun hroom => ?_⟩
  unfold takeChecked
  cases a.pending with
  | some run => exact ⟨_, rfl⟩
  | none =>
    rw [← Nat.zero_add (shape.size * elemSize)] at hroom
    obtain ⟨pulled, hpulled⟩ := (PlanCursor.gives_nextChecked hplan h.inStep).total hroom
    simp only [hpulled, ok_bind]
    cases pulled <;> exact ⟨_, rfl⟩

omit [CheckedSupplier σ] in
theorem exists_acceptChecked (elem : Nat) {supplied : Option Segment}
    (h : ∀ s, supplied = some s → s.HasRoom elemSize) :
    ∃ accepted, acceptChecked elemSize elem supplied = .ok accepted := by
  cases supplied with
  | none => exact ⟨_, rfl⟩
  | some s =>
    have hroom := h s rfl
    simp only [acceptChecked, (s.gives_containsChecked elem).eq_ok hroom.stop, ok_bind]
    cases s.contains elem with
    | false => exact ⟨_, rfl⟩
    | true => exact ⟨_, by rw [if_pos rfl, word_of_lt hroom.bytes]; rfl⟩

theorem gives_coverChecked (hsize : a.elemSize = elemSize) :
    (a.coverChecked elem).Gives (a.HasRoom elemSize) (· = a.cover elem) := by
  refine ⟨fun _ hcovered => (cover_of_coverChecked hcovered).symm, fun hroom => ?_⟩
  have hkept : ∃ kept, a.keptChecked elem = .ok kept := by
    unfold keptChecked
    cases hcurrent : a.current with
    | none => exact ⟨_, rfl⟩
    | some s =>
      simp only [(s.gives_containsChecked elem).eq_ok (hroom.current s hcurrent).stop, ok_bind]
      exact ⟨_, rfl⟩
  obtain ⟨kept, hkept⟩ := hkept
  simp only [coverChecked, hkept, ok_bind]
  -- there is room for whatever the supplier answers with
  cases kept with
  | some s => exact ⟨_, rfl⟩
  | none =>
    obtain ⟨hsupply, hanswer, -⟩ := hroom.source.supply elem
    simp only [hsupply, ok_bind]
    cases hcase : (SegmentSupplier.supply a.source elem).1 with
    | error e => exact ⟨_, rfl⟩
    | ok supplied =>
      have hsupplied : ∀ s, supplied = some s → s.HasRoom elemSize :=
        fun s hs => hanswer s (hcase.trans (congrArg Except.ok hs))
      obtain ⟨accepted, haccepted⟩ := exists_acceptChecked elem hsupplied
      simp only [hsize, haccepted, ok_bind]
      cases accepted <;> exact ⟨_, rfl⟩

/-- Looking for a segment, there is room for what is found, and for what is supplied later. -/
theorem HasRoom.cover (h : a.HasRoom elemSize) (elem : Nat) :
    (a.cover elem).2.HasRoom elemSize := by
  unfold Assembly.cover
  cases a.current.filter (·.contains elem) with
  | some s => exact h
  | none =>
    obtain ⟨-, hanswer, hlater⟩ := h.source.supply elem
    simp only
    cases hcase : (SegmentSupplier.supply a.source elem).1 with
    | error e => exact ⟨h.current, hlater⟩
    | ok supplied =>
      simp only [Assembly.elemSize]
      cases haccept : accept a.cursor.plan.elemSize elem supplied with
      | error e => exact ⟨h.current, hlater⟩
      | ok s =>
        refine ⟨?_, hlater⟩
        rintro _ ⟨⟩
        exact hanswer s (hcase.trans (congrArg Except.ok (eq_some_of_accept haccept)))

omit [CheckedSupplier σ] in
theorem gives_serveChecked (a : Assembly σ) (run : Stretch) (s : Segment) :
    (a.serveChecked run s).Gives
      (s.stop < wordLimit ∧ run.elem + run.count < wordLimit ∧ run.dest + run.count < wordLimit)
      (· = a.serve run s) := by
  refine ⟨fun _ hserved => (serve_of_serveChecked hserved).symm, fun ⟨hstop, helem, hdest⟩ => ?_⟩
  have hstop : s.stopChecked = .ok s.stop := word_of_lt hstop
  simp only [serveChecked, hstop, ok_bind]
  split
  · rw [word_of_lt (by omega), ok_bind, word_of_lt (by omega), ok_bind]
    exact ⟨_, rfl⟩
  · exact ⟨_, rfl⟩

/-- **One pull on a machine** is a pull. -/
theorem gives_nextChecked {shape : Shape} {selection : Selection}
    (hplan : Plan.ofSelection shape elemSize selection 0 = .ok a.cursor.plan) (h : a.Steady)
    (hrun : ∀ run taken, a.take = some (run, taken) →
      run.elem + run.count ≤ shape.size ∧ run.dest + run.count ≤ shape.size) :
    a.nextChecked.Gives (shape.size * elemSize < wordLimit ∧ a.HasRoom elemSize)
      (· = a.next) := by
  have hsize := (Plan.ofSelection_eq_ok_iff.mp hplan).1
  have hwidth : a.elemSize = elemSize := Plan.elemSize_eq hplan
  refine ⟨fun _ hpulled => (next_of_nextChecked (Plan.dataStart_eq hplan) (hwidth ▸ hsize)
    hpulled).symm, fun ⟨hshape, hroom⟩ => ?_⟩
  unfold nextChecked
  split
  · exact ⟨_, rfl⟩
  rw [(gives_takeChecked hplan h).eq_ok hshape, ok_bind]
  cases htake : a.take with
  | none => exact ⟨_, rfl⟩
  | some pair =>
    obtain ⟨run, taken⟩ := pair
    obtain ⟨helem, hdest⟩ := hrun run taken htake
    have hword : shape.size < wordLimit :=
      (Nat.le_mul_of_pos_right _ hsize).trans_lt hshape
    -- taking a run moves only the cursor, so there is room as before
    obtain ⟨cursor, hsame, rfl⟩ : ∃ cursor : PlanCursor, cursor.plan = a.cursor.plan ∧
        taken = { a with cursor, pending := none } := by
      rcases h.take_cases with ⟨-, hnone⟩ | ⟨run', cursor, htaken, hsame, -⟩
      · rw [hnone] at htake
        cases htake
      · rw [htaken] at htake
        cases htake
        exact ⟨cursor, hsame, rfl⟩
    have hwidth' : Assembly.elemSize { a with cursor, pending := none } = elemSize :=
      (congrArg Plan.elemSize hsame).trans hwidth
    have hroom' : HasRoom elemSize { a with cursor, pending := none } :=
      ⟨hroom.current, hroom.source⟩
    have hcovered := hroom'.cover run.elem
    simp only [(gives_coverChecked hwidth').eq_ok hroom', ok_bind]
    rcases hcover : Assembly.cover { a with cursor, pending := none } run.elem with ⟨e | s, covered⟩
    · exact ⟨_, rfl⟩
    · rw [hcover] at hcovered
      have hstop := (hcovered.current s (current_of_cover hcover)).stop
      simp only [(gives_serveChecked covered run s).eq_ok ⟨hstop, by omega, by omega⟩, ok_bind]
      exact ⟨_, rfl⟩

/-- A pull leaves room for the segment supplied last, and for all that is supplied later. -/
theorem HasRoom.next (h : a.HasRoom elemSize) (hsteady : a.Steady) : a.next.2.HasRoom elemSize := by
  by_cases hfailed : a.failed = true
  · rwa [Assembly.next, if_pos hfailed]
  rcases hsteady.next_cases (by simpa using hfailed) with
    ⟨-, hnext⟩ | ⟨run, cursor, -, -, -, -, -, hnext⟩
  · rwa [hnext]
  · have hroom : HasRoom elemSize { a with cursor, pending := none } := ⟨h.current, h.source⟩
    have hcovered := hroom.cover run.elem
    rw [hnext]
    rcases hcover : Assembly.cover { a with cursor, pending := none } run.elem with ⟨e | s, covered⟩
    · rw [hcover] at hcovered
      exact ⟨hcovered.current, hcovered.source⟩
    · rw [hcover] at hcovered
      simp only [serve]
      split
      · exact ⟨hcovered.current, hcovered.source⟩
      · exact hcovered

end Pull

/-! ## §3 All pulls -/

/-- What pull number `k` gives on a machine. -/
def pullChecked [CheckedSupplier σ] (a : Assembly σ) :
    (k : Nat) → Checked (Option (Except GridError Chunk))
  | 0 => do
    let (answer, _) ← a.nextChecked
    return answer
  | k + 1 => do
    let (_, after) ← a.nextChecked
    after.pullChecked k

section Pulls

variable {shape : Shape} {elemSize : Nat} {selection : Selection} {plan : Plan} {done : Nat}
  [CheckedSupplier σ] {a : Assembly (Watched σ)}

omit [CheckedSupplier σ] in
/-- What is served next lies inside the array, and inside the destination. -/
theorem Underway.take_le (hplan : Plan.ofSelection shape elemSize selection 0 = .ok plan)
    (h : Underway selection shape plan done a) {run : Stretch} {taken : Assembly (Watched σ)}
    (htake : a.take = some (run, taken)) :
    run.elem + run.count ≤ shape.size ∧ run.dest + run.count ≤ selection.size := by
  have hdest := h.dest_eq hplan htake
  rcases h.toSteady.take_cases with ⟨-, hnone⟩ | ⟨run', cursor, htaken, -, hrun, htodo, -⟩
  · rw [hnone] at htake
    cases htake
  rw [htaken] at htake
  cases htake
  -- the last element of the run is a selected one, so it lies in the array
  have hlast : run.elem + (run.count - 1) ∈ selection.elems shape := by
    refine List.mem_of_mem_drop (i := done) ?_
    rw [← h.todo_eq, htodo]
    exact List.mem_append_left _ (List.mem_range'_1.mpr (by omega))
  have hlength := congrArg List.length (h.todo_eq.symm.trans htodo)
  rw [List.length_drop, Selection.length_elems, List.length_append, Stretch.elems,
    List.length_range'] at hlength
  have hinside := Selection.lt_size_of_mem_elems (Plan.fits_of_ofSelection hplan) hlast
  omega

/-- One pull on a machine is a pull of the assembly, whether its supplier is watched or not. -/
theorem Underway.gives_nextChecked
    (hplan : Plan.ofSelection shape elemSize selection 0 = .ok plan)
    (h : Underway selection shape plan done a) :
    a.unwatch.nextChecked.Gives (shape.size * elemSize < wordLimit ∧ a.unwatch.HasRoom elemSize)
      (· = (a.next.1, a.next.2.unwatch)) := by
  rw [← next_unwatch]
  refine Assembly.gives_nextChecked (h.plan_eq.symm ▸ hplan) ⟨h.inStep, h.whole, h.rest⟩ ?_
  intro run taken htake
  rw [show a.unwatch = a.withSource a.source.source from rfl, take_withSource] at htake
  obtain ⟨⟨run', taken'⟩, htake', hsame⟩ := Option.map_eq_some_iff.mp htake
  cases hsame
  have hinside := h.take_le hplan htake'
  have hsize := Selection.size_le_size (Plan.fits_of_ofSelection hplan)
  omega

theorem Standing.gives_nextChecked
    (hplan : Plan.ofSelection shape elemSize selection 0 = .ok plan)
    (h : Standing selection shape plan done a) :
    a.unwatch.nextChecked.Gives (shape.size * elemSize < wordLimit ∧ a.unwatch.HasRoom elemSize)
      (· = (a.next.1, a.next.2.unwatch)) := by
  rcases h with hunder | ⟨hfailed, -⟩
  · exact hunder.gives_nextChecked hplan
  · have hchecked : a.unwatch.nextChecked = .ok (none, a.unwatch) := if_pos hfailed
    have hnext : a.next = (none, a) := if_pos hfailed
    rw [hchecked, hnext]
    exact .ok rfl

/-- There is room at every pull, if there is room at the first one. -/
theorem Standing.hasRoom_next (h : Standing selection shape plan done a)
    (hroom : a.unwatch.HasRoom elemSize) : a.next.2.unwatch.HasRoom elemSize := by
  have hsame : a.next.2.unwatch = a.unwatch.next.2 := by rw [next_unwatch]
  rw [hsame]
  rcases h with hunder | ⟨hfailed, -⟩
  · exact hroom.next ⟨hunder.inStep, hunder.whole, hunder.rest⟩
  · have hnext : a.unwatch.next = (none, a.unwatch) := if_pos hfailed
    rwa [hnext]

/-- **Every pull on a machine** is a pull of the assembly. -/
theorem Standing.gives_pullChecked
    (hplan : Plan.ofSelection shape elemSize selection 0 = .ok plan)
    (h : Standing selection shape plan done a) (k : Nat) :
    (a.unwatch.pullChecked k).Gives
      (shape.size * elemSize < wordLimit ∧ a.unwatch.HasRoom elemSize) (· = a.pulled k) := by
  induction k generalizing done a with
  | zero =>
    refine .bind (h.gives_nextChecked hplan) fun pulled hpulled => ?_
    rw [hpulled]
    exact .ok rfl
  | succ k ih =>
    refine .bind (h.gives_nextChecked hplan) fun pulled hpulled => ?_
    rw [hpulled]
    exact (ih (h.next hplan)).of_wide fun ⟨hshape, hroom⟩ => ⟨hshape, h.hasRoom_next hroom⟩

end Pulls

/-! ## §4 The run -/

/-- A chunk lies in the current segment, and ends with it at the latest. -/
theorem within_of_next [SegmentSupplier σ] {a after : Assembly σ} {c : Chunk}
    (h : a.next = (some (.ok c), after)) :
    ∃ s elem, after.current = some s ∧ c.place = .decoded s.data elem ∧ elem + c.count ≤ s.count := by
  unfold next at h
  split at h
  · cases h
  · split at h
    · cases h
    · rename_i run taken htake
      split at h
      · cases h
      · rename_i s covered hcover
        cases h
        obtain ⟨hfirst, hstop⟩ := Segment.contains_iff.mp (contains_of_cover hcover)
        have hserved : run.elem - s.first + min run.count (s.stop - run.elem) ≤ s.count := by
          rw [Segment.stop] at hstop ⊢
          omega
        have hcurrent := current_of_cover hcover
        unfold serve
        simp only
        split
        · exact ⟨s, run.elem - s.first, hcurrent, rfl, hserved⟩
        · exact ⟨s, run.elem - s.first, hcurrent, rfl, hserved⟩

theorem current_serve (a : Assembly σ) (run : Stretch) (s : Segment) :
    (a.serve run s).2.current = a.current := by
  unfold serve
  simp only
  split <;> rfl

theorem fillChecked_eq [CheckedSupplier σ] (a : Assembly σ) (dest : Array UInt8) :
    a.fillChecked dest = (do
      match ← a.nextChecked with
      | (none, _) => return .ok dest.toList
      | (some (.error e), _) => return .error e
      | (some (.ok c), after) =>
        match ← c.viewChecked with
        | none => return .error .misplacedChunk
        | some v =>
          let (start, stop) ← c.destChecked
          let filled ← Bytes.putChecked dest start stop v.bytes
          after.fillChecked filled) := by
  rw [fillChecked]
  split
  case h_1 hnext => rw [hnext]; rfl
  case h_2 hnext => rw [hnext]; rfl
  case h_3 hnext => rw [hnext]; rfl
  case h_4 c after hnext =>
    simp only [hnext, ok_bind]
    split
    case h_1 hview => rw [hview]; rfl
    case h_2 hview => rw [hview]; rfl
    case h_3 v hview =>
      simp only [hview, ok_bind]
      split
      case h_1 hdest => rw [hdest]; rfl
      case h_2 start stop hdest =>
        simp only [hdest, ok_bind]
        split
        case h_1 hput => rw [hput]; rfl
        case h_2 filled hput => rw [hput]; rfl

/-- Where there is a buffer for it, a run fills the buffer. -/
theorem runChecked_eq [CheckedSupplier σ] {a : Assembly σ}
    (hsize : a.total * a.elemSize < bufferLimit) :
    a.runChecked = a.fillChecked (Array.replicate (a.total * a.elemSize) 0) := by
  have hword : a.total * a.elemSize < wordLimit := hsize.trans (by decide)
  rw [runChecked, word_of_lt hword, ok_bind, buffer_of_lt hsize, ok_bind]

/-- The bytes of the segment supplied last have been counted in a word. -/
def Counted (elemSize : Nat) (a : Assembly σ) : Prop :=
  ∀ s, a.current = some s → s.count * elemSize < wordLimit

section Run

variable [CheckedSupplier σ] {elemSize : Nat}

/-- A segment is accepted when its bytes have been counted. -/
theorem Counted.coverChecked {a : Assembly σ} (h : a.Counted elemSize)
    (hsize : a.elemSize = elemSize) {elem : Nat} {covered : Except GridError Segment × Assembly σ}
    (hcovered : a.coverChecked elem = .ok covered) : covered.2.Counted elemSize := by
  simp only [Assembly.coverChecked, bind_eq_ok_iff] at hcovered
  obtain ⟨kept, -, hcovered⟩ := hcovered
  -- a segment that is kept was counted before, and one that is supplied is counted now
  cases kept with
  | some s => cases Except.ok.inj hcovered; exact h
  | none =>
    simp only [bind_eq_ok_iff] at hcovered
    obtain ⟨⟨answer, source⟩, -, hcovered⟩ := hcovered
    cases answer with
    | error e => cases Except.ok.inj hcovered; exact h
    | ok supplied =>
      simp only [bind_eq_ok_iff] at hcovered
      obtain ⟨accepted, haccepted, hcovered⟩ := hcovered
      cases accepted with
      | error e => cases Except.ok.inj hcovered; exact h
      | ok s =>
        cases Except.ok.inj hcovered
        rintro _ ⟨⟩
        obtain rfl := eq_some_of_accept (accept_of_acceptChecked haccepted)
        simp only [acceptChecked, bind_eq_ok_iff] at haccepted
        obtain ⟨holds, -, haccepted⟩ := haccepted
        split at haccepted
        · simp only [bind_eq_ok_iff, word_eq_ok_iff] at haccepted
          obtain ⟨-, ⟨hlt, -⟩, -⟩ := haccepted
          exact hsize ▸ hlt
        · cases haccepted

theorem Counted.nextChecked {shape : Shape} {selection : Selection} {a : Assembly σ}
    (h : a.Counted elemSize)
    (hplan : Plan.ofSelection shape elemSize selection 0 = .ok a.cursor.plan) (hsteady : a.Steady)
    {pulled : Option (Except GridError Chunk) × Assembly σ}
    (hpulled : a.nextChecked = .ok pulled) : pulled.2.Counted elemSize := by
  unfold Assembly.nextChecked at hpulled
  split at hpulled
  · cases Except.ok.inj hpulled; exact h
  simp only [bind_eq_ok_iff] at hpulled
  obtain ⟨taken, htaken, hpulled⟩ := hpulled
  have htake := (gives_takeChecked hplan hsteady).sound _ htaken
  cases taken with
  | none => cases Except.ok.inj hpulled; exact h
  | some pair =>
    obtain ⟨run, taken⟩ := pair
    simp only [bind_eq_ok_iff] at hpulled
    obtain ⟨⟨answer, covered⟩, hcovered, hpulled⟩ := hpulled
    rcases hsteady.take_cases with ⟨-, hnone⟩ | ⟨run', cursor, htaken', hsame, -⟩
    · rw [← htake] at hnone
      cases hnone
    rw [← htake] at htaken'
    cases htaken'
    have hwidth : Assembly.elemSize { a with cursor, pending := none } = elemSize :=
      (congrArg Plan.elemSize hsame).trans (Plan.elemSize_eq hplan)
    have hcounted : Counted elemSize { a with cursor, pending := none } := h
    have hcounted := hcounted.coverChecked hwidth hcovered
    cases answer with
    | error e => cases Except.ok.inj hpulled; exact hcounted
    | ok s =>
      simp only [bind_eq_ok_iff] at hpulled
      obtain ⟨⟨chunk, served⟩, hserved, hpulled⟩ := hpulled
      cases Except.ok.inj hpulled
      intro t ht
      -- serving leaves the segment where it is
      have hserve := serve_of_serveChecked hserved
      have hsame := current_serve covered run s
      rw [hserve] at hsame
      exact hcounted t (hsame ▸ ht)

/-- The bytes of a chunk have been counted with those of its segment. -/
theorem viewChecked_eq {c : Chunk} {s : Segment} {elem : Nat}
    (hplace : c.place = .decoded s.data elem) (hend : elem + c.count ≤ s.count)
    (hbytes : s.count * c.elemSize < wordLimit) : c.viewChecked = .ok c.view := by
  have hroom := (Nat.mul_le_mul_right c.elemSize hend).trans_lt hbytes
  rw [Nat.add_mul] at hroom
  obtain ⟨place, count, dest, elemSize⟩ := c
  subst hplace
  simp only [Chunk.viewChecked, Chunk.byteCountChecked] at hroom ⊢
  rw [word_of_lt (by omega), ok_bind, word_of_lt (by omega), ok_bind, word_of_lt hroom]
  rfl

variable {shape : Shape} {selection : Selection} {plan : Plan}

omit [CheckedSupplier σ] in
/-- The bytes still to be placed are those of a chunk, and those behind it. -/
theorem Serves.left_eq {s : Segment} {done : Nat} {c : Chunk}
    (h : Serves selection shape elemSize s done c) {bytes : Bytes}
    (hbytes : bytes.length = c.count * elemSize) :
    (selection.size - done) * elemSize =
      bytes.length + (selection.size - (done + c.count)) * elemSize := by
  have hinside := h.inside
  rw [hbytes, ← Nat.add_mul]
  congr 1
  omega

omit [CheckedSupplier σ] in
/-- A chunk is placed behind the elements that were handed out before it. -/
theorem Serves.destChecked_eq {s : Segment} {done : Nat} {c : Chunk}
    (h : Serves selection shape elemSize s done c) (hwidth : elemSize = c.elemSize)
    (hsize : selection.size * elemSize < wordLimit) :
    c.destChecked = .ok (done * elemSize, done * elemSize + c.count * elemSize) := by
  have hroom := (Nat.mul_le_mul_right elemSize h.inside).trans_lt hsize
  rw [Nat.add_mul] at hroom
  simp only [Chunk.destChecked, Chunk.destOffsetChecked, Chunk.byteCountChecked, h.dest_eq,
    ← hwidth]
  rw [word_of_lt (by omega), ok_bind, word_of_lt (by omega), ok_bind, word_of_lt hroom]
  rfl

/-- **A run gives up only where one of its pulls does.** The bytes of each chunk are put behind those
of the chunks before it, inside the buffer. -/
theorem Underway.fillChecked_cases
    (hplan : Plan.ofSelection shape elemSize selection 0 = .ok plan)
    (hsize : selection.size * elemSize < wordLimit) {done : Nat} {a : Assembly (Watched σ)}
    (h : Underway selection shape plan done a)
    (hcounted : a.unwatch.Counted elemSize) {dest hand : Array UInt8}
    (hhand : hand.size = done * elemSize)
    (hdest : dest.toList =
      hand.toList ++ List.replicate ((selection.size - done) * elemSize) 0) :
    a.unwatch.fillChecked dest = .ok (a.collect hand) ∨
      ∃ k panic, a.unwatch.pullChecked k = .error panic ∧
        a.unwatch.fillChecked dest = .error panic := by
  -- what is in hand stands in front of the buffer, and the rest of it is still empty
  rw [fillChecked_eq]
  cases hchecked : a.unwatch.nextChecked with
  | error panic =>
    refine .inr ⟨0, panic, ?_, rfl⟩
    rw [pullChecked, hchecked]
    rfl
  | ok pulled =>
    obtain rfl := (h.gives_nextChecked hplan).sound _ hchecked
    have hlater := hcounted.nextChecked (h.plan_eq.symm ▸ hplan)
      ⟨h.inStep, h.whole, h.rest⟩ hchecked
    have hpull := h.pull hplan
    rcases hnext : a.next with ⟨answer, after⟩
    rw [hnext] at hpull hlater hchecked
    cases hpull with
    | finished hdone =>
      refine .inl ?_
      rw [collect_of_done (by rw [hnext]), ok_bind]
      rw [hdone, Nat.sub_self, Nat.zero_mul, List.replicate_zero, List.append_nil] at hdest
      exact congrArg (Except.ok ∘ Except.ok) hdest
    | stopped hfailed =>
      rw [h.working] at hfailed
      cases hfailed
    | @failed e =>
      refine .inl ?_
      rw [collect_of_error (e := e) (by rw [hnext])]
      rfl
    | @chunk c _ _ hafter _ hserves =>
      obtain ⟨bytes, hbytes, hview, -⟩ := hserves.view_eq
      have hwidth : elemSize = c.elemSize := (Chunk.length_view hview).2
      -- the bytes of the chunk were counted when its segment was accepted
      obtain ⟨s, elem, hcurrent, hplace, hend⟩ := within_of_next hnext
      have hviewed : c.viewChecked = .ok (some ⟨bytes, elemSize⟩) := by
        rw [← hview]
        exact viewChecked_eq hplace hend (hwidth ▸ hlater s hcurrent)
      have hplaced := hserves.destChecked_eq hwidth hsize
      have hleft := hserves.left_eq hbytes
      have hroom : bytes.length ≤ (selection.size - done) * elemSize := by omega
      obtain ⟨filled, hput, hwritten⟩ := Bytes.putChecked_append hdest hroom
      rw [Array.length_toList, hhand, hbytes] at hput
      have hhand' : (hand ++ bytes).size = (done + c.count) * elemSize := by
        rw [← Array.length_toList, Array.toList_appendList, List.length_append,
          Array.length_toList, hhand, hbytes, Nat.add_mul]
      have hdest' : filled.toList = (hand ++ bytes).toList ++
          List.replicate ((selection.size - (done + c.count)) * elemSize) 0 := by
        rw [hwritten, Array.toList_appendList, hleft, Nat.add_sub_cancel_left]
      -- the rest of the run goes on from the buffer with one chunk more in it
      have hrest := hafter.fillChecked_cases hplan hsize hlater hhand' hdest'
      simp only [ok_bind, hviewed, hplaced, hput, collect_of_chunk hnext hview]
      rcases hrest with hall | ⟨k, panic, hpanic, hfilled⟩
      · exact .inl hall
      · refine .inr ⟨k + 1, panic, ?_, hfilled⟩
        rw [pullChecked, hchecked]
        exact hpanic
termination_by a.work
decreasing_by exact left_next hnext

/-- A run on a machine gives what the run gives, or what a pull gives up for, or there is no such
buffer. -/
theorem Underway.runChecked_cases
    (hplan : Plan.ofSelection shape elemSize selection 0 = .ok plan) {a : Assembly (Watched σ)}
    (h : Underway selection shape plan 0 a) (hcounted : a.unwatch.Counted elemSize) :
    a.unwatch.runChecked = .ok a.run ∨
      (bufferLimit ≤ selection.size * elemSize ∧ ∃ panic ≠ .outOfRange,
        a.unwatch.runChecked = .error panic) ∨
      ∃ k panic, a.unwatch.pullChecked k = .error panic ∧
        a.unwatch.runChecked = .error panic := by
  have htotal : a.unwatch.total * a.unwatch.elemSize = selection.size * elemSize := by
    rw [← Plan.totalBytes_eq hplan, ← h.plan_eq]
    rfl
  by_cases hbuffer : selection.size * elemSize < bufferLimit
  · rw [runChecked_eq (htotal.trans_lt hbuffer), htotal]
    have hword : selection.size * elemSize < wordLimit := hbuffer.trans (by decide)
    have hempty : (Array.replicate (selection.size * elemSize) (0 : UInt8)).toList =
        (#[] : Array UInt8).toList ++ List.replicate ((selection.size - 0) * elemSize) 0 := by
      rw [Array.toList_replicate, Nat.sub_zero]
      rfl
    have hhand : (#[] : Array UInt8).size = 0 * elemSize := (Nat.zero_mul elemSize).symm
    exact (h.fillChecked_cases hplan hword hcounted hhand hempty).imp_right .inr
  · -- the size of the buffer has no place in a word, or there is no such buffer
    have hlarge : bufferLimit ≤ selection.size * elemSize := Nat.le_of_not_lt hbuffer
    refine .inr (.inl ⟨hlarge, ?_⟩)
    rw [runChecked, htotal]
    by_cases hword : selection.size * elemSize < wordLimit
    · rw [word_of_lt hword, ok_bind, buffer, if_neg hbuffer]
      exact ⟨.capacity, nofun, rfl⟩
    · rw [word, if_neg hword]
      exact ⟨.overflow, nofun, rfl⟩

/-- What a run gives on a machine, where no pull gives up. -/
theorem Underway.gives_runChecked
    (hplan : Plan.ofSelection shape elemSize selection 0 = .ok plan) {a : Assembly (Watched σ)}
    (h : Underway selection shape plan 0 a) (hcounted : a.unwatch.Counted elemSize) :
    a.unwatch.runChecked.Gives (selection.size * elemSize < bufferLimit ∧
      ∀ k, ∃ answer, a.unwatch.pullChecked k = .ok answer) (· = a.run) := by
  rcases h.runChecked_cases hplan hcounted with hrun | ⟨hlarge, panic, -, hrun⟩ |
    ⟨k, panic, hpull, hrun⟩
  · rw [hrun]
    exact .ok rfl
  · rw [hrun]
    exact ⟨nofun, fun ⟨hsmall, _⟩ => by omega⟩
  · rw [hrun]
    refine ⟨nofun, fun ⟨_, hpulls⟩ => ?_⟩
    obtain ⟨answer, hanswer⟩ := hpulls k
    rw [hpull] at hanswer
    cases hanswer

omit [CheckedSupplier σ] in
theorem counted_start (elemSize : Nat) (plan : Plan) (source : σ) :
    Counted elemSize { cursor := ⟨plan, 0⟩, source } := nofun

omit [CheckedSupplier σ] in
/-- What a machine starts with is the assembly from the start. -/
theorem gives_startChecked (hplan : Plan.ofSelection shape elemSize selection 0 = .ok plan)
    (source : σ) :
    (startChecked shape elemSize selection source).Gives (selection.HasRoom shape elemSize 0)
      (· = .ok { cursor := ⟨plan, 0⟩, source }) := by
  refine .bind (Plan.gives_ofSelectionChecked hplan) fun made hmade => ?_
  rw [hmade]
  exact .ok rfl

/-- What a run gives on a machine from the start, where there is room. -/
theorem gives_runChecked_start (hfits : selection.Fits shape)
    (hplan : Plan.ofSelection shape elemSize selection 0 = .ok plan) (source : σ) :
    (runChecked { cursor := ⟨plan, 0⟩, source }).Gives
      ((shape.size * elemSize < wordLimit ∧ CheckedSupplier.HasRoom elemSize source) ∧
        selection.size * elemSize < bufferLimit)
      (· = run { cursor := ⟨plan, 0⟩, source }) := by
  have hunder := underway_start hfits hplan source
  have hruns := (hunder.gives_runChecked hplan (counted_start elemSize plan source)).mono
    fun bytes hbytes => hbytes.trans (collect_unwatch _ #[]).symm
  refine hruns.of_wide fun ⟨⟨hshape, hroom⟩, hbuffer⟩ => ⟨hbuffer, fun k => ?_⟩
  exact (Standing.gives_pullChecked hplan (.inl hunder) k).total ⟨hshape, ⟨nofun, hroom⟩⟩

end Run

end Assembly

end Granule
