import Granule.Grid.Assembly
import Granule.Proofs.Grid.Gather

/-!
# Assemblies Serve Their Elements in Turn

What an assembly still has to do is a list of storage elements, `Assembly.todo`:
the rest of a split run, and then the runs that are still whole. Whatever the
supplier answers, a chunk handed out takes elements off the front of that list.

A supplier that knows a list of segments (`SegmentSupplier.Knows`) answers with
one of them wherever one holds the element, and may give it up with the answer:
the assembly keeps it as long as it serves from it. If those segments hold the bytes of
a storage, an assembly from it copies the selected elements out of the storage,
up to the first one that no segment holds.

**Main statements**:
- `Assembly.Steady.next_cases` : a pull serves the front of what is left to do
- `Assembly.Ready.collect_eq` : a run serves all of it, or up to the first missing element
-/

namespace Granule

/-! ## §1 What is left to do -/

namespace Assembly

variable {σ : Type}

/-- The storage elements still to be served: the rest of a split run, then the whole runs. -/
def todo (a : Assembly σ) : List Nat := a.pending.elim [] Stretch.elems ++ a.cursor.elems

/-- At the start, all selected elements are to be served. -/
theorem todo_start {shape : Shape} {elemSize : Nat} {selection : Selection} {plan : Plan}
    (hplan : Plan.ofSelection shape elemSize selection 0 = .ok plan) (source : σ) :
    todo { cursor := ⟨plan, 0⟩, source } = selection.elems shape :=
  (PlanCursor.elems_zero plan).trans (Plan.elems_eq hplan)

/-- The plan is in step, and none of the runs still to be served is empty. -/
structure Steady (a : Assembly σ) : Prop where
  inStep : a.cursor.InStep
  whole : 0 < a.cursor.plan.chunkCount → 0 < a.cursor.plan.perChunk
  rest : ∀ run, a.pending = some run → 0 < run.count

/-- A run is taken off the front of what is left to do. -/
theorem Steady.take_cases {a : Assembly σ} (h : a.Steady) :
    (a.todo = [] ∧ a.take = none) ∨
      ∃ run cursor, a.take = some (run, { a with cursor, pending := none }) ∧
        cursor.plan = a.cursor.plan ∧ 0 < run.count ∧ a.todo = run.elems ++ cursor.elems ∧
        Steady { a with cursor, pending := none } := by
  unfold take
  cases hpending : a.pending with
  | some run =>
    have hnone : ∀ run', (none : Option Stretch) = some run' → 0 < run'.count := by simp
    refine .inr ⟨run, a.cursor, rfl, rfl, h.rest run hpending, ?_, h.inStep, h.whole, hnone⟩
    rw [todo, hpending]
    rfl
  | none =>
    have htodo : a.todo = a.cursor.elems := by rw [todo, hpending]; rfl
    cases hnext : a.cursor.nextStretch with
    | none => exact .inl ⟨htodo ▸ PlanCursor.elems_of_nextStretch_eq_none hnext, rfl⟩
    | some pulled =>
      obtain ⟨run, cursor⟩ := pulled
      obtain ⟨helems, hstep, hplan, hcount⟩ := PlanCursor.elems_of_nextStretch h.inStep hnext
      -- a chunk was pulled, so the plan has one
      have hchunks : 0 < a.cursor.plan.chunkCount := by
        have hleft := PlanCursor.left_nextStretch hnext
        rw [PlanCursor.left, PlanCursor.left] at hleft
        omega
      exact .inr ⟨run, cursor, rfl, hplan, hcount ▸ h.whole hchunks, htodo.trans helems, hstep,
        hplan ▸ h.whole, by simp⟩

/-! ## §2 One pull, whatever the supplier -/

/-- A segment that holds the first element of a run serves the run as far as it reaches; what is
left of the run stays in front of what is left to do. -/
theorem Steady.serve {a : Assembly σ} (h : a.Steady) (hpending : a.pending = none)
    {run : Stretch} (hrun : 0 < run.count) {s : Segment} (hs : s.contains run.elem) :
    ∃ n pending, 0 < n ∧ run.elem + n ≤ s.stop ∧
      (∀ rest, pending = some rest → rest.dest = run.dest + n) ∧
      a.serve run s = (⟨.decoded s.data (run.elem - s.first), n, run.dest, a.elemSize⟩,
        { a with pending }) ∧
      Steady { a with pending } ∧
      run.elems ++ a.cursor.elems = List.range' run.elem n ++ todo { a with pending } := by
  have hstop := (Segment.contains_iff.mp hs).2
  by_cases hsplit : s.stop - run.elem < run.count
  · -- the run reaches past the segment
    have hn : min run.count (s.stop - run.elem) = s.stop - run.elem := Nat.min_eq_right hsplit.le
    set n := s.stop - run.elem with hndef
    refine ⟨n, some ⟨run.elem + n, run.count - n, run.dest + n⟩, by omega, by omega, ?_, ?_,
      ⟨h.inStep, h.whole, ?_⟩, ?_⟩
    · rintro _ ⟨⟩
      rfl
    · rw [Assembly.serve, ← hndef, hn, if_pos hsplit]
    · rintro _ ⟨⟩
      exact Nat.sub_pos_of_lt hsplit
    · have hparts : run.elems =
          List.range' run.elem n ++ List.range' (run.elem + n) (run.count - n) := by
        rw [Stretch.elems, List.range'_append_1, Nat.add_sub_cancel' hsplit.le]
      rw [hparts, List.append_assoc]
      rfl
  · have hn : min run.count (s.stop - run.elem) = run.count := Nat.min_eq_left (by omega)
    refine ⟨run.count, none, hrun, by omega, by simp, ?_, ⟨h.inStep, h.whole, by simp⟩, rfl⟩
    rw [Assembly.serve, hn, if_neg (Nat.lt_irrefl _), ← hpending]

/-- A pull finds nothing left to do, or serves the front of it from a covering segment. -/
theorem Steady.next_cases [SegmentSupplier σ] {a : Assembly σ} (h : a.Steady)
    (hworking : a.failed = false) :
    (a.todo = [] ∧ a.next = (none, a)) ∨
      ∃ run cursor, a.take = some (run, { a with cursor, pending := none }) ∧
        cursor.plan = a.cursor.plan ∧ 0 < run.count ∧
        a.todo = run.elems ++ cursor.elems ∧ Steady { a with cursor, pending := none } ∧
        a.next =
          match cover { a with cursor, pending := none } run.elem with
          | (.error e, after) => (some (.error e), { after with failed := true })
          | (.ok s, after) => (some (.ok (after.serve run s).1), (after.serve run s).2) := by
  have hnot : ¬ a.failed = true := by simp [hworking]
  rw [Assembly.next, if_neg hnot]
  rcases h.take_cases with ⟨hdone, htake⟩ | ⟨run, cursor, htake, hplan, hrun, htodo, hsteady⟩
  · rw [htake]
    exact .inl ⟨hdone, rfl⟩
  · rw [htake]
    exact .inr ⟨run, cursor, rfl, hplan, hrun, htodo, hsteady, rfl⟩

end Assembly

/-! ## §3 Suppliers that know their segments -/

namespace Segment

/-- One of the segments holds the element. -/
def Held (segments : List Segment) (elem : Nat) : Prop := ∃ s ∈ segments, s.contains elem

instance (segments : List Segment) (elem : Nat) : Decidable (Held segments elem) :=
  inferInstanceAs (Decidable (∃ s ∈ segments, s.contains elem = true))

theorem held_of_mem_range' {segments : List Segment} {s : Segment} (hs : s ∈ segments)
    {elem n e : Nat} (hfirst : s.first ≤ elem) (hstop : elem + n ≤ s.stop)
    (he : e ∈ List.range' elem n) : Held segments e := by
  obtain ⟨hle, hlt⟩ := List.mem_range'_1.mp he
  exact ⟨s, hs, contains_iff.mpr ⟨hfirst.trans hle, hlt.trans_le hstop⟩⟩

/-- The bytes of the segment are those that a storage has for its elements. -/
structure Holds (s : Segment) (elemSize : Nat) (storage : Bytes) : Prop where
  length_eq : s.data.length = s.count * elemSize
  hasAt : storage.HasAt (s.first * elemSize) s.data

instance (s : Segment) (elemSize : Nat) (storage : Bytes) :
    Decidable (s.Holds elemSize storage) :=
  decidable_of_iff (s.data.length = s.count * elemSize ∧ storage.HasAt (s.first * elemSize) s.data)
    ⟨fun h => ⟨h.1, h.2⟩, fun h => ⟨h.length_eq, h.hasAt⟩⟩

/-- An element of the segment lies inside the storage, if elements have bytes. -/
theorem Holds.inside {s : Segment} {elemSize : Nat} {storage : Bytes}
    (h : s.Holds elemSize storage) (hsize : 0 < elemSize) {elem : Nat} (hcontains : s.contains elem) :
    (elem + 1) * elemSize ≤ storage.length := by
  obtain ⟨hfirst, hstop⟩ := contains_iff.mp hcontains
  have hlen := h.length_eq
  have hcount : 0 < s.count := by
    rw [stop] at hstop
    omega
  have hend := h.hasAt.length_le (List.length_pos_iff.mp (hlen ▸ Nat.mul_pos hcount hsize))
  calc (elem + 1) * elemSize
      ≤ (s.first + s.count) * elemSize := Nat.mul_le_mul_right _ hstop
    _ = s.first * elemSize + s.data.length := by rw [hlen, Nat.add_mul]
    _ ≤ storage.length := hend

/-- Elements of a segment, viewed in its bytes, are the elements of the storage. -/
theorem Holds.view_eq {s : Segment} {elemSize : Nat} {storage : Bytes}
    (h : s.Holds elemSize storage) {elem n : Nat} (hfirst : s.first ≤ elem)
    (hstop : elem + n ≤ s.stop) (dest : Nat) :
    (Chunk.mk (.decoded s.data (elem - s.first)) n dest elemSize).view =
      some ⟨storage.elements elemSize (List.range' elem n), elemSize⟩ := by
  obtain ⟨skip, rfl⟩ := Nat.exists_eq_add_of_le hfirst
  have hend : skip * elemSize + n * elemSize ≤ s.data.length := by
    rw [h.length_eq, ← Nat.add_mul]
    rw [stop, Nat.add_assoc] at hstop
    exact Nat.mul_le_mul_right _ (Nat.le_of_add_le_add_left hstop)
  have hpart : storage.between ((s.first + skip) * elemSize) ((s.first + skip + n) * elemSize) =
      s.data.between (skip * elemSize) (skip * elemSize + n * elemSize) := by
    rw [Nat.add_assoc, Nat.add_mul, Nat.add_mul, Nat.add_mul]
    exact h.hasAt.between_part hend
  have hslice : s.data.slice? (skip * elemSize) (n * elemSize) =
      some (storage.elements elemSize (List.range' (s.first + skip) n)) := by
    rw [Bytes.slice?_of_le hend, Bytes.elements_range', hpart]
  rw [Nat.add_sub_cancel_left, Chunk.view]
  exact congrArg (Option.map _) hslice

end Segment

/-- A supplier that knows a list of segments. In a state that fits an element, and so every later
one, it answers from the list; and it has an answer if one of the segments holds the element. What
it answered with it may give up, so that the state then fits the elements outside of the answer. -/
structure SegmentSupplier.Knows {σ : Type} [SegmentSupplier σ] (segments : List Segment)
    (Fit : Nat → σ → Prop) : Prop where
  later : ∀ {source elem next}, Fit elem source → elem ≤ next → Fit next source
  supply : ∀ {source elem}, Fit elem source → ∃ answer after,
    SegmentSupplier.supply source elem = (.ok answer, after) ∧
      (∀ next ≥ elem, (∀ s, answer = some s → ¬ s.contains next) → Fit next after) ∧
      (∀ s, answer = some s → s ∈ segments) ∧
      (Segment.Held segments elem → ∃ s, answer = some s ∧ s.contains elem)

namespace Assembly

variable {σ : Type} {segments : List Segment} {Fit : Nat → σ → Prop}

/-- The supplier fits those of the elements that the current segment does not hold. -/
def Reaches (Fit : Nat → σ → Prop) (a : Assembly σ) (elems : List Nat) : Prop :=
  ∀ e ∈ elems, (∀ s, a.current = some s → ¬ s.contains e) → Fit e a.source

/-- An assembly from a supplier that knows its segments, with elements left in storage order. -/
structure Ready (segments : List Segment) (Fit : Nat → σ → Prop) (a : Assembly σ) : Prop
    extends a.Steady where
  working : a.failed = false
  ordered : a.todo.Pairwise (· < ·)
  current : ∀ s, a.current = some s → s ∈ segments
  reaches : a.Reaches Fit a.todo

/-- Once elements are served off the front, from a known segment, the assembly is ready again. -/
theorem Ready.advance {a after : Assembly σ} (h : a.Ready segments Fit) {served : List Nat}
    (hsplit : a.todo = served ++ after.todo) (hsteady : after.Steady)
    (hworking : after.failed = false) (hcurrent : ∀ s, after.current = some s → s ∈ segments)
    (hreaches : after.Reaches Fit a.todo) : after.Ready segments Fit := by
  obtain ⟨-, hordered, -⟩ := List.pairwise_append.mp (hsplit ▸ h.ordered)
  refine ⟨hsteady, hworking, hordered, hcurrent, fun e he => hreaches e ?_⟩
  rw [hsplit]
  exact List.mem_append_right served he

variable [SegmentSupplier σ]

/-- An element is served from a known segment, or none holds it. What comes after it in storage
is then within reach of the segment or of the supplier. -/
theorem cover_of_knows (hknows : SegmentSupplier.Knows segments Fit) {a : Assembly σ} {elem : Nat}
    {behind : List Nat} (hlong : ∀ s ∈ segments, s.count * a.elemSize ≤ s.data.length)
    (hcurrent : ∀ s, a.current = some s → s ∈ segments)
    (hreaches : a.Reaches Fit (elem :: behind)) (hbehind : ∀ e ∈ behind, elem ≤ e) :
    (∃ s source, a.cover elem = (.ok s, { a with source, current := some s }) ∧ s ∈ segments ∧
        s.contains elem ∧ Reaches Fit { a with source, current := some s } (elem :: behind)) ∨
      ¬ Segment.Held segments elem ∧
        ∃ after, a.cover elem = (.error (.missingSegment elem), after) := by
  -- the segment at hand is asked first, and the supplier only if that does not hold the element
  cases hreuse : a.current.filter (·.contains elem) with
  | some s =>
    obtain ⟨hs, hcontains⟩ := Option.filter_eq_some_iff.mp hreuse
    have hsame : { a with source := a.source, current := some s } = a := by rw [← hs]
    refine .inl ⟨s, a.source, ?_, hcurrent s hs, hcontains, ?_⟩
    · rw [cover, hreuse, hsame]
    · rw [hsame]
      exact hreaches
  | none =>
    have hnot : ∀ s, a.current = some s → ¬ s.contains elem := by
      intro s hs hcontains
      rw [hs, Option.filter_some, if_pos hcontains] at hreuse
      cases hreuse
    have hfit : Fit elem a.source := hreaches elem List.mem_cons_self hnot
    obtain ⟨answer, source, hsupply, hafter, hknown, hheld⟩ := hknows.supply hfit
    cases hanswer : answer.filter (·.contains elem) with
    | some s =>
      obtain ⟨hs, hcontains⟩ := Option.filter_eq_some_iff.mp hanswer
      have hmem := hknown s hs
      have haccept : accept a.cursor.plan.elemSize elem answer = .ok s := by
        rw [accept, hanswer]
        exact if_neg (Nat.not_lt.mpr (hlong s hmem))
      refine .inl ⟨s, source, ?_, hmem, hcontains, ?_⟩
      · rw [cover, hreuse]
        simp only [hsupply, Assembly.elemSize, haccept]
      · -- what the supplier may have given up is what the current segment holds now
        intro e he houtside
        have hle : elem ≤ e := (List.mem_cons.mp he).elim (fun h => h.ge) (hbehind e)
        exact hafter e hle (hs ▸ houtside)
    | none =>
      have haccept : accept a.cursor.plan.elemSize elem answer = .error (.missingSegment elem) := by
        rw [accept, hanswer]
      refine .inr ⟨?_, { a with source }, ?_⟩
      · intro h
        obtain ⟨s, rfl, hcontains⟩ := hheld h
        exact absurd hcontains (by simpa using hanswer)
      · rw [cover, hreuse]
        simp only [hsupply, Assembly.elemSize, haccept]

/-- A pull from known segments that hold the bytes of a storage finds nothing left to do, or no
segment for the first element left, or serves elements off the front of what is left. -/
theorem Ready.next_cases (hknows : SegmentSupplier.Knows segments Fit) {storage : Bytes}
    {a : Assembly σ} (hholds : ∀ s ∈ segments, s.Holds a.elemSize storage)
    (h : a.Ready segments Fit) :
    (a.todo = [] ∧ a.next.1 = none) ∨
      (∃ elem rest, a.todo = elem :: rest ∧ ¬ Segment.Held segments elem ∧
        a.next.1 = some (.error (.missingSegment elem))) ∨
      ∃ c after served, a.next = (some (.ok c), after) ∧ a.todo = served ++ after.todo ∧
        (∀ e ∈ served, Segment.Held segments e) ∧
        c.view = some ⟨storage.elements a.elemSize served, a.elemSize⟩ ∧
        after.Ready segments Fit ∧ after.elemSize = a.elemSize := by
  rcases h.toSteady.next_cases h.working with
    ⟨hdone, hnext⟩ | ⟨run, cursor, -, hplan, hrun, htodo, hsteady, hnext⟩
  · exact .inl ⟨hdone, by rw [hnext]⟩
  right
  have helems := Stretch.elems_eq_cons hrun
  have hlong : ∀ s ∈ segments,
      s.count * elemSize { a with cursor, pending := none } ≤ s.data.length := by
    intro s hs
    rw [(hholds s hs).length_eq, Assembly.elemSize, Assembly.elemSize, hplan]
  -- whatever segment serves the run holds its first element, and all others lie behind that one
  have hfront : a.todo = run.elem :: (List.range' (run.elem + 1) (run.count - 1) ++ cursor.elems) := by
    rw [htodo, helems, List.cons_append]
  have hbehind : ∀ e ∈ List.range' (run.elem + 1) (run.count - 1) ++ cursor.elems, run.elem ≤ e :=
    fun e he => ((List.pairwise_cons.mp (hfront ▸ h.ordered)).1 e he).le
  rcases cover_of_knows hknows hlong h.current (hfront ▸ h.reaches) hbehind with
    ⟨s, source, hcover, hmem, hcontains, hreaches⟩ | ⟨hmissing, after, hcover⟩
  · have hcovered : Steady { a with cursor, pending := none, source, current := some s } :=
      ⟨hsteady.inStep, hsteady.whole, hsteady.rest⟩
    obtain ⟨n, pending, -, hend, -, hserve, hafterSteady, hparts⟩ :=
      hcovered.serve rfl hrun hcontains
    rw [hcover] at hnext
    simp only [hserve] at hnext
    have hsplit := htodo.trans hparts
    have hfirst := (Segment.contains_iff.mp hcontains).1
    have hknown : ∀ t, some s = some t → t ∈ segments := by
      rintro _ ⟨⟩
      exact hmem
    have hsize : elemSize { a with cursor, pending := none, source, current := some s } =
        a.elemSize := congrArg Plan.elemSize hplan
    refine .inr ⟨_, _, _, hnext, hsplit, ?held, ?view, ?ready, hsize⟩
    case held => exact fun e he => Segment.held_of_mem_range' hmem hfirst hend he
    case view =>
      rw [hsize]
      exact (hholds s hmem).view_eq hfirst hend run.dest
    case ready => exact h.advance hsplit hafterSteady h.working hknown (hfront ▸ hreaches)
  · rw [hcover] at hnext
    exact .inl ⟨run.elem, _, hfront, hmissing, by rw [hnext]⟩

/-! ## §4 The run -/

/-- All that is left is served, or all up to the first element that no segment holds. -/
theorem Ready.collect_eq (hknows : SegmentSupplier.Knows segments Fit) {storage : Bytes}
    {a : Assembly σ} (hholds : ∀ s ∈ segments, s.Holds a.elemSize storage)
    (h : a.Ready segments Fit) (hand : Array UInt8) :
    a.collect hand =
      match a.todo.find? fun e => ¬ Segment.Held segments e with
      | some e => .error (.missingSegment e)
      | none => .ok (hand.toList ++ storage.elements a.elemSize a.todo) := by
  rcases h.next_cases hknows hholds with ⟨hdone, hnext⟩ |
    ⟨elem, rest, htodo, hmissing, hnext⟩ |
    ⟨c, after, served, hnext, htodo, hheld, hview, hready, hsize⟩
  · rw [collect_of_done hnext, hdone]
    simp
  · rw [collect_of_error hnext, htodo, List.find?_cons_of_pos (by simpa using hmissing)]
  · -- what was served is held, so the first missing element is among the rest
    have hserved : served.find? (fun e => ¬ Segment.Held segments e) = none := by
      simpa [List.find?_eq_none] using hheld
    rw [collect_of_chunk hnext hview, hready.collect_eq hknows (hsize ▸ hholds), htodo,
      List.find?_append, hserved, Option.none_or, hsize, Bytes.elements_append]
    simp only [Array.toList_appendList, List.append_assoc]
termination_by a.work
decreasing_by exact left_next hnext

variable {shape : Shape} {selection : Selection} {elemSize : Nat} {source : σ}

theorem ready_start (hknows : SegmentSupplier.Knows segments Fit) (hfit : Fit 0 source)
    (hfits : selection.Fits shape) {plan : Plan}
    (hplan : Plan.ofSelection shape elemSize selection 0 = .ok plan) :
    Ready segments Fit { cursor := ⟨plan, 0⟩, source } where
  inStep := PlanCursor.inStep_zero plan
  whole := Plan.perChunk_pos hplan
  rest := nofun
  working := rfl
  ordered := by
    rw [todo_start hplan]
    exact Selection.pairwise_elems hfits
  current := nofun
  reaches := fun e _ _ => hknows.later hfit (Nat.zero_le e)

end Assembly

end Granule
