import Granule.Proofs.Grid.Assembly

/-!
# Suppliers That Answer Alike

An assembly learns of its supplier only the answers. Continued from another supplier
that answers alike, it does the same; and it asks for none but selected elements, so
how the two suppliers would answer for other elements is of no account.

**Main statements**:
- `Assembly.next_withSource` : one pull from suppliers that answer it alike
- `Assembly.collect_withSource` : a whole run, by what one pull keeps up
- `Assembly.run_of_alike` : suppliers that are alike for the selected elements give the same result
-/

namespace Granule

variable {σ τ : Type}

/-! ## §1 Another supplier -/

/-- Two suppliers give the same answer to a request, and are related when they have given it. -/
def SegmentSupplier.AnswerAlike [SegmentSupplier σ] [SegmentSupplier τ] (Related : σ → τ → Prop)
    (left : σ) (right : τ) (elem : Nat) : Prop :=
  (supply left elem).1 = (supply right elem).1 ∧
    Related (supply left elem).2 (supply right elem).2

namespace Assembly

open SegmentSupplier (AnswerAlike)

def withSource (a : Assembly σ) (source : τ) : Assembly τ :=
  { cursor := a.cursor, source, current := a.current, pending := a.pending, failed := a.failed }

theorem take_withSource (a : Assembly σ) (source : τ) :
    (a.withSource source).take =
      a.take.map fun (run, taken) => (run, taken.withSource source) := by
  unfold take
  rw [show (a.withSource source).pending = a.pending from rfl,
    show (a.withSource source).cursor = a.cursor from rfl]
  cases a.pending with
  | some run => rfl
  | none => cases a.cursor.nextStretch <;> rfl

theorem serve_withSource (a : Assembly σ) (source : τ) (run : Stretch) (s : Segment) :
    (a.withSource source).serve run s =
      ((a.serve run s).1, (a.serve run s).2.withSource source) := by
  unfold serve
  simp only
  split <;> rfl

theorem source_serve (a : Assembly σ) (run : Stretch) (s : Segment) :
    (a.serve run s).2.source = a.source := by
  unfold serve
  simp only
  split <;> rfl

/-- Taking a run leaves the supplier alone. -/
theorem source_take {a taken : Assembly σ} {run : Stretch} (h : a.take = some (run, taken)) :
    taken.source = a.source := by
  unfold take at h
  split at h
  · cases h
    rfl
  · split at h
    · cases h
      rfl
    · cases h

variable [SegmentSupplier σ] [SegmentSupplier τ]

variable {Related : σ → τ → Prop} {a : Assembly σ} {source : τ}

theorem cover_withSource {elem : Nat} (hrelated : Related a.source source)
    (halike : AnswerAlike Related a.source source elem) :
    ∃ after, (a.withSource source).cover elem =
        ((a.cover elem).1, (a.cover elem).2.withSource after) ∧
      Related (a.cover elem).2.source after := by
  unfold cover
  rw [show (a.withSource source).current = a.current from rfl]
  cases a.current.filter (·.contains elem) with
  | some s => exact ⟨source, rfl, hrelated⟩
  | none =>
    obtain ⟨hanswer, hafter⟩ := halike
    refine ⟨(SegmentSupplier.supply source elem).2, ?_⟩
    simp only [show (a.withSource source).source = source from rfl, ← hanswer]
    cases (SegmentSupplier.supply a.source elem).1 with
    | error e => exact ⟨rfl, hafter⟩
    | ok supplied =>
      simp only [Assembly.elemSize, withSource]
      cases accept a.cursor.plan.elemSize elem supplied with
      | error e => exact ⟨rfl, hafter⟩
      | ok s => exact ⟨rfl, hafter⟩

/-- **One pull.** From suppliers that answer what it asks for alike, a pull gives the same, and
leaves the suppliers related. -/
theorem next_withSource (Related : σ → τ → Prop) {a : Assembly σ} {source : τ}
    (hrelated : Related a.source source)
    (halike : ∀ run taken, a.take = some (run, taken) →
      AnswerAlike Related a.source source run.elem) :
    ∃ after, (a.withSource source).next = (a.next.1, a.next.2.withSource after) ∧
      Related a.next.2.source after := by
  unfold next
  rw [show (a.withSource source).failed = a.failed from rfl, take_withSource]
  by_cases hfailed : a.failed
  · rw [if_pos hfailed, if_pos hfailed]
    exact ⟨source, rfl, hrelated⟩
  rw [if_neg hfailed, if_neg hfailed]
  cases htake : a.take with
  | none => exact ⟨source, rfl, hrelated⟩
  | some pulled =>
    obtain ⟨run, taken⟩ := pulled
    have hsame := source_take htake
    obtain ⟨after, hcover, hafter⟩ := cover_withSource (a := taken) (hsame ▸ hrelated)
      (hsame ▸ halike run taken htake)
    refine ⟨after, ?_⟩
    simp only [Option.map_some, hcover]
    rcases hcovered : taken.cover run.elem with ⟨e | s, covered⟩
    · rw [hcovered] at hafter
      exact ⟨rfl, hafter⟩
    · rw [hcovered] at hafter
      simp only [serve_withSource, source_serve]
      exact ⟨trivial, hafter⟩

/-- **A whole run.** What every pull keeps up, as long as it hands out chunks, makes the results
the same. -/
theorem collect_withSource (Kept : Assembly σ → τ → Prop)
    (hpull : ∀ a source, Kept a source →
      ∃ after, (a.withSource source).next = (a.next.1, a.next.2.withSource after) ∧
        ∀ c, a.next.1 = some (.ok c) → Kept a.next.2 after)
    (h : Kept a source) (hand : Array UInt8) :
    (a.withSource source).collect hand = a.collect hand := by
  obtain ⟨after, hsame, hkept⟩ := hpull a source h
  -- on the pulls, with the supplier that follows this one as it stands after each
  fun_induction collect a hand generalizing source after with
  | case1 a hand done hnext => exact collect_of_done (by rw [hsame, hnext]) hand
  | case2 a hand e failed hnext => exact collect_of_error (by rw [hsame, hnext]) hand
  | case3 a hand c rest hnext _ hview =>
    have hchunk : (a.withSource source).next = (some (.ok c), rest.withSource after) := by
      rw [hsame, hnext]
    exact collect_of_misplaced hchunk hview hand
  | case4 a hand c rest hnext _ v hview ih =>
    have hchunk : (a.withSource source).next = (some (.ok c), rest.withSource after) := by
      rw [hsame, hnext]
    rw [hnext] at hkept
    have hrest := hkept c rfl
    obtain ⟨after', hsame', hkept'⟩ := hpull rest after hrest
    rw [collect_of_chunk hchunk hview]
    exact ih hrest after' hsame' hkept'

end Assembly

/-! ## §2 Alike for the selected elements -/

/-- Two suppliers that are related before a request for one of these elements answer it alike and
stay related, for that element and all later ones. -/
structure SegmentSupplier.Alike [SegmentSupplier σ] [SegmentSupplier τ] (wanted : Set Nat)
    (Related : Nat → σ → τ → Prop) : Prop where
  later : ∀ {left right elem next}, Related elem left right → elem ≤ next → Related next left right
  supply : ∀ {left right elem}, Related elem left right → elem ∈ wanted →
    AnswerAlike (Related elem) left right elem

namespace Assembly

open SegmentSupplier (AnswerAlike)

variable {wanted : Set Nat} {Related : Nat → σ → τ → Prop}

/-- An assembly whose supplier is related to another one wherever it may still ask it. -/
structure Together (wanted : Set Nat) (Related : Nat → σ → τ → Prop) (a : Assembly σ)
    (source : τ) : Prop extends a.Steady where
  working : a.failed = false
  ordered : a.todo.Pairwise (· < ·)
  wanted : ∀ e ∈ a.todo, e ∈ wanted
  related : ∀ e ∈ a.todo, Related e a.source source

/-- What is taken off the front starts with the first element that is left. -/
theorem Steady.front_of_take {a taken : Assembly σ} (h : a.Steady) {run : Stretch}
    (htake : a.take = some (run, taken)) : ∃ behind, a.todo = run.elem :: behind := by
  rcases h.take_cases with ⟨-, hnone⟩ | ⟨run', cursor, htaken, -, hrun, htodo, -⟩
  · rw [hnone] at htake
    cases htake
  · rw [htaken] at htake
    cases htake
    rw [htodo, Stretch.elems_eq_cons hrun]
    exact ⟨_, List.cons_append⟩

variable [SegmentSupplier σ] [SegmentSupplier τ]

theorem cover_eq (a : Assembly σ) (elem : Nat) :
    ∃ source current, (a.cover elem).2 = { a with source, current } := by
  unfold cover
  split
  · exact ⟨a.source, a.current, rfl⟩
  · simp only
    split
    · exact ⟨_, a.current, rfl⟩
    · split
      · exact ⟨_, a.current, rfl⟩
      · exact ⟨_, _, rfl⟩

/-- A pull that hands out a chunk serves elements off the front of what is left to do. -/
theorem Steady.advance {a : Assembly σ} (h : a.Steady) (hworking : a.failed = false) {c : Chunk}
    (hnext : a.next.1 = some (.ok c)) :
    a.next.2.Steady ∧ a.next.2.failed = false ∧ ∃ served, a.todo = served ++ a.next.2.todo := by
  rcases h.next_cases hworking with
    ⟨-, hdone⟩ | ⟨run, cursor, -, -, hrun, htodo, hsteady, hpull⟩
  · rw [hdone] at hnext
    cases hnext
  · obtain ⟨source, current, hcovered⟩ := cover_eq { a with cursor, pending := none } run.elem
    rcases hcover : cover { a with cursor, pending := none } run.elem with ⟨e | s, covered⟩
    · rw [hcover] at hpull
      rw [hpull] at hnext
      cases hnext
    · rw [hcover] at hpull hcovered
      obtain rfl : covered = _ := hcovered
      have htaken : Steady { a with cursor, pending := none, source, current } :=
        ⟨hsteady.inStep, hsteady.whole, hsteady.rest⟩
      obtain ⟨n, pending, -, -, -, hserve, hafter, hparts⟩ :=
        htaken.serve rfl hrun (contains_of_cover hcover)
      simp only [hserve] at hpull
      rw [hpull]
      exact ⟨hafter, hworking, _, htodo.trans hparts⟩

/-- One pull keeps two suppliers together that are alike for what is left. -/
theorem Together.next (hsuppliers : SegmentSupplier.Alike wanted Related) {a : Assembly σ}
    {source : τ} (h : Together wanted Related a source) :
    ∃ after, (a.withSource source).next = (a.next.1, a.next.2.withSource after) ∧
      ∀ c, a.next.1 = some (.ok c) → Together wanted Related a.next.2 after := by
  have halike : ∀ run taken, a.take = some (run, taken) →
      AnswerAlike (fun left right => ∀ e ∈ a.todo, Related e left right) a.source source
        run.elem := by
    intro run taken htake
    obtain ⟨behind, htodo⟩ := h.toSteady.front_of_take htake
    have hfront : run.elem ∈ a.todo := htodo ▸ List.mem_cons_self
    obtain ⟨hanswer, hafter⟩ :=
      hsuppliers.supply (h.related run.elem hfront) (h.wanted run.elem hfront)
    -- the element asked for is the first one left, and all others come later
    refine ⟨hanswer, fun e he => hsuppliers.later hafter ?_⟩
    rw [htodo] at he
    rcases List.mem_cons.mp he with rfl | he
    · exact le_rfl
    · exact ((List.pairwise_cons.mp (htodo ▸ h.ordered)).1 e he).le
  obtain ⟨after, hnext, hrelated⟩ := next_withSource _ h.related halike
  refine ⟨after, hnext, fun c hc => ?_⟩
  obtain ⟨hsteady, hworking, served, hsplit⟩ := h.toSteady.advance h.working hc
  have hleft : ∀ e ∈ a.next.2.todo, e ∈ a.todo := by
    intro e he
    rw [hsplit]
    exact List.mem_append_right served he
  have hordered := (List.pairwise_append.mp (hsplit ▸ h.ordered)).2.1
  exact ⟨hsteady, hworking, hordered, fun e he => h.wanted e (hleft e he),
    fun e he => hrelated e (hleft e he)⟩

/-- **Suppliers that are alike for the selected elements** give the same result. -/
theorem run_of_alike (hsuppliers : SegmentSupplier.Alike wanted Related) {left : σ} {right : τ}
    (hrelated : Related 0 left right) {shape : Shape} {elemSize : Nat} {selection : Selection}
    (hwanted : ∀ e ∈ selection.elems shape, e ∈ wanted) :
    (start shape elemSize selection left).bind run =
      (start shape elemSize selection right).bind run := by
  unfold start
  cases hplan : Plan.ofSelection shape elemSize selection 0 with
  | error fault => rfl
  | ok plan =>
    have htodo := todo_start hplan left
    have hfits := (Plan.ofSelection_eq_ok_iff.mp hplan).2.1
    have htogether : Together wanted Related { cursor := ⟨plan, 0⟩, source := left } right := by
      refine ⟨⟨PlanCursor.inStep_zero plan, Plan.perChunk_pos hplan, nofun⟩, rfl, ?_, ?_, ?_⟩
      · rw [htodo]
        exact Selection.pairwise_elems hfits
      · rwa [htodo]
      · exact fun e _ => hsuppliers.later hrelated (Nat.zero_le e)
    exact (collect_withSource (Together wanted Related) (fun _ _ h => h.next hsuppliers) htogether
      #[]).symm

end Assembly

end Granule
