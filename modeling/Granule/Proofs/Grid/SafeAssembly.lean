import Granule.Proofs.Grid.Assemblies

/-!
# Assembly on a Machine Is Safe from Any Supplier

What is said of an assembly from a supplier that may answer anything holds on a machine, as long as
the machine does not give up; and it gives up only where the end of a segment, the number of its
bytes, or a number of the plan has no place in a word. Whatever it does, it does not write outside
of its buffer.

A segment of which the bytes cannot be counted is neither accepted nor refused: it is there that a
supplier can make a machine give up. A failure that the supplier answers with is passed on as it
is, even one that the assembly itself never has.

**Main statements**:
- `Assembly.Underway.runChecked_ne_outOfRange` : nothing is written outside of the buffer
- `Assembly.safe_from_any_supplier` : what any supplier can do to an assembly
-/

namespace Granule

open Checked

variable {σ : Type}

/-! ## §1 Bytes outside of the buffer -/

/-- A machine never touches bytes outside of a buffer to answer a request. -/
def CheckedSupplier.StaysInRange (σ : Type) [CheckedSupplier σ] : Prop :=
  ∀ (source : σ) (elem : Nat), supplyChecked source elem ≠ .error .outOfRange

namespace Assembly

section Run

variable [CheckedSupplier σ] {elemSize : Nat} {shape : Shape} {selection : Selection}
  {plan : Plan}

omit [CheckedSupplier σ] in
theorem containsChecked_ne_outOfRange (s : Segment) (elem : Nat) :
    s.containsChecked elem ≠ .error .outOfRange := by
  unfold Segment.containsChecked
  split
  · exact nofun
  · exact bind_ne_error (word_ne_outOfRange _) fun _ => nofun

omit [CheckedSupplier σ] in
theorem takeChecked_ne_outOfRange (a : Assembly σ) : a.takeChecked ≠ .error .outOfRange := by
  unfold takeChecked
  split
  · exact nofun
  · refine bind_ne_error (Reckoning.run_ne_outOfRange _) fun pulled => ?_
    cases pulled <;> exact nofun

omit [CheckedSupplier σ] in
theorem acceptChecked_ne_outOfRange (elem : Nat) (supplied : Option Segment) :
    acceptChecked elemSize elem supplied ≠ .error .outOfRange := by
  unfold acceptChecked
  split
  · exact nofun
  · refine bind_ne_error (containsChecked_ne_outOfRange _ _) fun holds => ?_
    split
    · exact bind_ne_error (word_ne_outOfRange _) fun _ => nofun
    · exact nofun

theorem coverChecked_ne_outOfRange (hrange : CheckedSupplier.StaysInRange σ) (a : Assembly σ)
    (elem : Nat) : a.coverChecked elem ≠ .error .outOfRange := by
  refine bind_ne_error ?_ fun kept => ?_
  · unfold keptChecked
    split
    · exact nofun
    · exact bind_ne_error (containsChecked_ne_outOfRange _ _) fun _ => nofun
  cases kept with
  | some s => exact nofun
  | none =>
    refine bind_ne_error (hrange _ _) fun ⟨answer, source⟩ => ?_
    cases answer with
    | error e => exact nofun
    | ok supplied =>
      refine bind_ne_error (acceptChecked_ne_outOfRange _ _) fun accepted => ?_
      cases accepted <;> exact nofun

omit [CheckedSupplier σ] in
theorem serveChecked_ne_outOfRange (a : Assembly σ) (run : Stretch) (s : Segment) :
    a.serveChecked run s ≠ .error .outOfRange := by
  refine bind_ne_error (word_ne_outOfRange _) fun stop => ?_
  simp only
  split
  · exact bind_ne_error (word_ne_outOfRange _) fun _ =>
      bind_ne_error (word_ne_outOfRange _) fun _ => nofun
  · exact nofun

/-- No pull touches bytes outside of a buffer, unless the supplier does. -/
theorem nextChecked_ne_outOfRange (hrange : CheckedSupplier.StaysInRange σ) (a : Assembly σ) :
    a.nextChecked ≠ .error .outOfRange := by
  unfold nextChecked
  split
  · exact nofun
  · refine bind_ne_error (takeChecked_ne_outOfRange a) fun taken => ?_
    cases taken with
    | none => exact nofun
    | some pair =>
      refine bind_ne_error (coverChecked_ne_outOfRange hrange _ _) fun ⟨answer, covered⟩ => ?_
      cases answer with
      | error e => exact nofun
      | ok s => exact bind_ne_error (serveChecked_ne_outOfRange _ _ _) fun _ => nofun

theorem pullChecked_ne_outOfRange (hrange : CheckedSupplier.StaysInRange σ) (a : Assembly σ)
    (k : Nat) : a.pullChecked k ≠ .error .outOfRange := by
  induction k generalizing a with
  | zero => exact bind_ne_error (nextChecked_ne_outOfRange hrange a) fun _ => nofun
  | succ k ih => exact bind_ne_error (nextChecked_ne_outOfRange hrange a) fun _ => ih _

/-- A run never writes outside of its buffer. -/
theorem Underway.runChecked_ne_outOfRange
    (hplan : Plan.ofSelection shape elemSize selection 0 = .ok plan) {a : Assembly (Watched σ)}
    (h : Underway selection shape plan 0 a) (hcounted : a.unwatch.Counted elemSize)
    (hrange : CheckedSupplier.StaysInRange σ) : a.unwatch.runChecked ≠ .error .outOfRange := by
  rcases h.runChecked_cases hplan hcounted with hrun | ⟨-, panic, hpanic, hrun⟩ |
    ⟨k, panic, hpull, hrun⟩
  · rw [hrun]
    exact nofun
  · rw [hrun]
    exact fun hsame => hpanic (Except.error.inj hsame)
  · rw [hrun]
    intro hsame
    exact pullChecked_ne_outOfRange hrange _ k (hpull.trans (congrArg _ (Except.error.inj hsame)))

/-! ## §2 Any supplier -/

/-- A machine does what is done by an assembly whose supplier is watched, unless it gives up. -/
structure RunsAs (a : Assembly σ) (w : Assembly (Watched σ)) (selection : Selection)
    (shape : Shape) (elemSize : Nat) : Prop where
  /-- Every pull is that of the watched assembly, where segments have room in words. -/
  pulls : ∀ k, (a.pullChecked k).Gives
    (shape.size * elemSize < wordLimit ∧ CheckedSupplier.HasRoom elemSize a.source)
    (· = w.pulled k)
  /-- A run gives what the pulls give, where there is a buffer for it. -/
  run : a.runChecked.Gives
    ((shape.size * elemSize < wordLimit ∧ CheckedSupplier.HasRoom elemSize a.source) ∧
      selection.size * elemSize < bufferLimit) (· = w.run)
  /-- Nothing is ever written outside of the buffer. -/
  inRange : CheckedSupplier.StaysInRange σ → a.runChecked ≠ .error .outOfRange

/-- **Safe from any supplier.** Whatever a supplier answers, an assembly of a selection that fits
hands out the selected elements in turn, each chunk from the segment accepted last, until all are
handed out or an answer ends it; and it writes nothing outside of its buffer. A machine can only
give up where a number has no place in a word, or the buffer would be too large. -/
theorem safe_from_any_supplier (shape : Shape) (selection : Selection) (elemSize : Nat)
    (source : σ) (hsize : 0 < elemSize) (hfits : selection.Fits shape) :
    (startChecked shape elemSize selection source).Gives (selection.HasRoom shape elemSize 0)
      fun started => ∃ (a : Assembly σ) (w : Assembly (Watched σ)), started = .ok a ∧
        start shape elemSize selection (⟨source, []⟩ : Watched σ) = .ok w ∧
        w.SafeRun selection shape elemSize ∧ a.RunsAs w selection shape elemSize := by
  obtain ⟨plan, hplan⟩ : ∃ plan, Plan.ofSelection shape elemSize selection 0 = .ok plan :=
    ⟨_, Plan.ofSelection_eq_ok_iff.mpr ⟨hsize, hfits, rfl⟩⟩
  have hunder := underway_start hfits hplan source
  have hcounted := counted_start elemSize plan source
  -- the run is read off a second one that writes down what its supplier answers
  refine (gives_startChecked hplan source).mono fun started hstarted =>
    ⟨_, { cursor := ⟨plan, 0⟩, source := ⟨source, []⟩ }, hstarted, ?_, hunder.safeRun hplan, ?_⟩
  · rw [start, hplan]
  · refine ⟨fun k => ?pulls, ?run, hunder.runChecked_ne_outOfRange hplan hcounted⟩
    case pulls =>
      exact (Standing.gives_pullChecked hplan (.inl hunder) k).of_wide
        fun ⟨hshape, hroom⟩ => ⟨hshape, nofun, hroom⟩
    case run =>
      exact (gives_runChecked_start hfits hplan source).mono fun bytes hbytes =>
        hbytes.trans
          (collect_unwatch { cursor := ⟨plan, 0⟩, source := (⟨source, []⟩ : Watched σ) } #[])

/-- The last two columns of a small array, from a supplier whose answers are too short to go far,
reach back, and then miss. -/
theorem safe_from_any_supplier_columns :
    (0 < 2 ∧ (⟨[⟨0, 1, 2⟩, ⟨1, 1, 2⟩]⟩ : Selection).Fits ⟨[2, 3]⟩) ∧
      ∃ (a : Assembly SegmentScript) (w : Assembly (Watched SegmentScript)),
        startChecked ⟨[2, 3]⟩ 2 ⟨[⟨0, 1, 2⟩, ⟨1, 1, 2⟩]⟩
          (⟨[some ⟨1, 1, [2, 3]⟩, some ⟨0, 3, [0, 1, 2, 3, 4, 5]⟩, some ⟨0, 3, []⟩], []⟩ :
            SegmentScript) = .ok (.ok a) ∧
        start ⟨[2, 3]⟩ 2 ⟨[⟨0, 1, 2⟩, ⟨1, 1, 2⟩]⟩
          (⟨⟨[some ⟨1, 1, [2, 3]⟩, some ⟨0, 3, [0, 1, 2, 3, 4, 5]⟩, some ⟨0, 3, []⟩], []⟩, []⟩ :
            Watched SegmentScript) = .ok w ∧
        w.SafeRun ⟨[⟨0, 1, 2⟩, ⟨1, 1, 2⟩]⟩ ⟨[2, 3]⟩ 2 ∧
        a.RunsAs w ⟨[⟨0, 1, 2⟩, ⟨1, 1, 2⟩]⟩ ⟨[2, 3]⟩ 2 := by
  have hgives := safe_from_any_supplier ⟨[2, 3]⟩ ⟨[⟨0, 1, 2⟩, ⟨1, 1, 2⟩]⟩ 2
    (⟨[some ⟨1, 1, [2, 3]⟩, some ⟨0, 3, [0, 1, 2, 3, 4, 5]⟩, some ⟨0, 3, []⟩], []⟩ :
      SegmentScript) (by decide) (by decide)
  obtain ⟨started, hstarted⟩ := hgives.total (by decide)
  obtain ⟨a, w, rfl, hw, hsafe, hruns⟩ := hgives.sound _ hstarted
  exact ⟨by decide, a, w, hstarted, hw, hsafe, hruns⟩

end Run

end Assembly

/-- A supplier that answers every request with the same failure. -/
structure FailingSupplier where
  failure : GridError

instance : SegmentSupplier FailingSupplier where
  supply s _ := (.error s.failure, s)

instance : CheckedSupplier FailingSupplier := .ofSupplier

/-- A segment whose bytes cannot be counted in a word is not refused as one that is too short. And
a failure to place a chunk is passed on, if it is what the supplier answers with. -/
theorem Assembly.short_segment_beyond_words :
    (∃ a, startChecked ⟨[4]⟩ 2 ⟨[⟨0, 1, 1⟩]⟩ (⟨[some ⟨0, 2 ^ 63, []⟩], []⟩ : SegmentScript) =
        .ok (.ok a) ∧ a.pullChecked 0 = .error .overflow ∧ a.runChecked = .error .overflow) ∧
      ∃ a, startChecked ⟨[4]⟩ 2 ⟨[⟨0, 1, 1⟩]⟩ (⟨.misplacedChunk⟩ : FailingSupplier) =
        .ok (.ok a) ∧ a.runChecked = .ok (.error .misplacedChunk) := by
  refine ⟨⟨{ cursor := ⟨⟨2, 0, 1, 1, [], 0⟩, 0⟩, source := _ }, rfl, rfl, ?_⟩,
    ⟨{ cursor := ⟨⟨2, 0, 1, 1, [], 0⟩, 0⟩, source := _ }, rfl, ?_⟩⟩
  · rw [runChecked_eq (by decide), fillChecked_eq]
    rfl
  · rw [runChecked_eq (by decide), fillChecked_eq]
    rfl

end Granule
