import Granule.Frame.Format
import Granule.Scan.Settings

/-!
# Framing at a Magic

Whether a magic that was found starts a frame, and where that frame ends, is
settled in two steps: the bytes after the magic give a length, which a repair
may replace, and the bytes at the end must be the trailer. An end that fails the
second step may give way to the one that the inner structure shows, or stand
without a trailer, where the settings or a repaired length allow it.

**Main statements**:
- `WireFormat.measure_frame_facts` : a measured frame is long enough and lies inside the source
- `WireFormat.confirm_facts` : so is and does a confirmed one
-/

namespace Granule

/-! ## §1 Frames -/

/-- A frame that was found in a source. -/
structure FrameExtent where
  /-- Where its magic starts. -/
  start : Nat
  /-- One past its last byte. -/
  stop : Nat
  /-- The length comes from a repair. -/
  repaired : Bool
deriving DecidableEq, Repr

/-- What the bytes after a magic settle. -/
inductive Measurement where
  /-- The magic belongs to another format, and its bytes were read up to here. -/
  | foreign (resume : Nat)
  /-- The frame is to be dropped; a repair may have answered before. -/
  | dropped (reason : DropReason) (repaired : Bool)
  /-- The frame has a length. -/
  | framed (frame : FrameExtent)
deriving DecidableEq, Repr

/-- A repair answered for the length. -/
def Measurement.isRepaired : Measurement → Bool
  | .foreign _ => false
  | .dropped _ repaired => repaired
  | .framed frame => frame.repaired

namespace WireFormat

/-! ## §2 The length -/

/-- Takes the length of a frame from its preamble and from what a repair answered. -/
def extent (f : WireFormat) (size : Nat) (p : Preamble) (repair : Option Nat) (start : Nat) :
    Measurement :=
  let total := repair.getD p.declared
  if total < f.minLength then .dropped .tooShort repair.isSome
  else if size < start + total then .dropped .cutOff repair.isSome
  else .framed ⟨start, start + total, repair.isSome⟩

/-- Settles the length of the frame whose magic starts at `start`. Where the source ends
too early, a frame is truncated and a repair has no answer. -/
def measure (f : WireFormat) (source : Source) (start : Nat) : Except IoError Measurement :=
  match noneAtEnd (f.preamble source start) with
  | .error e => .error e
  | .ok none => .ok (.dropped .cutOff false)
  | .ok (some ⟨resume, none⟩) => .ok (.foreign resume)
  | .ok (some ⟨_, some p⟩) =>
    match noneAtEnd (f.repair source p) with
    | .error e => .error e
    | .ok answer => .ok (f.extent source.size p answer.join start)

/-- A measured frame is long enough and lies inside the source. -/
theorem measure_frame_facts {f : WireFormat} {source : Source} {start : Nat}
    {frame : FrameExtent} (h : f.measure source start = .ok (.framed frame)) :
    frame.start = start ∧ start + f.minLength ≤ frame.stop ∧ frame.stop ≤ source.size := by
  unfold measure at h
  split at h
  · cases h
  · cases h
  · cases h
  · split at h
    · cases h
    · simp only [extent, Except.ok.injEq] at h
      split at h
      · cases h
      · split at h
        · cases h
        · cases h
          exact ⟨rfl, by simp only; omega, by simp only; omega⟩

/-- A measured frame has a preamble of its own format. -/
theorem preamble_of_measure {f : WireFormat} {source : Source} {start : Nat}
    {frame : FrameExtent} (h : f.measure source start = .ok (.framed frame)) :
    ∃ resume p, f.preamble source start = .ok ⟨resume, some p⟩ := by
  unfold measure at h
  split at h
  · cases h
  · cases h
  · cases h
  · rename_i resume p hpreamble
    exact ⟨resume, p, noneAtEnd_eq_some_iff.mp hpreamble⟩

/-! ## §3 The trailer -/

/-- The trailer ends at this offset of the source. -/
def hasTrailer (f : WireFormat) (source : Source) (stop : Nat) : Except IoError Bool :=
  let length := f.trailer.length
  if stop < length ∨ source.size < stop then .ok false
  else if length = 0 then .ok true
  else (noneAtEnd (source.readExact (stop - length) length)).map (· = some f.trailer)

/-- The end that the inner structure of a frame shows, if the trailer is there. -/
def impliedStop (f : WireFormat) (source : Source) (start : Nat) : Except IoError (Option Nat) :=
  match noneAtEnd (f.impliedEnd source start) with
  | .error e => .error e
  | .ok none | .ok (some none) => .ok none
  | .ok (some (some stop)) =>
    if stop < start + f.minLength then .ok none
    else (f.hasTrailer source stop).map fun there => if there then some stop else none

/-- Settles the end of a measured frame, or finds its trailer missing. -/
def confirm (f : WireFormat) (settings : ScanSettings) (source : Source) (frame : FrameExtent) :
    Except IoError (Option FrameExtent) :=
  match f.hasTrailer source frame.stop with
  | .error e => .error e
  | .ok true => .ok (some frame)
  | .ok false =>
    -- a repaired length is trusted less, so the inner structure may overrule it
    let inner :=
      if settings.acceptsImpliedEnd || frame.repaired then f.impliedStop source frame.start
      else .ok none
    match inner with
    | .error e => .error e
    | .ok (some stop) => .ok (some { frame with stop })
    | .ok none =>
      .ok (if settings.acceptsNoTrailer || frame.repaired then some frame else none)

theorem hasTrailer_le_size {f : WireFormat} {source : Source} {stop : Nat}
    (h : f.hasTrailer source stop = .ok true) : stop ≤ source.size := by
  unfold hasTrailer at h
  simp only at h
  split at h
  · cases h
  · omega

theorem impliedStop_facts {f : WireFormat} {source : Source} {start stop : Nat}
    (h : f.impliedStop source start = .ok (some stop)) :
    start + f.minLength ≤ stop ∧ stop ≤ source.size := by
  unfold impliedStop at h
  split at h
  · cases h
  · cases h
  · cases h
  · rename_i shown _
    split at h
    · cases h
    · cases ht : f.hasTrailer source shown with
      | error e => simp [ht, Except.map] at h
      | ok there =>
        cases there with
        | false => simp [ht, Except.map] at h
        | true =>
          simp only [ht, Except.map, if_true, Except.ok.injEq, Option.some.injEq] at h
          have := hasTrailer_le_size ht
          omega

/-- A confirmed frame starts where the measured one does, is long enough, and lies inside
the source. -/
theorem confirm_facts {f : WireFormat} {settings : ScanSettings} {source : Source}
    {frame settled : FrameExtent} (h : f.confirm settings source frame = .ok (some settled))
    (hmin : frame.start + f.minLength ≤ frame.stop) (hsize : frame.stop ≤ source.size) :
    settled.start = frame.start ∧ frame.start + f.minLength ≤ settled.stop ∧
      settled.stop ≤ source.size := by
  unfold confirm at h
  split at h
  · cases h
  · cases h; exact ⟨rfl, hmin, hsize⟩
  · simp only at h
    split at h
    · cases h
    · rename_i stop hinner
      cases h
      split at hinner
      · obtain ⟨hlow, hhigh⟩ := impliedStop_facts hinner
        exact ⟨rfl, hlow, hhigh⟩
      · cases hinner
    · simp only [Except.ok.injEq] at h
      split at h
      · cases h; exact ⟨rfl, hmin, hsize⟩
      · cases h

end WireFormat

end Granule
