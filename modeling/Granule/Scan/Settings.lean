/-!
# Scan Settings and Counters

How a scan is to go about its work, and what it counts on the way.

**Main statement**: `ScanTally.dropped_add` — every dropped frame is counted once.
-/

namespace Granule

/-! ## §1 Settings -/

/-- The settings of a scan, fixed from its start. -/
structure ScanSettings where
  /-- How many bytes from the start a quick look at a source covers. -/
  lookWindow : Nat := 16000
  /-- How many bytes before a record are kept as its header. -/
  headerLimit : Nat := 100
  /-- How many bytes a read of the search takes. -/
  blockSize : Nat := 65536
  /-- A frame may end where its inner structure says, if a trailer is there. -/
  acceptsImpliedEnd : Bool := false
  /-- A frame may lack its trailer. -/
  acceptsNoTrailer : Bool := false
deriving DecidableEq, Repr

/-! ## §2 Counters -/

/-- Why a frame was dropped. -/
inductive DropReason where
  /-- It claims to be shorter than any frame. -/
  | tooShort
  /-- It runs past the end of the source. -/
  | cutOff
  /-- It does not end in its trailer. -/
  | noTrailer
  /-- It cannot be divided into parts. -/
  | undivided
deriving DecidableEq, Repr

/-- What a scan has counted so far. -/
structure ScanTally where
  records : Nat := 0
  /-- Frames dropped for a bad length or a missing trailer. -/
  misframed : Nat := 0
  /-- Frames dropped because they run past the end of the source. -/
  cutOff : Nat := 0
  /-- Frames dropped because they cannot be divided into parts. -/
  undivided : Nat := 0
  /-- Lengths that a repair replaced. -/
  repaired : Nat := 0
  /-- Magics that belong to frames of another format. -/
  foreign : Nat := 0
deriving DecidableEq, Repr

namespace ScanTally

def dropped (s : ScanTally) : Nat :=
  s.misframed + s.cutOff + s.undivided

/-- Counts a dropped frame. -/
def add (s : ScanTally) : DropReason → ScanTally
  | .tooShort | .noTrailer => { s with misframed := s.misframed + 1 }
  | .cutOff => { s with cutOff := s.cutOff + 1 }
  | .undivided => { s with undivided := s.undivided + 1 }

/-- Every dropped frame is counted once. -/
theorem dropped_add (s : ScanTally) (reason : DropReason) :
    (s.add reason).dropped = s.dropped + 1 := by
  cases reason <;> simp only [add, dropped] <;> omega

/-- The counters in one line of text. -/
def summary (s : ScanTally) : String :=
  let dropped := s.dropped
  let framing := s.misframed
  let truncated := s.cutOff
  let undivided := s.undivided
  let repaired := s.repaired
  s!"{s.records} record(s), {dropped} dropped " ++
    s!"({framing} framing, {truncated} truncated, {undivided} unparseable), " ++
    s!"{repaired} repaired length(s)"

end ScanTally

end Granule
