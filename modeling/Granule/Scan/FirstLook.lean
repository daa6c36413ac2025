import Granule.Scan.Framing
import Granule.Scan.Search

/-!
# A Quick Look at a Source

Whether a source holds frames of a format is guessed from its first magic: the
magic lies within a window at the start, and the frame there has a length, lies
inside the source, and ends in its trailer. The trailer is not asked for where
the length was repaired or the settings are lenient.
-/

namespace Granule.WireFormat

/-- The frame at a magic looks right. -/
def looksLikeFrame (f : WireFormat) (source : Source) (settings : ScanSettings) (start : Nat) :
    Except IoError Bool :=
  match f.preamble source start with
  | .error e => .error e
  | .ok ⟨_, none⟩ => .ok false
  | .ok ⟨_, some p⟩ =>
    match f.repair source p with
    | .error e => .error e
    | .ok repair =>
      match f.extent source.size p repair start with
      | .foreign _ | .dropped _ _ => .ok false
      | .framed frame =>
        if frame.repaired || settings.acceptsImpliedEnd || settings.acceptsNoTrailer then .ok true
        else f.hasTrailer source frame.stop

/-- The first magic of a source starts a frame that looks right. -/
def look (f : WireFormat) (source : Source) (settings : ScanSettings) : Except IoError Bool :=
  match source.find 0 f.magic (some settings.lookWindow) settings.blockSize with
  | .error e => .error e
  | .ok none => .ok false
  | .ok (some start) => f.looksLikeFrame source settings start

/-- The source looks like one of this format; one that cannot be read does not. -/
def looksLike (f : WireFormat) (source : Source) (settings : ScanSettings) : Bool :=
  match f.look source settings with
  | .ok answer => answer
  | .error _ => false

end Granule.WireFormat
