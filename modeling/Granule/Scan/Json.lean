import Granule.Json.Library
import Granule.Scan.Settings

/-!
# Scan Settings and Counters as JSON

Settings and counters are written as JSON objects with their fields in a fixed
order, and read from objects in any order or from arrays in that order. Settings
that are left out have their usual values; counters have to be there. The text is written
and read by a library, which is told the fields.
-/

namespace Granule

open Json

namespace ScanSettings

/-- The fields of settings, in their order. -/
def fieldDecls : List FieldDecl :=
  let usual : ScanSettings := {}
  [⟨"sniff_window", .natural, some (.natural usual.lookWindow)⟩,
   ⟨"max_header_len", .natural, some (.natural usual.headerLimit)⟩,
   ⟨"search_block", .natural, some (.natural usual.blockSize)⟩,
   ⟨"allow_inner_length", .boolean, some (.boolean usual.acceptsImpliedEnd)⟩,
   ⟨"allow_missing_trailer", .boolean, some (.boolean usual.acceptsNoTrailer)⟩]

def values (o : ScanSettings) : List Value :=
  [.natural o.lookWindow, .natural o.headerLimit, .natural o.blockSize,
   .boolean o.acceptsImpliedEnd, .boolean o.acceptsNoTrailer]

/-- The settings with the values of fields. -/
def ofValues? : List Value → Option ScanSettings
  | [.natural lookWindow, .natural headerLimit, .natural blockSize,
     .boolean acceptsImpliedEnd, .boolean acceptsNoTrailer] =>
    some { lookWindow, headerLimit, blockSize, acceptsImpliedEnd, acceptsNoTrailer }
  | _ => none

theorem ofValues?_values (o : ScanSettings) : ofValues? o.values = some o := rfl

def toJson (lib : Library) (o : ScanSettings) : String :=
  lib.write ((fieldDecls.map (·.name)).zip o.values)

def ofJson? (lib : Library) (text : String) : Option ScanSettings := do
  let values ← lib.values? fieldDecls text
  ofValues? values

end ScanSettings

namespace ScanTally

def fieldDecls : List FieldDecl :=
  ["records", "framing_faults", "truncated_frames", "parse_faults", "repaired_lengths",
    "foreign_magics"].map fun name => ⟨name, .natural, none⟩

def values (s : ScanTally) : List Value :=
  [s.records, s.misframed, s.cutOff, s.undivided, s.repaired, s.foreign].map .natural

/-- The counters with the values of fields. -/
def ofValues? : List Value → Option ScanTally
  | [.natural records, .natural misframed, .natural cutOff, .natural undivided,
     .natural repaired, .natural foreign] =>
    some { records, misframed, cutOff, undivided, repaired, foreign }
  | _ => none

def toJson (lib : Library) (s : ScanTally) : String :=
  lib.write ((fieldDecls.map (·.name)).zip s.values)

def ofJson? (lib : Library) (text : String) : Option ScanTally := do
  let values ← lib.values? fieldDecls text
  ofValues? values

end ScanTally

end Granule
