import Granule.Grid.Selection
import Granule.Tile.Header

/-!
# Transfer Failures

Everything that can stop the transfer of a selection: the selection itself, a
supplier of decoded segments, a tile, or the storage.
-/

namespace Granule

/-- Why a selection could not be planned or transferred. -/
inductive GridError where
  /-- The selection, or what comes with it, is refused. -/
  | invalid (fault : Selection.Fault)
  /-- No segment holds this storage element. -/
  | missingSegment (elem : Nat)
  /-- A segment has fewer bytes than its elements need. -/
  | shortSegment (first expected actual : Nat)
  /-- A chunk does not lie where the transfer looks for it. -/
  | misplacedChunk
  /-- A tile could not be read. -/
  | tile (e : Tile.Error)
  /-- The storage could not be read or written. -/
  | io (e : IoError)
deriving DecidableEq, Repr

/-- The text of a transfer failure. -/
def GridError.message : GridError → String
  | .invalid fault => "Invalid section: " ++ fault.message
  | .missingSegment elem => s!"No segment supplies storage element {elem}"
  | .shortSegment first expected actual =>
    s!"Segment at element {first} holds {actual} bytes, expected {expected}"
  | .misplacedChunk => "Chunk source variant does not match the transfer driver"
  | .tile e => "Tile error: " ++ e.message
  | .io e => "IO error: " ++ e.message

end Granule
