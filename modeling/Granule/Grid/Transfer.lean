import Granule.Grid.Plan
import Granule.Grid.Error
import Granule.Grid.Storage

/-!
# Transfers

A plan is carried out chunk by chunk: the selected elements are gathered from a
source or from bytes in memory, or scattered into storage. Gathered elements
are bytes in the row-by-row order of the selection.

Gathered parts are joined in the order of their chunks. A machine puts each into its place of a
buffer instead: see `Granule.Words.Transfer`.

**Main statement**: `Plan.collect_eq` — what is collected is one part per chunk, in order.
-/

namespace Granule

/-- Plans the transfer of a selection of an array; storage starts at byte `dataStart`. -/
def Plan.make (shape : Shape) (elemSize : Nat) (selection : Selection) (dataStart : Nat) :
    Except GridError Plan :=
  (Plan.ofSelection shape elemSize selection dataStart).mapError .invalid

namespace Plan

/-! ## §1 Gathering -/

/-- Appends the bytes of a stored chunk, found by `fetch` from their position and
their number. -/
def appendChunk (fetch : (pos count : Nat) → Except IoError Bytes) (acc : Array UInt8)
    (c : Chunk) : Except GridError (Array UInt8) :=
  match c.storedPos with
  | none => .error .misplacedChunk
  | some pos =>
    match fetch pos c.byteCount with
    | .error e => .error (.io e)
    | .ok part => .ok (acc ++ part)

/-- The bytes of all chunks, one after the other. -/
def collect (p : Plan) (fetch : (pos count : Nat) → Except IoError Bytes) :
    Except GridError Bytes :=
  (p.foldChunks (appendChunk fetch) #[]).map Array.toList

/-- Reads the selected elements from a source. -/
def gather (p : Plan) (source : Source) : Except GridError Bytes :=
  p.collect source.readExact

/-- Copies the selected elements out of bytes in memory. -/
def copy (p : Plan) (storage : Bytes) : Except GridError Bytes :=
  p.collect fun pos count =>
    match storage.slice? pos count with
    | some part => .ok part
    | none => .error (.pastStorage pos storage.length)

def bytePos (p : Plan) (k : Nat) : Nat := p.dataStart + p.elemOf k * p.elemSize

private theorem foldlM_appendChunk (p : Plan)
    (fetch : (pos count : Nat) → Except IoError Bytes) (numbers : List Nat)
    (acc : Array UInt8) :
    ((numbers.map p.chunk).foldlM (appendChunk fetch) acc).map Array.toList =
      match numbers.mapM fun j => fetch (p.bytePos j) (p.perChunk * p.elemSize) with
      | .error e => .error (GridError.io e)
      | .ok parts => .ok (acc.toList ++ parts.flatten) := by
  induction numbers generalizing acc with
  | nil => simp [Except.map, pure, Except.pure]
  | cons k rest ih =>
    have hstep : appendChunk fetch acc (p.chunk k) =
        match fetch (p.bytePos k) (p.perChunk * p.elemSize) with
        | .error e => .error (.io e)
        | .ok part => .ok (acc ++ part) := rfl
    rw [List.map_cons, List.foldlM_cons, List.mapM_cons, hstep]
    cases fetch (p.bytePos k) (p.perChunk * p.elemSize) with
    | error e => rfl
    | ok part =>
      refine (ih (acc ++ part)).trans ?_
      simp only [bind, Except.bind, pure, Except.pure]
      cases rest.mapM fun j => fetch (p.bytePos j) (p.perChunk * p.elemSize) with
      | error e => rfl
      | ok parts => simp

/-- What is collected is one part per chunk, in order. -/
theorem collect_eq (p : Plan) (fetch : (pos count : Nat) → Except IoError Bytes) :
    p.collect fetch =
      match (List.range p.chunkCount).mapM
          fun j => fetch (p.bytePos j) (p.perChunk * p.elemSize) with
      | .error e => .error (.io e)
      | .ok parts => .ok parts.flatten := by
  rw [collect, foldChunks_eq, chunks, foldlM_appendChunk]
  simp

/-! ## §2 Scattering -/

/-- Writes one chunk of the bytes to be scattered. -/
def writeChunk (src : Bytes) (storage : Storage) (c : Chunk) : Option GridError × Storage :=
  match c.storedPos with
  | none => (some .misplacedChunk, storage)
  | some pos =>
    match storage.write pos (src.between c.destOffset (c.destOffset + c.byteCount)) with
    | (none, written) => (none, written)
    | (some e, written) => (some (.io e), written)

/-- Writes the chunks still to come, until one is refused. -/
def scatterFrom (src : Bytes) (c : PlanCursor) (storage : Storage) :
    Option GridError × Storage :=
  match h : c.next with
  | none => (none, storage)
  | some (chunk, rest) =>
    have := PlanCursor.left_next h
    match writeChunk src storage chunk with
    | (none, written) => scatterFrom src rest written
    | (some e, written) => (some e, written)
termination_by c.left

/-- Writes the selected elements, given in row-by-row order, into their places.
Nothing is written unless there are as many bytes as the selection needs. -/
def scatter (p : Plan) (storage : Storage) (src : Bytes) : Option GridError × Storage :=
  if src.length = p.totalBytes then scatterFrom src ⟨p, 0⟩ storage
  else (some (.invalid (.sourceLength src.length p.totalBytes)), storage)

end Plan

end Granule
