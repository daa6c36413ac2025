import Granule.Grid.Transfer
import Granule.Words.Plan

/-!
# Transfers on a Machine

A machine gathers into a buffer that is there before the first byte is read: the bytes of
each chunk are put into the place that the chunk has in it. Scattered bytes are cut out of
the bytes in hand at the same places.

**Main statement**: `Bytes.toList_writeFrom` — bytes put into a buffer replace those of their
place, and no others.
-/

namespace Granule

/-! ## §1 Buffers -/

namespace Bytes

/-- Overwrites the bytes of a buffer from `pos` on, one by one. -/
def writeFrom (dest : Array UInt8) (pos : Nat) : Bytes → Array UInt8
  | [] => dest
  | b :: rest => writeFrom (dest.setIfInBounds pos b) (pos + 1) rest

/-- Puts bytes into the place from `start` up to `stop`, which has to lie in the buffer and to be
as large as they are. -/
def putChecked (dest : Array UInt8) (start stop : Nat) (part : Bytes) : Checked (Array UInt8) :=
  if start ≤ stop ∧ stop ≤ dest.size ∧ part.length = stop - start then
    .ok (writeFrom dest start part)
  else .error .outOfRange

/-- Bytes put into a buffer replace those of their place, and no others. -/
theorem toList_writeFrom {dest : Array UInt8} {pos : Nat} {part : Bytes}
    (h : pos + part.length ≤ dest.size) :
    (writeFrom dest pos part).toList =
      dest.toList.take pos ++ part ++ dest.toList.drop (pos + part.length) := by
  induction part generalizing dest pos with
  | nil => simp [writeFrom]
  | cons b rest ih =>
    simp only [List.length_cons] at h
    have hpos : pos < dest.toList.length := by
      rw [Array.length_toList]
      omega
    rw [writeFrom, ih (by simp only [Array.size_setIfInBounds]; omega),
      Array.toList_setIfInBounds, List.take_succ_eq_append_getElem (by simpa using hpos),
      List.drop_set_of_lt (by omega), List.take_set_of_le (Nat.le_refl pos),
      List.getElem_set_self, List.length_cons, Nat.add_assoc pos 1, Nat.add_comm 1]
    simp

/-- Bytes that are put where the rest of a buffer starts stand behind what is there. -/
theorem toList_writeFrom_append {dest : Array UInt8} {written part : Bytes} {left : Nat}
    (h : dest.toList = written ++ List.replicate left 0) (hroom : part.length ≤ left) :
    (writeFrom dest written.length part).toList =
      written ++ part ++ List.replicate (left - part.length) 0 := by
  have hsize : dest.size = written.length + left := by
    rw [← Array.length_toList, h, List.length_append, List.length_replicate]
  rw [toList_writeFrom (by omega), h, List.take_left, List.drop_append,
    List.drop_eq_nil_of_le (Nat.le_add_right _ _), Nat.add_sub_cancel_left, List.drop_replicate,
    List.nil_append]

/-- There is a place for bytes behind what is there, as long as the rest of a buffer is as large. -/
theorem putChecked_append {dest : Array UInt8} {written part : Bytes} {left : Nat}
    (h : dest.toList = written ++ List.replicate left 0) (hroom : part.length ≤ left) :
    ∃ filled, putChecked dest written.length (written.length + part.length) part = .ok filled ∧
      filled.toList = written ++ part ++ List.replicate (left - part.length) 0 := by
  have hsize : dest.size = written.length + left := by
    rw [← Array.length_toList, h, List.length_append, List.length_replicate]
  exact ⟨_, if_pos (by omega), toList_writeFrom_append h hroom⟩

end Bytes

/-! ## §2 Gathering -/

namespace Plan

/-- Puts the bytes of a stored chunk, found by `fetch` from their position and their number, into
their place. -/
def fillChunk (fetch : (pos count : Nat) → Checked (Except IoError Bytes)) (dest : Array UInt8)
    (c : Chunk) : Checked (Except GridError (Array UInt8)) :=
  match c.storedPos with
  | none => .ok (.error .misplacedChunk)
  | some pos => do
    let count ← c.byteCountChecked
    match ← fetch pos count with
    | .error e => return .error (.io e)
    | .ok part =>
      let (start, stop) ← c.destChecked
      let filled ← Bytes.putChecked dest start stop part
      return .ok filled

/-- Fills a buffer with the bytes of all chunks. -/
def fillChecked (p : Plan) (fetch : (pos count : Nat) → Checked (Except IoError Bytes)) :
    Checked (Except GridError Bytes) := do
  let size ← .word (p.total * p.elemSize)
  .buffer size
  let filled ← PlanCursor.foldChecked (fillChunk fetch) ⟨p, 0⟩ (Array.replicate size 0)
  return filled.map Array.toList

def gatherChecked (p : Plan) (source : Source) : Checked (Except GridError Bytes) :=
  p.fillChecked fun pos count => .ok (source.readExact pos count)

/-- Copies the selected elements out of bytes in memory. -/
def copyChecked (p : Plan) (storage : Bytes) : Checked (Except GridError Bytes) :=
  p.fillChecked fun pos count => do
    let _ ← .word (pos + count)
    return match storage.slice? pos count with
    | some part => .ok part
    | none => .error (.pastStorage pos storage.length)

/-! ## §3 Scattering -/

/-- Writes one chunk of the bytes to be scattered. -/
def writeChunkChecked (src : Bytes) (storage : Storage) (c : Chunk) :
    Checked (Option GridError × Storage) :=
  match c.storedPos with
  | none => .ok (some .misplacedChunk, storage)
  | some pos => do
    let (start, stop) ← c.destChecked
    if src.length < stop then .error .outOfRange
    else
      match storage.write pos (src.between start stop) with
      | (none, written) => return (none, written)
      | (some e, written) => return (some (.io e), written)

/-- Writes the chunks still to come, until one is refused. -/
def scatterFromChecked (src : Bytes) (c : PlanCursor) (storage : Storage) :
    Checked (Option GridError × Storage) :=
  match h : c.nextChecked with
  | .error p => .error p
  | .ok none => .ok (none, storage)
  | .ok (some (chunk, rest)) =>
    have := PlanCursor.left_next (PlanCursor.next_of_nextChecked h)
    match writeChunkChecked src storage chunk with
    | .ok (none, written) => scatterFromChecked src rest written
    | .ok (some e, written) => .ok (some e, written)
    | .error p => .error p
termination_by c.left

/-- Writes the selected elements, given in row-by-row order, into their places. -/
def scatterChecked (p : Plan) (storage : Storage) (src : Bytes) :
    Checked (Option GridError × Storage) := do
  let size ← .word (p.total * p.elemSize)
  if src.length = size then scatterFromChecked src ⟨p, 0⟩ storage
  else return (some (.invalid (.sourceLength src.length size)), storage)

/-- Plans the transfer of a selection of an array; storage starts at byte `dataStart`. -/
def makeChecked (shape : Shape) (elemSize : Nat) (selection : Selection) (dataStart : Nat) :
    Checked (Except GridError Plan) := do
  let made ← ofSelectionChecked shape elemSize selection dataStart
  return made.mapError .invalid

end Plan

end Granule
