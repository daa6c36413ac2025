import Granule.Source

/-!
# Storage

Storage is a byte string that is written at offsets. Storage that may grow
fills the gap before a write past its end with zeros; storage of fixed size
takes what fits of a write and refuses the rest.

**Main statement**: `Storage.room_eq_iff` — when all of a write fits.
-/

namespace Granule

/-- Bytes that can be overwritten, and perhaps added to. -/
structure Storage where
  bytes : Bytes
  /-- Bytes may be added at the end. -/
  grows : Bool := true
deriving DecidableEq, Repr

namespace Storage

def size (s : Storage) : Nat := s.bytes.length

def room (s : Storage) (pos count : Nat) : Nat :=
  if s.grows then count else min count (s.size - pos)

/-- The byte string with a part laid over it from offset `pos` on. -/
def overlay (bs : Bytes) (pos : Nat) (part : Bytes) : Bytes :=
  match part with
  | [] => bs
  | _ => bs.take pos ++ List.replicate (pos - bs.length) 0 ++ part ++ bs.drop (pos + part.length)

/-- Writes what fits of a part from offset `pos` on, and fails if that is not all of it. -/
def write (s : Storage) (pos : Nat) (part : Bytes) : Option IoError × Storage :=
  let room := s.room pos part.length
  (if room = part.length then none else some .storageFull,
    { s with bytes := overlay s.bytes pos (part.take room) })

/-- Everything fits, unless it reaches past the end of storage of fixed size. -/
theorem room_eq_iff (s : Storage) (pos count : Nat) :
    s.room pos count = count ↔ s.grows = true ∨ count = 0 ∨ pos + count ≤ s.size := by
  unfold room
  split
  · simp [*]
  · simp only [Bool.not_eq_true] at *
    simp only [*, Bool.false_eq_true, false_or]
    omega

end Storage

end Granule
