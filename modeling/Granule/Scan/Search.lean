import Granule.Source

/-!
# Searching a Source

The first occurrence of a pattern is found by reading a source block by block.
The last bytes of a block are kept together with the next one, as many as an
occurrence needs that is cut in two by the end of the block. Bytes that have
been read are named by their place in the source.

The buffer that a machine needs for a search is dealt with in `Granule.Words.Scan`.

**Main statements**:
- `Source.le_of_firstBetween` : an occurrence among bytes is not before the first of them
- `Source.le_of_find` : an occurrence is not before the start of the search
-/

namespace Granule.Source

/-! ## §1 Occurrences among bytes that have been read -/

def occursAt (s : Source) (pos : Nat) : (pattern : Bytes) → Bool
  | [] => true
  | b :: rest => s.data[pos]? == some b && occursAt s (pos + 1) rest

/-- The first offset from `pos` on where a pattern of `length` bytes occurs before `stop`. -/
def firstBetween (s : Source) (pattern : Bytes) (length pos stop : Nat) : Option Nat :=
  if stop < pos + length then none
  else if s.occursAt pos pattern then some pos
  else if pos < stop then firstBetween s pattern length (pos + 1) stop
  else none
termination_by stop - pos

/-- An occurrence is not before the first byte. -/
theorem le_of_firstBetween {s : Source} {pattern : Bytes} {length pos stop found : Nat}
    (h : s.firstBetween pattern length pos stop = some found) : pos ≤ found := by
  fun_induction firstBetween s pattern length pos stop with
  | case1 => cases h
  | case2 => cases h; exact Nat.le_refl _
  | case3 _ _ _ _ ih => exact Nat.le_trans (Nat.le_succ _) (ih h)
  | case4 => cases h

/-! ## §2 Searching block by block -/

/-- An end of the search has been reached; a search without end goes on. -/
def reached (limit : Option Nat) (pos : Nat) : Bool := limit.any (· ≤ pos)

/-- Goes on with a search: the bytes from `base` up to `pos` have been read and are in hand, fewer
of them than `length`, which the pattern has, and the next read takes at least `block` bytes. -/
def findFrom (s : Source) (pattern : Bytes) (length : Nat) (limit : Option Nat) (block : Nat)
    (base pos : Nat) : Except IoError (Option Nat) :=
  match h : s.count pos (block + (length - 1 - (pos - base))) with
  | .error e => .error e
  | .ok 0 => .ok none
  | .ok (more + 1) =>
    -- bytes came in, so the search is nearer to the end of the data
    have := (count_facts h).2 (Nat.succ_pos more)
    let stop := pos + (more + 1)
    match s.firstBetween pattern length base stop with
    | some found => .ok (if limit.all (found + length ≤ ·) then some found else none)
    | none =>
      if reached limit stop then .ok none
      -- an occurrence may start among the last bytes in hand, one fewer than the pattern has
      else findFrom s pattern length limit block (max base (stop - (length - 1))) stop
termination_by s.size - pos

/-- The first occurrence of a pattern at or after `pos`. With a window, all of it lies
within so many bytes from `pos` on. Reads take `block` bytes, or as many as the
pattern has if that is more. -/
def find (s : Source) (pos : Nat) (pattern : Bytes) (window : Option Nat) (block : Nat) :
    Except IoError (Option Nat) :=
  let length := pattern.length
  if length = 0 then .ok (some pos)
  else s.findFrom pattern length (window.map (pos + ·)) (max block length) pos pos

private theorem le_of_findFrom {s : Source} {pattern : Bytes} {length : Nat}
    {limit : Option Nat} {block base pos found : Nat}
    (h : s.findFrom pattern length limit block base pos = .ok (some found)) : base ≤ found := by
  fun_induction findFrom s pattern length limit block base pos with
  | case1 => cases h
  | case2 => cases h
  | case3 base pos more _ _ stop place hplace =>
    split at h
    · cases h; exact le_of_firstBetween hplace
    · cases h
  | case4 => cases h
  | case5 base pos more _ _ stop _ _ ih => exact Nat.le_trans (Nat.le_max_left _ _) (ih h)

/-- An occurrence is not before the start of the search. -/
theorem le_of_find {s : Source} {pos : Nat} {pattern : Bytes} {window : Option Nat}
    {block found : Nat} (h : s.find pos pattern window block = .ok (some found)) :
    pos ≤ found := by
  unfold find at h
  simp only at h
  split at h
  · cases h; exact Nat.le_refl _
  · exact le_of_findFrom h

end Granule.Source
