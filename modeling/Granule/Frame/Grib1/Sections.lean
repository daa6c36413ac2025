import Granule.Frame.Format

/-!
# Sections of a GRIB Message

After its indicator a message is a sequence of sections, each starting with its
own length in three bytes, most significant first. The product definition comes
first, and two flags in it say whether a grid definition and a bit map follow;
the binary data come last.

| section | length | present |
|---------|--------|---------|
| indicator | 8 bytes | always |
| product definition | 8 bytes or more | always |
| grid definition | 3 bytes or more | flag 0x80 |
| bit map | 3 bytes or more | flag 0x40 |
| binary data | 11 bytes or more | always |

Sections are found in two ways: inside a frame, which is divided into them, and
on a source, where only their lengths are read.

**Main statement**: `Grib1.Section.span_facts` — a section found in a frame lies before the
limit.
-/

namespace Granule.Grib1

/-! ## §1 Sections -/

/-- The sections with a length of their own. -/
inductive Section where
  | product
  | grid
  | bitmap
  | data
deriving DecidableEq, Repr

def indicatorKind : Kind := 0

/-- The number of bytes of the indicator: magic, length and edition. -/
def indicatorLength : Nat := 8

/-- The bytes of a section length, and thus of the shortest section. -/
def lengthWidth : Nat := 3

def flagsOffset : Nat := 7

namespace Section

/-- The kind of the part that holds a section. -/
def kind : Section → Kind
  | .product => 1
  | .grid => 2
  | .bitmap => 3
  | .data => 4

/-- The name of a section. -/
def name : Section → String
  | .product => "product definition"
  | .grid => "grid definition"
  | .bitmap => "bit map"
  | .data => "binary data"

/-- The bytes that a section needs for its fixed fields. -/
def minLength : Section → Nat
  | .product => 8
  | .grid => 3
  | .bitmap => 3
  | .data => 11

/-- The optional sections that the flags announce, in order. -/
def announced (flags : UInt8) : List Section :=
  (if flags &&& 0x80 ≠ 0 then [.grid] else []) ++ (if flags &&& 0x40 ≠ 0 then [.bitmap] else [])

/-! ## §2 Sections in a frame -/

/-- The section at `pos` of a frame whose body ends at `limit`. -/
def span (s : Section) (frame : Bytes) (limit pos : Nat) : Except DivisionError Span :=
  if limit < pos + lengthWidth then .error (.malformed (.sectionStart s.name pos))
  else
    let length := Bytes.toNatBE (frame.between pos (pos + lengthWidth))
    if length < lengthWidth ∨ limit < pos + length then
      .error (.malformed (.sectionLength s.name length pos frame.length))
    else if length < s.minLength then .error (.malformed (.sectionShort s.name length))
    else .ok ⟨s.kind, pos, pos + length⟩

/-- Several sections, one behind the other, from `pos` on. -/
def spans (frame : Bytes) (limit : Nat) : (pos : Nat) → List Section →
    Except DivisionError (List Span)
  | _, [] => .ok []
  | pos, s :: rest =>
    match s.span frame limit pos with
    | .error e => .error e
    | .ok found => (spans frame limit found.stop rest).map (found :: ·)

/-- A section that was found starts where it was looked for, has room for its fixed
fields, and ends before the limit. -/
theorem span_facts {s : Section} {frame : Bytes} {limit pos : Nat} {found : Span}
    (h : s.span frame limit pos = .ok found) :
    found.kind = s.kind ∧ found.start = pos ∧ pos + s.minLength ≤ found.stop ∧
      found.stop ≤ limit := by
  unfold span at h
  split at h
  · cases h
  · simp only at h
    split at h
    · cases h
    · split at h
      · cases h
      · cases h
        exact ⟨rfl, rfl, by simp only; omega, by simp only; omega⟩

end Section

/-! ## §3 Sections on a source -/

/-- Walks over `count` sections from `pos` on, and gives up at one that is too short
to hold its own length. -/
def passSections (source : Source) : (count pos : Nat) → Except IoError (Option Nat)
  | 0, pos => .ok (some pos)
  | n + 1, pos =>
    match source.readNat pos lengthWidth with
    | .error e => .error e
    | .ok length =>
      if length < lengthWidth then .ok none else passSections source n (pos + length)

/-- Where the binary data of a message start, given where its product definition
starts, how long that is, and its flags. -/
def dataStart (source : Source) (productStart productLength : Nat) (flags : UInt8) :
    Except IoError (Option Nat) :=
  if productLength < Section.minLength .product then .ok none
  else passSections source (Section.announced flags).length (productStart + productLength)

def readByte (source : Source) (pos : Nat) : Except IoError UInt8 :=
  (source.readNat pos 1).map UInt8.ofNat

end Granule.Grib1
