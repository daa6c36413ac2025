import Granule.Frame.Format
import Granule.Text.Lossy

/-!
# Tagged Frames

The plain frame format: a magic, the length of the payload in one to eight
bytes, most significant first, the payload, and a trailer. The payload is one
part, or a sequence of parts, each with its kind in one byte, its length in two,
and its data.

**Main statement**: `TaggedFormat.minLength_le_of_divide` — only a frame of at least the
shortest length is divided.
-/

namespace Granule

/-- How a payload is divided. -/
inductive BodyDivision where
  /-- It is one part. -/
  | whole
  /-- It is a sequence of parts that fills it exactly. -/
  | parts
deriving DecidableEq, Repr

/-- The choices that make up a tagged format. -/
structure TaggedFormat where
  magic : Bytes
  /-- Bytes of the length field; fewer than one or more than eight count as one or eight. -/
  lengthWidth : Nat
  trailer : Bytes
  body : BodyDivision := .whole
  /-- The kinds whose parts are kept once. -/
  recurring : List Kind := []
  repair : LengthRule := LengthRule.none
  /-- How far past a bad magic the search resumes; zero counts as one. -/
  resyncDistance : Nat := usualResyncDistance

def payloadKind : Kind := 0

def maxDeclared : Nat := 2 ^ 64 - 1

namespace TaggedFormat

def fieldWidth (t : TaggedFormat) : Nat := max 1 (min 8 t.lengthWidth)

def payloadStart (t : TaggedFormat) : Nat := t.magic.length + t.fieldWidth

def minLength (t : TaggedFormat) : Nat := t.payloadStart + t.trailer.length

def name (t : TaggedFormat) : String := "tagged:" ++ String.ofList t.magic.toText

def declared (t : TaggedFormat) (field : Nat) : Nat :=
  min (field + t.minLength) maxDeclared

/-- Reads the length field. -/
def preamble (t : TaggedFormat) (source : Source) (magicAt : Nat) :
    Except IoError PreambleReading :=
  let start := magicAt + t.magic.length
  (source.readNat start t.fieldWidth).map fun field =>
    ⟨start + t.fieldWidth, some ⟨magicAt, field, t.declared field⟩⟩

/-- The parts of a payload that goes from `pos` to `stop`, behind those in hand. -/
def partsFrom (stop : Nat) (pos : Nat) (hand : Array Span) :
    Bytes → Except DivisionError (List Span)
  | [] => .ok hand.toList
  | kind :: high :: low :: rest =>
    let length := 256 * high.toNat + low.toNat
    let start := pos + 3
    if stop < start + length then .error (.malformed (.partData kind length))
    else
      partsFrom stop (start + length) (hand.push ⟨kind, start, start + length⟩) (rest.drop length)
  | _ :: _ => .error (.malformed (.partHeader pos))
termination_by bs => bs.length
decreasing_by
  simp only [List.length_drop, List.length_cons]
  omega

/-- Divides a frame into parts. -/
def divide (t : TaggedFormat) (frame : Bytes) : Except DivisionError (List Span) :=
  let size := frame.length
  if size < t.minLength then .error (.truncated t.minLength size)
  else if t.magic.isPrefixOf frame then
    let stop := size - t.trailer.length
    match t.body with
    | .whole => .ok [⟨payloadKind, t.payloadStart, stop⟩]
    | .parts => partsFrom stop t.payloadStart #[] (frame.between t.payloadStart stop)
  else .error (.malformed (.start "magic"))

/-- The frame format of these choices. -/
def format (t : TaggedFormat) : WireFormat where
  name := t.name
  magic := t.magic
  trailer := t.trailer
  minLength := t.minLength
  resyncDistance := max 1 t.resyncDistance
  preamble := t.preamble
  repair := t.repair
  divide := t.divide
  recurs := t.recurring.contains

/-- Only a frame of at least the shortest length is divided. -/
theorem minLength_le_of_divide {t : TaggedFormat} {frame : Bytes} {spans : List Span}
    (h : t.divide frame = .ok spans) : t.minLength ≤ frame.length := by
  unfold divide at h
  simp only at h
  split at h
  · cases h
  · omega

end TaggedFormat

end Granule
