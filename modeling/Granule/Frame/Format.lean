import Granule.Source
import Granule.Intern

/-!
# Frame Formats

A frame is a byte string that carries its own length: a magic, a length field
and a body, often ended by a trailer. A format says how the frames of one kind
look, so that a scanner can find, measure, check and divide them; it is a record
of functions, and any such record is a format.

A producer whose length field is too small for its frames needs a repair: a
rule that finds the true length of such a frame.
-/

namespace Granule

/-! ## §1 Parts and preambles -/

/-- A typed part of a frame: the bytes from `start` up to, and not including, `stop`. -/
structure Span where
  kind : Kind
  start : Nat
  stop : Nat
deriving DecidableEq, Repr

def Span.isWithin (s : Span) (size : Nat) : Bool :=
  s.start ≤ s.stop ∧ s.stop ≤ size

/-- What the bytes after a magic say about a frame. -/
structure Preamble where
  /-- Where the magic starts. -/
  magicAt : Nat
  /-- The length field as it is stored. -/
  field : Nat
  /-- The length of the whole frame that the field stands for. -/
  declared : Nat
deriving DecidableEq, Repr

/-- The outcome of reading the bytes after a magic. -/
structure PreambleReading where
  /-- Where reading stopped. -/
  resume : Nat
  /-- What was read, unless the magic belongs to a frame of another format. -/
  preamble : Option Preamble
deriving DecidableEq, Repr

/-! ## §2 Failures -/

/-- How a frame breaks the rules of its format. -/
inductive Malformation where
  /-- The frame starts with something else than this. -/
  | start (expected : String)
  /-- The header of a part at `pos` reaches past the payload. -/
  | partHeader (pos : Nat)
  /-- The data of a part reaches past the payload. -/
  | partData (kind : Kind) (length : Nat)
  /-- A section should start at `pos`, past the body. -/
  | sectionStart (name : String) (pos : Nat)
  /-- A section cannot have this length. -/
  | sectionLength (name : String) (length pos frameSize : Nat)
  /-- A section is too short to hold its fields. -/
  | sectionShort (name : String) (length : Nat)
deriving DecidableEq, Repr

/-- Why a frame cannot be divided into parts. -/
inductive DivisionError where
  | malformed (how : Malformation)
  /-- The frame has fewer bytes than any frame of its format. -/
  | truncated (needed available : Nat)
deriving DecidableEq, Repr

/-- The text of a malformation. -/
def Malformation.message : Malformation → String
  | .start expected => s!"frame does not start with {expected}"
  | .partHeader pos => s!"part header at {pos} overruns payload"
  | .partData kind length =>
    s!"part of kind {kind.toNat} with {length} bytes overruns payload"
  | .sectionStart name pos => s!"{name} section at {pos} starts past the message body"
  | .sectionLength name length pos frameSize =>
    s!"{name} section length {length} at {pos} overruns message of {frameSize} bytes"
  | .sectionShort name length => s!"{name} section too short: {length}"

/-- The text of a division error. -/
def DivisionError.message : DivisionError → String
  | .malformed how => "Malformed record: " ++ how.message
  | .truncated needed available =>
    s!"Record truncated: needs {needed} bytes, has {available}"

/-! ## §3 Length repairs -/

/-- A rule that may replace the declared length of a frame. -/
abbrev LengthRule := Source → Preamble → Except IoError (Option Nat)

/-- Every declared length stands. -/
def LengthRule.none : LengthRule := fun _ _ => .ok Option.none

/-- One length for all frames, or for those with a certain length field. -/
def LengthRule.fixed (whenField : Option Nat) (length : Nat) : LengthRule := fun _ p =>
  .ok (if whenField.all (· = p.field) then some length else Option.none)

/-! ## §4 Formats -/

/-- How far past a bad magic the search for the next one resumes, unless a format
says otherwise. -/
def usualResyncDistance : Nat := 20

/-- The frames of one kind. -/
structure WireFormat where
  name : String
  /-- Starts every frame. -/
  magic : Bytes
  /-- Ends every well-formed frame; it may be empty. -/
  trailer : Bytes
  /-- The length of the shortest frame. -/
  minLength : Nat
  /-- How far past a bad magic the search for the next one resumes. -/
  resyncDistance : Nat := usualResyncDistance
  /-- Reads what follows the magic at an offset. -/
  preamble : Source → (magicAt : Nat) → Except IoError PreambleReading
  /-- Finds the true length of a frame whose field cannot hold it. -/
  repair : LengthRule := LengthRule.none
  /-- Where the inner structure of the frame at an offset says that the frame ends. -/
  impliedEnd : Source → (magicAt : Nat) → Except IoError (Option Nat) := fun _ _ => .ok none
  /-- Divides a frame into parts. -/
  divide : Bytes → Except DivisionError (List Span)
  /-- Parts of this kind recur, and are kept once. -/
  recurs : Kind → Bool

/-! ## §5 Varied formats -/

/-- In what a format is varied. -/
structure Variation where
  resyncDistance : Option Nat := none
  /-- The length that the inner structure of every frame shows. -/
  impliedLength : Option Nat := none
  /-- A length field that only frames of another format have. -/
  foreignField : Option Nat := none
  /-- Every magic belongs to another format, and nothing after it is read. -/
  allForeign : Bool := false
  minLength : Option Nat := none
  /-- The parts that every frame is divided into. -/
  spans : Option (List Span) := none
deriving DecidableEq, Repr

namespace Variation

/-- The varied reading of a preamble. -/
def preamble (o : Variation) (f : WireFormat) (source : Source) (magicAt : Nat) :
    Except IoError PreambleReading :=
  if o.allForeign then .ok ⟨magicAt + f.magic.length, none⟩
  else
    (f.preamble source magicAt).map fun reading =>
      { reading with
        preamble := reading.preamble.filter fun p => o.foreignField ≠ some p.field }

/-- The varied end that the inner structure shows. -/
def impliedEnd (o : Variation) (f : WireFormat) (source : Source) (magicAt : Nat) :
    Except IoError (Option Nat) :=
  match o.impliedLength with
  | some length => .ok (some (magicAt + length))
  | none => f.impliedEnd source magicAt

/-- The varied division into parts. -/
def divide (o : Variation) (f : WireFormat) (frame : Bytes) :
    Except DivisionError (List Span) :=
  match o.spans with
  | some spans => .ok spans
  | none => f.divide frame

end Variation

namespace WireFormat

/-- The format with some respects varied. Declared lengths stay those of the
format itself, also under another shortest length. -/
def vary (f : WireFormat) (o : Variation) : WireFormat :=
  { f with
    resyncDistance := o.resyncDistance.getD f.resyncDistance
    minLength := o.minLength.getD f.minLength
    preamble := o.preamble f
    impliedEnd := o.impliedEnd f
    divide := o.divide f }

end WireFormat

end Granule
