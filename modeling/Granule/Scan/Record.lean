import Granule.Intern

/-!
# Records

A record is a frame that was found in a source, divided into parts. A part of a
recurring kind names the entry of the intern table that holds its bytes.
-/

namespace Granule

/-- A part of a record. -/
structure Part where
  /-- Where it starts in the source. -/
  offset : Nat
  content : TypedBytes
  /-- Its place in the intern table, if parts of its kind are kept once. -/
  interned : Option Nat
deriving DecidableEq, Repr

/-- A frame and its parts. -/
structure Record where
  /-- The last bytes between what came before and the magic. -/
  header : Bytes
  /-- Where the magic starts. -/
  start : Nat
  /-- One past the last byte. -/
  stop : Nat
  parts : List Part
  /-- The length comes from a repair and not from the length field. -/
  isRepaired : Bool
deriving DecidableEq, Repr

namespace Record

def length (r : Record) : Nat := r.stop - r.start

def isEmpty (r : Record) : Bool := r.stop = r.start

def firstOf? (r : Record) (kind : Kind) : Option Part :=
  r.parts.find? (·.content.kind == kind)

def allOf (r : Record) (kind : Kind) : List Part :=
  r.parts.filter (·.content.kind == kind)

end Record

end Granule
