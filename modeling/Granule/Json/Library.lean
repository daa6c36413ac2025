import Granule.Json.Document

/-!
# Libraries for Records in JSON

A record is written as JSON and read back by a library that is told its fields: their
names, the kinds of their values, and what stands for a field that is left out.
The library reads a text level by level and hands the members of an object, one
after the other, to code that is generated from the declared fields; this code keeps the value
of each field in a slot, and completes the record when the members end.

The library is a parameter of all that is written and read with it. `Library.plain` is the one
that programs run with here.
-/

namespace Granule.Json

/-! ## §1 Fields -/

/-- The kind of the values of a field. -/
inductive FieldKind where
  | natural
  | boolean
deriving DecidableEq, Repr

/-- The largest number that a field takes. -/
def maxNatural : Nat := UInt64.size - 1

/-- The value is of the kind. -/
def FieldKind.takes : FieldKind → Value → Bool
  | natural, .natural n => n ≤ maxNatural
  | boolean, .boolean _ => true
  | _, _ => false

/-- A field as a record declares it. -/
structure FieldDecl where
  name : String
  kind : FieldKind
  /-- The value of the field where it is left out. Without one the field has to be there. -/
  absent : Option Value
deriving DecidableEq, Repr

/-- The values of fields that are known so far, by the names of the fields. -/
def Slots : Type := String → Option Value

namespace Slots

def empty : Slots := fun _ => none

def fill (slots : Slots) (name : String) (value : Value) : Slots :=
  fun n => if n = name then some value else slots n

end Slots

/-! ## §2 Libraries -/

/-- A library that writes records as JSON and reads them back, with the code that it generates
for the fields of a record. -/
structure Library where
  /-- The text of a record with named values, in their order. -/
  write : List (String × Value) → String
  /-- The outermost level of a text. -/
  read : String → Option Document
  /-- The slots after one more member of an object. -/
  keep : List FieldDecl → Slots → List Char × Value → Option Slots
  /-- The values of all fields after the last member. -/
  complete : List FieldDecl → Slots → Option (List Value)
  /-- The values of all fields that the items of an array stand for. -/
  sequence : List FieldDecl → List Value → Option (List Value)

/-- The values of declared fields in a text. -/
def Library.values? (lib : Library) (fields : List FieldDecl) (text : String) :
    Option (List Value) := do
  match ← lib.read text with
  | .object members =>
    let slots ← members.foldlM (lib.keep fields) Slots.empty
    lib.complete fields slots
  | .array items => lib.sequence fields items

/-! ## §3 A plain library -/

/-- A member is passed over where no field has its name. It is refused where its field is known
already, or is of another kind. -/
def keepMember (fields : List FieldDecl) (slots : Slots) (member : List Char × Value) :
    Option Slots :=
  match fields.find? (·.name.toList = member.1) with
  | none => some slots
  | some f =>
    if (slots f.name).isNone && f.kind.takes member.2 then some (slots.fill f.name member.2)
    else none

def completeFields (fields : List FieldDecl) (slots : Slots) : Option (List Value) :=
  fields.mapM fun f => (slots f.name).or f.absent

/-- The items of an array stand for the fields in their order. There may be fewer of them. -/
def sequenceFields (fields : List FieldDecl) (items : List Value) : Option (List Value) :=
  if items.length ≤ fields.length then do
    let members := (fields.map (·.name.toList)).zip items
    let slots ← members.foldlM (keepMember fields) Slots.empty
    completeFields fields slots
  else none

/-- The library that reads documents as `Document.parse?` does. -/
def Library.plain : Library where
  write := Document.renderObject
  read := Document.parse?
  keep := keepMember
  complete := completeFields
  sequence := sequenceFields

end Granule.Json
