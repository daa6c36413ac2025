import Granule.Json.Token

/-!
# JSON Documents with Simple Members

A document is one object or one array at the outermost level. Of its values
only whole numbers and truth values are kept; every other value is checked to be
well formed and then counts as `other`. Nested values are checked by walking
over their tokens with the open brackets at hand, so that nesting may be as deep
as memory allows.

**Main statement**: `Json.length_skip` — a nested value takes at least one token.
-/

namespace Granule.Json

/-! ## §1 Nested values -/

/-- A bracket that is open. -/
inductive Bracket where
  | brace
  | bracket
deriving DecidableEq, Repr

/-- What may come next inside the innermost open bracket. -/
inductive Expectation where
  | value
  /-- A value, or the end of an array. -/
  | firstValue
  | key
  /-- A key, or the end of an object. -/
  | firstKey
  /-- The colon after a key. -/
  | colon
  /-- A comma, or the end of an array or object. -/
  | separator
deriving DecidableEq, Repr

/-- A place inside a nested value: the open brackets, innermost first. -/
structure Nesting where
  brackets : List Bracket
  expects : Expectation
deriving DecidableEq, Repr

namespace Nesting

def close (n : Nesting) : Nesting := ⟨n.brackets.tail, .separator⟩

/-- The place after a token that starts a value, or is one. -/
def enter (n : Nesting) : Token → Option Nesting
  | .openBrace => some ⟨.brace :: n.brackets, .firstKey⟩
  | .openBracket => some ⟨.bracket :: n.brackets, .firstValue⟩
  | .text _ | .natural _ | .number | .boolean _ | .null => some ⟨n.brackets, .separator⟩
  | _ => none

/-- The place after a token, if the token may come next. -/
def advance (n : Nesting) (token : Token) : Option Nesting :=
  match n.expects, token with
  | .value, token => n.enter token
  | .firstValue, .closeBracket => some n.close
  | .firstValue, token => n.enter token
  | .firstKey, .closeBrace => some n.close
  | .key, .text _ | .firstKey, .text _ => some ⟨n.brackets, .colon⟩
  | .colon, .colon => some ⟨n.brackets, .value⟩
  | .separator, .comma =>
    match n.brackets with
    | .brace :: _ => some ⟨n.brackets, .key⟩
    | .bracket :: _ => some ⟨n.brackets, .value⟩
    | [] => none
  | .separator, .closeBrace => if n.brackets.head? = some .brace then some n.close else none
  | .separator, .closeBracket => if n.brackets.head? = some .bracket then some n.close else none
  | _, _ => none

end Nesting

/-- Walks over tokens until all brackets are closed. -/
def skip (n : Nesting) : List Token → Option (List Token)
  | [] => none
  | token :: rest =>
    match n.advance token with
    | none => none
    | some next => if next.brackets.isEmpty then some rest else skip next rest

/-- A nested value takes at least one token. -/
theorem length_skip {n : Nesting} {ts rest : List Token} (h : skip n ts = some rest) :
    rest.length < ts.length := by
  induction ts generalizing n with
  | nil => cases h
  | cons t ts ih =>
    rw [skip] at h
    split at h
    · cases h
    · split at h
      · cases h; simp
      · have := ih h
        simp only [List.length_cons]
        omega

/-! ## §2 Values -/

/-- A value of the outermost level. -/
inductive Value where
  | natural (n : Nat)
  | boolean (b : Bool)
  /-- Any other value. -/
  | other
deriving DecidableEq, Repr

/-- The text of a value. -/
def Value.render : Value → String
  | .natural n => String.ofList (Nat.toDigits 10 n)
  | .boolean true => "true"
  | .boolean false => "false"
  | .other => "null"

/-- Reads a value, and gives the tokens after it. -/
def readValue : List Token → Option (Value × List Token)
  | .natural n :: rest => some (.natural n, rest)
  | .boolean b :: rest => some (.boolean b, rest)
  | .text _ :: rest | .number :: rest | .null :: rest => some (.other, rest)
  | .openBrace :: rest => (skip ⟨[.brace], .firstKey⟩ rest).map (.other, ·)
  | .openBracket :: rest => (skip ⟨[.bracket], .firstValue⟩ rest).map (.other, ·)
  | _ => none

theorem length_readValue {ts rest : List Token} {value : Value}
    (h : readValue ts = some (value, rest)) : rest.length < ts.length := by
  unfold readValue at h
  split at h
  case h_6 | h_7 =>
    obtain ⟨after, hskip, heq⟩ := Option.map_eq_some_iff.mp h
    cases heq
    have := length_skip hskip
    simp only [List.length_cons]
    omega
  case h_8 => cases h
  all_goals cases h; simp

/-! ## §3 Documents -/

/-- The outermost level of a document. -/
inductive Document where
  /-- Keys and their values, in the order in which they are written. -/
  | object (members : List (List Char × Value))
  | array (items : List Value)
deriving DecidableEq, Repr

/-- The members of an object up to its end, which is the end of the document. -/
def readMembers (hand : Array (List Char × Value)) :
    List Token → Option (List (List Char × Value))
  | .text units :: .colon :: rest =>
    match joinUnits units with
    | none => none
    | some key =>
      match h : readValue rest with
      | some (value, .comma :: more) =>
        have := length_readValue h
        readMembers (hand.push (key, value)) more
      | some (value, [.closeBrace]) => some (hand.push (key, value)).toList
      | _ => none
  | _ => none
termination_by ts => ts.length
decreasing_by
  simp only [List.length_cons] at this ⊢
  omega

/-- The items of an array up to its end, which is the end of the document. -/
def readItems (hand : Array Value) (ts : List Token) : Option (List Value) :=
  match h : readValue ts with
  | some (value, .comma :: more) =>
    have := length_readValue h
    readItems (hand.push value) more
  | some (value, [.closeBracket]) => some (hand.push value).toList
  | _ => none
termination_by ts.length
decreasing_by
  simp only [List.length_cons] at this
  omega

namespace Document

/-- The document that tokens write. -/
def ofTokens? : List Token → Option Document
  | [.openBrace, .closeBrace] => some (.object [])
  | .openBrace :: rest => (readMembers #[] rest).map .object
  | [.openBracket, .closeBracket] => some (.array [])
  | .openBracket :: rest => (readItems #[] rest).map .array
  | _ => none

def parse? (text : String) : Option Document := do
  let ts ← tokens text
  ofTokens? ts

/-! ## §4 Writing objects -/

/-- A member without blanks. The key needs no escapes. -/
def renderMember (key : String) (value : Value) : String :=
  "\"" ++ key ++ "\":" ++ value.render

def renderObject (members : List (String × Value)) : String :=
  "\x7b" ++ ",".intercalate (members.map fun m => renderMember m.1 m.2) ++ "\x7d"

end Document

end Granule.Json
