/-!
# Tokens of JSON Text

JSON text is read token by token: punctuation, texts in quotes, numbers and
three words, with blanks between them. Reading is strict: a control character
in a text, a leading zero or an unfinished number is refused.

A text is kept as code units, because an escape can stand for half of a
surrogate pair; only where the text is needed are pairs joined, and halves
without a partner refused.

**Main statement**: `Json.length_readToken` — what follows a token is no longer than what
followed its start.
-/

namespace Granule.Json

/-! ## §1 Tokens -/

/-- A token of JSON text. -/
inductive Token where
  | openBrace
  | closeBrace
  | openBracket
  | closeBracket
  | colon
  | comma
  /-- A text in quotes, as code units. -/
  | text (units : List Nat)
  /-- A whole number that is written in digits alone. -/
  | natural (n : Nat)
  /-- Any other number. -/
  | number
  | boolean (b : Bool)
  | null
deriving DecidableEq, Repr

/-! ## §2 Texts -/

/-- The value of a hexadecimal digit. -/
def hexValue? (c : Char) : Option Nat :=
  let n := c.toNat
  if 48 ≤ n ∧ n ≤ 57 then some (n - 48)
  else if 65 ≤ n ∧ n ≤ 70 then some (n - 55)
  else if 97 ≤ n ∧ n ≤ 102 then some (n - 87)
  else none

/-- The number that four hexadecimal digits stand for. -/
def hexUnit? (a b c d : Char) : Option Nat := do
  let a ← hexValue? a
  let b ← hexValue? b
  let c ← hexValue? c
  let d ← hexValue? d
  return ((a * 16 + b) * 16 + c) * 16 + d

/-- The unit that a character after a backslash stands for. -/
def escape? (c : Char) : Option Nat :=
  match c with
  | '"' => some 34
  | '\\' => some 92
  | '/' => some 47
  | 'b' => some 8
  | 'f' => some 12
  | 'n' => some 10
  | 'r' => some 13
  | 't' => some 9
  | _ => none

/-- Reads the rest of a text, up to its closing quote; the units before come in hand,
latest first. -/
def readText (hand : List Nat) : List Char → Option (List Nat × List Char)
  | [] => none
  | '"' :: rest => some (hand.reverse, rest)
  | '\\' :: 'u' :: a :: b :: c :: d :: rest =>
    match hexUnit? a b c d with
    | some unit => readText (unit :: hand) rest
    | none => none
  | '\\' :: c :: rest =>
    match escape? c with
    | some unit => readText (unit :: hand) rest
    | none => none
  | c :: rest => if c.toNat < 32 ∨ c = '\\' then none else readText (c.toNat :: hand) rest

def isLeading (unit : Nat) : Bool := 0xD800 ≤ unit ∧ unit ≤ 0xDBFF

def isTrailing (unit : Nat) : Bool := 0xDC00 ≤ unit ∧ unit ≤ 0xDFFF

/-- The characters of a text, unless it has half a surrogate pair. -/
def joinUnits : List Nat → Option (List Char)
  | [] => some []
  | first :: second :: rest =>
    if isLeading first then
      if isTrailing second then
        (joinUnits rest).map
          (Char.ofNat (0x10000 + (first - 0xD800) * 0x400 + (second - 0xDC00)) :: ·)
      else none
    else if isTrailing first then none
    else (joinUnits (second :: rest)).map (Char.ofNat first :: ·)
  | [unit] => if isLeading unit ∨ isTrailing unit then none else some [Char.ofNat unit]

/-- No character is half a surrogate pair. -/
theorem not_surrogate (c : Char) : isLeading c.toNat = false ∧ isTrailing c.toNat = false := by
  have := c.valid
  simp only [isLeading, isTrailing, decide_eq_false_iff_not, Char.toNat]
  simp only [UInt32.isValidChar, Nat.isValidChar] at this
  omega

/-! ## §3 Numbers -/

def isDigit (c : Char) : Bool := 48 ≤ c.toNat ∧ c.toNat ≤ 57

def digitsValue (digits : List Char) : Nat :=
  digits.foldl (fun n c => 10 * n + (c.toNat - 48)) 0

def readDigits (cs : List Char) : Option (List Char × List Char) :=
  let digits := cs.takeWhile isDigit
  if digits.isEmpty then none else some (digits, cs.dropWhile isDigit)

/-- A fraction, if there is one: whether there is, and what follows it. -/
def readFraction : List Char → Option (Bool × List Char)
  | '.' :: rest => (readDigits rest).map fun r => (true, r.2)
  | cs => some (false, cs)

/-- A sign, if there is one, and what follows it. -/
def passSign : List Char → List Char
  | '+' :: rest => rest
  | '-' :: rest => rest
  | cs => cs

/-- The sign and the digits of an exponent, and what follows them. -/
def readPower (cs : List Char) : Option (Bool × List Char) :=
  (readDigits (passSign cs)).map fun r => (true, r.2)

/-- An exponent, if there is one: whether there is, and what follows it. -/
def readExponent : List Char → Option (Bool × List Char)
  | 'e' :: rest => readPower rest
  | 'E' :: rest => readPower rest
  | cs => some (false, cs)

/-- A number without its sign: a token, and what follows it. -/
def readMagnitude (cs : List Char) : Option (Token × List Char) := do
  let (digits, rest) ← readDigits cs
  -- a zero in front of other digits is refused
  if digits.head? = some '0' ∧ digits.tail ≠ [] then none
  let (hasFraction, rest) ← readFraction rest
  let (hasExponent, rest) ← readExponent rest
  return (if hasFraction || hasExponent then .number else .natural (digitsValue digits), rest)

/-! ## §4 Reading tokens -/

/-- The character may stand between tokens. -/
def isBlank (c : Char) : Bool := c = ' ' ∨ c = '\t' ∨ c = '\n' ∨ c = '\r'

def passWord (word cs : List Char) : Option (List Char) :=
  if word.isPrefixOf cs then some (cs.drop word.length) else none

/-- The token that starts with a character, and what follows it. -/
def readToken (c : Char) (rest : List Char) : Option (Token × List Char) :=
  match c with
  | '\x7b' => some (.openBrace, rest)
  | '\x7d' => some (.closeBrace, rest)
  | '[' => some (.openBracket, rest)
  | ']' => some (.closeBracket, rest)
  | ':' => some (.colon, rest)
  | ',' => some (.comma, rest)
  | '"' => (readText [] rest).map fun r => (.text r.1, r.2)
  | '-' => (readMagnitude rest).map fun r => (.number, r.2)
  | 't' => (passWord "rue".toList rest).map (Token.boolean true, ·)
  | 'f' => (passWord "alse".toList rest).map (Token.boolean false, ·)
  | 'n' => (passWord "ull".toList rest).map (Token.null, ·)
  | _ => if isDigit c then readMagnitude (c :: rest) else none

theorem length_readText {hand : List Nat} {cs rest : List Char} {units : List Nat}
    (h : readText hand cs = some (units, rest)) : rest.length < cs.length := by
  fun_induction readText hand cs with
  | case1 => cases h
  | case2 => cases h; simp
  | case3 _ _ _ _ _ _ _ _ ih => have := ih h; simp only [List.length_cons]; omega
  | case4 => cases h
  | case5 _ _ _ _ _ _ ih => have := ih h; simp only [List.length_cons]; omega
  | case6 => cases h
  | case7 => cases h
  | case8 _ _ _ _ _ _ _ ih => have := ih h; simp only [List.length_cons]; omega

theorem length_readDigits {cs digits rest : List Char}
    (h : readDigits cs = some (digits, rest)) : rest.length < cs.length := by
  unfold readDigits at h
  simp only at h
  split at h
  · cases h
  · rename_i hne
    cases h
    have hsplit : (cs.takeWhile isDigit).length + (cs.dropWhile isDigit).length = cs.length := by
      rw [← List.length_append, List.takeWhile_append_dropWhile]
    have : 0 < (cs.takeWhile isDigit).length :=
      List.length_pos_iff.mpr (by simpa using hne)
    omega

theorem length_readFraction {cs rest : List Char} {found : Bool}
    (h : readFraction cs = some (found, rest)) : rest.length ≤ cs.length := by
  unfold readFraction at h
  split at h
  · obtain ⟨r, hr, heq⟩ := Option.map_eq_some_iff.mp h
    cases heq
    have := length_readDigits hr
    simp only [List.length_cons]
    omega
  · cases h; exact Nat.le_refl _

theorem length_passSign (cs : List Char) : (passSign cs).length ≤ cs.length := by
  unfold passSign
  split <;> simp

theorem length_readPower {cs rest : List Char} {found : Bool}
    (h : readPower cs = some (found, rest)) : rest.length ≤ cs.length := by
  obtain ⟨r, hr, heq⟩ := Option.map_eq_some_iff.mp h
  cases heq
  have := length_readDigits hr
  have := length_passSign cs
  omega

theorem length_readExponent {cs rest : List Char} {found : Bool}
    (h : readExponent cs = some (found, rest)) : rest.length ≤ cs.length := by
  unfold readExponent at h
  split at h
  · exact Nat.le_succ_of_le (length_readPower h)
  · exact Nat.le_succ_of_le (length_readPower h)
  · cases h; exact Nat.le_refl _

theorem length_readMagnitude {cs rest : List Char} {token : Token}
    (h : readMagnitude cs = some (token, rest)) : rest.length < cs.length := by
  simp only [readMagnitude, Option.bind_eq_bind, Option.bind_eq_some_iff] at h
  obtain ⟨⟨digits, afterDigits⟩, hdigits, h⟩ := h
  have := length_readDigits hdigits
  split at h
  · cases h
  · simp only [Option.bind_eq_some_iff] at h
    obtain ⟨⟨hasFraction, afterFraction⟩, hfraction, h⟩ := h
    obtain ⟨⟨hasExponent, afterExponent⟩, hexponent, h⟩ := h
    cases h
    exact Nat.lt_of_le_of_lt
      (Nat.le_trans (length_readExponent hexponent) (length_readFraction hfraction)) this

theorem length_passWord {word cs rest : List Char} (h : passWord word cs = some rest) :
    rest.length ≤ cs.length := by
  unfold passWord at h
  split at h
  · cases h; simp
  · cases h

private theorem length_map {α : Type} (make : α → Token) {read : Option (α × List Char)}
    {cs rest : List Char} {token : Token}
    (h : read.map (fun r => (make r.1, r.2)) = some (token, rest))
    (hread : ∀ a after, read = some (a, after) → after.length ≤ cs.length) :
    rest.length ≤ cs.length := by
  obtain ⟨⟨a, after⟩, hr, heq⟩ := Option.map_eq_some_iff.mp h
  cases heq
  exact hread a after hr

private theorem length_word {word cs rest : List Char} {token made : Token}
    (h : (passWord word cs).map (made, ·) = some (token, rest)) : rest.length ≤ cs.length := by
  obtain ⟨after, hr, heq⟩ := Option.map_eq_some_iff.mp h
  cases heq
  exact length_passWord hr

/-- What follows a token is no longer than what followed its first character. -/
theorem length_readToken {c : Char} {cs rest : List Char} {token : Token}
    (h : readToken c cs = some (token, rest)) : rest.length ≤ cs.length := by
  unfold readToken at h
  split at h
  · cases h; exact Nat.le_refl _
  · cases h; exact Nat.le_refl _
  · cases h; exact Nat.le_refl _
  · cases h; exact Nat.le_refl _
  · cases h; exact Nat.le_refl _
  · cases h; exact Nat.le_refl _
  · exact length_map .text h fun _ _ hr => Nat.le_of_lt (length_readText hr)
  · exact length_map (fun _ => .number) h fun _ _ hr => Nat.le_of_lt (length_readMagnitude hr)
  · exact length_word h
  · exact length_word h
  · exact length_word h
  · split at h
    · exact Nat.le_of_lt_succ (length_readMagnitude h)
    · cases h

/-- Reads tokens to the end of the text; those before come in hand. -/
def tokensFrom (hand : Array Token) : List Char → Option (List Token)
  | [] => some hand.toList
  | c :: rest =>
    if isBlank c then tokensFrom hand rest
    else
      match h : readToken c rest with
      | none => none
      | some (token, after) =>
        have := length_readToken h
        tokensFrom (hand.push token) after
termination_by cs => cs.length
decreasing_by
  all_goals
    simp only [List.length_cons]
    omega

def tokens (text : String) : Option (List Token) := tokensFrom #[] text.toList

end Granule.Json
