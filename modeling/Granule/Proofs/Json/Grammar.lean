import Granule.Json.Document

/-!
# The Grammar of JSON Text

What counts as JSON text is said here as a grammar, apart from the reader: a stretch of
text is derived by rules, one for each kind of value, with blanks wherever they
may stand. Then the tokens of such a stretch are determined. A number is the one
token whose end does not show by itself, so what follows a stretch must not go
on with a number (`Ends`); everything that may follow one inside JSON text does
not.

**Main statements**:
- `Json.Written.readText_eq` : a text in quotes is read as the code units it is written for
- `Json.Joined.joinUnits_eq` : code units are read as the characters they are joined to
- `Json.Number.lexes` : a number is one token
-/

namespace Granule.Json

/-! ## §1 Texts in quotes -/

/-- Any number of blanks. -/
def Blanks (cs : List Char) : Prop := ∀ c ∈ cs, c ∈ [' ', '\t', '\n', '\r']

/-- The character is the hexadecimal digit with a value, in small or capital letters. -/
def IsHex (c : Char) (value : Nat) : Prop :=
  value < 16 ∧ (c = value.digitChar ∨ c = value.digitChar.toUpper)

/-- The characters that may follow a backslash, with the code units they stand for. -/
def escapes : List (Char × Nat) :=
  [('"', 34), ('\\', 92), ('/', 47), ('b', 8), ('f', 12), ('n', 10), ('r', 13), ('t', 9)]

/-- What stands between quotes, with the code units that it is written for. -/
inductive Written : (units : List Nat) → List Char → Prop
  | nil : Written [] []
  | plain {c : Char} {units : List Nat} {cs : List Char} :
      32 ≤ c.toNat → c ≠ '"' → c ≠ '\\' → Written units cs →
      Written (c.toNat :: units) (c :: cs)
  | escape {c : Char} {unit : Nat} {units : List Nat} {cs : List Char} :
      (c, unit) ∈ escapes → Written units cs → Written (unit :: units) ('\\' :: c :: cs)
  | unit {a b c d : Char} {i j k l : Nat} {units : List Nat} {cs : List Char} :
      IsHex a i → IsHex b j → IsHex c k → IsHex d l → Written units cs →
      Written ((((i * 16 + j) * 16 + k) * 16 + l) :: units) ('\\' :: 'u' :: a :: b :: c :: d :: cs)

/-- The characters that code units stand for: each for itself, or two of them as a surrogate
pair. -/
inductive Joined : (units : List Nat) → List Char → Prop
  | nil : Joined [] []
  | scalar {c : Char} {units : List Nat} {cs : List Char} :
      Joined units cs → Joined (c.toNat :: units) (c :: cs)
  | pair {leading trailing : Nat} {c : Char} {units : List Nat} {cs : List Char} :
      0xD800 ≤ leading → leading ≤ 0xDBFF → 0xDC00 ≤ trailing → trailing ≤ 0xDFFF →
      c.toNat = 0x10000 + (leading - 0xD800) * 0x400 + (trailing - 0xDC00) →
      Joined units cs → Joined (leading :: trailing :: units) (c :: cs)

/-! ## §2 Numbers -/

/-- One or more decimal digits. -/
def Digits (ds : List Char) : Prop := ds ≠ [] ∧ ∀ c ∈ ds, c.isDigit = true

/-- The digits of a whole number, where a zero only stands by itself. -/
def Whole (ds : List Char) : Prop := Digits ds ∧ (ds.head? = some '0' → ds = ['0'])

/-- A fraction, or none. -/
inductive Fraction : List Char → Prop
  | none : Fraction []
  | digits {ds : List Char} : Digits ds → Fraction ('.' :: ds)

/-- An exponent, or none. -/
inductive Exponent : List Char → Prop
  | none : Exponent []
  | power {e : Char} {sign ds : List Char} :
      e ∈ ['e', 'E'] → sign ∈ [[], ['+'], ['-']] → Digits ds → Exponent (e :: (sign ++ ds))

/-- A number. -/
inductive Number : List Char → Prop
  | mk {sign ds fraction exponent : List Char} :
      sign ∈ [[], ['-']] → Whole ds → Fraction fraction → Exponent exponent →
      Number (sign ++ (ds ++ (fraction ++ exponent)))

/-! ## §3 Values -/

/-- An item of an array, with blanks around its value. -/
inductive Item (value : List Char) : List Char → Prop
  | mk {a b : List Char} : Blanks a → Blanks b → Item value (a ++ (value ++ b))

/-- A member of an object, with blanks around its name and its value. -/
inductive Member (name : List Nat) (value : List Char) : List Char → Prop
  | mk {a key b c d : List Char} :
      Blanks a → Written name key → Blanks b → Blanks c → Blanks d →
      Member name value (a ++ '"' :: (key ++ '"' :: (b ++ ':' :: (c ++ (value ++ d)))))

/-- What a stretch of text is a part of. -/
inductive Part where
  | value
  /-- What stands between the brackets of an array. -/
  | items
  /-- What stands between the braces of an object. -/
  | members

/-- JSON text: a value, or what stands between the brackets of an array or the braces of an
object. -/
inductive Text : Part → List Char → Prop
  | text {units : List Nat} {cs : List Char} : Written units cs → Text .value ('"' :: (cs ++ ['"']))
  | number {cs : List Char} : Number cs → Text .value cs
  | word {cs : List Char} :
      cs ∈ ["true".toList, "false".toList, "null".toList] → Text .value cs
  | emptyArray {cs : List Char} : Blanks cs → Text .value ('[' :: (cs ++ [']']))
  | array {cs : List Char} : Text .items cs → Text .value ('[' :: (cs ++ [']']))
  | emptyObject {cs : List Char} : Blanks cs → Text .value ('\x7b' :: (cs ++ ['\x7d']))
  | object {cs : List Char} : Text .members cs → Text .value ('\x7b' :: (cs ++ ['\x7d']))
  | item {value cs : List Char} : Text .value value → Item value cs → Text .items cs
  | items {value cs more : List Char} : Text .value value → Item value cs → Text .items more →
      Text .items (cs ++ ',' :: more)
  | member {name : List Nat} {value cs : List Char} : Text .value value → Member name value cs →
      Text .members cs
  | members {name : List Nat} {value cs more : List Char} : Text .value value →
      Member name value cs → Text .members more → Text .members (cs ++ ',' :: more)

/-! ## §4 The outermost level -/

/-- A member with a name and the text of its value, whichever way the name is written. -/
def Named (name value cs : List Char) : Prop :=
  ∃ units, Joined units name ∧ Member units value cs

/-- The members of an object on the outermost level: their names, and the texts of their values. -/
inductive Outer : List (List Char × List Char) → List Char → Prop
  | one {name value cs : List Char} :
      Text .value value → Named name value cs → Outer [(name, value)] cs
  | more {name value cs rest : List Char} {members : List (List Char × List Char)} :
      Text .value value → Named name value cs → Outer members rest →
      Outer ((name, value) :: members) (cs ++ ',' :: rest)

/-- An object on the outermost level, with blanks around it. -/
inductive OuterObject : List (List Char × List Char) → List Char → Prop
  | empty {cs text : List Char} : Blanks cs → Item ('\x7b' :: (cs ++ ['\x7d'])) text →
      OuterObject [] text
  | members {members : List (List Char × List Char)} {cs text : List Char} : Outer members cs →
      Item ('\x7b' :: (cs ++ ['\x7d'])) text → OuterObject members text

/-! ## §5 How texts in quotes are read -/

theorem Blanks.nil : Blanks [] := fun _ hc => absurd hc List.not_mem_nil

private theorem IsHex.hexValue?_eq {c : Char} {value : Nat} (h : IsHex c value) :
    hexValue? c = some value := by
  have hall : ∀ n < 16, hexValue? n.digitChar = some n ∧
      hexValue? n.digitChar.toUpper = some n := by decide
  obtain ⟨hlt, rfl | rfl⟩ := h
  · exact (hall value hlt).1
  · exact (hall value hlt).2

private theorem escape?_eq {c : Char} {unit : Nat} (h : (c, unit) ∈ escapes) :
    escape? c = some unit ∧ c ≠ 'u' := by
  simp only [escapes, List.mem_cons, Prod.mk.injEq, List.not_mem_nil, or_false] at h
  rcases h with ⟨rfl, rfl⟩ | ⟨rfl, rfl⟩ | ⟨rfl, rfl⟩ | ⟨rfl, rfl⟩ | ⟨rfl, rfl⟩ | ⟨rfl, rfl⟩ |
    ⟨rfl, rfl⟩ | ⟨rfl, rfl⟩ <;> decide

/-- A text in quotes is read as the code units it is written for. -/
theorem Written.readText_eq {units : List Nat} {cs : List Char} (h : Written units cs)
    (hand : List Nat) (rest : List Char) :
    readText hand (cs ++ '"' :: rest) = some (hand.reverse ++ units, rest) := by
  -- on how the text is written: a plain character, an escape of two, or one of six
  induction h generalizing hand with
  | nil => simp [readText]
  | @plain c units cs hlow hquote hslash _ ih =>
    have hread : ¬(c.toNat < 32 ∨ c = '\\') := by
      rintro (hlt | rfl)
      · omega
      · exact hslash rfl
    rw [List.cons_append, readText, if_neg hread, ih]
    · simp
    · exact hquote
    · exact fun _ _ _ _ _ heq _ => hslash heq
    · exact fun _ _ heq _ => hslash heq
  | @escape c unit units cs hescape _ ih =>
    obtain ⟨hunit, hne⟩ := escape?_eq hescape
    rw [List.cons_append, List.cons_append, readText, hunit]
    · simp [ih]
    · exact fun _ _ _ _ _ heq _ => hne heq
  | unit ha hb hc hd _ ih =>
    simp only [List.cons_append, readText, hexUnit?, ha.hexValue?_eq, hb.hexValue?_eq,
      hc.hexValue?_eq, hd.hexValue?_eq]
    simp [ih]

/-- Code units are read as the characters they are joined to. -/
theorem Joined.joinUnits_eq {units : List Nat} {cs : List Char} (h : Joined units cs) :
    joinUnits units = some cs := by
  induction h with
  | nil => rfl
  | @scalar c units cs _ ih =>
    obtain ⟨hleading, htrailing⟩ := not_surrogate c
    cases units with
    | nil =>
      rw [joinUnits] at ih
      cases ih
      simp [joinUnits, hleading, htrailing]
    | cons => simp [joinUnits, hleading, htrailing, ih]
  | @pair leading trailing c units cs hlow hhigh hlow' hhigh' hc _ ih =>
    have hleading : isLeading leading = true := decide_eq_true ⟨hlow, hhigh⟩
    have htrailing : isTrailing trailing = true := decide_eq_true ⟨hlow', hhigh'⟩
    simp [joinUnits, hleading, htrailing, ih, ← hc]

def isPlain (c : Char) : Bool := 32 ≤ c.toNat && c != '"' && c != '\\'

/-- Characters that need no escapes are written as they are. -/
theorem Written.of_plain {cs : List Char} (h : cs.all isPlain = true) :
    Written (cs.map Char.toNat) cs := by
  induction cs with
  | nil => exact .nil
  | cons c rest ih =>
    simp only [List.all_cons, isPlain, Bool.and_eq_true, decide_eq_true_eq, bne_iff_ne] at h
    obtain ⟨⟨⟨hlow, hquote⟩, hslash⟩, hrest⟩ := h
    exact .plain hlow hquote hslash (ih hrest)

theorem Joined.of_scalars (cs : List Char) : Joined (cs.map Char.toNat) cs := by
  induction cs with
  | nil => exact .nil
  | cons c rest ih => exact .scalar ih

/-! ## §6 Tokens -/

def continuesNumber (c : Char) : Bool := c.isDigit || c = '.' || c = 'e' || c = 'E'

/-- Text in front of which a number ends. -/
def Ends (rest : List Char) : Prop := ∀ c ∈ rest.head?, continuesNumber c = false

/-- Text starts with tokens, and goes on with a rest. -/
def Lexes (source : List Char) (ts : List Token) (rest : List Char) : Prop :=
  ∀ hand : Array Token, tokensFrom hand source = tokensFrom (hand ++ ts.toArray) rest

namespace Lexes

variable {source between rest : List Char} {ts more : List Token}

theorem refl (rest : List Char) : Lexes rest [] rest := fun hand => by simp

theorem trans (first : Lexes source ts between) (last : Lexes between more rest) :
    Lexes source (ts ++ more) rest := by
  intro hand
  rw [first, last, ← List.append_toArray, Array.append_assoc]

/-- One token. -/
theorem token {c : Char} {cs : List Char} {t : Token} (hblank : isBlank c = false)
    (h : readToken c cs = some (t, rest)) : Lexes (c :: cs) [t] rest := by
  intro hand
  rw [tokensFrom, if_neg (by simp [hblank])]
  split
  · rename_i hnone
    rw [h] at hnone
    cases hnone
  · rename_i hsome
    rw [h] at hsome
    cases hsome
    simp

theorem cons {c : Char} {cs : List Char} {t : Token} (hblank : isBlank c = false)
    (h : readToken c cs = some (t, between)) (hlast : Lexes between more rest) :
    Lexes (c :: cs) (t :: more) rest :=
  (token hblank h).trans hlast

/-- Blanks stand for nothing. -/
theorem blanks {bs : List Char} (h : Blanks bs) (rest : List Char) :
    Lexes (bs ++ rest) [] rest := by
  induction bs with
  | nil => exact refl rest
  | cons b bs ih =>
    obtain ⟨hb, hbs⟩ := List.forall_mem_cons.mp h
    have hblank : isBlank b = true := by simpa [isBlank] using hb
    intro hand
    rw [List.cons_append, tokensFrom, if_pos hblank]
    exact ih hbs hand

/-- A text in quotes. -/
theorem quoted {units : List Nat} {cs : List Char} (h : Written units cs) (rest : List Char) :
    Lexes ('"' :: (cs ++ '"' :: rest)) [.text units] rest :=
  token rfl (by simp [readToken, h.readText_eq])

end Lexes

namespace Ends

variable {rest : List Char}

theorem nil : Ends [] := fun c hc => by cases hc

theorem cons {c : Char} (h : continuesNumber c = false) (rest : List Char) : Ends (c :: rest) := by
  intro d hd
  cases hd
  exact h

/-- Blanks end a number. -/
theorem blanks {bs : List Char} (h : Blanks bs) (hrest : Ends rest) : Ends (bs ++ rest) := by
  cases bs with
  | nil => exact hrest
  | cons b bs =>
    have hb : b ∈ [' ', '\t', '\n', '\r'] := h b List.mem_cons_self
    simp only [List.mem_cons, List.not_mem_nil, or_false] at hb
    rcases hb with rfl | rfl | rfl | rfl <;> exact cons rfl _

end Ends

/-! ## §7 How numbers are read -/

theorem isDigit_eq (c : Char) : isDigit c = c.isDigit := by
  rw [isDigit, Char.isDigit, Bool.decide_and]
  rfl

/-- Text in front of which digits end. -/
private def EndsDigits (rest : List Char) : Prop := ∀ c ∈ rest.head?, c.isDigit = false

private theorem Ends.digits {rest : List Char} (h : Ends rest) : EndsDigits rest := by
  intro c hc
  have hcontinues := h c hc
  simp only [continuesNumber, Bool.or_eq_false_iff] at hcontinues
  exact hcontinues.1.1.1

private theorem Exponent.endsDigits {exponent rest : List Char} (h : Exponent exponent)
    (hrest : Ends rest) : EndsDigits (exponent ++ rest) ∧ (exponent ++ rest).head? ≠ some '.' := by
  cases h with
  | none =>
    refine ⟨hrest.digits, fun hdot => ?_⟩
    exact absurd (hrest '.' hdot) (by decide)
  | power he _ _ =>
    simp only [List.mem_cons, List.not_mem_nil, or_false] at he
    rcases he with rfl | rfl
    · exact ⟨fun c hc => by cases hc; rfl, by simp⟩
    · exact ⟨fun c hc => by cases hc; rfl, by simp⟩

private theorem Fraction.endsDigits {fraction rest : List Char} (h : Fraction fraction)
    (hrest : EndsDigits rest) : EndsDigits (fraction ++ rest) := by
  cases h with
  | none => exact hrest
  | digits _ => exact fun c hc => by cases hc; rfl

/-- All digits are read, up to the first character that is none. -/
theorem Digits.readDigits_eq {ds rest : List Char} (h : Digits ds) (hrest : EndsDigits rest) :
    readDigits (ds ++ rest) = some (ds, rest) := by
  have hall : ∀ c ∈ ds, isDigit c = true := fun c hc => (isDigit_eq c).trans (h.2 c hc)
  have hstop : rest.takeWhile isDigit = [] ∧ rest.dropWhile isDigit = rest := by
    cases rest with
    | nil => simp
    | cons c rest =>
      have hc : isDigit c = false := (isDigit_eq c).trans (hrest c rfl)
      simp [hc]
  have htake : (ds ++ rest).takeWhile isDigit = ds := by
    rw [List.takeWhile_append_of_pos hall, hstop.1, List.append_nil]
  have hdrop : (ds ++ rest).dropWhile isDigit = rest := by
    rw [List.dropWhile_append_of_pos hall, hstop.2]
  have hne : ds.isEmpty = false := by simpa using h.1
  simp only [readDigits, htake, hdrop, hne]
  rfl

theorem Fraction.readFraction_eq {fraction rest : List Char} (h : Fraction fraction)
    (hrest : EndsDigits rest) (hdot : rest.head? ≠ some '.') :
    readFraction (fraction ++ rest) = some (!fraction.isEmpty, rest) := by
  cases h with
  | none =>
    cases rest with
    | nil => rfl
    | cons c rest =>
      have hc : c ≠ '.' := fun heq => hdot (heq ▸ rfl)
      simp [readFraction, hc]
  | digits hds => simp [readFraction, hds.readDigits_eq hrest]

/-- The sign of an exponent is passed over, and no digit is. -/
private theorem passSign_append {sign ds : List Char} (hsign : sign ∈ [[], ['+'], ['-']])
    (hds : Digits ds) (rest : List Char) : passSign (sign ++ (ds ++ rest)) = ds ++ rest := by
  simp only [List.mem_cons, List.not_mem_nil, or_false] at hsign
  rcases hsign with rfl | rfl | rfl
  · obtain ⟨hne, hall⟩ := hds
    cases ds with
    | nil => exact absurd rfl hne
    | cons d ds =>
      have hd := hall d List.mem_cons_self
      have hplus : d ≠ '+' := fun heq => by subst heq; cases hd
      have hminus : d ≠ '-' := fun heq => by subst heq; cases hd
      simp [passSign, hplus, hminus]
  · rfl
  · rfl

theorem Exponent.readExponent_eq {exponent rest : List Char} (h : Exponent exponent)
    (hrest : Ends rest) : readExponent (exponent ++ rest) = some (!exponent.isEmpty, rest) := by
  cases h with
  | none =>
    cases rest with
    | nil => rfl
    | cons c rest =>
      have hsmall : c ≠ 'e' := fun heq => absurd (hrest c rfl) (heq ▸ by decide)
      have hcapital : c ≠ 'E' := fun heq => absurd (hrest c rfl) (heq ▸ by decide)
      simp [readExponent, hsmall, hcapital]
  | @power e sign ds he hsign hds =>
    have hpower : readPower (sign ++ (ds ++ rest)) = some (true, rest) := by
      rw [readPower, passSign_append hsign hds, hds.readDigits_eq hrest.digits]
      rfl
    simp only [List.mem_cons, List.not_mem_nil, or_false] at he
    rcases he with rfl | rfl <;> simpa [readExponent] using hpower

/-- The token of a number without its sign. -/
theorem Whole.readMagnitude_eq {ds fraction exponent rest : List Char} (hds : Whole ds)
    (hfraction : Fraction fraction) (hexponent : Exponent exponent) (hrest : Ends rest) :
    readMagnitude (ds ++ (fraction ++ (exponent ++ rest))) =
      some (if !fraction.isEmpty || !exponent.isEmpty then .number else .natural (digitsValue ds),
        rest) := by
  obtain ⟨hdigits, hzero⟩ := hds
  obtain ⟨hends, hdot⟩ := hexponent.endsDigits hrest
  have hlone : ¬(ds.head? = some '0' ∧ ds.tail ≠ []) := by
    rintro ⟨hhead, htail⟩
    exact htail (by rw [hzero hhead]; rfl)
  simp only [readMagnitude, hdigits.readDigits_eq (hfraction.endsDigits hends),
    hfraction.readFraction_eq hends hdot, hexponent.readExponent_eq hrest, hlone,
    Option.bind_eq_bind, Option.bind_some, if_false]
  rfl

/-- A token that starts with a digit is a number. -/
private theorem readToken_digit {c : Char} (h : c.isDigit = true) (rest : List Char) :
    isBlank c = false ∧ readToken c rest = readMagnitude (c :: rest) := by
  constructor
  · refine decide_eq_false fun hblank => ?_
    rcases hblank with rfl | rfl | rfl | rfl <;> cases h
  · unfold readToken
    split
    case h_12 => rw [isDigit_eq, if_pos h]
    all_goals cases h

/-- A number that starts with a digit is one token. -/
theorem Whole.lexes {ds fraction exponent rest : List Char} (hds : Whole ds)
    (hfraction : Fraction fraction) (hexponent : Exponent exponent) (hrest : Ends rest) :
    Lexes (ds ++ (fraction ++ (exponent ++ rest)))
      [if !fraction.isEmpty || !exponent.isEmpty then .number else .natural (digitsValue ds)]
      rest := by
  have hread := hds.readMagnitude_eq hfraction hexponent hrest
  obtain ⟨⟨hne, hall⟩, -⟩ := hds
  cases ds with
  | nil => exact absurd rfl hne
  | cons d ds =>
    obtain ⟨hblank, htoken⟩ := readToken_digit (hall d List.mem_cons_self)
      (ds ++ (fraction ++ (exponent ++ rest)))
    exact Lexes.token hblank (htoken.trans hread)

/-- A number is one token. -/
theorem Number.lexes {cs : List Char} (h : Number cs) :
    ∃ t, (t = .number ∨ ∃ n, t = .natural n) ∧ ∀ rest, Ends rest → Lexes (cs ++ rest) [t] rest := by
  obtain @⟨sign, ds, fraction, exponent, hsign, hds, hfraction, hexponent⟩ := h
  simp only [List.mem_cons, List.not_mem_nil, or_false] at hsign
  simp only [List.append_assoc]
  rcases hsign with rfl | rfl
  · refine ⟨_, ?_, fun rest hrest => hds.lexes hfraction hexponent hrest⟩
    split
    · exact .inl rfl
    · exact .inr ⟨_, rfl⟩
  · refine ⟨.number, .inl rfl, fun rest hrest => Lexes.token rfl ?_⟩
    simp [readToken, hds.readMagnitude_eq hfraction hexponent hrest]

/-- The digits of a number have the number as their value. -/
theorem digitsValue_toDigits (n : Nat) : digitsValue (Nat.toDigits 10 n) = n :=
  Nat.ofDigitChars_ten_toDigits

/-- Written in digits, a number is a whole one: of the digits in front, only a lone one is zero. -/
theorem Whole.toDigits (n : Nat) : Whole (Nat.toDigits 10 n) := by
  refine ⟨⟨Nat.toDigits_ne_nil, fun c hc => ?_⟩, fun hhead => ?_⟩
  · exact Nat.isDigit_of_mem_toDigits (by decide) (by decide) hc
  · induction n using Nat.base_induction 10 (by decide) with
    | single n hn =>
      rw [Nat.toDigits_of_lt_base hn] at hhead ⊢
      exact congrArg (· :: []) (Option.some.inj hhead)
    | digit n d hd hn ih =>
      have hfront : (Nat.toDigits 10 n).head? = some '0' := by
        rw [← Nat.toDigits_append_toDigits (by decide) hn hd] at hhead
        obtain ⟨c, cs, hcs⟩ := List.exists_cons_of_ne_nil
          (Nat.toDigits_ne_nil : Nat.toDigits 10 n ≠ [])
        rw [hcs] at hhead ⊢
        exact hhead
      -- the number in front would be written as a lone zero
      have hzero := digitsValue_toDigits n
      rw [ih hfront] at hzero
      exact absurd hzero (Nat.ne_of_lt hn)

end Granule.Json
