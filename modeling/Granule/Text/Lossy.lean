import Granule.Bytes

/-!
# Text from Bytes that may not be Text

Bytes are read as UTF-8. Where they are not UTF-8, the longest stretch that
starts a character but does not finish one is read as a single replacement
character, and a byte that can start no character as another.
-/

namespace Granule

def replacementCharacter : Char := '\uFFFD'

/-- How a first byte goes on. -/
structure LeadByte where
  /-- How many bytes follow it. -/
  following : Nat
  /-- The bits that it contributes. -/
  bits : Nat
  /-- The least byte that may come second. -/
  low : UInt8
  /-- The greatest byte that may come second. -/
  high : UInt8

/-- What a first byte announces, if it can be one. -/
def LeadByte.of? (b : UInt8) : Option LeadByte :=
  if b < 0x80 then some ⟨0, b.toNat, 0, 0⟩
  else if 0xC2 ≤ b ∧ b ≤ 0xDF then some ⟨1, b.toNat - 0xC0, 0x80, 0xBF⟩
  else if b = 0xE0 then some ⟨2, 0, 0xA0, 0xBF⟩
  else if b = 0xED then some ⟨2, 0x0D, 0x80, 0x9F⟩
  else if 0xE1 ≤ b ∧ b ≤ 0xEF then some ⟨2, b.toNat - 0xE0, 0x80, 0xBF⟩
  else if b = 0xF0 then some ⟨3, 0, 0x90, 0xBF⟩
  else if b = 0xF4 then some ⟨3, 4, 0x80, 0x8F⟩
  else if 0xF1 ≤ b ∧ b ≤ 0xF3 then some ⟨3, b.toNat - 0xF0, 0x80, 0xBF⟩
  else none

/-- Takes up to `count` further bytes into a code point: the code point, unless
a byte is missing or out of place, and the bytes not taken. -/
def continueChar : (count : Nat) → (low high : UInt8) → (code : Nat) → Bytes → Option Nat × Bytes
  | 0, _, _, code, rest => (some code, rest)
  | _ + 1, _, _, _, [] => (none, [])
  | n + 1, low, high, code, b :: rest =>
    if low ≤ b ∧ b ≤ high then continueChar n 0x80 0xBF (64 * code + b.toNat % 64) rest
    else (none, b :: rest)

theorem length_continueChar (count : Nat) (low high : UInt8) (code : Nat) (bs : Bytes) :
    (continueChar count low high code bs).2.length ≤ bs.length := by
  induction count generalizing low high code bs with
  | zero => simp [continueChar]
  | succ n ih =>
    cases bs with
    | nil => simp [continueChar]
    | cons b rest =>
      rw [continueChar]
      split
      · exact Nat.le_trans (ih _ _ _ rest) (by simp)
      · exact Nat.le_refl _

/-- The first character of bytes, and the bytes after it. -/
def firstChar (b : UInt8) (rest : Bytes) : Char × Bytes :=
  match LeadByte.of? b with
  | none => (replacementCharacter, rest)
  | some lead =>
    match continueChar lead.following lead.low lead.high lead.bits rest with
    | (some code, after) => (Char.ofNat code, after)
    | (none, after) => (replacementCharacter, after)

theorem length_firstChar (b : UInt8) (rest : Bytes) :
    (firstChar b rest).2.length ≤ rest.length := by
  unfold firstChar
  split
  · exact Nat.le_refl _
  · rename_i lead _
    have h := length_continueChar lead.following lead.low lead.high lead.bits rest
    split <;> simp_all

/-- The characters of bytes. -/
def Bytes.toText : Bytes → List Char
  | [] => []
  | b :: rest =>
    have := length_firstChar b rest
    (firstChar b rest).1 :: toText (firstChar b rest).2
termination_by bs => bs.length
decreasing_by
  simp only [List.length_cons]
  omega

end Granule
