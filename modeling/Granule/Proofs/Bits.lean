import Mathlib.Data.Nat.Bitwise
import Mathlib.Data.Nat.Digits.Lemmas
import Mathlib.Tactic.IntervalCases
import Granule.Bits
import Granule.Codec.BitStream
import Granule.Proofs.Bytes

/-!
# Fields of a Bit String

A byte string is the string of its bits, the most significant bit of each byte
first. What a cursor reads at its position are the bits that come next there,
whatever was read, passed over or refused before.

**Main statements**:
- `Bytes.toNat_appendBits` : the pieces of a field make up the number of its bits
- `toInt_signMagnitude` : a word read as sign and magnitude is the number of its bits
- `BitCursor.follows_bits` : after any calls, a cursor gives the bits at its position
-/

namespace Granule

/-! ## §1 Numbers in bit strings -/

namespace BitStream

/-- The number whose binary digits are the bits, most significant first. -/
def toNat (s : BitStream) : Nat := Nat.ofDigits 2 (s.reverse.map Bool.toNat)

/-- The number whose first bit is the sign and whose other bits are the magnitude. -/
def toInt : BitStream → Int
  | [] => 0
  | negative :: magnitude => if negative then -(toNat magnitude : Int) else toNat magnitude

/-- The bits in front count for as many places more as there are bits behind them. -/
theorem toNat_append (s t : BitStream) : toNat (s ++ t) = toNat s * 2 ^ t.length + toNat t := by
  rw [toNat, List.reverse_append, List.map_append, Nat.ofDigits_append, List.length_map,
    List.length_reverse, Nat.add_comm, Nat.mul_comm, toNat, toNat]

theorem toNat_cons (b : Bool) (s : BitStream) :
    toNat (b :: s) = b.toNat * 2 ^ s.length + toNat s := by
  have hone : toNat [b] = b.toNat := by simp [toNat]
  rw [← List.singleton_append, toNat_append, hone]

theorem toNat_lt (s : BitStream) : toNat s < 2 ^ s.length := by
  have hdigits : ∀ d ∈ s.reverse.map Bool.toNat, d < 2 := by
    intro d hd
    obtain ⟨b, -, rfl⟩ := List.mem_map.mp hd
    exact Bool.toNat_lt b
  simpa [toNat] using Nat.ofDigits_lt_base_pow_length (by decide) hdigits

/-- The bits behind the sign bound the number. -/
theorem natAbs_toInt_lt (s : BitStream) : (toInt s).natAbs < 2 ^ (s.length - 1) := by
  cases s with
  | nil => decide
  | cons negative magnitude =>
    have hlt := toNat_lt magnitude
    cases negative <;> simpa [toInt] using hlt

/-- Bits are cut out of a bit string by a quotient and a remainder of its number. -/
theorem toNat_cut {s : BitStream} {offset width : Nat} (h : offset + width ≤ s.length) :
    toNat ((s.drop offset).take width) =
      toNat s / 2 ^ (s.length - (offset + width)) % 2 ^ width := by
  set before := s.take offset
  set part := (s.drop offset).take width with hpart
  set after := (s.drop offset).drop width with hafter
  have hsplit : s = before ++ (part ++ after) := by
    rw [List.take_append_drop, List.take_append_drop]
  have hlenPart : part.length = width := by
    rw [hpart, List.length_take, List.length_drop]
    omega
  have hlenAfter : after.length = s.length - (offset + width) := by
    rw [hafter, List.length_drop, List.length_drop, Nat.sub_sub]
  have hlow : toNat after / 2 ^ after.length = 0 := Nat.div_eq_of_lt (toNat_lt after)
  -- what stands in front is a multiple of the weight, and what stands behind is below it
  calc toNat part
      = (toNat before * 2 ^ part.length + toNat part) % 2 ^ part.length := by
        rw [Nat.mul_add_mod_self_right, Nat.mod_eq_of_lt (toNat_lt part)]
    _ = toNat (before ++ part ++ after) / 2 ^ after.length % 2 ^ part.length := by
        rw [toNat_append (before ++ part), Nat.add_comm (toNat (before ++ part) * _),
          Nat.add_mul_div_right _ _ (Nat.two_pow_pos _), hlow, Nat.zero_add, toNat_append]
    _ = toNat s / 2 ^ (s.length - (offset + width)) % 2 ^ width := by
        rw [List.append_assoc, ← hsplit, hlenPart, hlenAfter]

/-- The low binary digits of a number, as the bits that are tested. -/
private theorem ofDigits_testBit (n count : Nat) :
    Nat.ofDigits 2 ((List.range count).map fun i => (n.testBit i).toNat) = n % 2 ^ count := by
  induction count with
  | zero => simp [Nat.mod_one]
  | succ count ih =>
    rw [List.range_succ, List.map_append, Nat.ofDigits_append, ih, List.length_map,
      List.length_range, List.map_singleton, Nat.ofDigits_singleton, Nat.toNat_testBit,
      Nat.mod_pow_succ]

/-- The bits of a byte, most significant first, make up its number. -/
theorem toNat_highFirst (b : UInt8) : toNat (highFirst b) = b.toNat := by
  have hbits := ofDigits_testBit b.toNat 8
  rw [Nat.mod_eq_of_lt b.toNat_lt] at hbits
  simpa [toNat, highFirst, lowFirst, Function.comp_def] using hbits

@[simp] theorem length_highFirst (b : UInt8) : (highFirst b).length = 8 := by
  simp [highFirst]

end BitStream

/-! ## §2 The bits of a byte string -/

namespace Bytes

/-- The bits of a byte string, each byte from its most significant bit on. -/
def bits (bs : Bytes) : BitStream := bs.flatMap BitStream.highFirst

/-- The `width` bits of a byte string from bit `pos` on, or as many as there are. -/
def bitsAt (bs : Bytes) (pos width : Nat) : BitStream := (bs.bits.drop pos).take width

theorem bits_append (as bs : Bytes) : bits (as ++ bs) = as.bits ++ bs.bits :=
  List.flatMap_append

theorem bits_cons (b : UInt8) (bs : Bytes) : bits (b :: bs) = BitStream.highFirst b ++ bs.bits :=
  List.flatMap_cons

/-- There are eight bits to a byte. -/
@[simp] theorem length_bits (bs : Bytes) : bs.bits.length = 8 * bs.length := by
  induction bs with
  | nil => rfl
  | cons b bs ih =>
    rw [bits_cons, List.length_append, ih, BitStream.length_highFirst, List.length_cons]
    omega

theorem length_bitsAt {bs : Bytes} {pos width : Nat} (h : pos + width ≤ 8 * bs.length) :
    (bs.bitsAt pos width).length = width := by
  simp only [bitsAt, List.length_take, List.length_drop, length_bits]
  omega

/-- The bits make up the number of the bytes, the first one most significant. -/
theorem toNat_bits (bs : Bytes) : bs.bits.toNat = bs.toNatBE := by
  induction bs with
  | nil => rfl
  | cons b bs ih =>
    have hpow : 2 ^ (8 * bs.length) = 256 ^ bs.length := Nat.pow_mul 2 8 bs.length
    rw [bits_cons, BitStream.toNat_append, ih, BitStream.toNat_highFirst, length_bits, hpow,
      toNatBE_cons]

/-- A field is cut out of the number of the bytes. -/
theorem toNat_bitsAt {bs : Bytes} {pos width : Nat} (h : pos + width ≤ 8 * bs.length) :
    (bs.bitsAt pos width).toNat =
      bs.toNatBE / 2 ^ (8 * bs.length - (pos + width)) % 2 ^ width := by
  rw [bitsAt, BitStream.toNat_cut (by rwa [length_bits]), length_bits, toNat_bits]

/-- A field that lies in the front of a byte string. -/
theorem bitsAt_append_left {as : Bytes} (bs : Bytes) {pos width : Nat}
    (h : pos + width ≤ 8 * as.length) : bitsAt (as ++ bs) pos width = as.bitsAt pos width := by
  have hlen := length_bits as
  rw [bitsAt, bits_append, List.drop_append_of_le_length (by omega),
    List.take_append_of_le_length, bitsAt]
  rw [List.length_drop]
  omega

theorem toNat_bitsAt_lt (bs : Bytes) (pos width : Nat) : (bs.bitsAt pos width).toNat < 2 ^ width :=
  (BitStream.toNat_lt _).trans_le (Nat.pow_le_pow_right (by decide) (List.length_take_le ..))

theorem natAbs_toInt_bitsAt_lt (bs : Bytes) (pos width : Nat) :
    (bs.bitsAt pos width).toInt.natAbs < 2 ^ (width - 1) :=
  (BitStream.natAbs_toInt_lt _).trans_le <|
    Nat.pow_le_pow_right (by decide) (Nat.sub_le_sub_right (List.length_take_le ..) 1)

/-- Fields that follow one another are one field. -/
theorem bitsAt_add (bs : Bytes) (pos m n : Nat) :
    bs.bitsAt pos (m + n) = bs.bitsAt pos m ++ bs.bitsAt (pos + m) n := by
  rw [bitsAt, List.take_add, List.drop_drop]
  rfl

/-- A field that lies inside one byte. -/
theorem bitsAt_inside {bs : Bytes} {pos width : Nat} (hpos : pos / 8 < bs.length)
    (hwidth : pos % 8 + width ≤ 8) :
    bs.bitsAt pos width =
      ((BitStream.highFirst (bs.getD (pos / 8) 0)).drop (pos % 8)).take width := by
  have hsplit : bs.bits = bits (bs.take (pos / 8)) ++
      (BitStream.highFirst (bs.getD (pos / 8) 0) ++ bits (bs.drop (pos / 8 + 1))) := by
    rw [← bits_cons, ← bits_append, ← List.getElem_eq_getD (h := hpos), List.getElem_cons_drop,
      List.take_append_drop]
  have hbefore : (bits (bs.take (pos / 8))).length = 8 * (pos / 8) := by
    rw [length_bits, List.length_take, Nat.min_eq_left hpos.le]
  have hin : pos - 8 * (pos / 8) = pos % 8 := by omega
  have hbyte : pos % 8 ≤ (BitStream.highFirst (bs.getD (pos / 8) 0)).length := by
    rw [BitStream.length_highFirst]
    omega
  rw [bitsAt, hsplit, List.drop_append, List.drop_of_length_le (by omega), List.nil_append, hbefore,
    hin, List.drop_append_of_le_length hbyte, List.take_append_of_le_length]
  rw [List.length_drop, BitStream.length_highFirst]
  omega

end Bytes

/-! ## §3 Fields in words -/

/-- A piece of a byte is the number of the bits that it was cut from. -/
theorem toNat_bitPiece (b : UInt8) {offset take : Nat} (hpos : 0 < take) (hfit : offset + take ≤ 8) :
    (bitPiece b offset take).toNat =
      BitStream.toNat (((BitStream.highFirst b).drop offset).take take) := by
  have hmask : (0xff >>> UInt8.ofNat (8 - take) : UInt8).toNat = 2 ^ take - 1 := by
    have hle : take ≤ 8 := by omega
    interval_cases take <;> rfl
  have hshift : (UInt8.ofNat (8 - offset - take)).toNat % 8 = 8 - (offset + take) := by
    rw [UInt8.toNat_ofNat', Nat.mod_eq_of_lt (by omega), Nat.mod_eq_of_lt (by omega), Nat.sub_sub]
  have hcut : offset + take ≤ (BitStream.highFirst b).length := by
    rwa [BitStream.length_highFirst]
  rw [bitPiece, UInt8.toNat_and, UInt8.toNat_shiftRight, hmask, hshift,
    Nat.and_two_pow_sub_one_eq_mod, Nat.shiftRight_eq_div_pow, BitStream.toNat_cut hcut,
    BitStream.length_highFirst, BitStream.toNat_highFirst]

/-- A word is shifted by any amount below its width. -/
private theorem toNat_shiftAmount {n : Nat} (h : n < 64) : (UInt64.ofNat n).toNat % 64 = n := by
  rw [UInt64.toNat_ofNat']
  omega

/-- A piece moves the bits in a word up, and takes the places that they leave. -/
theorem toNat_shift_or {word : UInt64} {piece : UInt8} {front part : BitStream}
    (hword : word.toNat = front.toNat) (hpiece : piece.toNat = part.toNat)
    (hshort : part.length ≤ 8) (hfit : front.length + part.length ≤ 64) :
    (word <<< UInt64.ofNat part.length ||| piece.toUInt64).toNat =
      BitStream.toNat (front ++ part) := by
  have hshift : (UInt64.ofNat part.length).toNat % 64 = part.length :=
    toNat_shiftAmount (by omega)
  -- the word holds no more bits than fit, so none is lost at its upper end
  have hroom : front.toNat <<< part.length < 2 ^ 64 := by
    rw [Nat.shiftLeft_eq]
    calc front.toNat * 2 ^ part.length
        < 2 ^ front.length * 2 ^ part.length :=
          Nat.mul_lt_mul_of_pos_right front.toNat_lt (Nat.two_pow_pos _)
      _ = 2 ^ (front.length + part.length) := (Nat.pow_add ..).symm
      _ ≤ 2 ^ 64 := Nat.pow_le_pow_right (by decide) hfit
  rw [UInt64.toNat_or, UInt64.toNat_shiftLeft, hshift, UInt8.toNat_toUInt64, hword, hpiece,
    Nat.mod_eq_of_lt hroom, ← Nat.shiftLeft_add_eq_or_of_lt part.toNat_lt, Nat.shiftLeft_eq,
    BitStream.toNat_append]

/-- **The pieces of a field.** Appended to a word that holds the bits in front, they give the
number of all these bits. -/
theorem Bytes.toNat_appendBits {bs : Bytes} {pos left : Nat} {word : UInt64} {front : BitStream}
    (hword : word.toNat = front.toNat) (hfit : front.length + left ≤ 64)
    (hroom : pos + left ≤ 8 * bs.length) :
    (bs.appendBits pos left word).toNat = BitStream.toNat (front ++ bs.bitsAt pos left) := by
  fun_induction Bytes.appendBits bs pos left word generalizing front with
  | case1 pos word => simpa [bitsAt] using hword
  | case2 pos left word hleft take piece =>
    rename_i ih
    have htake : 0 < take ∧ take ≤ left ∧ pos % 8 + take ≤ 8 := by omega
    have hlen : (bs.bitsAt pos take).length = take := length_bitsAt (by omega)
    have hpiece : piece.toNat = BitStream.toNat (bs.bitsAt pos take) := by
      rw [bitsAt_inside (by omega) htake.2.2]
      exact toNat_bitPiece _ htake.1 htake.2.2
    have hstep := toNat_shift_or hword hpiece (by omega) (by omega)
    rw [hlen] at hstep
    rw [ih hstep (by rw [List.length_append]; omega) (by omega), List.append_assoc, ← bitsAt_add,
      Nat.add_sub_cancel' htake.2.1]

private theorem toInt_toInt64 {word : UInt64} (h : word.toNat < 2 ^ 63) :
    word.toInt64.toInt = word.toNat := by
  rw [← Int64.toInt_ofNat_of_lt h, ← UInt64.toInt64_ofNat', UInt64.ofNat_toNat]

private theorem toNat_signBit {n : Nat} (h : n < 64) :
    ((1 : UInt64) <<< UInt64.ofNat n).toNat = 2 ^ n := by
  have hpow : 2 ^ n < 2 ^ 64 := Nat.pow_lt_pow_right (by decide) h
  rw [UInt64.toNat_shiftLeft, toNat_shiftAmount h, UInt64.toNat_one, Nat.one_shiftLeft,
    Nat.mod_eq_of_lt hpow]

section SignBit

variable {word sign : UInt64} {negative : Bool} {magnitude : BitStream}

/-- The bits below the sign are the magnitude. -/
theorem toNat_and_magnitude (hword : word.toNat = BitStream.toNat (negative :: magnitude))
    (hsign : sign.toNat = 2 ^ magnitude.length) :
    (word &&& (sign - 1)).toNat = BitStream.toNat magnitude := by
  have hone : 1 ≤ sign := by
    rw [UInt64.le_iff_toNat_le, hsign]
    exact Nat.two_pow_pos _
  have hmask : (sign - 1).toNat = 2 ^ magnitude.length - 1 := by
    rw [UInt64.toNat_sub_of_le _ _ hone, hsign, UInt64.toNat_one]
  rw [UInt64.toNat_and, hmask, Nat.and_two_pow_sub_one_eq_mod, hword, BitStream.toNat_cons,
    Nat.mul_add_mod_self_right, Nat.mod_eq_of_lt (BitStream.toNat_lt magnitude)]

/-- The bit of the sign is the first one. -/
theorem and_sign_ne_zero_iff (hword : word.toNat = BitStream.toNat (negative :: magnitude))
    (hsign : sign.toNat = 2 ^ magnitude.length) : word &&& sign ≠ 0 ↔ negative = true := by
  have hlow : BitStream.toNat magnitude / 2 ^ magnitude.length = 0 :=
    Nat.div_eq_of_lt (BitStream.toNat_lt magnitude)
  have hand : (word &&& sign).toNat = negative.toNat * 2 ^ magnitude.length := by
    rw [UInt64.toNat_and, hsign, Nat.and_two_pow, Nat.toNat_testBit, hword, BitStream.toNat_cons,
      Nat.add_comm, Nat.add_mul_div_right _ _ (Nat.two_pow_pos _), hlow, Nat.zero_add,
      Nat.mod_eq_of_lt (Bool.toNat_lt negative)]
  rw [Ne, ← UInt64.toNat_inj, hand]
  cases negative <;> simp

end SignBit

/-- **Sign and magnitude.** A word read as sign and magnitude is the number of its bits: at no
width does the sign bit or the negation overflow. -/
theorem toInt_signMagnitude {word : UInt64} {s : BitStream} (hword : word.toNat = s.toNat)
    (hpos : 0 < s.length) (hle : s.length ≤ 64) : (signMagnitude s.length word).toInt = s.toInt := by
  cases s with
  | nil => exact absurd hpos (Nat.lt_irrefl 0)
  | cons negative magnitude =>
    have hlt : magnitude.length < 64 := hle
    have hsign := toNat_signBit hlt
    set sign : UInt64 := 1 <<< UInt64.ofNat magnitude.length
    have hlow := toNat_and_magnitude hword hsign
    -- an integer of the word holds the magnitude, and what it is negated to
    have hsmall : BitStream.toNat magnitude < 2 ^ 63 :=
      (BitStream.toNat_lt magnitude).trans_le (Nat.pow_le_pow_right (by decide) (by omega))
    have hvalue : (word &&& (sign - 1)).toInt64.toInt = BitStream.toNat magnitude := by
      rw [toInt_toInt64 (hlow ▸ hsmall), hlow]
    have hset := and_sign_ne_zero_iff hword hsign
    show (if word &&& sign ≠ 0 then -(word &&& (sign - 1)).toInt64
      else (word &&& (sign - 1)).toInt64).toInt = _
    cases negative with
    | false =>
      rw [if_neg (by rw [hset]; exact Bool.false_ne_true), hvalue]
      rfl
    | true =>
      rw [if_pos (hset.mpr rfl), Int64.toInt_neg, hvalue, Int.bmod_eq_of_le (by omega) (by omega)]
      rfl

/-! ## §4 Any calls -/

namespace BitCursor

/-- What a cursor can be asked to do. -/
inductive Call where
  /-- Read an unsigned field. -/
  | unsigned (width : Nat)
  /-- Read a field with a leading sign bit. -/
  | signed (width : Nat)
  /-- Pass over some bits. -/
  | skip (count : Nat)
  /-- Move to a byte boundary. -/
  | align
deriving DecidableEq, Repr

/-- What a cursor gives back. -/
inductive Reply where
  | natural (value : Nat)
  | integer (value : Int)
  | moved
  | refused (fault : BitFault)
deriving DecidableEq, Repr

/-- What a call gives, and the cursor that the next call is made on. -/
def call (r : BitCursor) : Call → Reply × BitCursor
  | .unsigned width =>
    match r.unsigned width with
    | .ok (value, rest) => (.natural value, rest)
    | .error e => (.refused e, r)
  | .signed width =>
    match r.signed width with
    | .ok (value, rest) => (.integer value, rest)
    | .error e => (.refused e, r)
  | .skip count =>
    match r.skip count with
    | .ok rest => (.moved, rest)
    | .error e => (.refused e, r)
  | .align => (.moved, r.align)

def after (r : BitCursor) (calls : List Call) : BitCursor :=
  calls.foldl (fun r c => (r.call c).2) r

/-- A field can have this width, and there are as many bits ahead. -/
def Admits (r : BitCursor) (width : Nat) : Prop := 1 ≤ width ∧ width ≤ 64 ∧ width ≤ r.remaining

instance (r : BitCursor) (width : Nat) : Decidable (r.Admits width) :=
  inferInstanceAs (Decidable (1 ≤ width ∧ width ≤ 64 ∧ width ≤ r.remaining))

def refusal (r : BitCursor) (width : Nat) : BitFault :=
  if width = 0 ∨ 64 < width then .width width else .exhausted width r.remaining

/-- The cursor stands in a bit string, or at its end. -/
structure Within (bs : Bytes) (r : BitCursor) : Prop where
  data_eq : r.data = bs
  position_le : r.position ≤ 8 * bs.length

/-- What a cursor over a byte string does at its position, whatever it is called for. -/
structure Follows (bs : Bytes) (r : BitCursor) : Prop extends Within bs r where
  position_add_remaining : r.position + r.remaining = 8 * bs.length
  /-- An unsigned field is the number of the bits at the position. -/
  unsigned : ∀ width, r.call (.unsigned width) =
    if r.Admits width then (.natural (bs.bitsAt r.position width).toNat, ⟨bs, r.position + width⟩)
    else (.refused (r.refusal width), r)
  /-- A field with a sign is read on the same condition, from the same bits. -/
  signed : ∀ width, r.call (.signed width) =
    if r.Admits width then (.integer (bs.bitsAt r.position width).toInt, ⟨bs, r.position + width⟩)
    else (.refused (r.refusal width), r)
  /-- And it is no larger than the bits behind its sign allow. -/
  signed_lt : ∀ width value, (r.call (.signed width)).1 = .integer value →
    value.natAbs < 2 ^ (width - 1)
  /-- Bits are passed over as long as there are as many. -/
  skip : ∀ count, r.call (.skip count) =
    if count ≤ r.remaining then (.moved, ⟨bs, r.position + count⟩)
    else (.refused (.exhausted (min count skipReportLimit) r.remaining), r)
  /-- The next byte boundary is the least one that is not behind. -/
  align : ∃ stop, r.call .align = (.moved, ⟨bs, stop⟩) ∧ IsLeast {p | 8 ∣ p ∧ r.position ≤ p} stop

/-! ### What a field is -/

section Field

variable {r : BitCursor} {width : Nat}

/-- A field that is admitted lies in the bit string. -/
theorem Admits.room (h : r.Admits width) : r.position + width ≤ 8 * r.data.length := by
  obtain ⟨hpos, -, hroom⟩ := h
  rw [remaining] at hroom
  omega

/-- A field that is read holds the bits at the position. -/
theorem field_of_admits (h : r.Admits width) :
    ∃ word, r.field width = .ok (word, ⟨r.data, r.position + width⟩) ∧
      word.toNat = (r.data.bitsAt r.position width).toNat := by
  have hroom := h.room
  obtain ⟨hpos, hle, hahead⟩ := h
  refine ⟨r.data.appendBits r.position width 0, ?_, ?_⟩
  · rw [field, if_neg (by omega), if_neg (by omega)]
  · have hzero : (0 : UInt64).toNat = BitStream.toNat [] := rfl
    exact Bytes.toNat_appendBits hzero (by simpa using hle) hroom

theorem field_of_not_admits (h : ¬ r.Admits width) :
    r.field width = .error (r.refusal width) := by
  rw [field, refusal]
  split
  · rfl
  · rw [if_pos]
    rw [Admits] at h
    omega

variable (r width)

theorem unsigned_eq :
    r.unsigned width =
      if r.Admits width then
        .ok ((r.data.bitsAt r.position width).toNat, ⟨r.data, r.position + width⟩)
      else .error (r.refusal width) := by
  by_cases hadmits : r.Admits width
  · obtain ⟨word, hfield, hword⟩ := field_of_admits hadmits
    simp only [BitCursor.unsigned, hfield, if_pos hadmits, hword]
  · simp only [BitCursor.unsigned, field_of_not_admits hadmits, if_neg hadmits]

/-- The sign and the magnitude are those of the bits at the position. -/
theorem signed_eq :
    r.signed width =
      if r.Admits width then
        .ok ((r.data.bitsAt r.position width).toInt, ⟨r.data, r.position + width⟩)
      else .error (r.refusal width) := by
  by_cases hadmits : r.Admits width
  · obtain ⟨word, hfield, hword⟩ := field_of_admits hadmits
    have hlen := Bytes.length_bitsAt hadmits.room
    have hint := toInt_signMagnitude hword (by rw [hlen]; exact hadmits.1)
      (by rw [hlen]; exact hadmits.2.1)
    rw [hlen] at hint
    simp only [BitCursor.signed, hfield, if_pos hadmits, hint]
  · simp only [BitCursor.signed, field_of_not_admits hadmits, if_neg hadmits]

end Field

section Bind

variable {α : Type} {r : BitCursor} {width : Nat} {a : α}

/-- What is read on a condition answers where the condition holds. -/
private theorem bind_ite_eq_ok_iff {β : Type} {p : Prop} [Decidable p] {x : β} {e : BitFault}
    {next : β → Except BitFault α} :
    (if p then .ok x else .error e) >>= next = .ok a ↔ p ∧ next x = .ok a := by
  by_cases hp : p
  · rw [if_pos hp]
    exact (and_iff_right hp).symm
  · rw [if_neg hp]
    exact ⟨nofun, fun h => absurd h.1 hp⟩

/-- A reading that starts with a field goes on from the bits of that field. -/
theorem unsigned_bind_eq_ok_iff {next : Nat × BitCursor → Except BitFault α} :
    r.unsigned width >>= next = .ok a ↔
      r.Admits width ∧
        next ((r.data.bitsAt r.position width).toNat, ⟨r.data, r.position + width⟩) = .ok a := by
  rw [unsigned_eq, bind_ite_eq_ok_iff]

theorem signed_bind_eq_ok_iff {next : Int × BitCursor → Except BitFault α} :
    r.signed width >>= next = .ok a ↔
      r.Admits width ∧
        next ((r.data.bitsAt r.position width).toInt, ⟨r.data, r.position + width⟩) = .ok a := by
  rw [signed_eq, bind_ite_eq_ok_iff]

end Bind

/-! ### What a call does -/

section Position

variable {bs : Bytes} {r : BitCursor}

theorem Within.position_add_remaining (h : r.Within bs) :
    r.position + r.remaining = 8 * bs.length := by
  have hle := h.position_le
  rw [remaining, h.data_eq]
  omega

theorem Within.room (h : r.Within bs) {width : Nat} (hwidth : width ≤ r.remaining) :
    r.position + width ≤ 8 * bs.length := by
  have hall := h.position_add_remaining
  omega

theorem Within.call_unsigned (h : r.Within bs) (width : Nat) :
    r.call (.unsigned width) =
      if r.Admits width then
        (.natural (bs.bitsAt r.position width).toNat, ⟨bs, r.position + width⟩)
      else (.refused (r.refusal width), r) := by
  rw [call, unsigned_eq, h.data_eq]
  by_cases hadmits : r.Admits width
  · simp only [if_pos hadmits]
  · simp only [if_neg hadmits]

theorem Within.call_signed (h : r.Within bs) (width : Nat) :
    r.call (.signed width) =
      if r.Admits width then
        (.integer (bs.bitsAt r.position width).toInt, ⟨bs, r.position + width⟩)
      else (.refused (r.refusal width), r) := by
  rw [call, signed_eq, h.data_eq]
  by_cases hadmits : r.Admits width
  · simp only [if_pos hadmits]
  · simp only [if_neg hadmits]

theorem Within.call_skip (h : r.Within bs) (count : Nat) :
    r.call (.skip count) =
      if count ≤ r.remaining then (.moved, ⟨bs, r.position + count⟩)
      else (.refused (.exhausted (min count skipReportLimit) r.remaining), r) := by
  by_cases hroom : count ≤ r.remaining
  · simp only [call, BitCursor.skip, if_neg (Nat.not_lt.mpr hroom), if_pos hroom, h.data_eq]
  · simp only [call, BitCursor.skip, if_pos (Nat.lt_of_not_le hroom), if_neg hroom]

/-- The boundary that a cursor moves to is the least one that is not behind it. -/
theorem isLeast_align (r : BitCursor) :
    IsLeast {p | 8 ∣ p ∧ r.position ≤ p} r.align.position := by
  refine ⟨⟨Nat.dvd_mul_left .., ?_⟩, ?_⟩
  · show r.position ≤ (r.position + 7) / 8 * 8
    omega
  · rintro p ⟨⟨k, rfl⟩, hle⟩
    show (r.position + 7) / 8 * 8 ≤ 8 * k
    omega

/-- In a bit string, a cursor gives the bits at its position. -/
theorem Within.follows (h : r.Within bs) : r.Follows bs where
  toWithin := h
  position_add_remaining := h.position_add_remaining
  unsigned := h.call_unsigned
  signed := h.call_signed
  signed_lt width value hvalue := by
    rw [h.call_signed] at hvalue
    split at hvalue
    · rename_i hadmits
      cases hvalue
      have hlt := BitStream.natAbs_toInt_lt (bs.bitsAt r.position width)
      rwa [Bytes.length_bitsAt (h.room hadmits.2.2)] at hlt
    · cases hvalue
  skip := h.call_skip
  align := ⟨r.align.position, by rw [call, align, h.data_eq], r.isLeast_align⟩

/-- **One call.** Whatever is asked, the cursor stays in the bit string. -/
theorem Within.call (h : r.Within bs) (c : Call) : (r.call c).2.Within bs := by
  cases c with
  | unsigned width =>
    rw [h.call_unsigned]
    split
    · exact ⟨rfl, h.room ‹r.Admits width›.2.2⟩
    · exact h
  | signed width =>
    rw [h.call_signed]
    split
    · exact ⟨rfl, h.room ‹r.Admits width›.2.2⟩
    · exact h
  | skip count =>
    rw [h.call_skip]
    split
    · exact ⟨rfl, h.room ‹_›⟩
    · exact h
  | align =>
    -- the end of the string is a boundary too, so the least one does not lie behind it
    exact ⟨h.data_eq, r.isLeast_align.2 ⟨Nat.dvd_mul_right .., h.position_le⟩⟩

/-- **All calls.** -/
theorem Within.after (h : r.Within bs) (calls : List Call) : (r.after calls).Within bs := by
  induction calls generalizing r with
  | nil => exact h
  | cons c calls ih => exact ih (h.call c)

end Position

/-- **Following the bits.** After any calls, whether they were granted or refused, a cursor that was
set on the start of a byte string gives the bits at its position, and it moves only past what it
gave. -/
theorem follows_bits (bs : Bytes) (calls : List Call) :
    Follows bs ((⟨bs, 0⟩ : BitCursor).after calls) := by
  have hstart : Within bs ⟨bs, 0⟩ := ⟨rfl, Nat.zero_le _⟩
  exact (hstart.after calls).follows

end BitCursor

end Granule
