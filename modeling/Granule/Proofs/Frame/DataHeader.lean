import Granule.Frame.Grib1.DataHeader
import Granule.Proofs.Bits

/-!
# The Bits of a Binary Data Header

The header of binary data is six fields in eighty-eight bits, one of them with a
sign in front of its magnitude. A section that is as long has a header, whatever
its bytes are, and the fields of a header can be told from the bytes that they
are written as.

The number of values is the largest one whose bits fit behind the header, in
front of the bits at the end that hold none.

**Main statements**:
- `Grib1.DataHeader.read_eq_ok_iff` : what is read, by the bits alone
- `Grib1.DataHeader.Fits.read_write` : a header is read from the bytes it is written as
- `Grib1.DataHeader.valueCount_eq_some_iff` : how many values there are
- `Grib1.DataHeader.read_exact` : reading is exact, and the values counted fit
-/

namespace Granule

/-! ## §1 Sign and magnitude -/

namespace BitStream

/-- The number whose `width` binary digits are the sign of an integer and its magnitude. -/
def signedCode (width : Nat) (value : Int) : Nat :=
  if value < 0 then 2 ^ (width - 1) + value.natAbs else value.natAbs

theorem signedCode_lt {width : Nat} {value : Int} (hwidth : 0 < width)
    (hsmall : value.natAbs < 2 ^ (width - 1)) : signedCode width value < 2 ^ width := by
  have hdouble : 2 ^ width = 2 ^ (width - 1) * 2 := (Nat.two_pow_pred_mul_two hwidth).symm
  rw [signedCode]
  split <;> omega

/-- Bits that make up the code of an integer are its sign and its magnitude. -/
theorem toInt_of_toNat_eq {s : BitStream} {width : Nat} {value : Int} (hwidth : 0 < width)
    (hlen : s.length = width) (hsmall : value.natAbs < 2 ^ (width - 1))
    (hcode : s.toNat = signedCode width value) : s.toInt = value := by
  subst hlen
  cases s with
  | nil => cases hwidth
  | cons negative magnitude =>
    have hmagnitude := toNat_lt magnitude
    rw [toNat_cons, signedCode] at hcode
    simp only [List.length_cons, Nat.add_sub_cancel] at hcode hsmall
    cases negative with
    | false =>
      show (toNat magnitude : Int) = value
      simp only [Bool.toNat_false, Nat.zero_mul, Nat.zero_add] at hcode
      split at hcode <;> omega
    | true =>
      show -(toNat magnitude : Int) = value
      simp only [Bool.toNat_true, Nat.one_mul] at hcode
      split at hcode <;> omega

end BitStream

namespace Grib1.DataHeader

/-! ## §2 What is read -/

/-- The fields of the bits at the start of a section. -/
def ofBits (bs : Bytes) : DataHeader where
  length := (bs.bitsAt 0 24).toNat
  flags := (bs.bitsAt 24 4).toNat
  unusedBits := (bs.bitsAt 28 4).toNat
  binaryScale := (bs.bitsAt 32 16).toInt
  referenceBits := (bs.bitsAt 48 32).toNat
  bitsPerValue := (bs.bitsAt 80 8).toNat

/-- Each field is as small as its bits allow. -/
structure Fits (h : DataHeader) : Prop where
  length_lt : h.length < 2 ^ 24
  flags_lt : h.flags < 2 ^ 4
  unusedBits_lt : h.unusedBits < 2 ^ 4
  binaryScale_lt : h.binaryScale.natAbs < 2 ^ 15
  referenceBits_lt : h.referenceBits < 2 ^ 32
  bitsPerValue_lt : h.bitsPerValue < 2 ^ 8

theorem fits_ofBits (bs : Bytes) : (ofBits bs).Fits where
  length_lt := bs.toNat_bitsAt_lt 0 24
  flags_lt := bs.toNat_bitsAt_lt 24 4
  unusedBits_lt := bs.toNat_bitsAt_lt 28 4
  binaryScale_lt := bs.natAbs_toInt_bitsAt_lt 32 16
  referenceBits_lt := bs.toNat_bitsAt_lt 48 32
  bitsPerValue_lt := bs.toNat_bitsAt_lt 80 8

/-- A header that fits loses nothing in the words that its fields are kept in. -/
theorem Fits.kept {h : DataHeader} (hfits : h.Fits) :
    ({ length := (UInt32.ofNat h.length).toNat
       flags := (UInt8.ofNat h.flags).toNat
       unusedBits := (UInt8.ofNat h.unusedBits).toNat
       binaryScale := (Int16.ofInt h.binaryScale).toInt
       referenceBits := (UInt32.ofNat h.referenceBits).toNat
       bitsPerValue := (UInt8.ofNat h.bitsPerValue).toNat } : DataHeader) = h := by
  obtain ⟨hlength, hflags, hunused, hscale, hreference, hwidth⟩ := hfits
  rw [UInt32.toNat_ofNat_of_lt' (hlength.trans (by decide)),
    UInt8.toNat_ofNat_of_lt' (hflags.trans (by decide)),
    UInt8.toNat_ofNat_of_lt' (hunused.trans (by decide)),
    Int16.toInt_ofInt_of_le (by omega) (by omega), UInt32.toNat_ofNat_of_lt' hreference,
    UInt8.toNat_ofNat_of_lt' hwidth]

/-- **Reading by the bits alone.** A header is read from each section that is long enough. -/
theorem read_eq_ok_iff (bs : Bytes) (h : DataHeader) :
    read bs = .ok h ↔ 11 ≤ bs.length ∧ ofBits bs = h := by
  have hkept := (fits_ofBits bs).kept
  simp only [ofBits] at hkept
  simp only [read, BitCursor.unsigned_bind_eq_ok_iff, BitCursor.signed_bind_eq_ok_iff,
    BitCursor.Admits, BitCursor.remaining, Nat.reduceAdd, pure, Except.pure, hkept, ofBits,
    Except.ok.injEq]
  constructor
  · rintro ⟨-, -, -, -, -, hlast, heq⟩
    exact ⟨by omega, heq⟩
  · rintro ⟨hlen, heq⟩
    refine ⟨?_, ?_, ?_, ?_, ?_, ?_, heq⟩ <;> omega

/-! ## §3 What is written -/

/-- The bytes of a header. The numbers are written from their most significant byte on, and the
scale as its sign and its magnitude. -/
def write (h : DataHeader) : Bytes :=
  Bytes.ofNatBE 3 h.length ++ Bytes.ofNatBE 1 (2 ^ 4 * h.flags + h.unusedBits) ++
    Bytes.ofNatBE 2 (BitStream.signedCode 16 h.binaryScale) ++ Bytes.ofNatBE 4 h.referenceBits ++
    Bytes.ofNatBE 1 h.bitsPerValue

@[simp] theorem length_write (h : DataHeader) : h.write.length = 11 := by
  simp [write]

/-- The bytes as one number, whose digits are the fields. -/
theorem Fits.toNatBE_write {h : DataHeader} (hfits : h.Fits) :
    h.write.toNatBE =
      ((((h.length * 2 ^ 4 + h.flags) * 2 ^ 4 + h.unusedBits) * 2 ^ 16 +
        BitStream.signedCode 16 h.binaryScale) * 2 ^ 32 + h.referenceBits) * 2 ^ 8 +
        h.bitsPerValue := by
  have hscale : BitStream.signedCode 16 h.binaryScale < 2 ^ 16 :=
    BitStream.signedCode_lt (by decide) hfits.binaryScale_lt
  obtain ⟨hlength, hflags, hunused, -, hreference, hwidth⟩ := hfits
  simp only [write, Bytes.toNatBE_append, Bytes.toNatBE_ofNatBE, Bytes.length_ofNatBE]
  omega

/-- The digits of a number in a mixed base are cut out of it. -/
theorem Fits.ofBits_write {h : DataHeader} (hfits : h.Fits) (after : Bytes) :
    ofBits (h.write ++ after) = h := by
  -- the written fields are the digits of one number, so each is cut out of it
  have hcut : ∀ pos width, pos + width ≤ 88 →
      ((h.write ++ after).bitsAt pos width).toNat =
        h.write.toNatBE / 2 ^ (88 - (pos + width)) % 2 ^ width := by
    intro pos width hfit
    have hroom : pos + width ≤ 8 * h.write.length := by rwa [length_write]
    rw [Bytes.bitsAt_append_left after hroom, Bytes.toNat_bitsAt hroom, length_write]
  rw [hfits.toNatBE_write] at hcut
  have hcode : BitStream.signedCode 16 h.binaryScale < 2 ^ 16 :=
    BitStream.signedCode_lt (by decide) hfits.binaryScale_lt
  obtain ⟨hlengthLt, hflagsLt, hunusedLt, hscaleLt, hreferenceLt, hwidthLt⟩ := hfits
  have hlength : ((h.write ++ after).bitsAt 0 24).toNat = h.length := by
    rw [hcut 0 24 (by decide)]
    omega
  have hflags : ((h.write ++ after).bitsAt 24 4).toNat = h.flags := by
    rw [hcut 24 4 (by decide)]
    omega
  have hunused : ((h.write ++ after).bitsAt 28 4).toNat = h.unusedBits := by
    rw [hcut 28 4 (by decide)]
    omega
  have hscale : ((h.write ++ after).bitsAt 32 16).toInt = h.binaryScale := by
    have hlen : ((h.write ++ after).bitsAt 32 16).length = 16 := by
      apply Bytes.length_bitsAt
      rw [List.length_append, length_write]
      omega
    apply BitStream.toInt_of_toNat_eq (by decide) hlen hscaleLt
    rw [hcut 32 16 (by decide)]
    omega
  have hreference : ((h.write ++ after).bitsAt 48 32).toNat = h.referenceBits := by
    rw [hcut 48 32 (by decide)]
    omega
  have hwidth : ((h.write ++ after).bitsAt 80 8).toNat = h.bitsPerValue := by
    rw [hcut 80 8 (by decide)]
    omega
  rw [ofBits, hlength, hflags, hunused, hscale, hreference, hwidth]

/-- A header is read from the bytes that it is written as, whatever comes behind them. -/
theorem Fits.read_write {h : DataHeader} (hfits : h.Fits) (after : Bytes) :
    read (h.write ++ after) = .ok h := by
  rw [read_eq_ok_iff]
  refine ⟨?_, hfits.ofBits_write after⟩
  rw [List.length_append, length_write]
  apply Nat.le_add_right

/-! ## §4 How many values there are -/

/-- The values are counted where they have a width and the section holds its header and its unused
bits. -/
theorem valueCount_eq_some_iff (h : DataHeader) (count : Nat) :
    h.valueCount = some count ↔
      (0 < h.bitsPerValue ∧ 11 ≤ h.length ∧ h.unusedBits ≤ 8 * (h.length - 11)) ∧
        count = (8 * (h.length - 11) - h.unusedBits) / h.bitsPerValue := by
  have hbits : h.payloadBits = if h.length < 11 then none else some (8 * (h.length - 11)) := rfl
  rw [valueCount, hbits]
  by_cases hwidth : h.bitsPerValue = 0
  · simp [hwidth]
  by_cases hlength : h.length < 11
  · simp [hwidth, hlength]
  by_cases hunused : 8 * (h.length - 11) < h.unusedBits
  · simp [hwidth, hlength, hunused]
  · simp [hwidth, hlength, hunused, Nat.pos_of_ne_zero hwidth, Nat.not_lt.mp hlength,
      Nat.not_lt.mp hunused, eq_comm]

/-- One more value than are counted would not fit. -/
theorem isGreatest_of_valueCount {h : DataHeader} {count : Nat} (hcount : h.valueCount = some count) :
    IsGreatest {k | 88 + k * h.bitsPerValue + h.unusedBits ≤ 8 * h.length} count := by
  obtain ⟨⟨hwidth, hlength, hunused⟩, rfl⟩ := (h.valueCount_eq_some_iff count).mp hcount
  have hroom : ∀ k, 88 + k * h.bitsPerValue + h.unusedBits ≤ 8 * h.length ↔
      k ≤ (8 * (h.length - 11) - h.unusedBits) / h.bitsPerValue := by
    intro k
    rw [Nat.le_div_iff_mul_le hwidth]
    omega
  constructor
  · exact (hroom _).mpr le_rfl
  · intro k hk
    exact (hroom k).mp hk

/-! ## §5 Reading is exact -/

/-- **Reading is exact.** A header is read from each section of at least eleven bytes; its fields fit
their bits, and any fields that do are read from the bytes that they are written as. The values are
counted exactly where they have a width and the section holds its unused bits, and the count is the
largest number of values that fit. -/
theorem read_exact :
    (∀ bs : Bytes, (∃ h, read bs = .ok h) ↔ 11 ≤ bs.length) ∧
    (∀ (bs : Bytes) (h : DataHeader), read bs = .ok h → h.Fits) ∧
    (∀ (h : DataHeader) (after : Bytes), h.Fits → read (h.write ++ after) = .ok h) ∧
    (∀ h : DataHeader, (∃ count, h.valueCount = some count) ↔
      0 < h.bitsPerValue ∧ 11 ≤ h.length ∧ h.unusedBits ≤ 8 * (h.length - 11)) ∧
    (∀ (h : DataHeader) (count : Nat), h.valueCount = some count →
      IsGreatest {k | 88 + k * h.bitsPerValue + h.unusedBits ≤ 8 * h.length} count) := by
  refine ⟨?accepted, ?fits, ?written, ?counted, ?greatest⟩
  case accepted =>
    intro bs
    constructor
    · rintro ⟨h, hread⟩
      exact ((read_eq_ok_iff bs h).mp hread).1
    · intro hlen
      exact ⟨ofBits bs, (read_eq_ok_iff bs _).mpr ⟨hlen, rfl⟩⟩
  case fits =>
    intro bs h hread
    obtain ⟨-, rfl⟩ := (read_eq_ok_iff bs h).mp hread
    exact fits_ofBits bs
  case written =>
    intro h after hfits
    exact hfits.read_write after
  case counted =>
    intro h
    constructor
    · rintro ⟨count, hcount⟩
      exact ((h.valueCount_eq_some_iff count).mp hcount).1
    · intro hroom
      exact ⟨_, (h.valueCount_eq_some_iff _).mpr ⟨hroom, rfl⟩⟩
  case greatest =>
    intro h count hcount
    exact isGreatest_of_valueCount hcount

/-- A header with a negative scale, in a section of three bytes of data with four bits to spare: it
holds four values of five bits. -/
theorem read_exact_sample :
    let h : DataHeader :=
      { length := 14, flags := 8, unusedBits := 4, binaryScale := -3, referenceBits := 0x42640000
        bitsPerValue := 5 }
    h.write = [0, 0, 14, 0x84, 0x80, 3, 0x42, 0x64, 0, 0, 5] ∧ h.Fits ∧
      read (h.write ++ [0xaa, 0xbb, 0xc0]) = .ok h ∧ h.valueCount = some 4 ∧
      IsGreatest {k | 88 + k * h.bitsPerValue + h.unusedBits ≤ 8 * h.length} 4 := by
  intro h
  obtain ⟨-, -, hwritten, -, hgreatest⟩ := read_exact
  have hfits : h.Fits :=
    { length_lt := by decide
      flags_lt := by decide
      unusedBits_lt := by decide
      binaryScale_lt := by decide
      referenceBits_lt := by decide
      bitsPerValue_lt := by decide }
  have hcount : h.valueCount = some 4 := by decide
  exact ⟨by decide, hfits, hwritten h _ hfits, hcount, hgreatest h 4 hcount⟩

end Grib1.DataHeader

end Granule
