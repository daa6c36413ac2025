/-!
# Byte Strings

A byte string is a list of bytes. Whole numbers are read from byte strings in
either byte order and written back to a fixed width, and a part of a string is
named by its start and its length.

**Main statements**:
- `Bytes.length_ofNatLE` : a number written to a width has that many bytes
- `Bytes.toNatLE_ofNatLE` : reading back gives the number modulo `256 ^ width`
- `Bytes.ofNatLE_toNatLE` : writing what was read gives the same bytes
- `Bytes.length_of_slice?` : a part that exists has the length asked for
-/

-- Powers of numbers are the core ones, also where those of a monoid are in scope.
attribute [instance (1100), default_instance 10001] instPowNat

namespace Granule

/-- A finite string of bytes. -/
abbrev Bytes := List UInt8

namespace Bytes

/-! ## §1 Numbers in byte strings -/

/-- The number whose base-256 digits are the bytes, least significant first. -/
def toNatLE : Bytes → Nat
  | [] => 0
  | b :: bs => b.toNat + 256 * toNatLE bs

/-- The number whose base-256 digits are the bytes, most significant first. -/
def toNatBE (bs : Bytes) : Nat :=
  toNatLE bs.reverse

/-- The `width` low base-256 digits of a number, least significant first. -/
def ofNatLE : (width n : Nat) → Bytes
  | 0, _ => []
  | w + 1, n => UInt8.ofNat n :: ofNatLE w (n / 256)

/-- The `width` low base-256 digits of a number, most significant first. -/
def ofNatBE (width n : Nat) : Bytes :=
  (ofNatLE width n).reverse

@[simp] theorem length_ofNatLE (width n : Nat) : (ofNatLE width n).length = width := by
  induction width generalizing n with
  | zero => rfl
  | succ w ih => simp [ofNatLE, ih]

@[simp] theorem length_ofNatBE (width n : Nat) : (ofNatBE width n).length = width := by
  simp [ofNatBE]

/-- A number reads back up to the digits that its width cannot hold. -/
theorem toNatLE_ofNatLE (width n : Nat) : toNatLE (ofNatLE width n) = n % 256 ^ width := by
  induction width generalizing n with
  | zero => simp [ofNatLE, toNatLE, Nat.mod_one]
  | succ w ih =>
    rw [ofNatLE, toNatLE, ih, Nat.pow_succ, Nat.mul_comm (256 ^ w) 256, Nat.mod_mul]
    simp [UInt8.toNat_ofNat']

theorem toNatBE_ofNatBE (width n : Nat) : toNatBE (ofNatBE width n) = n % 256 ^ width := by
  simp [toNatBE, ofNatBE, toNatLE_ofNatLE]

/-- A byte string of length `k` stands for a number below `256 ^ k`. -/
theorem toNatLE_lt (bs : Bytes) : toNatLE bs < 256 ^ bs.length := by
  induction bs with
  | nil => simp [toNatLE]
  | cons b bs ih =>
    have hb := b.toNat_lt
    simp only [toNatLE, List.length_cons, Nat.pow_succ]
    omega

theorem toNatBE_lt (bs : Bytes) : toNatBE bs < 256 ^ bs.length := by
  simpa [toNatBE] using toNatLE_lt bs.reverse

/-- Digits written back are the digits that were read. -/
theorem ofNatLE_toNatLE (bs : Bytes) : ofNatLE bs.length (toNatLE bs) = bs := by
  induction bs with
  | nil => rfl
  | cons b bs ih =>
    have hb := b.toNat_lt
    have hdiv : (b.toNat + 256 * toNatLE bs) / 256 = toNatLE bs := by omega
    have hmod : UInt8.ofNat (b.toNat + 256 * toNatLE bs) = b := by
      apply UInt8.toNat_inj.mp
      rw [UInt8.toNat_ofNat']
      omega
    simp [toNatLE, ofNatLE, hdiv, hmod, ih]

/-! ## §2 Parts of byte strings -/

/-- The `len` bytes from offset `start` on, when the string holds them all. -/
def slice? (bs : Bytes) (start len : Nat) : Option Bytes :=
  if start + len ≤ bs.length then some ((bs.drop start).take len) else none

/-- The bytes from offset `start` up to, and not including, offset `stop`. -/
def between (bs : Bytes) (start stop : Nat) : Bytes :=
  (bs.drop start).take (stop - start)

theorem length_of_slice? {bs part : Bytes} {start len : Nat}
    (h : bs.slice? start len = some part) : part.length = len := by
  unfold slice? at h
  split at h
  · cases h
    simp only [List.length_take, List.length_drop]
    omega
  · cases h

/-! ## §3 Hexadecimal text -/

/-- The lower-case hexadecimal digit of a number below sixteen. -/
def hexDigit (n : Nat) : Char :=
  if n < 10 then Char.ofNat (48 + n) else Char.ofNat (87 + n)

def toHex (bs : Bytes) : String :=
  String.ofList (bs.flatMap fun b => [hexDigit (b.toNat / 16), hexDigit (b.toNat % 16)])

end Bytes

end Granule
