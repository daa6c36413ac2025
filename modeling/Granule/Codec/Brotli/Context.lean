import Granule.Codec.Brotli.Codes

/-!
# Contexts

The code of a literal depends on the two bytes before it, that of a distance on
the length of its copy. A context map gives the number of the code for each
block type and context.
-/

namespace Granule.Brotli

/-! ## §1 Contexts of literals -/

/-- How the two bytes before a literal choose its context. -/
inductive LiteralMode where
  /-- The lower six bits of the last byte. -/
  | low
  /-- The upper six bits of the last byte. -/
  | high
  /-- Classes of characters of text. -/
  | text
  /-- Classes of the size of signed numbers. -/
  | signed
deriving Repr

/-- The mode of two bits. -/
def LiteralMode.ofNat (n : Nat) : LiteralMode :=
  match n % 4 with
  | 0 => .low
  | 1 => .high
  | 2 => .text
  | _ => .signed

/-- The class of the last byte in text, a multiple of four for ASCII. -/
def textClass (b : Nat) : Nat :=
  if 192 ≤ b then 2 + b % 2
  else if 128 ≤ b then b % 2
  else
    [0, 0, 0, 0, 0, 0, 0, 0, 0, 4, 4, 0, 0, 4, 0, 0, 0, 0, 0, 0, 0, 0, 0, 0, 0, 0, 0, 0, 0, 0, 0, 0,
      8, 12, 16, 12, 12, 20, 12, 16, 24, 28, 12, 12, 32, 12, 36, 12,
      44, 44, 44, 44, 44, 44, 44, 44, 44, 44, 32, 32, 24, 40, 28, 12,
      12, 48, 52, 52, 52, 48, 52, 52, 52, 48, 52, 52, 52, 52, 52, 48,
      52, 52, 52, 52, 52, 48, 52, 52, 52, 52, 52, 24, 12, 28, 12, 12,
      12, 56, 60, 60, 60, 56, 60, 60, 60, 56, 60, 60, 60, 60, 60, 56,
      60, 60, 60, 60, 60, 56, 60, 60, 60, 60, 60, 24, 12, 28, 12, 0].getD b 0

/-- The class of the last byte but one in text. -/
def olderTextClass (b : Nat) : Nat :=
  if 192 ≤ b then 2
  else if 127 ≤ b ∨ b < 32 then 0
  else if 97 ≤ b ∧ b ≤ 122 then 3
  else if (48 ≤ b ∧ b ≤ 57) ∨ (65 ≤ b ∧ b ≤ 90) then 2
  else 1

/-- The class of a byte by the size of the signed number in it. -/
def signedClass (b : Nat) : Nat :=
  if b = 0 then 0
  else if b < 16 then 1
  else if b < 64 then 2
  else if b < 128 then 3
  else if b < 192 then 4
  else if b < 240 then 5
  else if b < 255 then 6
  else 7

/-- The context after the bytes `older` and `last`. -/
def LiteralMode.context (mode : LiteralMode) (last older : Nat) : Nat :=
  match mode with
  | .low => last % 64
  | .high => last / 4 % 64
  | .text => (textClass last ||| olderTextClass older) % 64
  | .signed => (8 * signedClass last + signedClass older) % 64

/-! ## §2 Contexts of distances -/

def distanceContext (copy : Nat) : Nat := min (copy - 2) 3

/-! ## §3 Context maps -/

/-- Reads a number from 0 to 255 that favours small ones. -/
def readSmall : BitDecoder Nat := do
  if ← BitStream.bit then
    let width ← BitStream.bits 3
    let low ← BitStream.bits width
    pure (2 ^ width + low)
  else pure 0

/-- Reads `room` entries of a map; small symbols above zero stand for runs of zeros. -/
def readEntries (code : PrefixCode) (longest room : Nat) : BitDecoder (List Nat) := do
  if _hroom : room = 0 then pure []
  else
    let symbol ← code.decode
    if symbol = 0 then
      let rest ← readEntries code longest (room - 1)
      pure (0 :: rest)
    else if symbol ≤ longest then
      let low ← BitStream.bits symbol
      -- a run has at least two zeros, so the room left for entries shrinks
      let zeros := 2 ^ symbol + low
      if _hzeros : 0 < zeros ∧ zeros ≤ room then
        let rest ← readEntries code longest (room - zeros)
        pure (List.replicate zeros 0 ++ rest)
      else throw (.malformed "context map")
    else
      let rest ← readEntries code longest (room - 1)
      pure ((symbol - longest) :: rest)
termination_by room

/-- Replaces each index by the entry at its place in a list whose used entries
move to the front. -/
def moveToFront : (table : List Nat) → List Nat → List Nat
  | _, [] => []
  | table, i :: rest =>
    let entry := table.getD i 0
    entry :: moveToFront (entry :: table.eraseIdx i) rest

/-- Reads how many codes a map leads to, and the map of `size` entries. -/
def readMap (size : Nat) : BitDecoder (Nat × Array Nat) := do
  let codes := (← readSmall) + 1
  if codes = 1 then pure (1, Array.replicate size 0)
  else
    let longest ← if ← BitStream.bit then (do pure ((← BitStream.bits 4) + 1)) else pure 0
    let code ← Codes.readCode (codes + longest)
    let entries ← readEntries code longest size
    let moved ← BitStream.bit
    pure (codes, (if moved then moveToFront (List.range 256) entries else entries).toArray)

end Granule.Brotli
