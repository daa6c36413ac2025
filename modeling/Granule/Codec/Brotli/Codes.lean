import Granule.Codec.PrefixCode

/-!
# Described Codes

A Brotli stream describes its prefix codes before it uses them. A simple
description lists up to four symbols; any other gives the lengths of all code
words, which are coded themselves.
-/

namespace Granule.Brotli.Codes

def fault : CodecFault := .malformed "prefix code"

/-- A code if there is one. -/
def orFault (code? : Option PrefixCode) : BitDecoder PrefixCode :=
  match code? with
  | some code => pure code
  | none => throw fault

/-- The number of bits in which the numbers below `size` are written. -/
def widthFor (size : Nat) : Nat := if size ≤ 1 then 0 else (size - 1).log2 + 1

/-! ## §1 Simple codes -/

/-- Reads `n` symbols of an alphabet. -/
def readSymbols (size : Nat) : (n : Nat) → BitDecoder (List Nat)
  | 0 => pure []
  | n + 1 => do
    let symbol ← BitStream.bits (widthFor size)
    BitStream.require (symbol < size) fault
    let rest ← readSymbols size n
    BitStream.require (!rest.contains symbol) fault
    pure (symbol :: rest)

def ascending (symbols : List Nat) : List Nat := symbols.mergeSort (· ≤ ·)

/-- The code of up to four symbols; four symbols have two shapes of code. -/
def simpleCode (symbols : List Nat) (deep : Bool) : Option PrefixCode :=
  match symbols with
  | [a] => some (.leaf a)
  | [a, b] => PrefixCode.ofLeaves? ((ascending [a, b]).map (1, ·))
  | [a, b, c] => PrefixCode.ofLeaves? ((1, a) :: (ascending [b, c]).map (2, ·))
  | [a, b, c, d] =>
    if deep then PrefixCode.ofLeaves? ((1, a) :: (2, b) :: (ascending [c, d]).map (3, ·))
    else PrefixCode.ofLeaves? ((ascending [a, b, c, d]).map (2, ·))
  | _ => none

/-- Reads a simple description. -/
def readSimple (size : Nat) : BitDecoder PrefixCode := do
  let count := (← BitStream.bits 2) + 1
  let symbols ← readSymbols size count
  let deep ← if count = 4 then BitStream.bit else pure false
  orFault (simpleCode symbols deep)

/-! ## §2 Lengths of the lengths -/

def lengthOrder : List Nat := [1, 2, 3, 4, 0, 5, 17, 6, 16, 7, 8, 9, 10, 11, 12, 13, 14, 15]

/-- The code in which they are given. -/
def lengthOfLengthCode : PrefixCode :=
  .node (.node (.leaf 0) (.leaf 3))
    (.node (.leaf 4) (.node (.leaf 2) (.node (.leaf 1) (.leaf 5))))

/-- Reads lengths for the symbols of a list until they fill `space`, 32 in all. -/
def readLengthLengths : List Nat → (space : Nat) → BitDecoder (List (Nat × Nat))
  | [], _ => pure []
  | symbol :: symbols, space => do
    let length ← lengthOfLengthCode.decode
    if length = 0 then readLengthLengths symbols space
    else
      let taken := 32 / 2 ^ length
      BitStream.require (taken ≤ space) fault
      if taken = space then pure [(length, symbol)]
      else
        let rest ← readLengthLengths symbols (space - taken)
        pure ((length, symbol) :: rest)

/-- The code of given lengths; a single symbol needs no bits. -/
def lengthCode (lengths : List (Nat × Nat)) : Option PrefixCode :=
  match lengths with
  | [(_, symbol)] => some (.leaf symbol)
  | _ =>
    let bySymbol := lengths.mergeSort fun a b => a.2 ≤ b.2
    PrefixCode.ofLeaves? (bySymbol.mergeSort fun a b => a.1 ≤ b.1)

/-! ## §3 Lengths of the symbols -/

/-- The length symbol that repeats the last length that is not zero. -/
def repeatPrevious : Nat := 16

def fullSpace : Nat := 32768

/-- What repeats of a length have amounted to. -/
structure Run where
  /-- The last length that is not zero. -/
  previous : Nat := 8
  /-- The length that is being repeated. -/
  length : Nat := 0
  /-- How often it has been repeated in a row. -/
  count : Nat := 0

/-- Reads the lengths of symbols until the code space is full; `room` symbols
and `space` of the code space are left. -/
def readLengths (code : PrefixCode) (room space : Nat) (run : Run) : BitDecoder (List Nat) := do
  if space = 0 then pure []
  else if _hroom : room = 0 then throw fault
  else
    let symbol ← code.decode
    if symbol < repeatPrevious then
      let taken := if symbol = 0 then 0 else fullSpace / 2 ^ symbol
      BitStream.require (taken ≤ space) fault
      let previous := if symbol = 0 then run.previous else symbol
      let rest ← readLengths code (room - 1) (space - taken) { run with previous, count := 0 }
      pure (symbol :: rest)
    else
      let length := if symbol = repeatPrevious then run.previous else 0
      let width := if symbol = repeatPrevious then 2 else 3
      let before := if length = run.length then run.count else 0
      let more ← BitStream.bits width
      -- a repeat right after one of the same length scales the count so far,
      -- and only the difference is added
      let count := (if before = 0 then 0 else (before - 2) * 2 ^ width) + more + 3
      let added := count - before
      let taken := if length = 0 then 0 else added * (fullSpace / 2 ^ length)
      BitStream.require (0 < added && added ≤ room && taken ≤ space) fault
      if _hadded : 0 < added then
        let rest ← readLengths code (room - added) (space - taken) { run with length, count }
        pure (List.replicate added length ++ rest)
      else throw fault
termination_by room
decreasing_by
  · omega
  · exact Nat.sub_lt (Nat.pos_of_ne_zero _hroom) _hadded

/-- Reads the description of a code by lengths, of which the first `skip` for
the code lengths are not given. -/
def readComplex (size skip : Nat) : BitDecoder PrefixCode := do
  let lengthLengths ← readLengthLengths (lengthOrder.drop skip) 32
  let code ← orFault (lengthCode lengthLengths)
  let lengths ← readLengths code size fullSpace {}
  orFault (PrefixCode.shortestFirst? lengths)

/-- Reads the description of a code for an alphabet of `size` symbols. -/
def readCode (size : Nat) : BitDecoder PrefixCode := do
  let kind ← BitStream.bits 2
  if kind = 1 then readSimple size else readComplex size kind

/-- Reads the descriptions of `n` codes. -/
def readCodes (size : Nat) : (n : Nat) → BitDecoder (List PrefixCode)
  | 0 => pure []
  | n + 1 => do
    let code ← readCode size
    let rest ← readCodes size n
    pure (code :: rest)

end Granule.Brotli.Codes
