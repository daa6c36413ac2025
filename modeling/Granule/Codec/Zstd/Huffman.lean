import Granule.Codec.PrefixCode
import Granule.Codec.Zstd.Fse

/-!
# Huffman Literals

Literal bytes are coded by a prefix code whose longest words come first. The
code is described by weights: a word is the shorter the greater the weight of
its symbol, and the weight of the last symbol is what completes the code.
-/

namespace Granule.Zstd.Huffman

/-! ## §1 Weights -/

def maxLength : Nat := 12

/-- The number of symbols whose weights may be listed: all bytes but the last. -/
def maxListed : Nat := 255

def directWeights (bs : Bytes) : List Nat :=
  bs.flatMap fun b => [b.toNat / 16, b.toNat % 16]

/-- Reads the listed weights from the front of a byte string. -/
def readWeights (bs : Bytes) : Except CodecFault (List Nat × Bytes) := do
  match bs with
  | [] => throw .truncated
  | header :: rest =>
    if 128 ≤ header.toNat then
      let count := header.toNat - 127
      let size := (count + 1) / 2
      if rest.length < size then throw .truncated
      pure ((directWeights (rest.take size)).take count, rest.drop size)
    else
      let size := header.toNat
      if rest.length < size then throw .truncated
      let (distribution, coded) ← Fse.readDistribution 6 256 (rest.take size)
      let weights ← Fse.decodeInterleaved (.ofDistribution distribution) maxListed coded
      pure (weights, rest.drop size)

/-! ## §2 The code -/

-- the empty sum is the literal zero, also where that of a monoid is in scope
attribute [local instance (1100)] Zero.ofOfNat0

def spaceOf (weight : Nat) : Nat := if weight = 0 then 0 else 2 ^ (weight - 1)

/-- The code with the given listed weights, when one more weight completes it. -/
def codeOfWeights (weights : List Nat) : Except CodecFault PrefixCode :=
  let fault : CodecFault := .malformed "weights of a prefix code"
  let total := (weights.map spaceOf).sum
  if weights.any (maxLength < ·) then .error fault
  else if total = 0 then .error fault
  else
    let length := total.log2 + 1
    let missing := 2 ^ length - total
    if maxLength < length ∨ missing ≠ 2 ^ missing.log2 then .error fault
    else
      let all := weights ++ [missing.log2 + 1]
      -- the longest words come in pairs
      let lightest := all.count 1
      if lightest < 2 ∨ lightest % 2 = 1 then .error fault
      else
        let used := all.zipIdx.filter fun p => p.1 ≠ 0
        let lightFirst := used.mergeSort fun a b => a.1 ≤ b.1
        match PrefixCode.ofLeaves? (lightFirst.map fun p => (length + 1 - p.1, p.2)) with
        | some code => .ok code
        | none => .error fault

/-- Reads the description of a code from the front of a byte string. -/
def readCode (bs : Bytes) : Except CodecFault (PrefixCode × Bytes) := do
  let (weights, rest) ← readWeights bs
  let code ← codeOfWeights weights
  pure (code, rest)

/-! ## §3 Literals -/

/-- Decodes exactly `count` literals from one stream, which they use up. -/
def decodeStream (code : PrefixCode) (count : Nat) (bs : Bytes) : Except CodecFault Bytes := do
  let s ← BitStream.backward bs
  let (symbols, rest) ← code.decodeMany count s
  if rest.isEmpty then pure (symbols.map UInt8.ofNat)
  else throw (.malformed "literal stream")

/-- Decodes `count` literals from four streams of equal share, whose first three
lengths stand in front. -/
def decodeFourStreams (code : PrefixCode) (count : Nat) (bs : Bytes) :
    Except CodecFault Bytes := do
  let share := (count + 3) / 4
  let jumps := bs.take 6
  let streams := bs.drop 6
  let size1 := Bytes.toNatLE (jumps.take 2)
  let size2 := Bytes.toNatLE ((jumps.drop 2).take 2)
  let size3 := Bytes.toNatLE (jumps.drop 4)
  if bs.length < 10 ∨ count < 6 ∨ count < 3 * share
      ∨ streams.length < size1 + size2 + size3 then
    throw (.malformed "literal streams")
  let part1 ← decodeStream code share (streams.take size1)
  let part2 ← decodeStream code share ((streams.drop size1).take size2)
  let part3 ← decodeStream code share ((streams.drop (size1 + size2)).take size3)
  let part4 ← decodeStream code (count - 3 * share) (streams.drop (size1 + size2 + size3))
  pure (part1 ++ part2 ++ part3 ++ part4)

end Granule.Zstd.Huffman
