import Granule.Codec.Input

/-!
# Range Decoding

A range decoder reads bits of uneven odds. It holds a range and a code below
it; a bit splits the range in two parts by its odds, and the code tells which
part it lies in. A range that has become small is widened by one byte of input.
Odds adapt to the bits that were read.
-/

namespace Granule.Lzma

/-- The state of a range decoder. -/
structure RangeCoder where
  range : UInt32
  code : UInt32
  /-- The coded bytes. -/
  input : Array UInt8
  /-- How many of them have been read. -/
  pos : Nat
  /-- For every context the odds of a zero bit, out of 2048. -/
  odds : Array UInt32

/-- A computation that reads from a range decoder. -/
abbrev Coded := StateT RangeCoder (Except CodecFault)

namespace RangeCoder

/-- What is left to read: bytes of input first, then the range. -/
def measure (c : RangeCoder) : Nat := (c.input.size - c.pos) * 2 ^ 32 + c.range.toNat

def isAtEnd (c : RangeCoder) : Bool := c.input.size ≤ c.pos

/-- Starts to read: a byte that is not looked at, then the code. -/
def start (contexts : Nat) (bs : Bytes) : Except CodecFault RangeCoder :=
  match Input.byte bs with
  | .error e => .error e
  | .ok (_, rest) =>
    match Input.take 4 rest with
    | .error e => .error e
    | .ok (code, rest) =>
      .ok ⟨0xFFFFFFFF, UInt32.ofNat code.toNatBE, rest.toArray, 0, Array.replicate contexts 1024⟩

/-- Widens a small range by a byte of input. -/
def normalize (c : RangeCoder) : Except CodecFault RangeCoder :=
  if c.range < 0x1000000 then
    match c.input[c.pos]? with
    | none => .error .truncated
    | some b =>
      .ok { c with range := c.range <<< 8, code := (c.code <<< 8) ||| b.toUInt32, pos := c.pos + 1 }
  else .ok c

end RangeCoder

namespace Coded

/-! ## §1 Bits -/

/-- Reads a bit in a context and adapts the odds of the context. -/
def bit (context : Nat) : Coded Bool := fun c =>
  let odds := c.odds[context]?.getD 1024
  let bound := (c.range >>> 11) * odds
  if c.code < bound then do
    let next ← RangeCoder.normalize
      { c with range := bound, odds := c.odds.setIfInBounds context (odds + ((2048 - odds) >>> 5)) }
    pure (false, next)
  else do
    let next ← RangeCoder.normalize
      { c with
        range := c.range - bound, code := c.code - bound
        odds := c.odds.setIfInBounds context (odds - (odds >>> 5)) }
    pure (true, next)

/-- Reads a bit of even odds. -/
def evenBit : Coded Bool := fun c =>
  let half := c.range >>> 1
  let one := half ≤ c.code
  let code := if half ≤ c.code then c.code - half else c.code
  do
    let next ← RangeCoder.normalize { c with range := half, code }
    pure (one, next)

/-! ## §2 Numbers -/

/-- Continues a number by `n` bits of even odds, most significant first. -/
def evenBits : (n value : Nat) → Coded Nat
  | 0, value => pure value
  | n + 1, value => do
    let b ← evenBit
    evenBits n (2 * value + b.toNat)

/-- Walks `n` levels down a tree of contexts from node `node`; the root is node 1. -/
def treeFrom (base : Nat) : (n node : Nat) → Coded Nat
  | 0, node => pure node
  | n + 1, node => do
    let b ← bit (base + node)
    treeFrom base n (2 * node + b.toNat)

/-- Reads a number of `n` bits, most significant first, each bit in the context
of those before it. -/
def tree (base n : Nat) : Coded Nat := do
  let node ← treeFrom base n 1
  pure (node - 2 ^ n)

/-- Reads a number of `n` bits, least significant first, each bit in the context
of those before it. -/
def reverseTree (base : Nat) : (n node : Nat) → Coded Nat
  | 0, _ => pure 0
  | n + 1, node => do
    let b ← bit (base + node)
    let high ← reverseTree base n (2 * node + b.toNat)
    pure (b.toNat + 2 * high)

end Coded

end Granule.Lzma
