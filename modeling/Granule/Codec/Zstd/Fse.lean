import Granule.Codec.BitStream

/-!
# Finite State Entropy

A symbol distribution splits `2 ^ log` states among symbols. The states of a
symbol are spread over the table; each state names its symbol, how many bits to
read for the next state, and what to add to them.
-/

namespace Granule.Zstd.Fse

/-! ## §1 Distributions -/

/-- The states of each symbol, in the order of symbols. A share of -1 stands
for a symbol that is rarer than one state and still gets one. -/
structure Distribution where
  log : Nat
  shares : List Int
deriving Repr

/-- Reads how often a share of zero is repeated, at most `room` times. -/
def zeroRun (room : Nat) : BitDecoder Nat := do
  let more ← BitStream.bits 2
  if more = 3 ∧ 3 ≤ room then
    let rest ← zeroRun (room - 3)
    pure (3 + rest)
  else if more < 3 ∧ more ≤ room then pure more
  else throw (.malformed "distribution of symbols")
termination_by room

/-- Reads one share while `points` states are left to be given. -/
def share (points : Nat) : BitDecoder Int := do
  let top := points + 1
  let low ← BitStream.bits top.log2
  let spare := 2 ^ (top.log2 + 1) - 1 - top
  if low < spare then pure (Int.ofNat low - 1)
  else
    let high ← BitStream.bit
    let value := if high then low + 2 ^ top.log2 - spare else low
    pure (Int.ofNat value - 1)

/-- Reads the shares of at most `room` symbols until all states are given. -/
def shares (room points : Nat) : BitDecoder (List Int) :=
  if points = 0 then pure []
  else if hroom : room = 0 then throw (.malformed "distribution of symbols")
  else do
    let first ← share points
    if first = 0 then
      let zeros ← zeroRun (room - 1)
      let rest ← shares (room - 1 - zeros) points
      pure (List.replicate (zeros + 1) 0 ++ rest)
    else
      let rest ← shares (room - 1) (points - first.natAbs)
      pure (first :: rest)
termination_by room

/-- Reads a distribution from the front of a byte string, in whole bytes. -/
def readDistribution (maxLog symbols : Nat) (bs : Bytes) :
    Except CodecFault (Distribution × Bytes) := do
  let read : BitDecoder Distribution := do
    let log := (← BitStream.bits 4) + 5
    BitStream.require (log ≤ maxLog) (.malformed "accuracy of a distribution")
    pure ⟨log, ← shares symbols (2 ^ log)⟩
  let (distribution, rest) ← read (BitStream.ofBytes bs)
  -- a byte of which some bits were read belongs to the distribution
  pure (distribution, bs.drop (bs.length - rest.length / 8))

/-! ## §2 Tables -/

/-- What a state stands for. -/
structure Entry where
  symbol : Nat
  /-- Bits to read for the next state. -/
  bits : Nat
  /-- What those bits are added to. -/
  base : Nat
deriving Repr, Inhabited

/-- All states. -/
structure Table where
  log : Nat
  entries : Array Entry
deriving Repr

/-- The symbol of every state. Rare symbols take the last states; the others
walk through the table in steps that meet every state once. -/
def spread (d : Distribution) : List Nat :=
  let size := 2 ^ d.log
  let numbered := d.shares.zipIdx
  let rare := (numbered.filter fun p => p.1 = -1).map (·.2)
  let common := numbered.flatMap fun p => List.replicate p.1.toNat p.2
  let step := size / 2 + size / 8 + 3
  -- the step is odd, so it meets every place of a table of this size
  let places := ((List.range size).map fun i => i * step % size).filter (· < size - rare.length)
  let empty := Array.replicate size 0
  let withCommon := (places.zip common).foldl (fun a p => a.setIfInBounds p.1 p.2) empty
  let withRare := rare.zipIdx.foldl (fun a p => a.setIfInBounds (size - 1 - p.2) p.1) withCommon
  withRare.toList

/-- Numbers the states of each symbol from its share on, in table order. -/
def entriesFrom (log : Nat) : List Nat → (next : Array Nat) → List Entry
  | [], _ => []
  | symbol :: rest, next =>
    let x := next[symbol]?.getD 1
    let bits := log - x.log2
    ⟨symbol, bits, x * 2 ^ bits - 2 ^ log⟩ ::
      entriesFrom log rest (next.setIfInBounds symbol (x + 1))

def Table.ofDistribution (d : Distribution) : Table :=
  ⟨d.log, (entriesFrom d.log (spread d) (d.shares.map Int.natAbs).toArray).toArray⟩

def Table.singleton (symbol : Nat) : Table := ⟨0, #[⟨symbol, 0, 0⟩]⟩

def Table.entryOf (t : Table) (state : Nat) : Entry := t.entries[state]?.getD default

def Table.start (t : Table) : BitDecoder Nat := BitStream.highBits t.log

/-- Reads the state that follows a state. -/
def Table.next (t : Table) (state : Nat) : BitDecoder Nat := do
  let e := t.entryOf state
  let low ← BitStream.highBits e.bits
  pure (e.base + low)

/-! ## §3 Two interleaved states -/

/-- Puts out the symbol of one state and then, in turn, of the other, until the
bits for the next state are used up; the last symbol is that of the other state. -/
def alternate (t : Table) : (room state other : Nat) → BitStream → Except CodecFault (List Nat)
  | room + 2, state, other, s =>
    let e := t.entryOf state
    if s.length < e.bits then .ok [e.symbol, (t.entryOf other).symbol]
    else do
      let (low, rest) ← BitStream.highBits e.bits s
      let symbols ← alternate t (room + 1) other (e.base + low) rest
      pure (e.symbol :: symbols)
  | _, _, _, _ => .error (.malformed "run of interleaved symbols")

/-- Decodes at most `room` symbols of a byte string that is read backwards. -/
def decodeInterleaved (t : Table) (room : Nat) (bs : Bytes) : Except CodecFault (List Nat) := do
  let s ← BitStream.backward bs
  let (first, s) ← t.start s
  let (second, s) ← t.start s
  alternate t room first second s

end Granule.Zstd.Fse
