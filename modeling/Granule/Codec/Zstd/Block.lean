import Granule.Codec.Input
import Granule.Codec.Output
import Granule.Codec.Zstd.Huffman

/-!
# Compressed Blocks

A compressed block is a section of literals and a section of sequences. A
sequence puts out some of the literals and then a copy of earlier output; what
is left of the literals ends the block. Codes, tables and the last three
distances carry over from block to block of one frame.
-/

namespace Granule.Zstd

/-! ## §1 What carries over -/

/-- The distances of the last three copies, the latest first. -/
structure Distances where
  first : Nat := 1
  second : Nat := 4
  third : Nat := 8
deriving DecidableEq, Repr

/-- The distance that a value stands for, and the distances from then on. Small
values name one of the last distances; without literals before the copy the
names move up by one. -/
def Distances.resolve (d : Distances) (value literals : Nat) :
    Except CodecFault (Nat × Distances) :=
  if 3 < value then .ok (value - 3, ⟨value - 3, d.first, d.second⟩)
  else
    match value + (if literals = 0 then 1 else 0) with
    | 1 => .ok (d.first, d)
    | 2 => .ok (d.second, ⟨d.second, d.first, d.third⟩)
    | 3 => .ok (d.third, ⟨d.third, d.first, d.second⟩)
    | 4 =>
      if d.first ≤ 1 then .error (.malformed "repeated distance")
      else .ok (d.first - 1, ⟨d.first - 1, d.first, d.second⟩)
    | _ => .error (.malformed "distance")

/-- The tables that code the three parts of a sequence. -/
structure Tables where
  literals : Fse.Table
  distance : Fse.Table
  copy : Fse.Table

/-- What the blocks of a frame share. -/
structure Carry where
  code : Option PrefixCode := none
  tables : Option Tables := none
  distances : Distances := {}
  out : Output := #[]

/-! ## §2 Literals -/

/-- How literals are stored. -/
inductive LiteralKind where
  | raw
  | repeated
  | coded
  | codedAsBefore

/-- The kind of two bits. -/
def LiteralKind.ofNat (n : Nat) : LiteralKind :=
  match n % 4 with
  | 0 => .raw
  | 1 => .repeated
  | 2 => .coded
  | _ => .codedAsBefore

/-- Reads the literals off the front of a block, with the code from then on. -/
def readLiterals (code : Option PrefixCode) (limit : Nat) (bs : Bytes) :
    Except CodecFault (Bytes × Option PrefixCode × Bytes) := do
  let (head, _) ← Input.byte bs
  let format := head.toNat / 4 % 4
  let plain : Except CodecFault (Nat × Bytes) := do
    let (n, rest) ← Input.number (match format with | 1 => 2 | 3 => 3 | _ => 1) bs
    let size := if format % 2 = 0 then n / 8 else n / 16
    if limit < size then throw (.malformed "literal size")
    pure (size, rest)
  let coded : Except CodecFault (Nat × Bytes × Bytes) := do
    let (width, digits) := match format with | 2 => (4, 14) | 3 => (5, 18) | _ => (3, 10)
    let (n, rest) ← Input.number width bs
    let size := n / 16 % 2 ^ digits
    let (stored, rest) ← Input.take (n / 16 / 2 ^ digits % 2 ^ digits) rest
    if limit < size then throw (.malformed "literal size")
    pure (size, stored, rest)
  let decode (code : PrefixCode) (size : Nat) (streams : Bytes) : Except CodecFault Bytes :=
    if format = 0 then Huffman.decodeStream code size streams
    else Huffman.decodeFourStreams code size streams
  match LiteralKind.ofNat head.toNat with
  | .raw =>
    let (size, rest) ← plain
    let (literals, rest) ← Input.take size rest
    pure (literals, code, rest)
  | .repeated =>
    let (size, rest) ← plain
    let (b, rest) ← Input.byte rest
    pure (List.replicate size b, code, rest)
  | .coded =>
    let (size, stored, rest) ← coded
    let (newCode, streams) ← Huffman.readCode stored
    pure (← decode newCode size streams, some newCode, rest)
  | .codedAsBefore =>
    let (size, stored, rest) ← coded
    match code with
    | none => throw (.malformed "repeated prefix code")
    | some oldCode => pure (← decode oldCode size stored, code, rest)

/-! ## §3 Tables of sequences -/

/-- What is fixed for one of the three parts of a sequence. -/
structure Part where
  /-- The greatest accuracy of a distribution. -/
  maxLog : Nat
  /-- The number of symbols. -/
  symbols : Nat
  /-- The distribution that need not be described. -/
  standard : Fse.Distribution

def Part.literals : Part :=
  ⟨9, 36, 6, [4, 3, 2, 2, 2, 2, 2, 2, 2, 2, 2, 2, 2, 1, 1, 1, 2, 2, 2, 2, 2, 2, 2, 2, 2, 3, 2, 1,
    1, 1, 1, 1, -1, -1, -1, -1]⟩

def Part.distance : Part :=
  ⟨8, 32, 5, [1, 1, 1, 1, 1, 1, 2, 2, 2, 1, 1, 1, 1, 1, 1, 1, 1, 1, 1, 1, 1, 1, 1, 1, -1, -1, -1,
    -1, -1]⟩

def Part.copy : Part :=
  ⟨9, 53, 6, [1, 4, 3, 2, 2, 2, 2, 2, 2, 1, 1, 1, 1, 1, 1, 1, 1, 1, 1, 1, 1, 1, 1, 1, 1, 1, 1, 1,
    1, 1, 1, 1, 1, 1, 1, 1, 1, 1, 1, 1, 1, 1, 1, 1, 1, 1, -1, -1, -1, -1, -1, -1, -1]⟩

/-- Reads the table of one part in one of four modes. -/
def Part.readTable (part : Part) (mode : Nat) (before : Option Fse.Table) (bs : Bytes) :
    Except CodecFault (Fse.Table × Bytes) := do
  match mode with
  | 0 => pure (.ofDistribution part.standard, bs)
  | 1 =>
    let (symbol, rest) ← Input.byte bs
    if part.symbols ≤ symbol.toNat then throw (.malformed "repeated symbol")
    pure (.singleton symbol.toNat, rest)
  | 2 =>
    let (distribution, rest) ← Fse.readDistribution part.maxLog part.symbols bs
    pure (.ofDistribution distribution, rest)
  | _ =>
    match before with
    | none => throw (.malformed "repeated table")
    | some table => pure (table, bs)

/-- The least length of literals for a symbol, and the bits that add to it. -/
def literalsRow (symbol : Nat) : Nat × Nat :=
  if symbol < 16 then (symbol, 0)
  else
    [(16, 1), (18, 1), (20, 1), (22, 1), (24, 2), (28, 2), (32, 3), (40, 3), (48, 4), (64, 6),
      (128, 7), (256, 8), (512, 9), (1024, 10), (2048, 11), (4096, 12), (8192, 13), (16384, 14),
      (32768, 15), (65536, 16)].getD (symbol - 16) (0, 0)

/-- The least length of a copy for a symbol, and the bits that add to it. -/
def copyRow (symbol : Nat) : Nat × Nat :=
  if symbol < 32 then (symbol + 3, 0)
  else
    [(35, 1), (37, 1), (39, 1), (41, 1), (43, 2), (47, 2), (51, 3), (59, 3), (67, 4), (83, 4),
      (99, 5), (131, 7), (259, 8), (515, 9), (1027, 10), (2051, 11), (4099, 12), (8195, 13),
      (16387, 14), (32771, 15), (65539, 16)].getD (symbol - 32) (0, 0)

/-! ## §4 Sequences -/

/-- The states of the three tables. -/
structure States where
  literals : Nat
  distance : Nat
  copy : Nat

/-- Reads the first states. -/
def Tables.start (t : Tables) : BitDecoder States := do
  let literals ← t.literals.start
  let distance ← t.distance.start
  let copy ← t.copy.start
  pure ⟨literals, distance, copy⟩

/-- Reads the states that follow. -/
def Tables.next (t : Tables) (s : States) : BitDecoder States := do
  let literals ← t.literals.next s.literals
  let copy ← t.copy.next s.copy
  let distance ← t.distance.next s.distance
  pure ⟨literals, distance, copy⟩

/-- The numbers of a sequence: literals, the value of the distance, the copy. -/
structure Sequence where
  literals : Nat
  distanceValue : Nat
  copy : Nat

/-- Reads the numbers that states stand for. -/
def Tables.sequence (t : Tables) (s : States) : BitDecoder Sequence := do
  let power := (t.distance.entryOf s.distance).symbol
  let (copyBase, copyBits) := copyRow (t.copy.entryOf s.copy).symbol
  let (literalBase, literalBits) := literalsRow (t.literals.entryOf s.literals).symbol
  let distanceLow ← BitStream.highBits power
  let copyLow ← BitStream.highBits copyBits
  let literalLow ← BitStream.highBits literalBits
  pure ⟨literalBase + literalLow, 2 ^ power + distanceLow, copyBase + copyLow⟩

/-- Puts out what a sequence says: the literals left over, the distances from
then on, and the output. -/
def Sequence.execute (q : Sequence) (limit : Nat) (literals : Bytes) (d : Distances)
    (out : Output) : Except CodecFault (Bytes × Distances × Output) := do
  if literals.length < q.literals then throw (.malformed "literal length")
  let out ← out.appendWithin limit (literals.take q.literals)
  let (distance, d) ← d.resolve q.distanceValue q.literals
  let out ← out.copyWithin limit distance q.copy
  pure (literals.drop q.literals, d, out)

/-- Runs `n + 1` sequences from given states; the bits must end with the last. -/
def runSequences (t : Tables) (limit : Nat) :
    (n : Nat) → States → BitStream → Bytes → Distances → Output →
      Except CodecFault (Bytes × Distances × Output)
  | 0, states, bits, literals, d, out => do
    let (q, bits) ← t.sequence states bits
    if !bits.isEmpty then throw (.malformed "sequence bits")
    q.execute limit literals d out
  | n + 1, states, bits, literals, d, out =>
    match t.sequence states bits with
    | .error e => .error e
    | .ok (q, bits) =>
      match q.execute limit literals d out with
      | .error e => .error e
      | .ok (literals, d, out) =>
        match t.next states bits with
        | .error e => .error e
        | .ok (states, bits) => runSequences t limit n states bits literals d out

/-- Reads the number of sequences of a block. -/
def readCount (bs : Bytes) : Except CodecFault (Nat × Bytes) := do
  let (first, rest) ← Input.byte bs
  let n := first.toNat
  if n < 128 then pure (n, rest)
  else if n < 255 then
    let (second, rest) ← Input.byte rest
    pure ((n - 128) * 256 + second.toNat, rest)
  else
    let (more, rest) ← Input.number 2 rest
    pure (more + 0x7F00, rest)

/-- Decodes a compressed block; what the frame has put out grows up to `limit` bytes. -/
def Carry.decodeBlock (c : Carry) (blockMax : Nat) (bs : Bytes) : Except CodecFault Carry := do
  let limit := c.out.size + blockMax
  let (literals, code, rest) ← readLiterals c.code blockMax bs
  let (count, rest) ← readCount rest
  match count with
  | 0 =>
    if !rest.isEmpty then throw (.malformed "empty sequence section")
    let out ← c.out.appendWithin limit literals
    pure { c with code, out }
  | n + 1 =>
    let (modes, rest) ← Input.byte rest
    let m := modes.toNat
    if m % 4 ≠ 0 then throw (.malformed "sequence modes")
    let (literalTable, rest) ←
      Part.literals.readTable (m / 64) (c.tables.map (·.literals)) rest
    let (distanceTable, rest) ←
      Part.distance.readTable (m / 16 % 4) (c.tables.map (·.distance)) rest
    let (copyTable, rest) ← Part.copy.readTable (m / 4 % 4) (c.tables.map (·.copy)) rest
    let tables : Tables := ⟨literalTable, distanceTable, copyTable⟩
    -- what is left of the block is one bit stream, read from its end
    let (states, bits) ← tables.start (← BitStream.backward rest)
    let (left, distances, out) ← runSequences tables limit n states bits literals c.distances c.out
    let out ← out.appendWithin limit left
    pure { code, tables := some tables, distances, out }

end Granule.Zstd
