import Granule.Codec.Output
import Granule.Codec.Brotli.Context

/-!
# Brotli Streams

A stream is the size of its window and a row of meta-blocks. A meta-block is
skipped data, plain bytes, or commands: each inserts literals and then copies
earlier output. Literals, commands and distances are coded in blocks whose types
choose the codes. Bytes after the last meta-block are not looked at.

Distances that reach before the output would name words of a fixed dictionary,
which is not part of this library; they are refused.
-/

namespace Granule.Brotli

/-! ## §1 Blocks -/

/-- The blocks of one category: their codes, the last two types, and how much
of the present block is left. -/
structure Category where
  types : Nat
  /-- The codes of types and of block lengths, when there are several types. -/
  codes : Option (PrefixCode × PrefixCode) := none
  current : Nat := 0
  previous : Nat := 1
  left : Nat := 2 ^ 24

/-- The least length of a block for a symbol, and the bits that add to it. -/
def blockLengthRow (symbol : Nat) : Nat × Nat :=
  [(1, 2), (5, 2), (9, 2), (13, 2), (17, 3), (25, 3), (33, 3), (41, 3), (49, 4), (65, 4), (81, 4),
    (97, 4), (113, 5), (145, 5), (177, 5), (209, 5), (241, 6), (305, 6), (369, 7), (497, 8),
    (753, 9), (1265, 10), (2289, 11), (4337, 12), (8433, 13), (16625, 24)].getD symbol (0, 0)

/-- Reads the length of a block. -/
def readBlockLength (code : PrefixCode) : BitDecoder Nat := do
  let (base, width) := blockLengthRow (← code.decode)
  let low ← BitStream.bits width
  pure (base + low)

/-- Reads what a meta-block says about the blocks of a category. -/
def readCategory : BitDecoder Category := do
  let types := (← readSmall) + 1
  if types = 1 then pure { types }
  else
    let typeCode ← Codes.readCode (types + 2)
    let lengthCode ← Codes.readCode 26
    let left ← readBlockLength lengthCode
    pure { types, codes := some (typeCode, lengthCode), left }

/-- Enters the next block. -/
def Category.switch (c : Category) : BitDecoder Category := do
  match c.codes with
  | none => pure { c with left := 2 ^ 24 }
  | some (typeCode, lengthCode) =>
    let symbol ← typeCode.decode
    let type := match symbol with
      | 0 => c.previous
      | 1 => c.current + 1
      | n + 2 => n
    let left ← readBlockLength lengthCode
    pure { c with
      previous := c.current
      current := if c.types ≤ type then type - c.types else type
      left }

/-- Uses one element of the present block, or of the next when this is used up. -/
def Category.advance (c : Category) : BitDecoder Category := do
  let c ← if c.left = 0 then c.switch else pure c
  pure { c with left := c.left - 1 }

/-! ## §2 Commands -/

/-- The least number of literals for a symbol, and the bits that add to it. -/
def insertRow (symbol : Nat) : Nat × Nat :=
  [(0, 0), (1, 0), (2, 0), (3, 0), (4, 0), (5, 0), (6, 1), (8, 1), (10, 2), (14, 2), (18, 3),
    (26, 3), (34, 4), (50, 4), (66, 5), (98, 5), (130, 6), (194, 7), (322, 8), (578, 9), (1090, 10),
    (2114, 12), (6210, 14), (22594, 24)].getD symbol (0, 0)

/-- By how much the least length of a copy exceeds two for a symbol, and the
bits that add to it. -/
def copyRow (symbol : Nat) : Nat × Nat :=
  [(0, 0), (1, 0), (2, 0), (3, 0), (4, 0), (5, 0), (6, 0), (7, 0), (8, 1), (10, 1), (12, 2),
    (16, 2), (20, 3), (28, 3), (36, 4), (52, 4), (68, 5), (100, 5), (132, 6), (196, 7), (324, 8),
    (580, 9), (1092, 10), (2116, 24)].getD symbol (0, 0)

/-- For each group of 64 command symbols the first symbol for literals and the
first for the copy. -/
def commandCell (cell : Nat) : Nat × Nat :=
  [(0, 0), (0, 8), (0, 0), (0, 8), (8, 0), (8, 8), (0, 16), (16, 0), (8, 16), (16, 8),
    (16, 16)].getD cell (0, 0)

/-- A command: literals, by how much the copy exceeds two bytes, and whether the
last distance is used without being named. -/
structure Command where
  insert : Nat
  copyExtra : Nat
  lastDistance : Bool

def Command.copy (c : Command) : Nat := c.copyExtra + 2

/-- Reads a command. -/
def readCommand (code : PrefixCode) : BitDecoder Command := do
  let symbol ← code.decode
  let (insertFirst, copyFirst) := commandCell (symbol / 64)
  let (insertBase, insertBits) := insertRow (insertFirst + symbol / 8 % 8)
  let (copyBase, copyBits) := copyRow (copyFirst + symbol % 8)
  let insertLow ← BitStream.bits insertBits
  let copyLow ← BitStream.bits copyBits
  pure ⟨insertBase + insertLow, copyBase + copyLow, symbol < 128⟩

/-! ## §3 Distances -/

/-- The last four distances. -/
structure Recent where
  last : Nat := 4
  second : Nat := 11
  third : Nat := 15
  fourth : Nat := 16

/-- The distance that one of the first sixteen symbols names. -/
def Recent.named (r : Recent) (symbol : Nat) : Int :=
  match symbol with
  | 0 => r.last
  | 1 => r.second
  | 2 => r.third
  | 3 => r.fourth
  | n =>
    let base : Int := if n < 10 then r.last else r.second
    let step : Int := ((n - 4) % 6 / 2 + 1 : Nat)
    if n % 2 = 0 then base - step else base + step

def Recent.push (r : Recent) (distance : Nat) : Recent := ⟨distance, r.last, r.second, r.third⟩

/-- How distances are written: how many low bits are left to the symbol, and how
many distances have symbols of their own. -/
structure DistanceForm where
  postfixBits : Nat
  direct : Nat

def DistanceForm.symbols (f : DistanceForm) : Nat := 16 + f.direct + 48 * 2 ^ f.postfixBits

/-- Reads a distance, and returns the last distances from then on. -/
def readDistance (f : DistanceForm) (code : PrefixCode) (r : Recent) :
    BitDecoder (Nat × Recent) := do
  let symbol ← code.decode
  if symbol = 0 then pure (r.last, r)
  else
    let distance ←
      if symbol < 16 then do
        let named := r.named symbol
        if named ≤ 0 then throw (.malformed "distance")
        pure named.toNat
      else if symbol < 16 + f.direct then pure (symbol - 15)
      else do
        let x := symbol - 16 - f.direct
        let width := 1 + x / 2 ^ (f.postfixBits + 1)
        let high := x / 2 ^ f.postfixBits
        let low ← BitStream.bits width
        pure (((2 + high % 2) * 2 ^ width - 4 + low) * 2 ^ f.postfixBits
          + x % 2 ^ f.postfixBits + f.direct + 1)
    pure (distance, r.push distance)

/-! ## §4 Meta-blocks of commands -/

/-- What a meta-block says before its commands. -/
structure MetaBlock where
  form : DistanceForm
  modes : Array LiteralMode
  literalMap : Array Nat
  distanceMap : Array Nat
  literalCodes : Array PrefixCode
  commandCodes : Array PrefixCode
  distanceCodes : Array PrefixCode

/-- What commands change. -/
structure Walk where
  literals : Category
  commands : Category
  distances : Category
  recent : Recent
  out : Output

/-- The code of a number, which a well-formed map always has. -/
def codeAt (codes : Array PrefixCode) (n : Nat) : BitDecoder PrefixCode :=
  match codes[n]? with
  | some code => pure code
  | none => throw (.malformed "context map")

/-- Reads one literal. -/
def readLiteral (m : MetaBlock) (w : Walk) : BitDecoder Walk := do
  let literals ← w.literals.advance
  let last := (w.out.back?.getD 0).toNat
  let older := if w.out.size < 2 then 0 else (w.out[w.out.size - 2]?.getD 0).toNat
  let mode := m.modes[literals.current]?.getD .low
  let context := 64 * literals.current + mode.context last older
  let code ← codeAt m.literalCodes (m.literalMap[context]?.getD 0)
  let symbol ← code.decode
  pure { w with literals, out := w.out.push (UInt8.ofNat symbol) }

/-- Reads `n` literals. -/
def readLiterals (m : MetaBlock) : (n : Nat) → Walk → BitDecoder Walk
  | 0, w => pure w
  | n + 1, w => do
    let w ← readLiteral m w
    readLiterals m n w

/-- Copies earlier output as a command says. -/
def copyCommand (m : MetaBlock) (window : Nat) (command : Command) (w : Walk) :
    BitDecoder Walk := do
  let (distance, w) ←
    if command.lastDistance then pure (w.recent.last, w)
    else do
      let distances ← w.distances.advance
      let context := 4 * distances.current + distanceContext command.copy
      let code ← codeAt m.distanceCodes (m.distanceMap[context]?.getD 0)
      let (distance, recent) ← readDistance m.form code w.recent
      pure (distance, { w with distances, recent })
  if window < distance then throw (.malformed "distance of a copy")
  let out ← w.out.copyBack distance command.copy
  pure { w with out }

/-- Runs commands until `left` more bytes are put out. -/
def runCommands (m : MetaBlock) (window left : Nat) (w : Walk) : BitDecoder Walk := do
  if hleft : left = 0 then pure w
  else
    let commands ← w.commands.advance
    let code ← codeAt m.commandCodes commands.current
    let command ← readCommand code
    if left < command.insert then throw (.malformed "length of a meta-block")
    let w ← readLiterals m command.insert { w with commands }
    -- the last command of a meta-block may end after its literals
    if left = command.insert then pure w
    else if left < command.insert + command.copy then throw (.malformed "length of a meta-block")
    else
      let w ← copyCommand m window command w
      runCommands m window (left - (command.insert + (command.copyExtra + 2))) w
termination_by left

/-- Reads `n` modes of literal contexts. -/
def readModes : (n : Nat) → BitDecoder (List LiteralMode)
  | 0 => pure []
  | n + 1 => do
    let mode ← BitStream.bits 2
    let rest ← readModes n
    pure (.ofNat mode :: rest)

/-- Reads a meta-block of commands that puts out `length` bytes. -/
def readCommands (window length : Nat) (recent : Recent) (out : Output) :
    BitDecoder (Recent × Output) := do
  let literals ← readCategory
  let commands ← readCategory
  let distances ← readCategory
  let postfixBits ← BitStream.bits 2
  let direct ← BitStream.bits 4
  let form : DistanceForm := ⟨postfixBits, direct * 2 ^ postfixBits⟩
  let modes ← readModes literals.types
  let (literalTrees, literalMap) ← readMap (64 * literals.types)
  let (distanceTrees, distanceMap) ← readMap (4 * distances.types)
  let literalCodes ← Codes.readCodes 256 literalTrees
  let commandCodes ← Codes.readCodes 704 commands.types
  let distanceCodes ← Codes.readCodes form.symbols distanceTrees
  let m : MetaBlock := {
    form, literalMap, distanceMap
    modes := modes.toArray
    literalCodes := literalCodes.toArray
    commandCodes := commandCodes.toArray
    distanceCodes := distanceCodes.toArray }
  let w ← runCommands m window length { literals, commands, distances, recent, out }
  pure (w.recent, w.out)

/-! ## §5 Streams -/

/-- Reads the size of the window, the greatest distance of a copy. -/
def readWindow : BitDecoder Nat := do
  let bits ←
    if !(← BitStream.bit) then pure 16
    else do
      let n ← BitStream.bits 3
      if n ≠ 0 then pure (17 + n)
      else do
        let n ← BitStream.bits 3
        if n = 0 then pure 17
        else if n = 1 then throw (.malformed "window")
        else pure (8 + n)
  pure (2 ^ bits - 16)

/-- Passes to the next byte boundary; the bits before it are zero. -/
def alignZero : BitDecoder Unit := fun s =>
  let padding := s.length % 8
  if (s.take padding).any id then .error (.malformed "padding") else .ok ((), s.drop padding)

/-- Reads `n` whole bytes. -/
def readBytes : (n : Nat) → Output → BitDecoder Output
  | 0, out => pure out
  | n + 1, out => do
    let b ← BitStream.bits 8
    readBytes n (out.push (UInt8.ofNat b))

/-- Reads a number of `parts` parts of `width` bits each. Only the shortest form
of a number is allowed: past `least` parts the last one is not zero. -/
def readParts (width least parts : Nat) : BitDecoder Nat := do
  let n ← BitStream.bits (width * parts)
  BitStream.require (parts ≤ least || 2 ^ (width * (parts - 1)) ≤ n) (.malformed "length")
  pure n

/-- Passes over a meta-block of data that is skipped. -/
def skipMeta : BitDecoder Unit := do
  let reserved ← BitStream.bit
  BitStream.require (!reserved) (.malformed "skipped data")
  let parts ← BitStream.bits 2
  let length ← if parts = 0 then pure 0 else (do pure ((← readParts 8 1 parts) + 1))
  alignZero
  let _ ← readBytes length #[]
  pure ()

/-- Reads one meta-block: whether it is the last, the last distances, and the output. -/
def metaBlock (window : Nat) (recent : Recent) (out : Output) :
    BitDecoder (Bool × Recent × Output) := do
  let last ← BitStream.bit
  let isEmpty ← if last then BitStream.bit else pure false
  if isEmpty then pure (true, recent, out)
  else
    let nibbles ← BitStream.bits 2
    if nibbles = 3 then
      skipMeta
      pure (last, recent, out)
    else
      let length := (← readParts 4 4 (nibbles + 4)) + 1
      let isPlain ← if last then pure false else BitStream.bit
      if isPlain then
        alignZero
        let out ← readBytes length out
        pure (false, recent, out)
      else
        let (recent, out) ← readCommands window length recent out
        pure (last, recent, out)

/-- Reads meta-blocks to the last. Every one takes bits off the stream; one that
took none is refused, so the reading ends. -/
def metaBlocks (window : Nat) (recent : Recent) (out : Output) (s : BitStream) :
    Except CodecFault Output :=
  match metaBlock window recent out s with
  | .error e => .error e
  | .ok ((true, _, out), rest) =>
    match alignZero rest with
    | .error e => .error e
    | .ok _ => .ok out
  | .ok ((false, recent, out), rest) =>
    if _h : rest.length < s.length then metaBlocks window recent out rest
    else .error (.malformed "meta-block")
termination_by s.length

/-- Decodes a stream. -/
def decode (bs : Bytes) : Except CodecFault Bytes :=
  match readWindow (BitStream.ofBytes bs) with
  | .error e => .error e
  | .ok (window, rest) => (metaBlocks window {} #[] rest).map Array.toList

end Granule.Brotli
