import Granule.Codec.Output
import Granule.Codec.Lzma.RangeCoder

/-!
# LZMA Streams

A stream is a header of thirteen bytes and packets that are read from a range
decoder: single literals, copies from a new distance, and copies from one of
the last four distances. The header tells the length of the output or leaves it
open; an open stream ends with a marker, or where the input is used up and the
code of the range decoder is zero.
-/

namespace Granule.Lzma

/-! ## §1 The header -/

/-- What the header says. -/
structure Header where
  /-- Upper bits of the byte before a literal that choose its contexts. -/
  literalBits : Nat
  /-- Lower bits of the output length that choose the contexts of a literal. -/
  literalPosBits : Nat
  /-- Lower bits of the output length that choose the contexts of a packet. -/
  posBits : Nat
  /-- How far back a copy may reach. -/
  dictionary : Nat
  /-- The length of the output, if it is told. -/
  size : Option Nat

/-- The smallest dictionary. -/
def minDictionary : Nat := 0x1000

/-- Reads the header. -/
def readHeader (bs : Bytes) : Except CodecFault (Header × Bytes) := do
  let (properties, rest) ← Input.number 1 bs
  if 225 ≤ properties then throw (.malformed "properties")
  let (dictionary, rest) ← Input.number 4 rest
  let (size, rest) ← Input.number 8 rest
  let header : Header := {
    literalBits := properties % 9
    literalPosBits := properties / 9 % 5
    posBits := properties / 45
    dictionary := max dictionary minDictionary
    size := if size = 2 ^ 64 - 1 then none else some size }
  pure (header, rest)

/-! ## §2 Contexts -/

namespace Context

/-- Which contexts a packet has used before it: twelve states of history. -/
def states : Nat := 12

/-- A packet is a copy. -/
def isMatch (state posState : Nat) : Nat := 16 * state + posState

/-- A copy uses one of the last four distances. -/
def isRepeat (state : Nat) : Nat := 192 + state

/-- That distance is not the last one. -/
def isRepeatOlder (state : Nat) : Nat := 204 + state

/-- Nor is it the one before. -/
def isRepeatThird (state : Nat) : Nat := 216 + state

/-- It is the oldest of the four. -/
def isRepeatFourth (state : Nat) : Nat := 228 + state

/-- A copy from the last distance has a length of its own and is not a single byte. -/
def isRepeatLong (state posState : Nat) : Nat := 240 + 16 * state + posState

/-- Contexts of a copy length: two choices, two sets of eight small trees, one large tree. -/
def lengthSize : Nat := 2 + 128 + 128 + 256

/-- The first context of lengths of copies from new distances. -/
def newLength : Nat := 432

/-- The first context of lengths of all other copies. -/
def repeatLength : Nat := newLength + lengthSize

/-- The first context of distance slots, for each of four classes of lengths. -/
def slot (lengthClass : Nat) : Nat := repeatLength + lengthSize + 64 * lengthClass

/-- The first context of the low bits of middling distances. -/
def middle : Nat := repeatLength + lengthSize + 256

/-- The first context of the lowest four bits of great distances. -/
def align : Nat := middle + 128

/-- The first context of a set for literals. -/
def literal (set : Nat) : Nat := align + 16 + 0x300 * set

/-- The number of contexts of a stream. -/
def count (h : Header) : Nat := literal (2 ^ (h.literalBits + h.literalPosBits))

end Context

/-! ## §3 Packets -/

/-- What packets change: the history of packet kinds, the last four distances
less one, and the output. -/
structure Walk where
  state : Nat := 0
  rep0 : Nat := 0
  rep1 : Nat := 0
  rep2 : Nat := 0
  rep3 : Nat := 0
  out : Output := #[]

/-- The distance, less one, that marks the end. -/
def endMark : Nat := 0xFFFFFFFF

/-- Reads a copy length. -/
def readLength (base posState : Nat) : Coded Nat := do
  let beyondLow ← Coded.bit base
  if !beyondLow then
    let low ← Coded.tree (base + 2 + 8 * posState) 3
    pure (2 + low)
  else
    let beyondMid ← Coded.bit (base + 1)
    if !beyondMid then
      let mid ← Coded.tree (base + 130 + 8 * posState) 3
      pure (10 + mid)
    else
      let high ← Coded.tree (base + 258) 8
      pure (18 + high)

/-- Reads a new distance, less one, for a copy of some length. -/
def readDistance (length : Nat) : Coded Nat := do
  let slot ← Coded.tree (Context.slot (min (length - 2) 3)) 6
  if slot < 4 then pure slot
  else
    let low := slot / 2 - 1
    let high := (2 + slot % 2) * 2 ^ low
    if slot < 14 then
      let rest ← Coded.reverseTree (Context.middle + high - slot) low 1
      pure (high + rest)
    else
      -- only the lowest four bits of a great distance have contexts
      let even ← Coded.evenBits (low - 4) 0
      let aligned ← Coded.reverseTree Context.align 4 1
      pure (high + 16 * even + aligned)

/-- Continues a literal whose bits so far follow those of the byte at the last
distance, until one differs. -/
def matchedLiteral (base : Nat) : (n node matched : Nat) → Coded Nat
  | 0, node, _ => pure node
  | n + 1, node, matched => do
    let expected := matched / 128 % 2
    let b ← Coded.bit (base + 256 * (1 + expected) + node)
    let node := 2 * node + b.toNat
    if b.toNat = expected then matchedLiteral base n node (2 * matched % 256)
    else Coded.treeFrom base n node

/-- The byte that stands `distance` bytes back, within the dictionary. -/
def byteBack (h : Header) (out : Output) (distance : Nat) : Except CodecFault UInt8 :=
  if h.dictionary < distance ∨ out.size < distance then .error (.malformed "distance of a copy")
  else
    match out[out.size - distance]? with
    | some b => .ok b
    | none => .error (.malformed "distance of a copy")

/-- Copies within the dictionary. -/
def copyBack (h : Header) (out : Output) (distance length : Nat) : Except CodecFault Output :=
  if h.dictionary < distance then .error (.malformed "distance of a copy")
  else out.copyBack distance length

/-- Reads a literal. -/
def readLiteral (h : Header) (w : Walk) : Coded Walk := do
  let before := (w.out.back?.getD 0).toNat
  let set := w.out.size % 2 ^ h.literalPosBits * 2 ^ h.literalBits
    + before / 2 ^ (8 - h.literalBits)
  let base := Context.literal set
  -- after a copy the byte at the last distance is a likely guess
  let node ←
    if w.state < 7 then Coded.treeFrom base 8 1
    else do
      let matched ← byteBack h w.out (w.rep0 + 1)
      matchedLiteral base 8 1 matched.toNat
  let state := if w.state < 4 then 0 else if w.state < 10 then w.state - 3 else w.state - 6
  pure { w with out := w.out.push (UInt8.ofNat node), state }

/-- Reads which of the last four distances is used, and puts it first. -/
def chooseRepeat (w : Walk) : Coded Walk := do
  let beyondSecond ← Coded.bit (Context.isRepeatThird w.state)
  if !beyondSecond then pure { w with rep0 := w.rep1, rep1 := w.rep0 }
  else
    let beyondThird ← Coded.bit (Context.isRepeatFourth w.state)
    if !beyondThird then pure { w with rep0 := w.rep2, rep1 := w.rep0, rep2 := w.rep1 }
    else pure { w with rep0 := w.rep3, rep1 := w.rep0, rep2 := w.rep1, rep3 := w.rep2 }

/-- Reads a copy from one of the last four distances. -/
def readRepeat (h : Header) (posState : Nat) (w : Walk) : Coded Walk := do
  let older ← Coded.bit (Context.isRepeatOlder w.state)
  let long ← if older then pure true else Coded.bit (Context.isRepeatLong w.state posState)
  if !long then
    let out ← copyBack h w.out (w.rep0 + 1) 1
    pure { w with out, state := if w.state < 7 then 9 else 11 }
  else
    let w ← if older then chooseRepeat w else pure w
    let length ← readLength Context.repeatLength posState
    let out ← copyBack h w.out (w.rep0 + 1) length
    pure { w with out, state := if w.state < 7 then 8 else 11 }

/-- Reads a copy from a new distance. The end mark is such a copy, which puts
nothing out; whether it was met comes first. -/
def readCopy (h : Header) (posState : Nat) (w : Walk) : Coded (Bool × Walk) := do
  let length ← readLength Context.newLength posState
  let distance ← readDistance length
  if distance = endMark then pure (true, w)
  else
    let out ← copyBack h w.out (distance + 1) length
    pure (false, {
      out, state := if w.state < 7 then 7 else 10
      rep0 := distance, rep1 := w.rep0, rep2 := w.rep1, rep3 := w.rep2 })

/-- Reads one packet: whether it is the end mark, and what it changes. -/
def packet (h : Header) (w : Walk) : Coded (Bool × Walk) := do
  let posState := w.out.size % 2 ^ h.posBits
  let isCopy ← Coded.bit (Context.isMatch w.state posState)
  if !isCopy then
    let w ← readLiteral h w
    pure (false, w)
  else
    let isRepeat ← Coded.bit (Context.isRepeat w.state)
    if isRepeat then
      let w ← readRepeat h posState w
      pure (false, w)
    else readCopy h posState w

/-! ## §4 Streams -/

/-- The output is complete before another packet is read. -/
def isComplete (h : Header) (c : RangeCoder) (w : Walk) : Bool :=
  match h.size with
  | some size => size ≤ w.out.size
  | none => c.code = 0 && c.isAtEnd

/-- The output at the end, if it has the length that was told. -/
def finish (h : Header) (w : Walk) : Except CodecFault Output :=
  if h.size.any (· ≠ w.out.size) then .error (.malformed "length of the output") else .ok w.out

/-- Reads packets to the end. Every packet takes bytes off the input or narrows
the range; one that did neither is refused, so the reading ends. -/
def run (h : Header) (c : RangeCoder) (w : Walk) : Except CodecFault Output :=
  if isComplete h c w then finish h w
  else
    let before := c.measure
    match packet h w c with
    | .error e => .error e
    | .ok ((true, w), next) =>
      if next.code = 0 then finish h w else .error (.malformed "end mark")
    | .ok ((false, w), next) =>
      if _h : next.measure < before then run h next w else .error (.malformed "range")
termination_by c.measure

/-- Decodes a stream. -/
def decode (bs : Bytes) : Except CodecFault Bytes := do
  let (h, rest) ← readHeader bs
  let c ← RangeCoder.start (Context.count h) rest
  let out ← run h c {}
  pure out.toList

end Granule.Lzma
