import Granule.Codec.Zstd.Block
import Granule.Digest.XxHash64

/-!
# Zstandard Frames

A payload is a row of frames, one at least. A data frame is a header, blocks up
to the one marked as the last, and possibly a checksum of the content; its
content is what its blocks decode to. A skippable frame has no content.

**Main statements**:
- `length_block` : a block is read off the front of the input
- `length_frame` : a frame uses up some of the input, so a row of frames ends
-/

namespace Granule.Zstd

/-! ## §1 Limits -/

def maxBlock : Nat := 128 * 1024

def maxWindow : Nat := 2 ^ 27

def magic : Nat := 0xFD2FB528

/-- The first of the sixteen numbers at the start of a skippable frame. -/
def skippableMagic : Nat := 0x184D2A50

/-! ## §2 The frame header -/

/-- What the header of a frame says. -/
structure Header where
  /-- How far back a copy may reach. -/
  window : Nat
  /-- The length of the content, if it is told. -/
  contentSize : Option Nat
  /-- The content is followed by a checksum. -/
  hasChecksum : Bool
deriving Repr

def windowOf (descriptor : Nat) : Nat :=
  2 ^ (10 + descriptor / 8) + 2 ^ (10 + descriptor / 8) / 8 * (descriptor % 8)

/-- The widths of the fields that follow a frame descriptor: the window, the
dictionary, and the size of the content. -/
def fieldWidths (descriptor : Nat) : Nat × Nat × Nat :=
  let single := descriptor / 32 % 2
  (1 - single,
    match descriptor % 4 with | 0 => 0 | 1 => 1 | 2 => 2 | _ => 4,
    match descriptor / 64 with | 0 => single | 1 => 2 | 2 => 4 | _ => 8)

/-- The header of the given fields. A frame without a window of its own has that
of its content; contents of a size of two bytes are 256 bytes longer than told. -/
def Header.ofFields (descriptor window dictionary size : Nat) : Except CodecFault Header :=
  let sizeWidth := (fieldWidths descriptor).2.2
  let contentSize := if sizeWidth = 2 then size + 256 else size
  let window := if descriptor / 32 % 2 = 1 then contentSize else windowOf window
  if descriptor / 8 % 2 = 1 then .error (.malformed "frame header")
  else if dictionary ≠ 0 then .error (.malformed "dictionary of a frame")
  else if maxWindow < window then .error (.malformed "window of a frame")
  else .ok ⟨window, if sizeWidth = 0 then none else some contentSize, descriptor / 4 % 2 = 1⟩

/-- Reads a frame header. -/
def readHeader (bs : Bytes) : Except CodecFault (Header × Bytes) :=
  match Input.number 1 bs with
  | .error e => .error e
  | .ok (descriptor, rest) =>
    match Input.number (fieldWidths descriptor).1 rest with
    | .error e => .error e
    | .ok (window, rest) =>
      match Input.number (fieldWidths descriptor).2.1 rest with
      | .error e => .error e
      | .ok (dictionary, rest) =>
        match Input.number (fieldWidths descriptor).2.2 rest with
        | .error e => .error e
        | .ok (size, rest) =>
          match Header.ofFields descriptor window dictionary size with
          | .error e => .error e
          | .ok header => .ok (header, rest)

theorem length_readHeader {bs rest : Bytes} {header : Header}
    (h : readHeader bs = .ok (header, rest)) : rest.length < bs.length := by
  unfold readHeader at h
  split at h
  · cases h
  · rename_i hdescriptor
    have h1 := Input.length_number hdescriptor
    split at h
    · cases h
    · rename_i hwindow
      have h2 := Input.length_number hwindow
      split at h
      · cases h
      · rename_i hdictionary
        have h3 := Input.length_number hdictionary
        split at h
        · cases h
        · rename_i hsize
          have h4 := Input.length_number hsize
          split at h
          · cases h
          · cases h
            omega

/-! ## §3 Blocks -/

/-- Reads one block: whether it is the last, and what is carried on from it. -/
def block (blockMax : Nat) (c : Carry) (bs : Bytes) :
    Except CodecFault (Bool × Carry × Bytes) :=
  match Input.number 3 bs with
  | .error e => .error e
  | .ok (head, rest) =>
    let size := head / 8
    match head / 2 % 4 with
    | 0 =>
      if blockMax < size then .error (.malformed "block size")
      else
        match Input.take size rest with
        | .error e => .error e
        | .ok (content, rest) => .ok (head % 2 = 1, { c with out := c.out ++ content }, rest)
    | 1 =>
      if blockMax < size then .error (.malformed "block size")
      else
        match Input.byte rest with
        | .error e => .error e
        | .ok (b, rest) =>
          .ok (head % 2 = 1, { c with out := c.out ++ List.replicate size b }, rest)
    | 2 =>
      if blockMax < size then .error (.malformed "block size")
      else
        match Input.take size rest with
        | .error e => .error e
        | .ok (content, rest) =>
          match c.decodeBlock blockMax content with
          | .error e => .error e
          | .ok next => .ok (head % 2 = 1, next, rest)
    | _ => .error (.malformed "block type")

/-- A block is read off the front of the input. -/
theorem length_block {blockMax : Nat} {c next : Carry} {bs rest : Bytes} {last : Bool}
    (h : block blockMax c bs = .ok (last, next, rest)) : rest.length < bs.length := by
  unfold block at h
  split at h
  · cases h
  · rename_i head tail hhead
    have hnumber := Input.length_number hhead
    dsimp only at h
    split at h
    · split at h
      · cases h
      · split at h
        · cases h
        · rename_i htake
          cases h
          have := Input.length_take htake
          omega
    · split at h
      · cases h
      · split at h
        · cases h
        · rename_i b hbyte
          cases h
          have := Input.length_byte hbyte
          omega
    · split at h
      · cases h
      · split at h
        · cases h
        · rename_i htake
          split at h
          · cases h
          · cases h
            have := Input.length_take htake
            omega
    · cases h

/-- Reads blocks up to the last. -/
def blocks (blockMax : Nat) (c : Carry) (bs : Bytes) : Except CodecFault (Output × Bytes) :=
  match _h : block blockMax c bs with
  | .error e => .error e
  | .ok (true, next, rest) => .ok (next.out, rest)
  | .ok (false, next, rest) => blocks blockMax next rest
termination_by bs.length
decreasing_by exact length_block _h

theorem length_blocks {blockMax : Nat} {c : Carry} {bs rest : Bytes} {out : Output}
    (h : blocks blockMax c bs = .ok (out, rest)) : rest.length < bs.length := by
  fun_induction blocks blockMax c bs with
  | case1 => cases h
  | case2 c bs next tail hblock =>
    cases h
    exact length_block hblock
  | case3 c bs next tail hblock ih =>
    have := length_block hblock
    have := ih h
    omega

/-! ## §4 Frames -/

/-- Checks the content of a frame against its header and its checksum. -/
def checkContent (header : Header) (out : Output) (rest : Bytes) :
    Except CodecFault (Output × Bytes) :=
  if header.contentSize.any (· ≠ out.size) then .error (.malformed "content size")
  else if header.hasChecksum then
    match Input.number 4 rest with
    | .error e => .error e
    | .ok (sum, rest) =>
      if sum = (XxHash64.ofBytes 0 out.toList).toNat % 2 ^ 32 then .ok (out, rest)
      else .error .checksum
  else .ok (out, rest)

theorem length_checkContent {header : Header} {out result : Output} {rest after : Bytes}
    (h : checkContent header out rest = .ok (result, after)) : after.length ≤ rest.length := by
  unfold checkContent at h
  split at h
  · cases h
  · split at h
    · split at h
      · cases h
      · rename_i hsum
        have := Input.length_number hsum
        split at h
        · cases h; omega
        · cases h
    · cases h; exact Nat.le_refl _

/-- Reads one frame: its content and the input after it. -/
def frame (bs : Bytes) : Except CodecFault (Output × Bytes) :=
  match Input.number 4 bs with
  | .error e => .error e
  | .ok (number, rest) =>
    if number / 16 = skippableMagic / 16 then
      match Input.number 4 rest with
      | .error e => .error e
      | .ok (size, rest) =>
        match Input.take size rest with
        | .error e => .error e
        | .ok (_, rest) => .ok (#[], rest)
    else if number ≠ magic then .error (.malformed "frame magic")
    else
      match readHeader rest with
      | .error e => .error e
      | .ok (header, body) =>
        match blocks (min maxBlock header.window) {} body with
        | .error e => .error e
        | .ok (out, rest) => checkContent header out rest

/-- A frame uses up some of the input. -/
theorem length_frame {bs rest : Bytes} {out : Output} (h : frame bs = .ok (out, rest)) :
    rest.length < bs.length := by
  unfold frame at h
  split at h
  · cases h
  · rename_i number tail hnumber
    have hmagic := Input.length_number hnumber
    split at h
    · split at h
      · cases h
      · rename_i hsize
        have := Input.length_number hsize
        split at h
        · cases h
        · rename_i htake
          cases h
          have := Input.length_take htake
          omega
    · split at h
      · cases h
      · split at h
        · cases h
        · rename_i header body hheader
          have hbody := length_readHeader hheader
          split at h
          · cases h
          · rename_i hblocks
            have hafter := length_blocks hblocks
            have hcheck := length_checkContent h
            omega

/-- Reads frames to the end of the input. -/
def frames (bs : Bytes) (before : Output) : Except CodecFault Output :=
  match _h : frame bs with
  | .error e => .error e
  | .ok (out, []) => .ok (before ++ out)
  | .ok (out, b :: rest) => frames (b :: rest) (before ++ out)
termination_by bs.length
decreasing_by exact length_frame _h

def decode (bs : Bytes) : Except CodecFault Bytes :=
  (frames bs #[]).map Array.toList

end Granule.Zstd
