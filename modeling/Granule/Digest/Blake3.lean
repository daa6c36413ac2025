import Granule.Bytes

/-!
# BLAKE3

A tree hash with digests of 32 bytes. The input is cut into chunks of 1024
bytes, each chunk into blocks of 64 bytes that are chained one to the next. The
chunks are the leaves of a binary tree in which every left subtree is the
largest full one that leaves at least one byte for the right. The root is
compressed once more under a mark of its own.

**Main statement**: `Blake3.leftLength_lt` — both subtrees of a parent are shorter than their
input.
-/

namespace Granule.Blake3

/-! ## §1 The compression function -/

/-- Sixteen words: one block of input, or the state of a compression. -/
abbrev Block := Vector UInt32 16

/-- Eight words: what one compression hands on to the next. -/
abbrev Chain := Vector UInt32 8

def initial : Chain :=
  #v[0x6A09E667, 0xBB67AE85, 0x3C6EF372, 0xA54FF53A,
    0x510E527F, 0x9B05688C, 0x1F83D9AB, 0x5BE0CD19]

def rotateRight (x count : UInt32) : UInt32 := (x >>> count) ||| (x <<< (32 - count))

/-- Mixes two input words into one column or diagonal of the state. -/
def quarter (v : Block) (a b c d : Fin 16) (x y : UInt32) : Block :=
  let v := v.set a (v[a] + v[b] + x)
  let v := v.set d (rotateRight (v[d] ^^^ v[a]) 16)
  let v := v.set c (v[c] + v[d])
  let v := v.set b (rotateRight (v[b] ^^^ v[c]) 12)
  let v := v.set a (v[a] + v[b] + y)
  let v := v.set d (rotateRight (v[d] ^^^ v[a]) 8)
  let v := v.set c (v[c] + v[d])
  v.set b (rotateRight (v[b] ^^^ v[c]) 7)

/-- Mixes a block into the state: first the columns, then the diagonals. -/
def round (v m : Block) : Block :=
  let v := quarter v 0 4 8 12 m[0] m[1]
  let v := quarter v 1 5 9 13 m[2] m[3]
  let v := quarter v 2 6 10 14 m[4] m[5]
  let v := quarter v 3 7 11 15 m[6] m[7]
  let v := quarter v 0 5 10 15 m[8] m[9]
  let v := quarter v 1 6 11 12 m[10] m[11]
  let v := quarter v 2 7 8 13 m[12] m[13]
  quarter v 3 4 9 14 m[14] m[15]

/-- The order in which the next round takes the words of this one. -/
def permute (m : Block) : Block :=
  #v[m[2], m[6], m[3], m[10], m[7], m[0], m[4], m[13],
    m[1], m[11], m[12], m[5], m[9], m[14], m[15], m[8]]

/-- Several rounds, the block permuted from each to the next. -/
def rounds : (n : Nat) → (v m : Block) → Block
  | 0, v, _ => v
  | n + 1, v, m => rounds n (round v m) (permute m)

/-- A compression still to be done: a place in the tree with its input. -/
structure Node where
  chain : Chain
  block : Block
  /-- The number of the chunk, or zero above the chunks. -/
  counter : Nat
  /-- Bytes of input in the block. -/
  length : Nat
  /-- Marks for the place of the block. -/
  flags : UInt32

/-- Compresses the block of a node into its chain. -/
def Node.compress (n : Node) : Block :=
  let h := n.chain
  let start : Block :=
    #v[h[0], h[1], h[2], h[3], h[4], h[5], h[6], h[7],
      initial[0], initial[1], initial[2], initial[3],
      UInt32.ofNat n.counter, UInt32.ofNat (n.counter / 2 ^ 32), UInt32.ofNat n.length, n.flags]
  let v := rounds 7 start n.block
  Vector.ofFn fun i =>
    if hi : i.val < 8 then v[i.val] ^^^ v[i.val + 8]
    else v[i.val] ^^^ h[i.val - 8]

def Node.output (n : Node) : Chain :=
  let v := n.compress
  Vector.ofFn fun i => v[i.val]

/-! ## §2 Chunks -/

def chunkLength : Nat := 1024

def blockLength : Nat := 64

def flagChunkStart : UInt32 := 1

def flagChunkEnd : UInt32 := 2

def flagParent : UInt32 := 4

def flagRoot : UInt32 := 8

/-- The words of a block, least significant byte first; missing bytes are zero. -/
def blockOf (bs : Bytes) : Block :=
  Vector.ofFn fun i => UInt32.ofNat (Bytes.toNatLE ((bs.drop (4 * i.val)).take 4))

/-- The last node of a chunk whose blocks so far amount to a chain. -/
def chunkFrom (counter : Nat) (chain : Chain) (flags : UInt32) (bs : Bytes) : Node :=
  if bs.length ≤ blockLength then
    ⟨chain, blockOf bs, counter, bs.length, flags ||| flagChunkEnd⟩
  else
    let block : Node := ⟨chain, blockOf (bs.take blockLength), counter, blockLength, flags⟩
    chunkFrom counter block.output 0 (bs.drop blockLength)
termination_by bs.length
decreasing_by
  simp only [List.length_drop, blockLength] at *
  omega

def chunk (counter : Nat) (bs : Bytes) : Node :=
  chunkFrom counter initial flagChunkStart bs

/-! ## §3 The tree -/

/-- Bytes in the left subtree of an input of more than one chunk. -/
def leftLength (length : Nat) : Nat :=
  chunkLength * 2 ^ ((length - 1) / chunkLength).log2

/-- The left subtree holds some bytes of the input and leaves some. -/
theorem leftLength_lt {length : Nat} (h : chunkLength < length) :
    0 < leftLength length ∧ leftLength length < length := by
  unfold leftLength
  simp only [chunkLength] at *
  have hq : (length - 1) / 1024 ≠ 0 := by omega
  have hlog := Nat.log2_self_le hq
  have hpos : 0 < 2 ^ ((length - 1) / 1024).log2 := Nat.two_pow_pos _
  omega

/-- The node above two subtrees. -/
def parent (left right : Chain) : Node where
  chain := initial
  block := Vector.ofFn fun i =>
    if hi : i.val < 8 then left[i.val] else right[i.val - 8]
  counter := 0
  length := blockLength
  flags := flagParent

/-- The top node of an input whose first chunk has number `counter`. -/
def tree (counter : Nat) (bs : Bytes) : Node :=
  if bs.length ≤ chunkLength then chunk counter bs
  else
    let left := leftLength bs.length
    parent (tree counter (bs.take left)).output
      (tree (counter + left / chunkLength) (bs.drop left)).output
termination_by bs.length
decreasing_by
  all_goals
    have hsplit := @leftLength_lt bs.length (by omega)
    simp only [List.length_take, List.length_drop]
    omega

/-- The digest of a byte string. -/
def digest (bs : Bytes) : Bytes :=
  let root := tree 0 bs
  let out := { root with counter := 0, flags := root.flags ||| flagRoot }.output
  out.toList.flatMap fun w => Bytes.ofNatLE 4 w.toNat

end Granule.Blake3
