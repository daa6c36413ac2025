import Granule.Codec.BitStream

/-!
# Prefix Codes

A prefix code is a binary tree with symbols at its leaves: bits lead from the
root to a symbol. A complete code is given by its symbols in the order of its
leaves, from left to right, each with the length of its code word.
-/

namespace Granule

/-- A complete code of symbols by bit strings. -/
inductive PrefixCode where
  | leaf (symbol : Nat)
  | node (zero one : PrefixCode)
deriving Repr

namespace PrefixCode

/-- Reads one symbol. -/
def decode : PrefixCode → BitDecoder Nat
  | .leaf symbol => pure symbol
  | .node zero one => do
    if (← BitStream.bit) then decode one else decode zero

/-- Reads `n` more symbols after those in hand, the last of which comes first. -/
def decodeFrom (code : PrefixCode) :
    (n : Nat) → (hand : List Nat) → BitStream → Except CodecFault (List Nat × BitStream)
  | 0, hand, s => .ok (hand.reverse, s)
  | n + 1, hand, s =>
    match code.decode s with
    | .ok (symbol, rest) => decodeFrom code n (symbol :: hand) rest
    | .error e => .error e

def decodeMany (code : PrefixCode) (n : Nat) : BitDecoder (List Nat) :=
  code.decodeFrom n []

/-- Builds the tree at a depth from the front of a list of leaves, and returns
the leaves that are not used. The tree reaches at most `room` levels down. -/
def build : (room depth : Nat) → List (Nat × Nat) → Option (PrefixCode × List (Nat × Nat))
  | _, _, [] => none
  | room, depth, (len, symbol) :: rest =>
    if len = depth then some (.leaf symbol, rest)
    else
      match room with
      | 0 => none
      | room + 1 =>
        match build room (depth + 1) ((len, symbol) :: rest) with
        | none => none
        | some (zero, middle) =>
          match build room (depth + 1) middle with
          | none => none
          | some (one, unused) => some (.node zero one, unused)

/-- The complete code with the given leaves, from left to right. -/
def ofLeaves? (list : List (Nat × Nat)) : Option PrefixCode :=
  match build ((list.map (·.1)).foldl max 0) 0 list with
  | some (code, []) => some code
  | _ => none

/-- The complete code in which shorter words come first, and words of one
length in the order of their symbols; length zero marks a symbol as unused. -/
def shortestFirst? (lengths : List Nat) : Option PrefixCode :=
  let used := (lengths.zipIdx.filter fun p => p.1 ≠ 0)
  ofLeaves? (used.mergeSort fun a b => a.1 ≤ b.1)

end PrefixCode

end Granule
