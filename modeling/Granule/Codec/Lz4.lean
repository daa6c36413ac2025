import Granule.Codec.Output

/-!
# LZ4 Blocks

A block is a row of sequences. A sequence is a token, literal bytes, and a copy
of earlier output; the last sequence ends after its literals. Lengths that do
not fit into half of the token go on in further bytes, each of which adds to
the length, up to the first that is not 255.

**Main statement**: `Lz4.length_readLength` — a length is read off the front of the input.
-/

namespace Granule.Lz4

/-! ## §1 Lengths -/

/-- The part of a length that follows the token. -/
def readExtra : Bytes → Except CodecFault (Nat × Bytes)
  | [] => .error .truncated
  | b :: rest =>
    if b = 255 then
      match readExtra rest with
      | .ok (more, rest) => .ok (255 + more, rest)
      | .error e => .error e
    else .ok (b.toNat, rest)

/-- A length whose half of the token is given. -/
def readLength (half : Nat) (input : Bytes) : Except CodecFault (Nat × Bytes) :=
  if half = 15 then
    match readExtra input with
    | .ok (more, rest) => .ok (15 + more, rest)
    | .error e => .error e
  else .ok (half, input)

private theorem length_readExtra {input rest : Bytes} {n : Nat}
    (h : readExtra input = .ok (n, rest)) : rest.length < input.length := by
  induction input generalizing n rest with
  | nil => cases h
  | cons b tail ih =>
    unfold readExtra at h
    split at h
    · split at h
      · rename_i heq
        cases h
        have := ih heq
        simp only [List.length_cons]
        omega
      · cases h
    · cases h; simp

/-- A length is read off the front of the input. -/
theorem length_readLength {half n : Nat} {input rest : Bytes}
    (h : readLength half input = .ok (n, rest)) : rest.length ≤ input.length := by
  unfold readLength at h
  split at h
  · split at h
    · rename_i heq
      cases h
      exact Nat.le_of_lt (length_readExtra heq)
    · cases h
  · cases h; exact Nat.le_refl _

/-! ## §2 Sequences -/

def minCopy : Nat := 4

/-- The literals of a sequence: their output and the input after them. -/
def literals (limit token : Nat) (input : Bytes) (out : Output) :
    Except CodecFault (Output × Bytes) :=
  match readLength (token / 16) input with
  | .error e => .error e
  | .ok (len, rest) =>
    if rest.length < len then .error .truncated
    else
      match out.appendWithin limit (rest.take len) with
      | .ok out => .ok (out, rest.drop len)
      | .error e => .error e

/-- The copy of a sequence: its output and the input after it. -/
def copy (limit token : Nat) (input : Bytes) (out : Output) :
    Except CodecFault (Output × Bytes) :=
  match input with
  | low :: high :: rest =>
    match readLength (token % 16) rest with
    | .error e => .error e
    | .ok (len, rest) =>
      match out.copyWithin limit (low.toNat + 256 * high.toNat) (minCopy + len) with
      | .ok out => .ok (out, rest)
      | .error e => .error e
  | _ => .error .truncated

private theorem length_literals {limit token : Nat} {input rest : Bytes} {out result : Output}
    (h : literals limit token input out = .ok (result, rest)) :
    rest.length ≤ input.length := by
  unfold literals at h
  split at h
  · cases h
  · rename_i len after hlen
    have := length_readLength hlen
    split at h
    · cases h
    · split at h
      · cases h
        simp only [List.length_drop]
        omega
      · cases h

private theorem length_copy {limit token : Nat} {input rest : Bytes} {out result : Output}
    (h : copy limit token input out = .ok (result, rest)) : rest.length ≤ input.length := by
  unfold copy at h
  split at h
  · split at h
    · cases h
    · rename_i hlen
      have := length_readLength hlen
      split at h
      · cases h
        simp only [List.length_cons]
        omega
      · cases h
  · cases h

/-- Decodes the sequences of a block after what is already put out. -/
def decodeFrom (limit : Nat) (input : Bytes) (out : Output) : Except CodecFault Output :=
  match input with
  | [] => .error .truncated
  | token :: input =>
    match hlit : literals limit token.toNat input out with
    | .error e => .error e
    | .ok (out, []) => .ok out
    | .ok (out, b :: rest) =>
      match hcopy : copy limit token.toNat (b :: rest) out with
      | .error e => .error e
      | .ok (out, rest) =>
        have := length_literals hlit
        have := length_copy hcopy
        decodeFrom limit rest out
termination_by input.length
decreasing_by
  simp only [List.length_cons] at *
  omega

/-- Decodes one block to at most `limit` bytes. -/
def decode (input : Bytes) (limit : Nat) : Except CodecFault Bytes :=
  (decodeFrom limit input #[]).map Array.toList

/-! ## §3 The limit -/

end Granule.Lz4
