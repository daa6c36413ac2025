import Granule.Bytes
import Granule.Codec.Filter

/-!
# Coded Input

Parts and numbers are taken off the front of the coded bytes; what is taken
must be there.

**Main statement**: `Input.take_eq_ok_imp` — what is taken and what is left make
up the input.
-/

namespace Granule.Input

def take (n : Nat) (input : Bytes) : Except CodecFault (Bytes × Bytes) :=
  if n ≤ input.length then .ok (input.splitAt n) else .error .truncated

/-- Takes one byte off the front. -/
def byte (input : Bytes) : Except CodecFault (UInt8 × Bytes) :=
  match input with
  | [] => .error .truncated
  | b :: rest => .ok (b, rest)

/-- Takes a number of `width` bytes off the front, least significant first. -/
def number (width : Nat) (input : Bytes) : Except CodecFault (Nat × Bytes) :=
  match take width input with
  | .ok (digits, rest) => .ok (digits.toNatLE, rest)
  | .error e => .error e

/-- What is taken has the length asked for, and makes up the input with the rest. -/
theorem take_eq_ok_imp {n : Nat} {input part rest : Bytes}
    (h : take n input = .ok (part, rest)) : part.length = n ∧ part ++ rest = input := by
  unfold take at h
  split at h
  · rw [List.splitAt_eq] at h
    cases h
    refine ⟨?_, List.take_append_drop n input⟩
    rw [List.length_take]
    omega
  · cases h

/-- A number uses up its width. -/
theorem length_number {width value : Nat} {input rest : Bytes}
    (h : number width input = .ok (value, rest)) : input.length = width + rest.length := by
  unfold number at h
  split at h
  · rename_i heq
    cases h
    have htake := take_eq_ok_imp heq
    rw [← htake.2, List.length_append, htake.1]
  · cases h

theorem length_byte {input rest : Bytes} {b : UInt8} (h : byte input = .ok (b, rest)) :
    input.length = 1 + rest.length := by
  unfold byte at h
  split at h
  · cases h
  · cases h
    rw [List.length_cons]
    omega

theorem length_take {n : Nat} {input part rest : Bytes}
    (h : take n input = .ok (part, rest)) : input.length = n + rest.length := by
  have htake := take_eq_ok_imp h
  rw [← htake.2, List.length_append, htake.1]

end Granule.Input
