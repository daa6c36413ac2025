import Granule.Proofs.Source.Reads

/-!
# Sources That Never Fail

Reading a source that never fails is reading its bytes: how often the device is
interrupted and how few bytes it hands over at a time leave no trace in what an
exact read gives, or in where a search finds a pattern.

**Main statements**:
- `Source.readExact_eq` : an exact read gives the bytes, or reports that they end too early
- `Source.find_eq` : a search finds the first occurrence, if the window holds all of it
-/

namespace Granule.Source

/-- No read fails, at whatever offset. -/
def NeverFails (s : Source) : Prop := s.failsFrom = none

theorem neverFails_ofBytes (bs : Bytes) : (ofBytes bs).NeverFails := rfl

@[simp] theorem bytes_ofBytes (bs : Bytes) : (ofBytes bs).bytes = bs := by
  simp [ofBytes, bytes]

/-! ## §1 Exact reads -/

/-- All bytes are readable, and no offset is refused. -/
theorem NeverFails.readable {s : Source} (h : s.NeverFails) :
    s.readableEnd = s.size ∧ ∀ pos, s.failsAt pos = false := by
  unfold NeverFails at h
  exact ⟨by simp [readableEnd, h], fun pos => by simp [failsAt, h]⟩

/-- An exact read of a source that never fails gives the bytes, or reports that they end. -/
theorem readExact_eq {s : Source} (h : s.NeverFails) (pos n : Nat) :
    s.readExact pos n =
      if n = 0 ∨ pos + n ≤ s.bytes.length then .ok (s.bytes.between pos (pos + n))
      else .error .endOfData := by
  obtain ⟨hend, hfail⟩ := h.readable
  rw [readExact_eq_readable, failureFrom, hfail, hend, length_bytes]
  rfl

/-- An exact read in the rest of a source. -/
theorem readExact_rest {s : Source} (h : s.NeverFails) (pos i : Nat) {n : Nat} (hn : 0 < n) :
    s.readExact (pos + i) n =
      if i + n ≤ (s.bytes.drop pos).length then .ok (Bytes.between (s.bytes.drop pos) i (i + n))
      else .error .endOfData := by
  have hin : (n = 0 ∨ pos + i + n ≤ s.bytes.length) ↔ i + n ≤ (s.bytes.drop pos).length := by
    rw [List.length_drop]
    omega
  rw [readExact_eq h, Bytes.between_drop, Nat.add_assoc]
  simp only [← Nat.add_assoc, hin]

/-- A part that lies at an offset is what an exact read of its length gives. -/
theorem readExact_of_hasAt {s : Source} (h : s.NeverFails) {pos n : Nat} {part : Bytes}
    (hat : s.bytes.HasAt pos part) (hn : part.length = n) : s.readExact pos n = .ok part := by
  subst hn
  rw [readExact_eq h, hat.between_eq, if_pos]
  by_cases hnil : part = []
  · exact .inl (List.length_eq_zero_iff.mpr hnil)
  · exact .inr (hat.length_le hnil)

theorem readNat_eq {s : Source} (h : s.NeverFails) (pos : Nat) {width : Nat} (hw : 0 < width) :
    s.readNat pos width =
      if pos + width ≤ s.bytes.length then .ok (s.bytes.between pos (pos + width)).toNatBE
      else .error .endOfData := by
  rw [readNat, readExact_eq h]
  by_cases hin : pos + width ≤ s.bytes.length
  · rw [if_pos (.inr hin), if_pos hin]
    rfl
  · rw [if_neg (by omega), if_neg hin]
    rfl

/-! ## §2 Searching -/

/-- A search finds the first occurrence, if the window holds all of it. -/
theorem find_eq {s : Source} (h : s.NeverFails) {pattern : Bytes} (window : Option Nat)
    (block : Nat) {pos : Nat} (hpos : pattern = [] → pos < s.size) :
    s.find pos pattern window block =
      .ok ((s.bytes.firstOccurrence pattern pos).filter
        fun p => (window.map (pos + ·)).all (p + pattern.length ≤ ·)) := by
  refine (s.find_cases window block hpos).resolve_left ?_
  rintro ⟨-, p, hfails⟩
  rw [h.readable.2 p] at hfails
  cases hfails

/-- A search without a window finds the first occurrence. -/
theorem find_none_eq {s : Source} (h : s.NeverFails) {pattern : Bytes} (block : Nat) {pos : Nat}
    (hpos : pattern = [] → pos < s.size) :
    s.find pos pattern none block = .ok (s.bytes.firstOccurrence pattern pos) := by
  rw [find_eq h none block hpos]
  cases s.bytes.firstOccurrence pattern pos <;> rfl

end Granule.Source
