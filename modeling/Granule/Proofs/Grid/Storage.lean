import Granule.Grid.Storage
import Granule.Proofs.Bytes

/-!
# Overlays

A part that is laid over a byte string decides the bytes below it and leaves all
others as they were; bytes that come to lie between the old end and the part are
zero. As a byte that is missing reads as zero, too, both are told by one equation
on the byte at an offset, where a missing byte counts as zero.

**Main statements**:
- `Storage.getD_overlay` : the byte at an offset after an overlay
- `Storage.overlay_append` : a part can be laid over in two pieces
- `Storage.write_of_fixed` : what fixed storage takes of a part is an overlay that is cut off
- `Storage.overlay_of_hasAt` : a part that lies there already changes nothing
-/

namespace Granule.Storage

theorem overlay_nil (bs : Bytes) (pos : Nat) : overlay bs pos [] = bs := rfl

theorem overlay_of_ne_nil (bs : Bytes) (pos : Nat) {part : Bytes} (hne : part ≠ []) :
    overlay bs pos part =
      bs.take pos ++ List.replicate (pos - bs.length) 0 ++ part ++ bs.drop (pos + part.length) := by
  cases part with
  | nil => exact absurd rfl hne
  | cons b rest => rfl

theorem length_overlay (bs : Bytes) (pos : Nat) {part : Bytes} (hne : part ≠ []) :
    (overlay bs pos part).length = max bs.length (pos + part.length) := by
  rw [overlay_of_ne_nil bs pos hne]
  simp only [List.length_append, List.length_take, List.length_replicate, List.length_drop]
  omega

/-- An overlay takes nothing away. -/
theorem length_le_length_overlay (bs : Bytes) (pos : Nat) (part : Bytes) :
    bs.length ≤ (overlay bs pos part).length := by
  by_cases hne : part = []
  · rw [hne, overlay_nil]
  · rw [length_overlay bs pos hne]
    exact le_max_left _ _

/-- The byte at an offset, after an overlay. -/
theorem getD_overlay (bs : Bytes) (pos : Nat) (part : Bytes) (i : Nat) :
    (overlay bs pos part)[i]?.getD 0 =
      if pos ≤ i ∧ i < pos + part.length then part[i - pos]?.getD 0 else bs[i]?.getD 0 := by
  by_cases hne : part = []
  · subst hne
    rw [overlay_nil, if_neg (by simp only [List.length_nil]; omega)]
  have hfront : (bs.take pos ++ List.replicate (pos - bs.length) 0).length = pos := by
    simp only [List.length_append, List.length_take, List.length_replicate]
    omega
  rw [overlay_of_ne_nil bs pos hne, List.append_assoc]
  by_cases hbefore : i < pos
  · rw [if_neg (by omega), List.getElem?_append_left (by omega)]
    by_cases hold : i < bs.length
    · rw [List.getElem?_append_left (by rw [List.length_take]; omega),
        List.getElem?_take_of_lt hbefore]
    -- before the part, but behind the old end
    · rw [List.getElem?_append_right (by rw [List.length_take]; omega), List.getElem?_replicate,
        List.getElem?_eq_none (Nat.not_lt.mp hold)]
      split <;> rfl
  · rw [List.getElem?_append_right (by omega), hfront]
    by_cases hinside : i < pos + part.length
    · rw [if_pos ⟨by omega, hinside⟩, List.getElem?_append_left (by omega)]
    · rw [if_neg (by omega), List.getElem?_append_right (by omega), List.getElem?_drop]
      congr 2
      omega

/-- Byte strings of one length are equal when they have the same byte at every offset. -/
theorem ext_getD {a b : Bytes} (hlen : a.length = b.length)
    (h : ∀ i : Nat, a[i]?.getD 0 = b[i]?.getD 0) : a = b := by
  refine List.ext_getElem hlen fun i ha hb => ?_
  have hi := h i
  rwa [List.getElem?_eq_getElem ha, List.getElem?_eq_getElem hb] at hi

/-- A part can be laid over in two pieces, the second one behind the first. -/
theorem overlay_append (bs : Bytes) (pos : Nat) (a b : Bytes) :
    overlay bs pos (a ++ b) = overlay (overlay bs pos a) (pos + a.length) b := by
  by_cases ha : a = []
  · rw [ha, List.nil_append, overlay_nil, List.length_nil, Nat.add_zero]
  by_cases hb : b = []
  · rw [hb, List.append_nil, overlay_nil]
  have hab : a ++ b ≠ [] := by simp [ha]
  apply ext_getD
  · rw [length_overlay _ _ hab, length_overlay _ _ hb, length_overlay _ _ ha, List.length_append]
    omega
  · intro i
    rw [getD_overlay, getD_overlay, getD_overlay, List.length_append]
    by_cases hsecond : pos + a.length ≤ i ∧ i < pos + a.length + b.length
    · rw [if_pos (by omega), if_pos hsecond, List.getElem?_append_right (by omega)]
      congr 2
      omega
    · rw [if_neg hsecond]
      by_cases hfirst : pos ≤ i ∧ i < pos + a.length
      · rw [if_pos (by omega), if_pos hfirst, List.getElem?_append_left (by omega)]
      · rw [if_neg (by omega), if_neg hfirst]

/-- A part changes nothing that lies before it. -/
theorem take_overlay_of_le {bs : Bytes} {n pos : Nat} (part : Bytes) (hpos : n ≤ pos)
    (hlen : n ≤ bs.length) : (overlay bs pos part).take n = bs.take n := by
  by_cases hne : part = []
  · rw [hne, overlay_nil]
  rw [overlay_of_ne_nil bs pos hne, List.append_assoc, List.append_assoc,
    List.take_append_of_le_length (by rw [List.length_take]; omega), List.take_take,
    Nat.min_eq_left hpos]

/-- Cut off at the old length, an overlay is one with what fits of the part. -/
theorem take_length_overlay (bs : Bytes) (pos : Nat) (part : Bytes) :
    (overlay bs pos part).take bs.length = overlay bs pos (part.take (bs.length - pos)) := by
  -- behind the end both sides keep the bytes as they are
  by_cases hbehind : bs.length ≤ pos
  · rw [take_overlay_of_le part hbehind le_rfl, List.take_length, Nat.sub_eq_zero_of_le hbehind,
      List.take_zero, overlay_nil]
  by_cases hne : part = []
  · rw [hne, List.take_nil, overlay_nil, List.take_length]
  have hsome : part.take (bs.length - pos) ≠ [] := by
    simp only [ne_eq, List.take_eq_nil_iff, hne, or_false]
    omega
  have hlen : (overlay bs pos (part.take (bs.length - pos))).length = bs.length := by
    rw [length_overlay _ _ hsome, List.length_take]
    omega
  apply ext_getD
  · rw [hlen, List.length_take, length_overlay _ _ hne]
    omega
  · intro i
    by_cases hi : i < bs.length
    · rw [List.getElem?_take_of_lt hi, getD_overlay, getD_overlay, List.length_take]
      by_cases hinside : pos ≤ i ∧ i < pos + part.length
      · rw [if_pos hinside, if_pos (by omega), List.getElem?_take_of_lt (by omega)]
      · rw [if_neg hinside, if_neg (by omega)]
    · rw [List.getElem?_eq_none (by rw [List.length_take]; omega),
        List.getElem?_eq_none (by rw [hlen]; omega)]

/-- Everything fits into storage that may grow. -/
theorem write_of_grows {s : Storage} (h : s.grows) (pos : Nat) (part : Bytes) :
    s.write pos part = (none, { s with bytes := overlay s.bytes pos part }) := by
  have hroom : s.room pos part.length = part.length := (s.room_eq_iff pos _).mpr (.inl h)
  rw [write, hroom, if_pos rfl, List.take_length]

/-- **One write into storage of fixed size** leaves the front of what it would leave in storage that
may grow, and is refused when that is longer. -/
theorem write_of_fixed {s : Storage} (h : s.grows = false) (pos : Nat) (part : Bytes) :
    s.write pos part =
      (if (overlay s.bytes pos part).length ≤ s.size then none else some .storageFull,
        { s with bytes := (overlay s.bytes pos part).take s.size }) := by
  have hroom : s.room pos part.length = min part.length (s.size - pos) := by
    rw [room, if_neg (by simp [h])]
  have hbytes : (overlay s.bytes pos part).take s.size =
      overlay s.bytes pos (part.take (min part.length (s.size - pos))) := by
    rw [size, take_length_overlay, Nat.min_comm, ← List.take_eq_take_min]
  have hfits : (overlay s.bytes pos part).length ≤ s.size ↔
      min part.length (s.size - pos) = part.length := by
    by_cases hne : part = []
    · simp [hne, overlay_nil, size]
    · have hpos := List.length_pos_iff.mpr hne
      rw [length_overlay s.bytes pos hne, size]
      omega
  simp only [write, hroom, hbytes, hfits]

/-- A part that lies there already changes nothing. -/
theorem overlay_of_hasAt {bs part : Bytes} {pos : Nat} (h : bs.HasAt pos part) :
    overlay bs pos part = bs := by
  by_cases hne : part = []
  · rw [hne, overlay_nil]
  have hlen := h.length_le hne
  apply ext_getD
  · rw [length_overlay _ _ hne, max_eq_left hlen]
  · intro i
    rw [getD_overlay]
    split
    · rename_i hi
      rw [← h.getElem?_eq (show i - pos < part.length by omega), Nat.add_sub_cancel' hi.1]
    · rfl

end Granule.Storage
