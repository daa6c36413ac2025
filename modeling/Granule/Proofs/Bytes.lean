import Mathlib.Data.List.Infix
import Granule.Bytes

/-!
# Parts at Offsets

`HasAt bs pos part` says that a part lies at an offset of a byte string. What a
stretch of a string holds (`Bytes.between`) and where a pattern occurs first
(`Bytes.firstOccurrence`) are both told in these terms.

**Main statements**:
- `Bytes.hasAt_append` : parts that follow one another lie one behind the other
- `Bytes.firstOccurrence_eq_some_iff` : the first occurrence has no other before it
-/

namespace Granule.Bytes

/-- A number is written as the bytes that it was read from. -/
theorem ofNatBE_toNatBE (bs : Bytes) : ofNatBE bs.length (toNatBE bs) = bs := by
  have h := ofNatLE_toNatLE bs.reverse
  rw [List.length_reverse] at h
  rw [ofNatBE, toNatBE, h, List.reverse_reverse]

/-- The bytes in front count for as many places more as there are bytes behind them. -/
theorem toNatLE_append (as bs : Bytes) :
    toNatLE (as ++ bs) = toNatLE as + 256 ^ as.length * toNatLE bs := by
  induction as with
  | nil => simp [toNatLE]
  | cons a as ih =>
    rw [List.cons_append, toNatLE, ih, toNatLE, List.length_cons, Nat.pow_succ', Nat.mul_add,
      Nat.mul_assoc, Nat.add_assoc]

theorem toNatBE_append (as bs : Bytes) :
    toNatBE (as ++ bs) = toNatBE as * 256 ^ bs.length + toNatBE bs := by
  rw [toNatBE, List.reverse_append, toNatLE_append, List.length_reverse, Nat.add_comm, Nat.mul_comm,
    toNatBE, toNatBE]

theorem toNatBE_cons (b : UInt8) (bs : Bytes) :
    toNatBE (b :: bs) = b.toNat * 256 ^ bs.length + toNatBE bs :=
  toNatBE_append [b] bs

/-! ## §1 Stretches -/

@[simp] theorem between_self (bs : Bytes) (pos : Nat) : bs.between pos pos = [] := by
  simp [between]

theorem length_between {bs : Bytes} (start : Nat) {stop : Nat} (h : stop ≤ bs.length) :
    (bs.between start stop).length = stop - start := by
  simp only [between, List.length_take, List.length_drop]
  omega

/-- A part that the string holds is a stretch of it. -/
theorem slice?_of_le {bs : Bytes} {start len : Nat} (h : start + len ≤ bs.length) :
    bs.slice? start len = some (bs.between start (start + len)) := by
  rw [slice?, if_pos h, between, Nat.add_sub_cancel_left]

theorem slice?_of_lt {bs : Bytes} {start len : Nat} (h : bs.length < start + len) :
    bs.slice? start len = none :=
  if_neg (Nat.not_le.mpr h)

/-- Two stretches that meet are one. -/
theorem between_append_between (bs : Bytes) {start mid stop : Nat} (h₁ : start ≤ mid)
    (h₂ : mid ≤ stop) : bs.between start mid ++ bs.between mid stop = bs.between start stop := by
  have hlen : stop - start = (mid - start) + (stop - mid) := by omega
  have hdrop : bs.drop mid = (bs.drop start).drop (mid - start) := by
    rw [List.drop_drop]
    congr 1
    omega
  rw [between, between, between, hlen, List.take_add, hdrop]

/-- A stretch of the rest of a string. -/
theorem between_drop (bs : Bytes) (n a b : Nat) :
    Bytes.between (bs.drop n) a b = bs.between (n + a) (n + b) := by
  rw [between, between, List.drop_drop, Nat.add_sub_add_left]

/-- The last bytes of a string, at most `limit` of them. -/
theorem between_last (bs : Bytes) (limit : Nat) :
    bs.between (bs.length - min bs.length limit) bs.length = bs.drop (bs.length - limit) := by
  have hstart : bs.length - min bs.length limit = bs.length - limit := by omega
  -- from there on nothing is left to be cut off
  rw [between, hstart]
  apply List.take_of_length_le
  rw [List.length_drop]

/-! ## §2 Parts -/

/-- A part lies at an offset. -/
def HasAt (bs : Bytes) (pos : Nat) (part : Bytes) : Prop := part <+: bs.drop pos

instance (bs : Bytes) (pos : Nat) (part : Bytes) : Decidable (bs.HasAt pos part) :=
  inferInstanceAs (Decidable (part <+: bs.drop pos))

theorem hasAt_append {bs : Bytes} {pos : Nat} {a b : Bytes} :
    bs.HasAt pos (a ++ b) ↔ bs.HasAt pos a ∧ bs.HasAt (pos + a.length) b := by
  unfold HasAt
  constructor
  -- what follows the first part starts with the second
  · rintro ⟨rest, hrest⟩
    rw [List.append_assoc] at hrest
    refine ⟨⟨b ++ rest, hrest⟩, ⟨rest, ?_⟩⟩
    rw [← List.drop_drop, ← hrest, List.drop_left]
  · rintro ⟨⟨after, ha⟩, ⟨rest, hb⟩⟩
    refine ⟨rest, ?_⟩
    rw [← List.drop_drop, ← ha, List.drop_left] at hb
    rw [List.append_assoc, hb, ha]

@[simp] theorem hasAt_nil (bs : Bytes) (pos : Nat) : bs.HasAt pos [] := List.nil_prefix

theorem hasAt_cons {bs rest : Bytes} {pos : Nat} {b : UInt8} :
    bs.HasAt pos (b :: rest) ↔ bs[pos]? = some b ∧ bs.HasAt (pos + 1) rest := by
  -- a single byte lies where the rest of the string starts with it
  rw [← List.singleton_append, hasAt_append, ← List.head?_drop]
  exact and_congr_left' List.singleton_prefix_iff_head?_eq_some

theorem hasAt_between (bs : Bytes) (start stop : Nat) :
    bs.HasAt start (bs.between start stop) := List.take_prefix _ _

/-- A part in the middle of a string lies behind what comes before it. -/
theorem hasAt_middle (before part after : Bytes) :
    (before ++ (part ++ after)).HasAt before.length part := by
  rw [HasAt, List.drop_left]
  exact List.prefix_append part after

/-- A part of the middle of a string lies as far behind what comes before it. -/
theorem hasAt_middle_iff (before part after : Bytes) {pos : Nat} {pattern : Bytes}
    (h : pos + pattern.length ≤ part.length) :
    (before ++ (part ++ after)).HasAt (before.length + pos) pattern ↔ part.HasAt pos pattern := by
  rw [HasAt, HasAt, ← List.drop_drop, List.drop_left, List.drop_append_of_le_length (by omega)]
  apply List.isPrefix_append_of_length
  rw [List.length_drop]
  omega

/-- What lies in the front of a string does not depend on the rest. -/
theorem hasAt_front_iff (part after : Bytes) {pos : Nat} {pattern : Bytes}
    (h : pos + pattern.length ≤ part.length) :
    (part ++ after).HasAt pos pattern ↔ part.HasAt pos pattern := by
  have hmiddle := hasAt_middle_iff [] part after h
  rwa [List.nil_append, List.length_nil, Nat.zero_add] at hmiddle

theorem hasAt_drop_iff {bs part : Bytes} {n pos : Nat} :
    Bytes.HasAt (bs.drop n) pos part ↔ bs.HasAt (n + pos) part := by
  rw [HasAt, HasAt, List.drop_drop]

namespace HasAt

variable {bs part : Bytes} {pos : Nat}

theorem length_le (h : bs.HasAt pos part) (hne : part ≠ []) : pos + part.length ≤ bs.length := by
  have hlen := List.IsPrefix.length_le h
  have hpos := List.length_pos_iff.mpr hne
  rw [List.length_drop] at hlen
  omega

theorem getElem?_eq (h : bs.HasAt pos part) {i : Nat} (hi : i < part.length) :
    bs[pos + i]? = part[i]? := by
  obtain ⟨rest, hrest⟩ := h
  rw [← List.getElem?_drop, ← hrest, List.getElem?_append_left hi]

/-- What lies in a part lies in the string, as far behind the start of the part. -/
theorem trans (h : bs.HasAt pos part) {offset : Nat} {inner : Bytes}
    (hinner : part.HasAt offset inner) : bs.HasAt (pos + offset) inner := by
  have hdrop : part.drop offset <+: bs.drop (pos + offset) := by
    rw [← List.drop_drop]
    exact List.IsPrefix.drop h offset
  exact List.IsPrefix.trans hinner hdrop

/-- What lies in a string where a part of it does lies in the part, if the part reaches as far. -/
theorem within (h : bs.HasAt pos part) {offset : Nat} {inner : Bytes}
    (hinner : bs.HasAt (pos + offset) inner) (hle : offset + inner.length ≤ part.length) :
    part.HasAt offset inner := by
  have hrest : bs.HasAt (pos + offset) (part.drop offset) := h.trans List.prefix_rfl
  refine List.prefix_of_prefix_length_le hinner hrest ?_
  rw [List.length_drop]
  omega

theorem between_eq (h : bs.HasAt pos part) : bs.between pos (pos + part.length) = part := by
  obtain ⟨rest, hrest⟩ := h
  rw [between, ← hrest, Nat.add_sub_cancel_left, List.take_left]

/-- Parts of one length at one offset are the same. -/
theorem eq_of_length_eq {other : Bytes} (h : bs.HasAt pos part) (hother : bs.HasAt pos other)
    (hlen : part.length = other.length) : part = other := by
  rw [← h.between_eq, hlen, hother.between_eq]

/-- A stretch of a part is the same stretch of the string, as far behind its start. -/
theorem between_part (h : bs.HasAt pos part) {start stop : Nat} (hstop : stop ≤ part.length) :
    bs.between (pos + start) (pos + stop) = part.between start stop := by
  obtain ⟨rest, hrest⟩ := h
  have hlen : pos + stop - (pos + start) = stop - start := by omega
  rw [between, between, hlen, ← List.drop_drop, ← hrest]
  by_cases hle : start ≤ stop
  -- what is taken ends before the part does
  · rw [List.drop_append_of_le_length (by omega), List.take_append_of_le_length]
    rw [List.length_drop]
    omega
  · have hzero : stop - start = 0 := by omega
    rw [hzero, List.take_zero, List.take_zero]

theorem of_between_eq (h : bs.between pos (pos + part.length) = part) : bs.HasAt pos part := by
  rw [HasAt, ← h, between]
  exact List.take_prefix _ _

end HasAt

/-! ## §3 The first occurrence -/

/-- The first offset from `pos` on, before the end, where a pattern occurs. -/
def firstOccurrence (bs pattern : Bytes) (pos : Nat) : Option Nat :=
  (List.range' pos (bs.length - pos)).find? fun p => bs.HasAt p pattern

theorem firstOccurrence_eq_some_iff {bs pattern : Bytes} {pos found : Nat} :
    bs.firstOccurrence pattern pos = some found ↔
      pos ≤ found ∧ found < bs.length ∧ bs.HasAt found pattern ∧
        ∀ p, pos ≤ p → p < found → ¬ bs.HasAt p pattern := by
  simp only [firstOccurrence, List.find?_range'_eq_some, decide_eq_true_eq, decide_eq_false_iff_not,
    List.mem_range'_1, Bool.not_eq_true']
  constructor
  · rintro ⟨hat, ⟨hge, hlt⟩, hnone⟩
    exact ⟨hge, by omega, hat, hnone⟩
  · rintro ⟨hge, hlt, hat, hnone⟩
    exact ⟨hat, ⟨hge, by omega⟩, hnone⟩

theorem firstOccurrence_eq_none_iff {bs pattern : Bytes} {pos : Nat} :
    bs.firstOccurrence pattern pos = none ↔
      ∀ p, pos ≤ p → p < bs.length → ¬ bs.HasAt p pattern := by
  simp only [firstOccurrence, List.find?_eq_none, List.mem_range'_1, decide_eq_true_eq]
  constructor
  · intro h p hge hlt
    exact h p ⟨hge, by omega⟩
  · intro h p hp
    exact h p hp.1 (by omega)

/-- Offsets where the pattern does not occur can be left out of the search. -/
theorem firstOccurrence_of_none_before {bs pattern : Bytes} {pos later : Nat} (hle : pos ≤ later)
    (hnone : ∀ p, pos ≤ p → p < later → ¬ bs.HasAt p pattern) :
    bs.firstOccurrence pattern pos = bs.firstOccurrence pattern later := by
  cases hfound : bs.firstOccurrence pattern later with
  | none =>
    -- no offset is left: those before `later` are ruled out, the others were searched
    rw [firstOccurrence_eq_none_iff] at hfound ⊢
    intro p hge hlt
    by_cases hp : p < later
    · exact hnone p hge hp
    · exact hfound p (by omega) hlt
  | some found =>
    rw [firstOccurrence_eq_some_iff] at hfound ⊢
    obtain ⟨hge, hlt, hat, hbefore⟩ := hfound
    refine ⟨by omega, hlt, hat, ?_⟩
    intro p hpos hp
    by_cases hlater : p < later
    · exact hnone p hpos hlater
    · exact hbefore p (by omega) hp

/-- The first occurrence in the middle of a string, when the search starts there. -/
theorem firstOccurrence_middle (before : Bytes) {part pattern : Bytes} (after : Bytes) {found : Nat}
    (h : part.firstOccurrence pattern 0 = some found) :
    (before ++ (part ++ after)).firstOccurrence pattern before.length =
      some (before.length + found) := by
  obtain ⟨-, hlt, hat, hbefore⟩ := firstOccurrence_eq_some_iff.mp h
  -- what is found lies in the middle, and so does what would start before it
  have hfits : found + pattern.length ≤ part.length := by
    by_cases hne : pattern = []
    · simp only [hne, List.length_nil]
      omega
    · exact hat.length_le hne
  rw [firstOccurrence_eq_some_iff, List.length_append, List.length_append]
  refine ⟨by omega, by omega, (hasAt_middle_iff before part after hfits).mpr hat, ?_⟩
  intro p hge hp hat'
  obtain ⟨pos, rfl⟩ := Nat.exists_eq_add_of_le hge
  exact hbefore pos (Nat.zero_le _) (by omega)
    ((hasAt_middle_iff before part after (by omega)).mp hat')

/-- The first occurrence in a part is the first one from its start on. -/
theorem HasAt.firstOccurrence_eq {bs part pattern : Bytes} {pos found : Nat} (h : bs.HasAt pos part)
    (hfound : part.firstOccurrence pattern 0 = some found) :
    bs.firstOccurrence pattern pos = some (pos + found) := by
  have hne : part ≠ [] := by
    rintro rfl
    cases hfound
  have hlen := h.length_le hne
  obtain ⟨after, hafter⟩ := h
  have hsplit : bs = bs.take pos ++ (part ++ after) := by rw [hafter, List.take_append_drop]
  have hmiddle := firstOccurrence_middle (bs.take pos) after hfound
  rwa [← hsplit, List.length_take, min_eq_left (by omega)] at hmiddle

/-- The first occurrence is the same whatever stands behind it. -/
theorem firstOccurrence_front {common pattern : Bytes} (a b : Bytes) {found : Nat}
    (h : (common ++ a).firstOccurrence pattern 0 = some found) (hne : pattern ≠ [])
    (hfits : found + pattern.length ≤ common.length) :
    (common ++ b).firstOccurrence pattern 0 = some found := by
  obtain ⟨-, -, hat, hbefore⟩ := firstOccurrence_eq_some_iff.mp h
  have hpos := List.length_pos_iff.mpr hne
  rw [firstOccurrence_eq_some_iff, List.length_append]
  refine ⟨Nat.zero_le _, by omega, ?_, ?_⟩
  · exact (hasAt_front_iff common b hfits).mpr ((hasAt_front_iff common a hfits).mp hat)
  · intro p hge hp hearly
    have hin : p + pattern.length ≤ common.length := by omega
    exact hbefore p hge hp ((hasAt_front_iff common a hin).mpr
      ((hasAt_front_iff common b hin).mp hearly))

/-- What does not occur in the rest of a string does not occur from there on. -/
theorem firstOccurrence_of_drop {bs pattern : Bytes} {pos : Nat}
    (h : Bytes.firstOccurrence (bs.drop pos) pattern 0 = none) :
    bs.firstOccurrence pattern pos = none := by
  rw [firstOccurrence_eq_none_iff] at h ⊢
  intro p hge hlt hat
  obtain ⟨q, rfl⟩ := Nat.exists_eq_add_of_le hge
  refine h q (Nat.zero_le _) (by rw [List.length_drop]; omega) ?_
  rwa [HasAt, List.drop_drop]

/-- The first occurrence in the rest of a string is the one from there on. -/
theorem firstOccurrence_drop (bs pattern : Bytes) (n pos : Nat) :
    bs.firstOccurrence pattern (n + pos) =
      (Bytes.firstOccurrence (bs.drop n) pattern pos).map (n + ·) := by
  have hrange : List.range' (n + pos) (bs.length - (n + pos)) =
      (List.range' pos ((bs.drop n).length - pos)).map (n + ·) := by
    rw [List.map_add_range', List.length_drop, Nat.sub_sub]
  rw [firstOccurrence, firstOccurrence, hrange, List.find?_map]
  simp only [Function.comp_def, hasAt_drop_iff]

theorem firstOccurrence_end (before : Bytes) {part pattern : Bytes}
    (h : part.firstOccurrence pattern 0 = none) :
    (before ++ part).firstOccurrence pattern before.length = none :=
  firstOccurrence_of_drop (by rwa [List.drop_left])

/-- A pattern whose first byte does not recur in it cannot start in a gap without it and reach
into what follows the gap. -/
theorem firstOccurrence_behind {gap rest : Bytes} {b : UInt8} (after : Bytes)
    (hfree : b ∉ rest) (hgap : gap.firstOccurrence (b :: rest) 0 = none) :
    (gap ++ (b :: rest ++ after)).firstOccurrence (b :: rest) 0 = some gap.length := by
  have hat : (gap ++ (b :: rest ++ after)).HasAt gap.length (b :: rest) := hasAt_middle _ _ _
  rw [firstOccurrence_eq_none_iff] at hgap
  rw [firstOccurrence_eq_some_iff]
  refine ⟨Nat.zero_le _, by simp, hat, ?_⟩
  intro p _ hp hearly
  by_cases hin : p + (b :: rest).length ≤ gap.length
  · -- it would lie in the gap
    exact hgap p (Nat.zero_le _) hp ((hasAt_front_iff gap (b :: rest ++ after) hin).mp hearly)
  · -- it would hold the byte at the end of the gap, which starts the pattern that follows
    obtain ⟨k, hk⟩ := Nat.exists_eq_add_of_lt hp
    have hlt : k + 1 < (b :: rest).length := by omega
    have hstart := hat.getElem?_eq (i := 0) (by simp)
    have hinside := hearly.getElem?_eq hlt
    rw [← Nat.add_assoc, ← hk] at hinside
    rw [Nat.add_zero, hinside, List.getElem?_cons_succ, List.getElem?_cons_zero] at hstart
    exact hfree (List.mem_of_getElem? hstart)

end Granule.Bytes
