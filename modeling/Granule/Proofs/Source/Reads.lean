import Granule.Proofs.Bytes
import Granule.Scan.Search

/-!
# What Any Source Hands Over

A source may fail, but it does not lie: the bytes that an exact read gives are the
bytes at its offset, and a pattern that a search finds is there. How far a source
can be read is one number, `Source.readableEnd`, and whether an exact read succeeds
is a matter of that number alone.

**Main statements**:
- `Source.readExact_eq_readable` : what an exact read of any source gives, and how it fails
- `Source.facts_of_find` : a pattern that was found lies where it was found
- `Source.find_cases` : a search fails, or finds the first occurrence
-/

namespace Granule.Source

variable {s : Source} {pos n : Nat}

/-! ## §1 Single reads -/

@[simp] theorem length_bytes (s : Source) : s.bytes.length = s.size := by
  simp [bytes, size]

theorem part_eq_between (s : Source) (pos count : Nat) :
    s.part pos count = s.bytes.between pos (pos + count) := by
  simp [part, bytes, Bytes.between]

theorem readableEnd_le_size (s : Source) : s.readableEnd ≤ s.size := by
  unfold readableEnd
  split <;> omega

/-- Behind the readable bytes is either a failure or the end of the data. -/
theorem readableEnd_le_of_failsAt (h : s.failsAt pos = true) : s.readableEnd ≤ pos := by
  unfold failsAt at h
  unfold readableEnd
  split at h
  · cases h
  · simp only [decide_eq_true_eq] at h
    exact (Nat.min_le_left _ _).trans h

/-- Where reads end although none is refused, the data end. -/
theorem readableEnd_eq_size (h : s.failsAt pos = false) (hend : s.readableEnd ≤ pos) :
    s.readableEnd = s.size := by
  unfold failsAt at h
  unfold readableEnd at hend ⊢
  split at h
  · simp_all
  · rename_i f hfails
    simp only [hfails, decide_eq_false_iff_not] at h hend ⊢
    omega

/-- Bytes that come in are readable. -/
theorem le_readableEnd_of_count {want count : Nat} (h : s.count pos want = .ok count)
    (hpos : 0 < count) : pos + count ≤ s.readableEnd := by
  rw [count_eq] at h
  split at h
  · cases h
    omega
  · split at h
    · cases h
    · cases h
      omega

/-- A read that hands over nothing has come to the end of the data. -/
theorem size_le_of_count {want : Nat} (h : s.count pos want = .ok 0) (hwant : 0 < want) :
    s.size ≤ pos := by
  rw [count_eq, if_neg (Nat.ne_of_gt hwant)] at h
  split at h
  · cases h
  · rename_i hfails
    simp only [Except.ok.injEq] at h
    have hend : s.readableEnd ≤ pos := by omega
    exact (readableEnd_eq_size (by simpa using hfails) hend).ge.trans hend

theorem fault_of_count {want : Nat} {e : IoError} (h : s.count pos want = .error e) :
    e = s.fault ∧ s.failsAt pos = true := by
  rw [count_eq] at h
  split at h
  · cases h
  · split at h
    · rename_i hfails
      cases h
      exact ⟨rfl, hfails⟩
    · cases h

/-- What a read hands over are the bytes at its offset. -/
theorem read_eq_between {want : Nat} {bs : Bytes} (h : s.read pos want = .ok bs) :
    bs = s.bytes.between pos (pos + bs.length) := by
  unfold read at h
  cases hcount : s.count pos want with
  | error e => simp [hcount, Except.map] at h
  | ok count =>
    simp only [hcount, Except.map, Except.ok.injEq, part_eq_between, Bytes.between,
      Nat.add_sub_cancel_left] at h
    subst h
    rw [Bytes.between, Nat.add_sub_cancel_left, List.length_take, ← List.take_eq_take_min]

/-- A read is refused, or comes to the end of the data, or hands over readable bytes. -/
theorem read_cases (s : Source) (pos : Nat) {want : Nat} (hwant : 0 < want) :
    (s.read pos want = .error s.fault ∧ s.failsAt pos = true) ∨
      (s.read pos want = .ok [] ∧ s.failsAt pos = false ∧ s.readableEnd ≤ pos) ∨
      ∃ b bs, s.read pos want = .ok (b :: bs) ∧ pos + (bs.length + 1) ≤ s.readableEnd := by
  -- a read stops at the end, at the place of failure, or where the source breaks off
  unfold read
  rw [count_eq, if_neg (by omega)]
  by_cases hfails : s.failsAt pos = true
  · exact .inl ⟨by rw [if_pos hfails]; rfl, hfails⟩
  · rw [if_neg hfails]
    right
    generalize hcount : min want (min (s.burst pos + 1) (s.readableEnd - pos)) = count
    have hle := s.readableEnd_le_size
    rcases Nat.eq_zero_or_pos count with rfl | hpos
    · refine .inl ⟨?_, by simpa using hfails, by omega⟩
      simp [Except.map, part]
    · right
      have hlen : (s.part pos count).length = count := length_part (by omega)
      obtain ⟨b, bs, hpart⟩ := List.exists_cons_of_length_pos (hlen ▸ hpos)
      refine ⟨b, bs, congrArg Except.ok hpart, ?_⟩
      rw [hpart, List.length_cons] at hlen
      omega

/-! ## §2 Exact reads -/

/-- How an exact read fails that does not get all its bytes: at the first offset behind the
readable ones, or right away. -/
def failureFrom (s : Source) (pos : Nat) : IoError :=
  if s.failsAt (max pos s.readableEnd) then s.fault else .endOfData

theorem readExactFrom_eq (s : Source) (pos n : Nat) (hand : Array UInt8) :
    s.readExactFrom pos n hand =
      if n = 0 ∨ pos + n ≤ s.readableEnd then
        .ok (hand.toList ++ s.bytes.between pos (pos + n))
      else .error (s.failureFrom pos) := by
  -- the rest is read like the whole, with fewer bytes to go
  induction n using Nat.strong_induction_on generalizing pos hand with
  | _ n ih =>
    rcases Nat.eq_zero_or_pos n with rfl | hn
    · simp [readExactFrom]
    rw [readExactFrom, if_neg (by omega)]
    rcases s.read_cases pos hn with ⟨hread, hfails⟩ | ⟨hread, hfails, hend⟩ | ⟨b, bs, hread, hin⟩
    · have hend := readableEnd_le_of_failsAt hfails
      simp only [hread]
      rw [if_neg (by omega), failureFrom, Nat.max_eq_left hend, if_pos hfails]
    · simp only [hread]
      rw [if_neg (by omega), failureFrom, Nat.max_eq_left hend, hfails,
        if_neg Bool.false_ne_true]
    · -- what came in is the next stretch of the bytes, and the rest follows it
      have hle := length_read_le hread
      have hgot := read_eq_between hread
      rw [List.length_cons] at hle hgot
      have hsum : pos + (bs.length + 1) + (n - (bs.length + 1)) = pos + n := by omega
      have hjoin : s.bytes.between pos (pos + (bs.length + 1)) ++
            s.bytes.between (pos + (bs.length + 1)) (pos + n) = s.bytes.between pos (pos + n) :=
        Bytes.between_append_between s.bytes (by omega) (by omega)
      have hfailure : s.failureFrom (pos + (bs.length + 1)) = s.failureFrom pos := by
        rw [failureFrom, failureFrom, Nat.max_eq_right hin, Nat.max_eq_right (by omega)]
      simp only [hread]
      rw [ih _ (by omega), hsum, Array.toList_appendList, List.append_assoc, hgot, hjoin, hfailure]
      -- the rest can be read exactly when the whole can
      by_cases hall : pos + n ≤ s.readableEnd
      · rw [if_pos (.inr hall), if_pos (.inr hall)]
      · rw [if_neg (by omega), if_neg (by omega)]

/-- **Exact reads.** One succeeds when all its bytes are readable, and then gives them. -/
theorem readExact_eq_readable (s : Source) (pos n : Nat) :
    s.readExact pos n =
      if n = 0 ∨ pos + n ≤ s.readableEnd then .ok (s.bytes.between pos (pos + n))
      else .error (s.failureFrom pos) := by
  rw [readExact, readExactFrom_eq]
  rfl

theorem facts_of_readExact {bs : Bytes} (h : s.readExact pos n = .ok bs) :
    (n = 0 ∨ pos + n ≤ s.readableEnd) ∧ bs = s.bytes.between pos (pos + n) := by
  rw [readExact_eq_readable] at h
  split at h
  · cases h
    exact ⟨‹_›, rfl⟩
  · cases h

/-! ## §3 Searches -/

theorem occursAt_iff (s : Source) (pos : Nat) (pattern : Bytes) :
    s.occursAt pos pattern = true ↔ s.bytes.HasAt pos pattern := by
  -- one byte after the other, both in the pattern and in the data
  induction pattern generalizing pos with
  | nil => simp [occursAt]
  | cons b rest ih =>
    rw [occursAt, Bool.and_eq_true, ih, Bytes.hasAt_cons]
    simp [bytes]

/-- Among bytes that have been read, the first occurrence is found. -/
theorem firstBetween_eq_some {pattern : Bytes} {length stop found : Nat}
    (h : s.firstBetween pattern length pos stop = some found) :
    pos ≤ found ∧ found + length ≤ stop ∧ s.bytes.HasAt found pattern ∧
      ∀ p, pos ≤ p → p < found → ¬ s.bytes.HasAt p pattern := by
  fun_induction firstBetween s pattern length pos stop with
  | case1 => cases h
  | case2 pos hroom hoccurs =>
    cases h
    exact ⟨Nat.le_refl _, by omega, (occursAt_iff ..).mp hoccurs, by intros; omega⟩
  | case3 pos hroom hoccurs hlt ih =>
    -- found further on, so this offset joins those without an occurrence
    obtain ⟨hle, hstop, hat, hbefore⟩ := ih h
    refine ⟨by omega, hstop, hat, ?_⟩
    intro p hpos hp
    by_cases hsame : p = pos
    · rw [hsame, ← occursAt_iff]
      exact hoccurs
    · exact hbefore p (by omega) hp
  | case4 => cases h

theorem firstBetween_eq_none {pattern : Bytes} {length stop : Nat}
    (h : s.firstBetween pattern length pos stop = none) :
    ∀ p, pos ≤ p → p + length ≤ stop → ¬ s.bytes.HasAt p pattern := by
  intro p hpos hp
  fun_induction firstBetween s pattern length pos stop with
  | case1 pos hroom => omega
  | case2 => cases h
  | case3 pos hroom hoccurs hlt ih =>
    by_cases hsame : p = pos
    · rw [hsame, ← occursAt_iff]
      exact hoccurs
    · exact ih h (by omega)
  | case4 pos hroom hoccurs hlt =>
    have hsame : p = pos := by omega
    rw [hsame, ← occursAt_iff]
    exact hoccurs

private theorem facts_of_findFrom {pattern : Bytes} {length : Nat} {limit : Option Nat}
    {block base found : Nat}
    (h : s.findFrom pattern length limit block base pos = .ok (some found)) :
    found + length ≤ s.readableEnd ∧ s.bytes.HasAt found pattern := by
  fun_induction findFrom s pattern length limit block base pos with
  | case1 => cases h
  | case2 => cases h
  | case3 base pos more hcount _ stop place hplace =>
    obtain ⟨-, hstop, hat, -⟩ := firstBetween_eq_some hplace
    have hend := le_readableEnd_of_count hcount (Nat.succ_pos more)
    split at h
    · cases h
      exact ⟨hstop.trans hend, hat⟩
    · cases h
  | case4 => cases h
  | case5 base pos more _ _ stop _ _ ih => exact ih h

/-- **Searches.** A pattern that was found lies there, within what can be read. -/
theorem facts_of_find {pattern : Bytes} {window : Option Nat} {block found : Nat}
    (h : s.find pos pattern window block = .ok (some found)) :
    pos ≤ found ∧ s.bytes.HasAt found pattern ∧
      (pattern ≠ [] → found + pattern.length ≤ s.readableEnd) := by
  refine ⟨le_of_find h, ?_⟩
  unfold find at h
  simp only at h
  split at h
  · rename_i hempty
    have hnil : pattern = [] := List.length_eq_zero_iff.mp hempty
    exact ⟨hnil ▸ Bytes.hasAt_nil _ _, fun hne => absurd hnil hne⟩
  · obtain ⟨hend, hat⟩ := facts_of_findFrom h
    exact ⟨hat, fun _ => hend⟩

/-- The search from `base` on, when fewer bytes are in hand than the pattern has: unless a read is
refused, no occurrence lies among those, and the next ones are found as more bytes come in. -/
private theorem findFrom_cases {pattern : Bytes} (hne : pattern ≠ []) (limit : Option Nat)
    {block base pos : Nat} (hblock : 0 < block) (hhand : pos < base + pattern.length) :
    (s.findFrom pattern pattern.length limit block base pos = .error s.fault ∧
        ∃ p, s.failsAt p = true) ∨
      s.findFrom pattern pattern.length limit block base pos =
        .ok ((s.bytes.firstOccurrence pattern base).filter
          fun p => limit.all (p + pattern.length ≤ ·)) := by
  have hlength := List.length_pos_iff.mpr hne
  generalize hl : pattern.length = length at *
  fun_induction findFrom s pattern length limit block base pos with
  | case1 base pos e hcount =>
    obtain ⟨rfl, hfails⟩ := fault_of_count hcount
    exact .inl ⟨rfl, pos, hfails⟩
  | case2 base pos hcount =>
    -- at the end of the data fewer bytes are in hand than an occurrence has
    have hend := size_le_of_count hcount (by omega)
    have hnone : s.bytes.firstOccurrence pattern base = none := by
      rw [Bytes.firstOccurrence_eq_none_iff]
      intro p hbase _ hat
      have := hat.length_le hne
      rw [length_bytes] at this
      omega
    rw [hnone]
    exact .inr rfl
  | case3 base pos more hcount _ stop found hfound =>
    obtain ⟨hbase, hstop, hat, hbefore⟩ := firstBetween_eq_some hfound
    have hin := hat.length_le hne
    have hfirst : s.bytes.firstOccurrence pattern base = some found :=
      Bytes.firstOccurrence_eq_some_iff.mpr ⟨hbase, by omega, hat, hbefore⟩
    rw [hfirst, Option.filter_some]
    exact .inr rfl
  | case4 base pos more hcount _ stop hnone hreached =>
    -- what has not been examined yet lies past the end of the search
    right
    cases hfirst : s.bytes.firstOccurrence pattern base with
    | none => rfl
    | some found =>
      obtain ⟨hbase, -, hat, -⟩ := Bytes.firstOccurrence_eq_some_iff.mp hfirst
      have hpast : ¬ found + length ≤ stop :=
        fun hle => firstBetween_eq_none hnone found hbase hle hat
      cases limit with
      | none => simp [reached] at hreached
      | some l =>
        simp only [reached, Option.any_some, decide_eq_true_eq] at hreached
        rw [Option.filter_some, if_neg]
        simp only [Option.all_some, decide_eq_true_eq]
        omega
  | case5 base pos more hcount _ stop hnone _ ih =>
    -- the bytes that are dropped start no occurrence, so the search may start behind them
    have hfirst : s.bytes.firstOccurrence pattern (max base (stop - (length - 1))) =
        s.bytes.firstOccurrence pattern base := by
      symm
      apply Bytes.firstOccurrence_of_none_before (Nat.le_max_left _ _)
      intro p hbase hp
      exact firstBetween_eq_none hnone p hbase (by omega)
    rw [← hfirst]
    exact ih (by omega)

/-- **Searches to the end.** A search fails because a read is refused, or finds the first
occurrence, if the window holds all of it. -/
theorem find_cases (s : Source) {pattern : Bytes} (window : Option Nat) (block : Nat) {pos : Nat}
    (hpos : pattern = [] → pos < s.size) :
    (s.find pos pattern window block = .error s.fault ∧ ∃ p, s.failsAt p = true) ∨
      s.find pos pattern window block =
        .ok ((s.bytes.firstOccurrence pattern pos).filter
          fun p => (window.map (pos + ·)).all (p + pattern.length ≤ ·)) := by
  unfold find
  by_cases hne : pattern = []
  · subst hne
    -- the empty pattern occurs right where the search starts
    have hfirst : s.bytes.firstOccurrence [] pos = some pos := by
      rw [Bytes.firstOccurrence_eq_some_iff, length_bytes]
      exact ⟨Nat.le_refl _, hpos rfl, Bytes.hasAt_nil _ _, by intros; omega⟩
    right
    rw [hfirst]
    cases window <;> simp [Option.filter_some]
  · have hlength := List.length_pos_iff.mpr hne
    simp only [if_neg (Nat.ne_of_gt hlength)]
    exact findFrom_cases hne _ (by omega) (by omega)

end Granule.Source
