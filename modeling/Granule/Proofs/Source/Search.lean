import Granule.Proofs.Source.Steady
import Granule.Words.Scan

/-!
# Searching in Blocks

A search reads a source block by block, and a device may cut the blocks into pieces of
any size. None of this shows in what the search finds: the answer depends on the bytes
alone.

Where a device refuses to read from some offset on, a search fails only if it has to look
there. It does not have to if the pattern lies before that offset, if the window ends before
it, or if the data do.

**Main statement**: `Source.find_by_bytes` — what a search answers, and when it fails.
-/

namespace Granule

/-! ## §1 What a search is for -/

namespace Bytes

/-- The answer of a search from `pos` on: the first occurrence, if the window holds all of it. -/
def IsFirstWithin (bs pattern : Bytes) (pos : Nat) (window answer : Option Nat) : Prop :=
  ∀ p, answer = some p ↔
    (pos ≤ p ∧ bs.HasAt p pattern ∧ ∀ q, pos ≤ q → q < p → ¬ bs.HasAt q pattern) ∧
      ∀ w ∈ window, p + pattern.length ≤ pos + w

/-- A search from `pos` on has to look at what stands at an offset or behind it: it starts there, or
neither the data, nor the window, nor an occurrence ends before. -/
def SearchReaches (bs pattern : Bytes) (pos : Nat) (window : Option Nat) (offset : Nat) : Prop :=
  offset ≤ pos ∨
    offset ≤ bs.length ∧ (∀ p, pos ≤ p → p + pattern.length ≤ offset → ¬ bs.HasAt p pattern) ∧
      ∀ w ∈ window, offset < pos + w

/-- The first occurrence, where the window holds all of it, is what a search is for. -/
theorem isFirstWithin_filter (bs : Bytes) {pattern : Bytes} (hne : pattern ≠ []) (pos : Nat)
    (window : Option Nat) :
    bs.IsFirstWithin pattern pos window ((bs.firstOccurrence pattern pos).filter
      fun p => (window.map (pos + ·)).all (p + pattern.length ≤ ·)) := by
  have hlength := List.length_pos_iff.mpr hne
  intro p
  rw [Option.filter_eq_some_iff, firstOccurrence_eq_some_iff]
  apply and_congr
  · constructor
    · rintro ⟨hle, -, hat, hbefore⟩
      exact ⟨hle, hat, hbefore⟩
    · rintro ⟨hle, hat, hbefore⟩
      have hin := hat.length_le hne
      exact ⟨hle, by omega, hat, hbefore⟩
  · cases window <;> simp

end Bytes

namespace Source

variable {s : Source} {pattern : Bytes} {pos fails : Nat}

/-! ## §2 Where reads are refused -/

theorem failsAt_eq_true_iff (hfails : s.failsFrom = some fails) :
    s.failsAt pos = true ↔ fails ≤ pos := by
  simp [failsAt, hfails]

/-- Bytes that come in lie before the offset from which reads are refused. -/
theorem le_fails_of_count {want count : Nat} (hfails : s.failsFrom = some fails)
    (h : s.count pos want = .ok count) (hpos : 0 < count) : pos + count ≤ fails := by
  have hend := le_readableEnd_of_count h hpos
  simp only [readableEnd, hfails] at hend
  exact hend.trans (Nat.min_le_left _ _)

/-- The search from `base` on, when fewer bytes are in hand than the pattern has, fails exactly if
it has to look where reads are refused. -/
private theorem findFrom_error_iff (hne : pattern ≠ []) (hfails : s.failsFrom = some fails)
    (limit : Option Nat) {block base : Nat} (hblock : 0 < block)
    (hhand : pos < base + pattern.length) :
    (∃ e, s.findFrom pattern pattern.length limit block base pos = .error e) ↔
      fails ≤ pos ∨
        fails ≤ s.size ∧
          (∀ p, base ≤ p → p + pattern.length ≤ fails → ¬ s.bytes.HasAt p pattern) ∧
          ∀ l ∈ limit, fails < l := by
  have hlength := List.length_pos_iff.mpr hne
  generalize hl : pattern.length = length at *
  fun_induction findFrom s pattern length limit block base pos with
  | case1 base pos e hcount =>
    have hrefused := (failsAt_eq_true_iff hfails).mp (fault_of_count hcount).2
    exact iff_of_true ⟨e, rfl⟩ (.inl hrefused)
  | case2 base pos hcount =>
    -- the data end here, and nothing was refused
    have hend := size_le_of_count hcount (by omega)
    have hbefore : ¬ fails ≤ pos := by
      intro hle
      rw [count_eq, if_neg (by omega), if_pos ((failsAt_eq_true_iff hfails).mpr hle)] at hcount
      cases hcount
    refine iff_of_false (by simp) ?_
    omega
  | case3 base pos more hcount _ stop found hfound =>
    -- the occurrence lies before the offset from which reads are refused
    obtain ⟨hbase, hstop, hat, -⟩ := firstBetween_eq_some hfound
    have hread := le_fails_of_count hfails hcount (Nat.succ_pos more)
    refine iff_of_false (by simp) ?_
    rintro (hle | ⟨-, hnone, -⟩)
    · omega
    · exact hnone found hbase (hstop.trans hread) hat
  | case4 base pos more hcount _ stop hnone hreached =>
    -- the window ends before it
    have hread := le_fails_of_count hfails hcount (Nat.succ_pos more)
    refine iff_of_false (by simp) ?_
    rintro (hle | ⟨-, -, hlimit⟩)
    · omega
    · simp only [reached, Option.any_eq_true, decide_eq_true_eq] at hreached
      obtain ⟨l, hmem, hle⟩ := hreached
      have hlate := hlimit l hmem
      omega
  | case5 base pos more hcount _ stop hnone hreached ih =>
    have hread := le_fails_of_count hfails hcount (Nat.succ_pos more)
    have hsize := (count_facts hcount).2 (Nat.succ_pos more)
    have hnothing := firstBetween_eq_none hnone
    have hlimit : ∀ l ∈ limit, stop < l := by
      intro l hmem
      simp only [reached, Option.any_eq_true, decide_eq_true_eq, not_exists, not_and, not_le]
        at hreached
      exact hreached l hmem
    refine (ih (by omega)).trans ⟨?_, ?_⟩
    · rintro (hle | ⟨hin, hafter, hlate⟩)
      · -- all that can be read has been, and the pattern is not in it
        have hsame : fails = stop := by omega
        refine .inr ⟨by omega, fun p hp hend => hnothing p hp (by omega), fun l hmem => ?_⟩
        exact hsame ▸ hlimit l hmem
      · refine .inr ⟨hin, fun p hp hend => ?_, hlate⟩
        by_cases hdone : p + length ≤ stop
        · exact hnothing p hp hdone
        · exact hafter p (by omega) hend
    · rintro (hle | ⟨hin, hafter, hlate⟩)
      · omega
      · exact .inr ⟨hin, fun p hp hend => hafter p (by omega) hend, hlate⟩

/-- A search fails exactly if it has to look where reads are refused. -/
theorem find_error_iff (hne : pattern ≠ []) (hfails : s.failsFrom = some fails) (pos : Nat)
    (window : Option Nat) (block : Nat) :
    (∃ e, s.find pos pattern window block = .error e) ↔
      s.bytes.SearchReaches pattern pos window fails := by
  have hlength := List.length_pos_iff.mpr hne
  unfold find
  simp only [if_neg (Nat.ne_of_gt hlength)]
  rw [findFrom_error_iff hne hfails _ (by omega) (by omega), Bytes.SearchReaches, length_bytes]
  cases window <;> simp

/-! ## §3 Searches -/

/-- What is found by a search for a pattern, when this is the answer that its bytes settle: the
answer, or the fault of the source exactly if the search has to look where reads are refused. -/
structure Settles (s : Source) (pattern : Bytes) (pos : Nat) (window answer : Option Nat)
    (found : Except IoError (Option Nat)) : Prop where
  steady : s.failsFrom = none → found = .ok answer
  fails : ∀ fails, s.failsFrom = some fails →
    (s.bytes.SearchReaches pattern pos window fails → found = .error s.fault) ∧
      (¬ s.bytes.SearchReaches pattern pos window fails → found = .ok answer)

/-- The bytes and the window settle the answer, whatever the blocks are. -/
theorem settles_find {pattern : Bytes} (hne : pattern ≠ []) (bytes : Bytes) (pos : Nat)
    (window : Option Nat) :
    ∃ answer, bytes.IsFirstWithin pattern pos window answer ∧
      ∀ (s : Source) (block : Nat), s.bytes = bytes →
        s.Settles pattern pos window answer (s.find pos pattern window block) := by
  refine ⟨_, bytes.isFirstWithin_filter hne pos window, ?_⟩
  rintro s block rfl
  refine ⟨fun hsteady => find_eq hsteady window block fun hnil => absurd hnil hne, ?_⟩
  intro fails hfails
  have herror := find_error_iff hne hfails pos window block
  have hinside : pattern = [] → pos < s.size := fun hnil => absurd hnil hne
  rcases s.find_cases window block hinside with ⟨hfind, -⟩ | hfind
  · exact ⟨fun _ => hfind, fun hnot => absurd (herror.mp ⟨_, hfind⟩) hnot⟩
  · refine ⟨fun hreaches => ?_, fun _ => hfind⟩
    obtain ⟨e, he⟩ := herror.mpr hreaches
    rw [hfind] at he
    cases he

/-- **Searches.** What a search answers is settled by the bytes and the window: the first
occurrence of the pattern, if all of it lies within the window. Every source of these bytes gives
this answer, whatever the block size, however its reads are split and however often they are
interrupted; but one that refuses reads from some offset on fails, exactly if the search has to
look there. A machine gives no other answer, and gives one if it has room for the buffer. -/
theorem find_by_bytes {pattern : Bytes} (hne : pattern ≠ []) (bytes : Bytes) (pos : Nat)
    (window : Option Nat) :
    ∃ answer, bytes.IsFirstWithin pattern pos window answer ∧
      ∀ (s : Source) (block : Nat), s.bytes = bytes →
        (s.findChecked pos pattern window block).Gives
          (max block pattern.length + (pattern.length - 1) < bufferLimit)
          (s.Settles pattern pos window answer) := by
  obtain ⟨answer, hfirst, hsettled⟩ := settles_find hne bytes pos window
  refine ⟨answer, hfirst, fun s block hbytes => ⟨fun found hfound => ?_, fun hbuffer => ?_⟩⟩
  · rw [← find_of_findChecked hfound]
    exact hsettled s block hbytes
  · exact ⟨_, findChecked_of_fits (fun _ => hbuffer) s pos window⟩

/-- Two bytes among five, read one by one after two interruptions each: they are found when reads
are refused right behind them, and not when the second one cannot be read. -/
theorem find_by_bytes_sample :
    let source (fails : Nat) : Source :=
      { data := #[9, 1, 1, 2, 7], failsFrom := some fails, burst := fun _ => 0, stalls := fun _ => 2 }
    [1, 2] ≠ ([] : Bytes) ∧ (source 4).findChecked 0 [1, 2] (some 4) 0 = .ok (.ok (some 2)) ∧
      (source 3).findChecked 0 [1, 2] (some 4) 0 = .ok (.error (source 3).fault) := by
  intro source
  have hne : [1, 2] ≠ ([] : Bytes) := by decide
  obtain ⟨answer, hfirst, hfind⟩ := find_by_bytes hne [9, 1, 1, 2, 7] 0 (some 4)
  have hbefore : ∀ q < 2, ¬ Bytes.HasAt [9, 1, 1, 2, 7] q [1, 2] := by decide
  have hanswer : answer = some 2 :=
    (hfirst 2).mpr ⟨⟨by decide, by decide, fun q _ hq => hbefore q hq⟩, by decide⟩
  obtain ⟨found, hfound⟩ := (hfind (source 4) 0 rfl).total (by decide)
  obtain ⟨refused, hrefused⟩ := (hfind (source 3) 0 rfl).total (by decide)
  have hsettled := (((hfind (source 4) 0 rfl).sound found hfound).fails 4 rfl).2
  have hfault := (((hfind (source 3) 0 rfl).sound refused hrefused).fails 3 rfl).1
  refine ⟨hne, ?_, ?_⟩
  · rw [hfound, hsettled, hanswer]
    rintro (hle | ⟨-, hnone, -⟩)
    · exact absurd hle (by decide)
    · exact hnone 2 (by decide) (by decide) (by decide)
  · rw [hrefused, hfault (.inr ⟨by decide, fun p _ hp => ?_, by decide⟩)]
    -- all of the pattern would have to lie before the third byte
    exact hbefore p (Nat.lt_of_add_lt_add_right (Nat.lt_succ_of_le hp))

/-- A limit of `find_by_bytes`: a block that no machine has room for. -/
theorem find_without_room :
    (Source.ofBytes [1, 2, 3]).find 0 [2, 3] none (2 ^ 64 - 1) = .ok (some 1) ∧
      (Source.ofBytes [1, 2, 3]).findChecked 0 [2, 3] none (2 ^ 64 - 1) = .error .overflow := by
  exact ⟨by decide +kernel, rfl⟩

end Source

end Granule
