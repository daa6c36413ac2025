import Granule.Proofs.Tile.Requests

/-!
# A Queue Answers Like a Search

A queue passes segments for good, going by where they end, although they stand in
the order in which they start. Segments that overlap or lie inside one another do
not end in that order, so a segment may be left that ended long ago. None is missed
for all that: what was passed ends at or before an element that was asked for
(`SegmentQueue.Passed`), and of what is left, the first segment decides for all.

So a queue answers elements that never decrease as a search through all its
segments does, which goes back to the first of them for every element.

**Main statement**: `SegmentQueue.answers_as_search` — the answers of a queue, which of its segments
they are, and what the queue has passed after each of them.
-/

namespace Granule

open Checked

namespace SegmentQueue

variable {segments : List Segment} {q : SegmentQueue} {asked : List Nat} {elem : Nat}

/-! ## §1 One request -/

/-- In storage order, the first segment that does not end before the element decides: the queue
answers with the first of its segments that holds the element. -/
theorem supply_eq_find? (hordered : q.pending.Pairwise (·.first ≤ ·.first)) :
    (q.supply elem).1 = q.pending.find? (·.contains elem) := by
  obtain ⟨pending⟩ := q
  simp only [supply] at hordered ⊢
  induction pending with
  | nil => rfl
  | cons s rest ih =>
    obtain ⟨hstarts, hrest⟩ := List.pairwise_cons.mp hordered
    rw [List.dropWhile_cons, List.find?_cons]
    by_cases hends : s.stop ≤ elem
    · have hnot : s.contains elem = false := by
        rw [← Bool.not_eq_true, Segment.contains_iff]
        omega
      rw [if_pos (decide_eq_true hends), hnot]
      exact ih hrest
    · rw [if_neg (by simpa using hends), List.head?_cons, Option.filter_some]
      cases hholds : s.contains elem with
      | true => rfl
      | false =>
        -- the element lies before this segment, and every later one starts no earlier
        have hbefore : elem < s.first := by
          rw [← Bool.not_eq_true, Segment.contains_iff] at hholds
          omega
        refine (List.find?_eq_none.mpr fun t ht hcontains => ?_).symm
        have hle := hstarts t ht
        have hfirst := (Segment.contains_iff.mp hcontains).1
        omega

/-- What a request passes lies in front of what it leaves, and ends at or before the element. -/
theorem exists_passed_supply (q : SegmentQueue) (elem : Nat) :
    ∃ passed, q.pending = passed ++ (q.supply elem).2.pending ∧ ∀ s ∈ passed, s.stop ≤ elem :=
  ⟨q.pending.takeWhile (·.stop ≤ elem), List.takeWhile_append_dropWhile.symm,
    fun s hs => by simpa using List.all_eq_true.mp List.all_takeWhile s hs⟩

/-! ## §2 Many requests -/

/-- Where a queue stands before a request: behind segments that end at or before the element. -/
def Passed (segments : List Segment) (elem : Nat) (q : SegmentQueue) : Prop :=
  ∃ passed, (ofSegments segments).pending = passed ++ q.pending ∧ ∀ s ∈ passed, s.stop ≤ elem

namespace Passed

theorem ofSegments (segments : List Segment) (elem : Nat) :
    Passed segments elem (ofSegments segments) := ⟨[], rfl, by simp⟩

theorem later (h : Passed segments elem q) {next : Nat} (hle : elem ≤ next) :
    Passed segments next q := by
  obtain ⟨passed, hsplit, hends⟩ := h
  exact ⟨passed, hsplit, fun s hs => (hends s hs).trans hle⟩

theorem supply (h : Passed segments elem q) : Passed segments elem (q.supply elem).2 := by
  obtain ⟨passed, hsplit, hends⟩ := h
  obtain ⟨more, hmore, hmoreEnds⟩ := exists_passed_supply q elem
  refine ⟨passed ++ more, by rw [hsplit, hmore, List.append_assoc], fun s hs => ?_⟩
  rcases List.mem_append.mp hs with hs | hs
  · exact hends s hs
  · exact hmoreEnds s hs

theorem after (hasked : asked.Pairwise (· ≤ ·)) (hup : ∀ d ∈ asked, d ≤ elem) :
    Passed segments elem (SegmentSupplier.after (SegmentQueue.ofSegments segments) asked) := by
  induction asked using List.reverseRecOn generalizing elem with
  | nil => exact ofSegments segments elem
  | append_singleton asked d ih =>
    obtain ⟨hasked, -, hlast⟩ := List.pairwise_append.mp hasked
    rw [SegmentSupplier.after_concat]
    have hbefore := ih hasked fun e he => hlast e he d List.mem_cons_self
    exact hbefore.supply.later (hup d List.mem_concat_self)

/-- What was passed does not hold the element, so a search through what is left finds what a search
through all segments finds. -/
theorem find?_eq (h : Passed segments elem q) :
    q.pending.find? (·.contains elem) =
      (SegmentQueue.ofSegments segments).pending.find? (·.contains elem) := by
  obtain ⟨passed, hsplit, hends⟩ := h
  have hnone : passed.find? (·.contains elem) = none := by
    refine List.find?_eq_none.mpr fun s hs hcontains => ?_
    have hstop := (Segment.contains_iff.mp hcontains).2
    have hle := hends s hs
    omega
  rw [hsplit, List.find?_append, hnone, Option.none_or]

/-- A queue that has passed nothing that reaches the element answers like a search through all. -/
theorem supply_eq (h : Passed segments elem q) :
    (q.supply elem).1 = (SegmentQueue.ofSegments segments).pending.find? (·.contains elem) := by
  have hordered : q.pending.Pairwise (·.first ≤ ·.first) := by
    obtain ⟨passed, hsplit, -⟩ := id h
    have hall := (ahead_ofSegments segments elem).ordered
    rw [hsplit] at hall
    exact (List.pairwise_append.mp hall).2.1
  rw [supply_eq_find? hordered, h.find?_eq]

end Passed

/-- Bringing segments into storage order neither adds nor loses any. -/
theorem mem_pending_ofSegments {s : Segment} : s ∈ (ofSegments segments).pending ↔ s ∈ segments :=
  List.mem_mergeSort

/-- A queue after one request more. -/
theorem after_take_succ {elems : List Nat} {k : Nat} (hk : elems[k]? = some elem)
    (q : SegmentQueue) :
    SegmentSupplier.after q (elems.take (k + 1)) =
      ((SegmentSupplier.after q (elems.take k)).supply elem).2 := by
  rw [List.take_add_one, hk, Option.toList_some, SegmentSupplier.after_concat]
  rfl

/-- What a queue of any segments answers, and what it passes, request by request. -/
structure SearchedBy (segments : List Segment) (elems : List Nat)
    (answers : List (Except GridError (Option Segment))) (last : SegmentQueue) : Prop where
  /-- Every answer is the first segment in storage order that holds the element. -/
  found : answers =
    elems.map fun elem => .ok ((ofSegments segments).pending.find? (·.contains elem))
  /-- So a segment is given wherever one holds the element. -/
  held : ∀ k elem : Nat, elems[k]? = some elem → Segment.Held segments elem →
    ∃ s ∈ segments, s.contains elem ∧ answers[k]? = some (.ok (some s))
  /-- And none only where none does. -/
  missing : ∀ k elem : Nat, elems[k]? = some elem → answers[k]? = some (.ok none) →
    ¬ Segment.Held segments elem
  /-- What a request passes is gone for good, and ends at or before the element. -/
  forward : ∀ k elem : Nat, elems[k]? = some elem → ∃ passed,
    (SegmentSupplier.after (ofSegments segments) (elems.take k)).pending =
      passed ++ (SegmentSupplier.after (ofSegments segments) (elems.take (k + 1))).pending ∧
    ∀ s ∈ passed, s.stop ≤ elem
  /-- What is left of the queue is what the requests have left of it. -/
  last_eq : last = SegmentSupplier.after (ofSegments segments) elems

theorem searchedBy (segments : List Segment) {elems : List Nat} (helems : elems.Pairwise (· ≤ ·)) :
    SearchedBy segments elems (SegmentSupplier.answers (ofSegments segments) elems)
      (SegmentSupplier.after (ofSegments segments) elems) := by
  -- each answer is that of a search, since what was passed ends in front of the element
  have hanswer : ∀ k elem : Nat, elems[k]? = some elem →
      (SegmentSupplier.answers (ofSegments segments) elems)[k]? =
        some (.ok ((ofSegments segments).pending.find? (·.contains elem))) := by
    intro k elem hk
    obtain ⟨hasked, hup⟩ := SegmentSupplier.take_of_ordered helems hk
    have hpassed : Passed segments elem
        (SegmentSupplier.after (ofSegments segments) (elems.take k)) := .after hasked hup
    rw [SegmentSupplier.getElem?_answers, hk, Option.map_some]
    exact congrArg (fun answer => some (Except.ok answer)) hpassed.supply_eq
  refine ⟨?found, fun k elem hk => ?held, fun k elem hk => ?missing, fun k elem hk => ?forward, rfl⟩
  case found =>
    refine List.ext_getElem? fun k => ?_
    rw [List.getElem?_map]
    cases hk : elems[k]? with
    | none => rw [SegmentSupplier.getElem?_answers, hk]; rfl
    | some elem => exact hanswer k elem hk
  case held =>
    rintro ⟨s, hs, hcontains⟩
    cases hfind : (ofSegments segments).pending.find? (·.contains elem) with
    | none =>
      exact absurd hcontains (List.find?_eq_none.mp hfind s (mem_pending_ofSegments.mpr hs))
    | some t =>
      have ht := mem_pending_ofSegments.mp (List.mem_of_find?_eq_some hfind)
      have hholds : t.contains elem := by simpa using List.find?_some hfind
      exact ⟨t, ht, hholds, by rw [hanswer k elem hk, hfind]⟩
  case missing =>
    rintro hnone ⟨s, hs, hcontains⟩
    rw [hanswer k elem hk] at hnone
    have hfind := Except.ok.inj (Option.some.inj hnone)
    exact absurd hcontains (List.find?_eq_none.mp hfind s (mem_pending_ofSegments.mpr hs))
  case forward =>
    rw [after_take_succ hk]
    exact exists_passed_supply _ elem

/-- **No segment is missed**: for any segments, in any order, overlapping, nested or empty, and any
elements that never decrease, a queue answers each element with the first segment in storage order
that holds it. So it answers with one of the segments wherever one holds the element, and with none
only where none does, although what a request passes is gone for good: that all ends at or before
the element, and the rest of the queue is left as it was. A machine can only give up at a segment
whose end has no place in a word. -/
theorem answers_as_search (segments : List Segment) (elems : List Nat)
    (helems : elems.Pairwise (· ≤ ·)) :
    (CheckedSupplier.answersChecked (ofSegments segments) elems).Gives
      (∀ s ∈ segments, s.stop < wordLimit)
      fun answered => SearchedBy segments elems answered.1 answered.2 := by
  have hgives : (CheckedSupplier.answersChecked (ofSegments segments) elems).Gives
      (∀ s ∈ segments, s.stop < wordLimit) (· = (SegmentSupplier.answers (ofSegments segments) elems,
        SegmentSupplier.after (ofSegments segments) elems)) := by
    refine CheckedSupplier.gives_answersChecked (fun q => ∀ s ∈ q.pending, s.stop < wordLimit)
      (fun q elem hq => ?_) (fun hroom s hs => hroom s (mem_pending_ofSegments.mp hs)) elems
    exact ⟨_, (q.gives_supplyChecked elem).eq_ok hq,
      fun s hs => hq s ((List.dropWhile_sublist _).subset hs)⟩
  refine hgives.mono fun answered hanswered => ?_
  rw [hanswered]
  exact searchedBy segments helems

/-- Segments out of order, one inside another and one empty, and an element asked for twice. -/
theorem answers_as_search_nested :
    [1, 3, 3, 10].Pairwise (· ≤ ·) ∧ ∃ last,
      CheckedSupplier.answersChecked
          (ofSegments [⟨3, 0, []⟩, ⟨2, 1, [6]⟩, ⟨1, 9, [7]⟩, ⟨0, 2, [8]⟩]) [1, 3, 3, 10] =
        .ok ([.ok (some ⟨0, 2, [8]⟩), .ok (some ⟨1, 9, [7]⟩), .ok (some ⟨1, 9, [7]⟩), .ok none],
          last) := by
  have hordered : [1, 3, 3, 10].Pairwise (· ≤ ·) := by decide
  have hqueue : (ofSegments [⟨3, 0, []⟩, ⟨2, 1, [6]⟩, ⟨1, 9, [7]⟩, ⟨0, 2, [8]⟩]).pending =
      [⟨0, 2, [8]⟩, ⟨1, 9, [7]⟩, ⟨2, 1, [6]⟩, ⟨3, 0, []⟩] := by
    simp [ofSegments, List.mergeSort, List.MergeSort.Internal.splitInTwo]
  have hgives := answers_as_search [⟨3, 0, []⟩, ⟨2, 1, [6]⟩, ⟨1, 9, [7]⟩, ⟨0, 2, [8]⟩] _ hordered
  obtain ⟨⟨answers, last⟩, hanswered⟩ := hgives.total (by decide)
  have hfound := (hgives.sound _ hanswered).found
  rw [hqueue] at hfound
  refine ⟨hordered, last, ?_⟩
  rw [hanswered, show answers = _ from hfound]
  rfl

/-- A segment whose end has no place in a word holds the element, and is not given. -/
theorem no_answer_beyond_words :
    Segment.Held [⟨5, 2 ^ 64 - 1, []⟩] 5 ∧
      CheckedSupplier.answersChecked (ofSegments [⟨5, 2 ^ 64 - 1, []⟩]) [5] = .error .overflow := by
  refine ⟨by decide, ?_⟩
  have hqueue : ofSegments [⟨5, 2 ^ 64 - 1, []⟩] = ⟨[⟨5, 2 ^ 64 - 1, []⟩]⟩ := by
    simp [ofSegments]
  rw [hqueue]
  rfl

end SegmentQueue

end Granule
