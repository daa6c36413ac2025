import Granule.Proofs.Grid.Queue
import Granule.Proofs.Tile.Walk

/-!
# Requests One After Another

A queue of segments and a walk over tiles are both asked for elements that never
decrease. A queue passes a segment when it is asked for an element behind it, and
answers again as long as it is asked for elements of the same segment. A walk
passes a tile as soon as it has supplied it, so it supplies each tile once: from
the second request into a tile on, it answers that there is nothing.

**Main statement**: `Tile.Walk.supplies_each_tile_once` — the answers of a queue and of a walk to the
same requests, and the requests on which they agree.
-/

namespace Granule

/-! ## §1 Sequences of requests -/

namespace SegmentSupplier

variable {σ : Type} [SegmentSupplier σ]

/-- Each request is answered by what the ones before it have left of the supplier. -/
theorem getElem?_answers (s : σ) (elems : List Nat) (k : Nat) :
    (answers s elems)[k]? = elems[k]?.map fun elem => (supply (after s (elems.take k)) elem).1 := by
  induction elems generalizing s k with
  | nil => rfl
  | cons elem elems ih =>
    cases k with
    | zero => rfl
    | succ k => exact ih (supply s elem).2 k

/-- The requests before one that is not less than any of them. -/
theorem take_of_ordered {elems : List Nat} (h : elems.Pairwise (· ≤ ·)) {k elem : Nat}
    (hk : elems[k]? = some elem) :
    (elems.take k).Pairwise (· ≤ ·) ∧ ∀ d ∈ elems.take k, d ≤ elem := by
  obtain ⟨hlt, hget⟩ := List.getElem?_eq_some_iff.mp hk
  have hsplit : elems = elems.take k ++ elem :: elems.drop (k + 1) := by
    rw [← hget, ← List.drop_eq_getElem_cons hlt, List.take_append_drop]
  rw [hsplit] at h
  obtain ⟨hbefore, -, hlast⟩ := List.pairwise_append.mp h
  exact ⟨hbefore, fun d hd => hlast d hd elem List.mem_cons_self⟩

end SegmentSupplier

/-! ## §2 Disjoint segments -/

/-- No two of the segments share an element. -/
def Segment.Disjoint (segments : List Segment) : Prop :=
  segments.Pairwise fun a b => ∀ elem, a.contains elem → ¬ b.contains elem

/-- Segments that end before the next one begins are disjoint. -/
theorem Segment.Disjoint.of_ordered {segments : List Segment}
    (h : segments.Pairwise (·.stop ≤ ·.first)) : Disjoint segments := by
  refine h.imp fun {a b} hle elem ha hb => ?_
  have hstop := (contains_iff.mp ha).2
  have hfirst := (contains_iff.mp hb).1
  omega

/-- Among disjoint segments, the one that holds an element is the one found. -/
theorem Segment.Disjoint.find?_eq {segments : List Segment} (h : Disjoint segments) {s : Segment}
    {elem : Nat} (hs : s ∈ segments) (hcontains : s.contains elem) :
    segments.find? (·.contains elem) = some s := by
  induction segments with
  | nil => cases hs
  | cons t rest ih =>
    obtain ⟨hapart, hrest⟩ := List.pairwise_cons.mp h
    rw [List.find?_cons]
    cases ht : t.contains elem with
    | true =>
      rcases List.mem_cons.mp hs with rfl | hs
      · rfl
      · exact absurd hcontains (hapart s hs elem ht)
    | false =>
      rcases List.mem_cons.mp hs with rfl | hs
      · rw [ht] at hcontains
        cases hcontains
      · exact ih hrest hs

theorem Segment.find?_eq_none_iff {segments : List Segment} {elem : Nat} :
    segments.find? (·.contains elem) = none ↔ ¬ Held segments elem := by
  rw [List.find?_eq_none]
  exact ⟨fun h ⟨s, hs, hcontains⟩ => h s hs hcontains, fun h s hs hc => h ⟨s, hs, hc⟩⟩

/-! ## §3 A queue -/

namespace SegmentQueue

variable {segments : List Segment} {q : SegmentQueue} {elem : Nat}

/-- A queue that was asked for elements in order is ahead of every later one. -/
theorem ahead_after (segments : List Segment) {asked : List Nat} (hasked : asked.Pairwise (· ≤ ·))
    (helem : ∀ d ∈ asked, d ≤ elem) :
    Ahead segments elem (SegmentSupplier.after (ofSegments segments) asked) := by
  induction asked using List.reverseRecOn generalizing elem with
  | nil => exact ahead_ofSegments segments elem
  | append_singleton asked d ih =>
    obtain ⟨hasked, -, hlast⟩ := List.pairwise_append.mp hasked
    rw [SegmentSupplier.after_concat]
    have hahead := ih hasked fun e he => hlast e he d List.mem_cons_self
    exact hahead.supply.later (helem d List.mem_concat_self)

/-- A queue of disjoint segments answers with the one that holds the element. -/
theorem Ahead.supply_eq (h : Ahead segments elem q) (hdisjoint : Segment.Disjoint segments) :
    (q.supply elem).1 = segments.find? (·.contains elem) := by
  by_cases hheld : Segment.Held segments elem
  · obtain ⟨s, hs, hcontains⟩ := h.exists_supply hheld
    rw [hs, hdisjoint.find?_eq (h.known s (contains_of_supply hs).2) hcontains]
  · rw [Segment.find?_eq_none_iff.mpr hheld, Option.eq_none_iff_forall_ne_some]
    intro s hs
    obtain ⟨hcontains, hmem⟩ := contains_of_supply hs
    exact hheld ⟨s, h.known s hmem, hcontains⟩

end SegmentQueue

/-! ## §4 A walk -/

namespace Tile.Walk

variable {tiles : List Tile} {elemSize : Nat} {asked : List Nat} {elem : Nat} {r : Tile.Walk}

/-- Where a walk stands when it was asked for these elements. -/
structure Asked (tiles : List Tile) (elemSize : Nat) (asked : List Nat) (r : Tile.Walk) :
    Prop where
  /-- Of the tiles that were passed, only those that were supplied can hold what comes next; of the
  others none was supplied. -/
  split : ∃ past rest, tiles = past ++ rest ∧ Before elemSize rest r ∧
    (∀ t ∈ past, ∀ e, (∀ d ∈ asked, d ≤ e) → t.segment.contains e →
      ∃ d ∈ asked, t.segment.contains d) ∧
    ∀ t ∈ rest, ∀ d ∈ asked, ¬ t.segment.contains d

/-- One of the segments holds the element and one of those asked for before. -/
def Repeats (segments : List Segment) (asked : List Nat) (elem : Nat) : Prop :=
  ∃ d ∈ asked, ∃ s ∈ segments, s.contains d ∧ s.contains elem

instance (segments : List Segment) (asked : List Nat) (elem : Nat) :
    Decidable (Repeats segments asked elem) :=
  inferInstanceAs (Decidable (∃ d ∈ asked, ∃ s ∈ segments, s.contains d ∧ s.contains elem))

/-- **One request.** A walk over disjoint tiles supplies the tile that holds the element, unless it
has supplied that tile before. -/
theorem Asked.supply (hordered : tiles.Pairwise (·.segment.first ≤ ·.segment.first))
    (hdisjoint : Segment.Disjoint (tiles.map Tile.segment))
    (hintact : ∀ t ∈ tiles, t.Intact elemSize) (h : Asked tiles elemSize asked r)
    (hup : ∀ d ∈ asked, d ≤ elem) :
    Asked tiles elemSize (asked ++ [elem]) (r.supply elem).2 ∧
      (r.supply elem).1 = .ok (if Repeats (tiles.map Tile.segment) asked elem then none
        else (tiles.map Tile.segment).find? (·.contains elem)) := by
  obtain ⟨past, rest, rfl, hbefore, hpast, hrest⟩ := h.split
  obtain ⟨passed, left, after, rfl, hpassed, hcases⟩ := hbefore.supply_cases
    (List.pairwise_append.mp hordered).2.1 (fun t ht => hintact t (List.mem_append_right past ht))
    elem
  -- what was passed holds the element only if it was supplied
  have hgone : ∀ t ∈ past ++ passed, t.segment.contains elem →
      ∃ d ∈ asked, t.segment.contains d := by
    intro t ht hcontains
    rcases List.mem_append.mp ht with ht | ht
    · exact hpast t ht elem hup hcontains
    · exact absurd hcontains (not_contains_of_stop_le (hpassed t ht))
  have hstill : ∀ t ∈ past ++ passed, ∀ e, (∀ d ∈ asked ++ [elem], d ≤ e) →
      t.segment.contains e → ∃ d ∈ asked ++ [elem], t.segment.contains d := by
    intro t ht e he hcontains
    rcases List.mem_append.mp ht with ht | ht
    · obtain ⟨d, hd, hheld⟩ :=
        hpast t ht e (fun d hd => he d (List.mem_append_left _ hd)) hcontains
      exact ⟨d, List.mem_append_left _ hd, hheld⟩
    · have hle := (hpassed t ht).trans (he elem List.mem_concat_self)
      exact absurd hcontains (not_contains_of_stop_le hle)
  have hfresh : ∀ t ∈ left, ∀ d ∈ asked, ¬ t.segment.contains d :=
    fun t ht => hrest t (List.mem_append_right passed ht)
  rcases hcases with ⟨hsupply, hafter, hnone⟩ | ⟨t, behind, rfl, hsupply, hafter, hcontains⟩
  case inl =>
    rw [hsupply]
    refine ⟨⟨past ++ passed, left, by rw [List.append_assoc], hafter, hstill, ?_⟩, ?_⟩
    · intro t ht d hd
      rcases List.mem_append.mp hd with hd | hd
      · exact hfresh t ht d hd
      · rw [List.mem_singleton.mp hd]
        exact hnone t ht
    · split_ifs with hrepeats
      · rfl
      · refine congrArg Except.ok (Segment.find?_eq_none_iff.mpr ?_).symm
        rintro ⟨s, hs, hcontains⟩
        obtain ⟨t, ht, rfl⟩ := List.mem_map.mp hs
        rw [← List.append_assoc] at ht
        rcases List.mem_append.mp ht with ht | ht
        · obtain ⟨d, hd, hheld⟩ := hgone t ht hcontains
          exact hrepeats ⟨d, hd, t.segment, hs, hheld, hcontains⟩
        · exact hnone t ht hcontains
  case inr =>
    have hmem : t ∈ past ++ (passed ++ t :: behind) := by simp
    have hfind := hdisjoint.find?_eq (List.mem_map_of_mem hmem) hcontains
    rw [hsupply, hfind, if_neg]
    · refine ⟨⟨past ++ passed ++ [t], behind, by simp, hafter, ?_, ?_⟩, rfl⟩
      · intro u hu e he hheld
        rcases List.mem_append.mp hu with hu | hu
        · exact hstill u hu e he hheld
        · rw [List.mem_singleton.mp hu]
          exact ⟨elem, List.mem_concat_self, hcontains⟩
      · intro u hu d hd
        rcases List.mem_append.mp hd with hd | hd
        · exact hfresh u (List.mem_cons_of_mem t hu) d hd
        · rw [List.mem_singleton.mp hd]
          have hapart := (List.pairwise_map.mp hdisjoint)
          rw [← List.append_assoc] at hapart
          exact (List.pairwise_cons.mp (List.pairwise_append.mp hapart).2.1).1 u hu elem hcontains
    · rintro ⟨d, hd, s, hs, hdheld, hheld⟩
      have heq : s = t.segment := by
        rw [hdisjoint.find?_eq hs hheld] at hfind
        exact Option.some.inj hfind
      exact hfresh t List.mem_cons_self d hd (heq ▸ hdheld)

/-- A walk that was asked for elements in order has gone by the tiles they lie in. -/
theorem asked_after (hordered : tiles.Pairwise (·.segment.first ≤ ·.segment.first))
    (hdisjoint : Segment.Disjoint (tiles.map Tile.segment))
    (hintact : ∀ t ∈ tiles, t.Intact elemSize) (hstart : Before elemSize tiles r)
    (hasked : asked.Pairwise (· ≤ ·)) :
    Asked tiles elemSize asked (SegmentSupplier.after r asked) := by
  induction asked using List.reverseRecOn with
  | nil => exact ⟨[], tiles, rfl, hstart, by simp, by simp⟩
  | append_singleton asked d ih =>
    obtain ⟨hasked, -, hlast⟩ := List.pairwise_append.mp hasked
    rw [SegmentSupplier.after_concat]
    have hup : ∀ e ∈ asked, e ≤ d := fun e he => hlast e he d List.mem_cons_self
    exact ((ih hasked).supply hordered hdisjoint hintact hup).1

/-- The answers to one of the requests. -/
theorem answers_to_request {source : Source} {offset : Nat} {elems : List Nat} {k : Nat}
    (hordered : tiles.Pairwise (·.segment.first ≤ ·.segment.first))
    (hdisjoint : Segment.Disjoint (tiles.map Tile.segment))
    (hintact : ∀ t ∈ tiles, t.Intact elemSize)
    (hstart : Before elemSize tiles { source, elemSize, offset })
    (helems : elems.Pairwise (· ≤ ·)) (hk : elems[k]? = some elem) :
    let segments := tiles.map Tile.segment
    (SegmentSupplier.answers (SegmentQueue.ofSegments segments) elems)[k]? =
        some (.ok (segments.find? (·.contains elem))) ∧
      (SegmentSupplier.answers ({ source, elemSize, offset } : Tile.Walk) elems)[k]? =
        some (.ok (if Repeats segments (elems.take k) elem then none
          else segments.find? (·.contains elem))) := by
  obtain ⟨hasked, hup⟩ := SegmentSupplier.take_of_ordered helems hk
  refine ⟨?queue, ?walk⟩
  case queue =>
    have hanswer := (SegmentQueue.ahead_after _ hasked hup).supply_eq hdisjoint
    rw [SegmentSupplier.getElem?_answers, hk, Option.map_some]
    exact congrArg (fun answer => some (Except.ok answer)) hanswer
  case walk =>
    have hanswer := ((asked_after hordered hdisjoint hintact hstart hasked).supply hordered
      hdisjoint hintact hup).2
    rw [SegmentSupplier.getElem?_answers, hk, Option.map_some]
    exact congrArg (fun answer => some (answer.mapError GridError.tile)) hanswer

/-- **Each tile once**: asked for elements that never decrease, a queue of the decoded tiles always
answers with the one that holds the element, and a walk over the tiles does so for the first
element in each tile; for a further one it answers that there is nothing. So the two agree exactly
when no two of the elements lie in one tile. -/
theorem supplies_each_tile_once (tiles : List Tile) (elemSize : Nat) (source : Source)
    (offset : Nat) (elems : List Nat)
    (hordered : tiles.Pairwise (·.segment.first ≤ ·.segment.first))
    (hdisjoint : Segment.Disjoint (tiles.map Tile.segment))
    (hintact : ∀ t ∈ tiles, t.Intact elemSize) (hsteady : source.NeverFails)
    (hbytes : source.bytes.drop offset = writeAll tiles) (helems : elems.Pairwise (· ≤ ·)) :
    let segments := tiles.map Tile.segment
    let queue := SegmentSupplier.answers (SegmentQueue.ofSegments segments) elems
    let walk := SegmentSupplier.answers ({ source, elemSize, offset } : Tile.Walk) elems
    (∀ k elem : Nat, elems[k]? = some elem →
        queue[k]? = some (.ok (segments.find? (·.contains elem))) ∧
        walk[k]? = some (.ok (if Repeats segments (elems.take k) elem then none
          else segments.find? (·.contains elem)))) ∧
      (walk = queue ↔
        ∀ k elem : Nat, elems[k]? = some elem → ¬ Repeats segments (elems.take k) elem) := by
  intro segments queue walk
  have hstart : Before elemSize tiles { source, elemSize, offset } := ⟨hsteady, rfl, hbytes⟩
  refine ⟨?each, ?differ, ?agree⟩
  case each =>
    intro k elem hk
    exact answers_to_request hordered hdisjoint hintact hstart helems hk
  case differ =>
    intro heq k elem hk hrepeats
    obtain ⟨hqueue, hwalk⟩ := answers_to_request hordered hdisjoint hintact hstart helems hk
    obtain ⟨-, -, s, hs, -, hcontains⟩ := id hrepeats
    -- equal answers leave no room for a request that the walk answers with nothing
    have hsame : walk[k]? = queue[k]? := by rw [heq]
    have hnone := hqueue.symm.trans (hsame.symm.trans hwalk)
    rw [if_pos hrepeats, hdisjoint.find?_eq hs hcontains] at hnone
    cases hnone
  case agree =>
    intro hnever
    refine List.ext_getElem? fun k => ?_
    cases hk : elems[k]? with
    | none =>
      rw [SegmentSupplier.getElem?_answers, SegmentSupplier.getElem?_answers, hk]
      rfl
    | some elem =>
      obtain ⟨hqueue, hwalk⟩ := answers_to_request hordered hdisjoint hintact hstart helems hk
      rw [if_neg (hnever k elem hk)] at hwalk
      exact hwalk.trans hqueue.symm

/-- The first tile twice: only the queue answers the second time. -/
theorem supplies_each_tile_once_samples :
    (samples.Pairwise (·.segment.first ≤ ·.segment.first) ∧
      Segment.Disjoint (samples.map Tile.segment) ∧ (∀ t ∈ samples, t.Intact 2) ∧
      (Source.ofBytes (writeAll samples)).NeverFails ∧
      (Source.ofBytes (writeAll samples)).bytes.drop 0 = writeAll samples ∧
      [0, 2].Pairwise (· ≤ ·)) ∧
      (SegmentSupplier.answers (SegmentQueue.ofSegments (samples.map Tile.segment)) [0, 2])[1]? =
        some (.ok (some ⟨0, 3, [0, 1, 2, 3, 4, 5]⟩)) ∧
      (SegmentSupplier.answers (⟨.ofBytes (writeAll samples), 2, 0⟩ : Tile.Walk) [0, 2])[1]? =
        some (.ok none) := by
  have hordered : samples.Pairwise (·.segment.first ≤ ·.segment.first) := by decide
  have hdisjoint : Segment.Disjoint (samples.map Tile.segment) := .of_ordered (by decide)
  have hsecond := (supplies_each_tile_once samples 2 (.ofBytes (writeAll samples)) 0 [0, 2]
    hordered hdisjoint intact_of_mem_samples rfl rfl (by decide)).1 1 2 rfl
  exact ⟨⟨hordered, hdisjoint, intact_of_mem_samples, rfl, rfl, by decide⟩, hsecond⟩

end Tile.Walk

end Granule
