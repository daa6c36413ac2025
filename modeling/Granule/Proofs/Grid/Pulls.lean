import Granule.Proofs.Grid.Words

/-!
# Pulling Chunks on a Machine

Pulled one after the other, the chunks of a plan come in their order, and then nothing comes
(`Plan.HandsOut`). A machine pulls no other chunks, and it pulls them all where the end of the
array has a place in a word. What is true of the chunks of a plan is then true of what a machine
pulls: they are the selected elements, row by row, and they lie one behind the other.

A machine gives up at a chunk whose position has no place in a word.

**Main statements**:
- `Plan.handsOut_chunks` : a machine pulls the chunks of a plan in turn
- `Plan.pulls_serve_selection` : pulling serves a selection in order, element by element, and
  then ends
- `Plan.chunks_follow` : the chunks come in order, inside the array, and fill the destination
-/

namespace Granule

open Checked

/-! ## §1 Pulls one after the other -/

namespace PlanCursor

/-- One pull: the next chunk, if there is one, and the cursor behind it. -/
def pullChecked (c : PlanCursor) : Checked (Option Chunk × PlanCursor) := do
  match ← c.nextChecked with
  | some (chunk, rest) => return (some chunk, rest)
  | none => return (none, c)

/-- Pulls one after the other. -/
def pullsChecked (c : PlanCursor) : (n : Nat) → Checked (List (Option Chunk) × PlanCursor)
  | 0 => .ok ([], c)
  | n + 1 => do
    let (first, rest) ← c.pullChecked
    let (others, last) ← rest.pullsChecked n
    return (first :: others, last)

end PlanCursor

/-- Any number of pulls hands out these chunks in turn, and then nothing; and it is known before
each of them how many chunks are left. -/
def Plan.HandsOut (p : Plan) (chunks : List Chunk) (wide : Prop) : Prop :=
  ∀ n, (PlanCursor.pullsChecked ⟨p, 0⟩ n).Gives wide fun pulled =>
    pulled.1 = (List.range n).map (chunks[·]?) ∧ pulled.2.left = chunks.length - n

variable {shape : Shape} {selection : Selection} {elemSize dataStart : Nat} {p : Plan}

theorem Plan.length_chunks (p : Plan) : p.chunks.length = p.chunkCount := by
  rw [chunks, List.length_map, List.length_range]

theorem Plan.getElem?_chunks_of_lt {k : Nat} (hk : k < p.chunkCount) :
    p.chunks[k]? = some (p.chunk k) := by
  rw [chunks, List.getElem?_map, List.getElem?_range hk]
  rfl

namespace PlanCursor

/-- At the end, nothing is pulled. -/
theorem pullsChecked_of_ended {c : PlanCursor} (h : c.hasNext = false) (n : Nat) :
    c.pullsChecked n = .ok (List.replicate n none, c) := by
  have hpull : c.pullChecked = .ok (none, c) := by
    simp only [pullChecked, nextChecked, reckonNext, h, Bool.false_eq_true, if_false]
    rfl
  induction n with
  | zero => rfl
  | succ n ih =>
    simp only [pullsChecked, hpull, ok_bind, ih]
    rfl

theorem gives_pullsChecked {c : PlanCursor}
    (hplan : Plan.ofSelection shape elemSize selection dataStart = .ok c.plan) (h : c.InStep)
    (n : Nat) :
    (c.pullsChecked n).Gives (dataStart + shape.size * elemSize < wordLimit) fun pulled =>
      pulled.1 = (List.range n).map (fun i => c.plan.chunks[c.odometer.pulled + i]?) ∧
        pulled.2.left = c.left - n := by
  -- the cursor moves on by one chunk for each pull, and then stands at the end
  induction n generalizing c with
  | zero => exact .ok ⟨rfl, rfl⟩
  | succ n ih =>
    cases hmore : c.hasNext with
    | false =>
      have hlength : c.plan.chunks.length ≤ c.odometer.pulled := by
        rw [Plan.length_chunks]
        exact Nat.not_lt.mp (of_decide_eq_false hmore)
      have hnone : ∀ i, c.plan.chunks[c.odometer.pulled + i]? = none := fun i =>
        List.getElem?_eq_none (hlength.trans (Nat.le_add_right _ _))
      rw [pullsChecked_of_ended hmore]
      refine .ok ⟨?_, ?_⟩
      · simp only [hnone, List.map_const', List.length_range]
      · rw [left, Nat.sub_eq_zero_of_le (Plan.length_chunks c.plan ▸ hlength), Nat.zero_sub]
    | true =>
      have hlt : c.odometer.pulled < c.plan.chunkCount := of_decide_eq_true hmore
      have hnext := next_eq h
      rw [if_pos hmore] at hnext
      have hpull : c.pullChecked.Gives (dataStart + shape.size * elemSize < wordLimit)
          (· = (some (c.plan.chunk c.odometer.pulled), c.pass)) := by
        refine .bind (gives_nextChecked hplan h) fun pulled hpulled => ?_
        rw [hpulled, hnext]
        exact .ok rfl
      refine .bind hpull fun pulled hpulled => ?_
      subst hpulled
      refine .bind (ih (c := c.pass) hplan h.pass) fun others hothers => .ok ⟨?_, ?_⟩
      · rw [List.range_succ_eq_map, List.map_cons, Nat.add_zero, Plan.getElem?_chunks_of_lt hlt,
          hothers.1, List.map_map]
        refine congrArg _ (List.map_congr_left fun i _ => ?_)
        show c.plan.chunks[c.odometer.pulled + 1 + i]? = _
        rw [Nat.add_assoc, Nat.add_comm 1]
        rfl
      · have hleft : c.pass.left + 1 = c.left := left_next (hnext)
        rw [hothers.2]
        omega

end PlanCursor

/-- A machine pulls the chunks of a plan in turn. -/
theorem Plan.handsOut_chunks (hplan : ofSelection shape elemSize selection dataStart = .ok p) :
    p.HandsOut p.chunks (dataStart + shape.size * elemSize < wordLimit) := by
  intro n
  refine (PlanCursor.gives_pullsChecked (c := ⟨p, 0⟩) hplan (PlanCursor.inStep_zero p) n).mono
    fun pulled hpulled => ⟨?_, ?_⟩
  · refine hpulled.1.trans (List.map_congr_left fun i _ => ?_)
    show p.chunks[0 + i]? = _
    rw [Nat.zero_add]
  · rw [hpulled.2, length_chunks]
    rfl

/-! ## §2 Chunks serve the selection -/

/-- Pulling from a plan serves a selection of an array in order, and then ends. -/
structure Plan.Serves (p : Plan) (shape : Shape) (selection : Selection)
    (elemSize dataStart : Nat) : Prop where
  /-- The chunks come one by one, if their positions have places in words, and then nothing. -/
  pulls : p.HandsOut p.chunks (dataStart + shape.size * elemSize < wordLimit)
  /-- There are as many chunks as announced. -/
  length : p.chunks.length = p.chunkCount
  /-- Chunk number `k` has the common length and comes behind those before it; its `i`-th element
  is the selected element number `dest + i`, next to its neighbours. -/
  chunk : ∀ k chunk, p.chunks[k]? = some chunk → ∃ pos, chunk.storedPos = some pos ∧
    chunk.elemSize = elemSize ∧ chunk.dest = k * p.perChunk ∧ chunk.count = p.perChunk ∧
    ∀ i < chunk.count, pos + i * elemSize =
      dataStart + selection.storageElem shape (chunk.dest + i) * elemSize
  /-- Together they hold as many elements as are selected. -/
  sum : (p.chunks.map (·.count)).sum = selection.size
  /-- An empty range along any dimension leaves nothing to pull. -/
  empty : (∃ r ∈ selection.ranges, r.count = 0) → p.chunks = []

theorem Plan.serves_of_ofSelection
    (hplan : ofSelection shape elemSize selection dataStart = .ok p) :
    p.Serves shape selection elemSize dataStart := by
  refine ⟨handsOut_chunks hplan, p.length_chunks, ?chunk, ?sum, ?empty⟩
  case chunk =>
    intro k chunk hchunk
    obtain ⟨hk, rfl⟩ := getElem?_chunks_eq_some hchunk
    refine ⟨p.bytePos k, rfl, elemSize_eq hplan, rfl, rfl, fun i hi => ?_⟩
    have helem : selection.storageElem shape (k * p.perChunk + i) = p.elemOf k + i :=
      storageElem_eq hplan hk hi
    calc p.bytePos k + i * elemSize
        = dataStart + (p.elemOf k + i) * elemSize := by
          rw [bytePos, elemSize_eq hplan, dataStart_eq hplan]
          ring
      _ = dataStart + selection.storageElem shape (k * p.perChunk + i) * elemSize := by
          rw [helem]
  case sum => rw [sum_count_chunks, chunkCount_mul_perChunk hplan]
  -- no element selected in a dimension leaves nothing to hand out
  case empty =>
    rintro ⟨r, hr, hzero⟩
    have hnone : selection.size = 0 := List.prod_eq_zero (List.mem_map.mpr ⟨r, hr, hzero⟩)
    have hcount : p.chunkCount = 0 := by
      obtain ⟨-, -, rfl⟩ := ofSelection_eq_ok_iff.mp hplan
      exact if_pos hnone
    rw [chunks, hcount]
    rfl

/-- **Plans walk their selection**: a machine plans a selection that fits its array, and pulls,
chunk by chunk and element by element, the selected elements in row-by-row order. It can only give
up where a number has no place in a word. -/
theorem Plan.pulls_serve_selection (shape : Shape) (selection : Selection)
    (elemSize dataStart : Nat) (hsize : 0 < elemSize) (hfits : selection.Fits shape) :
    (ofSelectionChecked shape elemSize selection dataStart).Gives
      (selection.HasRoom shape elemSize dataStart) fun made =>
        ∃ plan, made = .ok plan ∧ plan.Serves shape selection elemSize dataStart := by
  obtain ⟨p, hplan⟩ : ∃ p, ofSelection shape elemSize selection dataStart = .ok p :=
    ⟨_, ofSelection_eq_ok_iff.mpr ⟨hsize, hfits, rfl⟩⟩
  exact (gives_ofSelectionChecked hplan).mono fun made hmade =>
    ⟨p, hmade, serves_of_ofSelection hplan⟩

/-- Every second row of a block of columns, in a cube whose last dimension is whole. -/
theorem Plan.pulls_serve_selection_cube :
    (0 < 2 ∧ (⟨[⟨0, 2, 2⟩, ⟨1, 1, 2⟩, ⟨0, 1, 4⟩]⟩ : Selection).Fits ⟨[3, 4, 4]⟩) ∧
      ∃ plan, ofSelectionChecked ⟨[3, 4, 4]⟩ 2 ⟨[⟨0, 2, 2⟩, ⟨1, 1, 2⟩, ⟨0, 1, 4⟩]⟩ 7 =
          .ok (.ok plan) ∧
        plan.Serves ⟨[3, 4, 4]⟩ ⟨[⟨0, 2, 2⟩, ⟨1, 1, 2⟩, ⟨0, 1, 4⟩]⟩ 2 7 := by
  have hgives := pulls_serve_selection ⟨[3, 4, 4]⟩ ⟨[⟨0, 2, 2⟩, ⟨1, 1, 2⟩, ⟨0, 1, 4⟩]⟩ 2 7
    (by decide) (by decide)
  obtain ⟨made, hmade⟩ := hgives.total (by decide)
  obtain ⟨plan, rfl, hserves⟩ := hgives.sound made hmade
  exact ⟨by decide, plan, hmade, hserves⟩

/-- The second of two bytes, where the first is at the last position there is: it is planned, and
cannot be pulled. -/
theorem Plan.pull_behind_last_position :
    (0 < 1 ∧ (⟨[⟨1, 1, 1⟩]⟩ : Selection).Fits ⟨[2]⟩) ∧
      ∃ plan, ofSelectionChecked ⟨[2]⟩ 1 ⟨[⟨1, 1, 1⟩]⟩ (2 ^ 64 - 1) = .ok (.ok plan) ∧
        plan.chunkCount = 1 ∧ PlanCursor.pullsChecked ⟨plan, 0⟩ 1 = .error .overflow :=
  ⟨by decide, ⟨1, 2 ^ 64 - 1, 1, 1, [], 1⟩, by decide, by decide, by decide⟩

/-! ## §3 Chunks follow one another -/

/-- The chunks that are pulled from a plan come in order. -/
structure Plan.Follows (p : Plan) (shape : Shape) (selection : Selection)
    (elemSize dataStart : Nat) : Prop where
  /-- The chunks come one by one, if their positions have places in words, and then nothing. -/
  pulls : p.HandsOut p.chunks (dataStart + shape.size * elemSize < wordLimit)
  /-- No chunk starts before the end of the one before it. -/
  ordered : ∀ k a b, p.chunks[k]? = some a → p.chunks[k + 1]? = some b →
    ∃ posA posB, a.storedPos = some posA ∧ b.storedPos = some posB ∧ posA + a.byteCount ≤ posB
  /-- Every chunk has elements, and they are elements of the array. -/
  inside : ∀ chunk ∈ p.chunks, 0 < chunk.count ∧
    ∃ pos, chunk.storedPos = some pos ∧ dataStart ≤ pos ∧
      pos + chunk.byteCount ≤ dataStart + shape.size * elemSize
  /-- Together they fill the destination. -/
  tiles : Chunk.Tile 0 p.chunks (selection.size * elemSize)

theorem Plan.follows_of_ofSelection
    (hplan : ofSelection shape elemSize selection dataStart = .ok p) :
    p.Follows shape selection elemSize dataStart := by
  have hsize := elemSize_eq hplan
  have hstart := dataStart_eq hplan
  refine ⟨handsOut_chunks hplan, ?ordered, ?inside, ?tiles⟩
  case ordered =>
    intro k a b ha hb
    obtain ⟨-, rfl⟩ := getElem?_chunks_eq_some ha
    obtain ⟨hk, rfl⟩ := getElem?_chunks_eq_some hb
    refine ⟨_, _, storedPos_chunk p k, storedPos_chunk p (k + 1), ?_⟩
    rw [bytePos_add_byteCount]
    exact Nat.add_le_add_left (Nat.mul_le_mul_right _ (elemOf_add_perChunk_le hplan hk)) _
  case inside =>
    intro chunk hchunk
    obtain ⟨k, hk, rfl⟩ := List.mem_map.mp hchunk
    have hk := List.mem_range.mp hk
    refine ⟨perChunk_pos hplan (Nat.zero_lt_of_lt hk), _, storedPos_chunk p k, ?_, ?_⟩
    · rw [bytePos, hstart]
      exact Nat.le_add_right _ _
    · rw [bytePos_add_byteCount, hstart, hsize]
      exact Nat.add_le_add_left
        (Nat.mul_le_mul_right _ (elemOf_add_perChunk_le_size hplan hk)) _
  case tiles =>
    have htile := tile_chunks p 0 p.chunkCount
    rwa [Nat.zero_mul, Nat.zero_mul, Nat.zero_add, chunkCount_mul_perChunk hplan, hsize,
      ← List.range_eq_range'] at htile

/-- The last indices of all ranges have places in words, and so has what comes up with a selection
that stays inside. -/
structure Selection.CanBeChecked (s : Selection) (shape : Shape) (elemSize dataStart : Nat) :
    Prop where
  last : ∀ r ∈ s.ranges, ∀ last, r.last = some last → last < wordLimit
  room : s.StaysIn shape → s.HasRoom shape elemSize dataStart

/-- A machine tells whether a selection stays inside where the last indices have places in words. -/
theorem Plan.exists_ofSelectionChecked {selection : Selection}
    (h : selection.CanBeChecked shape elemSize dataStart) :
    ∃ made, ofSelectionChecked shape elemSize selection dataStart = .ok made := by
  -- a selection that is refused has its ranges checked, and nothing else reckoned
  cases hmade : ofSelection shape elemSize selection dataStart with
  | ok p =>
    have hfits := (ofSelection_eq_ok_iff.mp hmade).2.1
    exact (gives_ofSelectionChecked hmade).total (h.room (Selection.fits_iff_staysIn.mp hfits))
  | error fault =>
    refine ⟨_, Reckoning.run_of_all ?_⟩
    unfold reckonOfSelection
    split
    · exact Reckoning.all_pure _
    · rename_i hsize
      rw [Reckoning.all_bind, Selection.result_reckonFault?]
      refine ⟨Selection.all_reckonFault? shape fun r hr => ?_, ?_⟩
      · have hlast := h.last r hr
        unfold IndexRange.last at hlast
        unfold IndexRange.reckonLast
        split
        · exact Reckoning.all_pure _
        · rename_i hcount
          have hlt := hlast _ (if_neg hcount)
          simp only [Reckoning.all_bind, Reckoning.all_times, Reckoning.all_plus,
            Reckoning.result_times, Reckoning.all_pure, and_true]
          omega
      · -- the selection is refused, so nothing else comes up
        rw [ofSelection, if_neg hsize] at hmade
        cases hfault : selection.fault? shape with
        | some fault => exact Reckoning.all_pure _
        | none =>
          rw [hfault] at hmade
          cases hmade

/-- **Chunks follow one another**: a transfer is planned when elements have bytes and the
selection stays inside the array; and then the chunks lie one behind the other in that array,
and fill the destination from its first byte to its last. A machine can only give up where a
number has no place in a word. -/
theorem Plan.chunks_follow (shape : Shape) (selection : Selection) (elemSize dataStart : Nat) :
    (ofSelectionChecked shape elemSize selection dataStart).Gives
      (selection.CanBeChecked shape elemSize dataStart) fun made =>
        ((∃ p, made = .ok p) ↔ 0 < elemSize ∧ selection.StaysIn shape) ∧
        ∀ p, made = .ok p → p.Follows shape selection elemSize dataStart := by
  refine ⟨fun made hmade => ?_, exists_ofSelectionChecked⟩
  rw [← ofSelection_of_ofSelectionChecked hmade]
  refine ⟨?planned, fun p hplan => follows_of_ofSelection hplan⟩
  case planned =>
    simp only [ofSelection_eq_ok_iff, exists_and_left, exists_eq, and_true,
      Selection.fits_iff_staysIn]

/-- The first and the last of three bytes, where the first is at the last position there is: it is
pulled, and the other one cannot be. -/
theorem Plan.chunk_follows_behind_last_position :
    ∃ plan, ofSelectionChecked ⟨[3]⟩ 1 ⟨[⟨0, 2, 2⟩]⟩ (2 ^ 64 - 1) = .ok (.ok plan) ∧
      plan.chunkCount = 2 ∧
      (∃ cursor, PlanCursor.pullsChecked ⟨plan, 0⟩ 1 =
        .ok ([some ⟨.stored (2 ^ 64 - 1), 1, 0, 1⟩], cursor)) ∧
      PlanCursor.pullsChecked ⟨plan, 0⟩ 2 = .error .overflow :=
  ⟨⟨1, 2 ^ 64 - 1, 2, 1, [⟨2, 2⟩], 0⟩, by decide, by decide,
    ⟨⟨⟨1, 2 ^ 64 - 1, 2, 1, [⟨2, 2⟩], 0⟩, ⟨1, [1]⟩⟩, by decide⟩, by decide⟩

end Granule
