import Granule.Proofs.Grid.Pulls

/-!
# Chunks That Meet in Storage

Fusion looks at one dimension at a time: an innermost range of stride two is
repeated, and so is every range outside it. A row of such a range can still end
at the last index while the next row begins at the first one, and then the last
chunk of the one row and the first chunk of the other are neighbours in storage,
though they are transferred one by one.

That is the only way in which two chunks can meet. The walk over a selection
reaches the very next storage element exactly when the outermost index that
moves on goes to its neighbour, and every index further in goes from the last
one of its dimension back to the first (`Selection.RunsOn`).

**Main statements**:
- `Selection.walk_succ_eq_iff` : which steps of the walk reach the next storage element
- `Plan.chunks_may_meet` : neighbouring chunks are not always apart
- `Plan.chunks_meet_iff` : which of them meet
-/

namespace Granule

/-! ## §1 Steps to the next storage element -/

/-- A range that leads from the first index of its dimension to the last one, whatever it leaves
out in between. -/
structure IndexRange.Spans (r : IndexRange) (extent : Nat) : Prop where
  start_eq : r.start = 0
  last_eq : r.start + (r.count - 1) * r.stride + 1 = extent

namespace Selection

/-- At step `j` the outermost index that moves on goes to its neighbour, and the ranges further
in, which all start over, lead from the first index of their dimension to the last one. -/
def RunsOn : (extents : List Nat) → (ranges : List IndexRange) → (j : Nat) → Prop
  | _ :: inner, r :: rs, j =>
    let within := (rs.map (·.count)).prod
    if j % within = 0 then r.stride = 1 ∧ List.Forall₂ IndexRange.Spans rs inner
    else RunsOn inner rs (j % within)
  | _, _, _ => False

section Walk

variable {ranges : List IndexRange} {extents : List Nat}

/-- The last number of two digits has the last one at both places. -/
private theorem last_digits_iff {a b n u : Nat} (ha : a < b) (hu : u < n) :
    a * n + u + 1 = b * n ↔ a + 1 = b ∧ u + 1 = n := by
  constructor
  · intro h
    obtain ⟨k, rfl⟩ := Nat.exists_eq_add_of_lt ha
    rw [Nat.succ_mul, Nat.add_mul] at h
    have hnone : k * n = 0 := by omega
    have hk : k = 0 := (Nat.mul_eq_zero.mp hnone).resolve_right (by omega)
    subst hk
    exact ⟨rfl, by omega⟩
  · rintro ⟨rfl, hn⟩
    rw [Nat.succ_mul]
    omega

/-- The step before a multiple of `n` is the last one of its block. -/
private theorem pred_of_mod_eq_zero {j n : Nat} (hn : 0 < n) (h : (j + 1) % n = 0) :
    (j + 1) / n = j / n + 1 ∧ j % n = n - 1 := by
  have hdiv := Nat.succ_div_of_dvd (Nat.dvd_of_mod_eq_zero h)
  have hj := Nat.div_add_mod j n
  have hnext := Nat.div_add_mod (j + 1) n
  rw [hdiv, h, Nat.mul_succ] at hnext
  have hlt := Nat.mod_lt j hn
  exact ⟨hdiv, by omega⟩

/-- Any other step stays in the block of the step before. -/
private theorem pred_of_mod_ne_zero {j n : Nat} (h : (j + 1) % n ≠ 0) :
    (j + 1) / n = j / n ∧ (j + 1) % n = j % n + 1 := by
  have hdiv := Nat.succ_div_of_not_dvd fun hdvd => h (Nat.mod_eq_zero_of_dvd hdvd)
  have hj := Nat.div_add_mod j n
  have hnext := Nat.div_add_mod (j + 1) n
  rw [hdiv] at hnext
  exact ⟨hdiv, by omega⟩

/-- A walk leads from the first storage element to the last one when all its ranges do so. -/
theorem walk_spans_iff (h : List.Forall₂ IndexRange.Fits ranges extents)
    (hpos : 0 < (ranges.map (·.count)).prod) :
    (walk extents ranges 0 = 0 ∧
        walk extents ranges ((ranges.map (·.count)).prod - 1) + 1 = extents.prod) ↔
      List.Forall₂ IndexRange.Spans ranges extents := by
  induction h with
  | nil => simp [walk]
  | @cons r e rs es hr hrest ih =>
    rw [List.map_cons, List.prod_cons] at hpos ⊢
    rw [List.forall₂_cons, walk, walk, List.prod_cons]
    set within := (rs.map (·.count)).prod
    have hwithin : 0 < within := Nat.pos_of_mul_pos_left hpos
    have hcount : 0 < r.count := Nat.pos_of_mul_pos_right hpos
    -- the last step stands at the last index of this dimension, and is the last one further in
    have hlast : r.count * within - 1 + 1 = r.count * within := Nat.sub_add_cancel hpos
    obtain ⟨hdiv, hmod⟩ := pred_of_mod_eq_zero hwithin
      (show (r.count * within - 1 + 1) % within = 0 by rw [hlast, Nat.mul_mod_left])
    rw [hlast, Nat.mul_div_cancel _ hwithin] at hdiv
    have hindex := hr.index_lt (Nat.sub_lt hcount Nat.one_pos)
    have hinner := walk_lt hrest (Nat.sub_lt hwithin Nat.one_pos)
    rw [hmod, Nat.zero_div, Nat.zero_mod, Nat.zero_mul, Nat.add_zero,
      show (r.count * within - 1) / within = r.count - 1 by omega,
      last_digits_iff hindex hinner, Nat.add_eq_zero_iff, Nat.mul_eq_zero,
      or_iff_left (Nat.ne_of_gt (Nat.zero_lt_of_lt hinner)), ← ih hwithin]
    constructor
    · rintro ⟨⟨hstart, hfirst⟩, hend, hlast⟩
      exact ⟨⟨hstart, hend⟩, hfirst, hlast⟩
    · rintro ⟨hspans, hfirst, hlast⟩
      exact ⟨⟨hspans.start_eq, hfirst⟩, hspans.last_eq, hlast⟩

/-- Which steps of a walk reach the very next storage element. -/
theorem walk_succ_eq_iff (h : List.Forall₂ IndexRange.Fits ranges extents) {j : Nat}
    (hj : j + 1 < (ranges.map (·.count)).prod) :
    walk extents ranges (j + 1) = walk extents ranges j + 1 ↔ RunsOn extents ranges (j + 1) := by
  induction h generalizing j with
  | nil =>
    rw [List.map_nil, List.prod_nil] at hj
    omega
  | @cons r e rs es hr hrest ih =>
    rw [List.map_cons, List.prod_cons, Nat.mul_comm] at hj
    rw [walk, walk, RunsOn]
    set within := (rs.map (·.count)).prod
    have hpos : 0 < within := Nat.pos_of_mul_pos_right (Nat.zero_lt_of_lt hj)
    by_cases hturn : (j + 1) % within = 0
    · -- this index moves on, and the walk further in goes back from its last element to its first
      obtain ⟨hdiv, hmod⟩ := pred_of_mod_eq_zero hpos hturn
      have hinner : walk es rs (within - 1) < es.prod :=
        walk_lt hrest (Nat.sub_lt hpos Nat.one_pos)
      have hstride := Nat.mul_le_mul_right es.prod hr.stride_pos
      have hspans : (walk es rs 0 = 0 ∧ walk es rs (within - 1) + 1 = es.prod) ↔
          List.Forall₂ IndexRange.Spans rs es := walk_spans_iff hrest hpos
      rw [if_pos hturn, hturn, hdiv, hmod, ← hspans, Nat.succ_mul, ← Nat.add_assoc,
        Nat.add_mul _ r.stride]
      constructor
      · intro hnext
        have hsame : r.stride * es.prod = 1 * es.prod := by omega
        exact ⟨Nat.eq_of_mul_eq_mul_right (Nat.zero_lt_of_lt hinner) hsame, by omega, by omega⟩
      · rintro ⟨hone, hfirst, hlast⟩
        rw [hone, Nat.one_mul]
        omega
    · -- this index stays, so the walk further in decides
      obtain ⟨hdiv, hmod⟩ := pred_of_mod_ne_zero hturn
      have hlt := Nat.mod_lt (j + 1) hpos
      rw [hmod] at hlt
      rw [if_neg hturn, hdiv, hmod, ← ih hlt, Nat.add_assoc, Nat.add_left_cancel_iff]

end Walk

end Selection

/-! ## §2 Chunks that meet -/

namespace Plan

/-- Chunks that are pulled from a plan **may meet**: two rows of every second column, in an array of
three, where the second chunk ends as the third one starts. -/
theorem chunks_may_meet :
    ¬ ∀ (shape : Shape) (selection : Selection) (elemSize dataStart : Nat) (p : Plan),
        ofSelectionChecked shape elemSize selection dataStart = .ok (.ok p) →
        ∀ (n : Nat) (pulled : List (Option Chunk) × PlanCursor),
          PlanCursor.pullsChecked ⟨p, 0⟩ n = .ok pulled →
          ∀ (k : Nat) (a b : Chunk) (posA posB : Nat),
            pulled.1[k]? = some (some a) → pulled.1[k + 1]? = some (some b) →
            a.storedPos = some posA → b.storedPos = some posB → posA + a.byteCount < posB := by
  intro h
  have hmade : ofSelectionChecked ⟨[2, 3]⟩ 1 ⟨[⟨0, 1, 2⟩, ⟨0, 2, 2⟩]⟩ 0 =
      .ok (.ok ⟨1, 0, 4, 1, [⟨2, 3⟩, ⟨2, 2⟩], 0⟩) := by decide
  have hpulled : PlanCursor.pullsChecked ⟨⟨1, 0, 4, 1, [⟨2, 3⟩, ⟨2, 2⟩], 0⟩, 0⟩ 3 =
      .ok ([some ⟨.stored 0, 1, 0, 1⟩, some ⟨.stored 2, 1, 1, 1⟩, some ⟨.stored 3, 1, 2, 1⟩],
        ⟨⟨1, 0, 4, 1, [⟨2, 3⟩, ⟨2, 2⟩], 0⟩, ⟨3, [1, 1]⟩⟩) := by decide
  have hless := h _ _ _ _ _ hmade 3 _ hpulled 1 _ _ 2 3 rfl rfl rfl rfl
  exact absurd hless (by decide)

variable {shape : Shape} {selection : Selection} {elemSize dataStart : Nat} {p : Plan}

/-- The end of a run is the start of the next one when the walk runs on there. -/
theorem elemOf_add_perChunk_eq_iff
    (hplan : ofSelection shape elemSize selection dataStart = .ok p) {k : Nat}
    (hk : k + 1 < p.chunkCount) :
    p.elemOf k + p.perChunk = p.elemOf (k + 1) ↔
      Selection.RunsOn shape.extents selection.ranges ((k + 1) * p.perChunk) := by
  obtain ⟨j, hstep, hj, hlast, hfirst⟩ := exists_step hplan hk
  rw [← hstep, ← hlast, ← hfirst,
    ← Selection.walk_succ_eq_iff (Selection.fits_iff.mp (fits_of_ofSelection hplan)) hj]
  exact eq_comm

/-- Of the chunks of a plan, none starts before the end of the one before it, and one starts right
there exactly when the walk runs on to its first element. -/
theorem meets_iff (hplan : ofSelection shape elemSize selection dataStart = .ok p)
    {k : Nat} {a b : Chunk} (ha : p.chunks[k]? = some a) (hb : p.chunks[k + 1]? = some b) :
    ∃ posA posB, a.storedPos = some posA ∧ b.storedPos = some posB ∧
      posA + a.byteCount ≤ posB ∧
      (posA + a.byteCount = posB ↔
        Selection.RunsOn shape.extents selection.ranges b.dest) := by
  obtain ⟨-, rfl⟩ := getElem?_chunks_eq_some ha
  obtain ⟨hk, rfl⟩ := getElem?_chunks_eq_some hb
  have hpos : 0 < p.elemSize := elemSize_eq hplan ▸ (ofSelection_eq_ok_iff.mp hplan).1
  refine ⟨_, _, storedPos_chunk p k, storedPos_chunk p (k + 1), ?_, ?_⟩ <;>
    rw [bytePos_add_byteCount, bytePos]
  · exact Nat.add_le_add_left (Nat.mul_le_mul_right _ (elemOf_add_perChunk_le hplan hk)) _
  · rw [Nat.add_left_cancel_iff, Nat.mul_left_inj (Nat.ne_of_gt hpos)]
    exact elemOf_add_perChunk_eq_iff hplan hk

/-- **Which chunks meet**: of the chunks that a machine pulls, none starts before the end of the one
before it, and one starts right there exactly when, at its first element, the outermost index that
moves on goes to its neighbour and all ranges further in lead from the first index of their
dimension to the last. A machine can only give up where a number has no place in a word. -/
theorem chunks_meet_iff (shape : Shape) (selection : Selection) (elemSize dataStart : Nat)
    (hsize : 0 < elemSize) (hfits : selection.Fits shape) :
    (ofSelectionChecked shape elemSize selection dataStart).Gives
      (selection.HasRoom shape elemSize dataStart) fun made =>
        ∃ p, made = .ok p ∧
          p.HandsOut p.chunks (dataStart + shape.size * elemSize < wordLimit) ∧
          ∀ k a b, p.chunks[k]? = some a → p.chunks[k + 1]? = some b →
            ∃ posA posB, a.storedPos = some posA ∧ b.storedPos = some posB ∧
              posA + a.byteCount ≤ posB ∧
              (posA + a.byteCount = posB ↔
                Selection.RunsOn shape.extents selection.ranges b.dest) := by
  obtain ⟨p, hplan⟩ : ∃ p, ofSelection shape elemSize selection dataStart = .ok p :=
    ⟨_, ofSelection_eq_ok_iff.mpr ⟨hsize, hfits, rfl⟩⟩
  exact (gives_ofSelectionChecked hplan).mono fun made hmade =>
    ⟨p, hmade, handsOut_chunks hplan, fun k a b ha hb => meets_iff hplan ha hb⟩

/-- Of the rows of three where every second column is selected, the last element of one and the
first of the next. -/
theorem chunks_meet_iff_rows :
    (0 < 1 ∧ (⟨[⟨0, 1, 2⟩, ⟨0, 2, 2⟩]⟩ : Selection).Fits ⟨[2, 3]⟩) ∧
      ∃ p a b, ofSelectionChecked ⟨[2, 3]⟩ 1 ⟨[⟨0, 1, 2⟩, ⟨0, 2, 2⟩]⟩ 0 = .ok (.ok p) ∧
        (∃ cursor, PlanCursor.pullsChecked ⟨p, 0⟩ 3 =
          .ok ([p.chunks[0]?, some a, some b], cursor)) ∧
        ∃ posA posB, a.storedPos = some posA ∧ b.storedPos = some posB ∧
          posA + a.byteCount ≤ posB ∧
          (posA + a.byteCount = posB ↔
            Selection.RunsOn [2, 3] [⟨0, 1, 2⟩, ⟨0, 2, 2⟩] b.dest) := by
  have hgives := chunks_meet_iff ⟨[2, 3]⟩ ⟨[⟨0, 1, 2⟩, ⟨0, 2, 2⟩]⟩ 1 0 (by decide) (by decide)
  have hmade : ofSelectionChecked ⟨[2, 3]⟩ 1 ⟨[⟨0, 1, 2⟩, ⟨0, 2, 2⟩]⟩ 0 =
      .ok (.ok ⟨1, 0, 4, 1, [⟨2, 3⟩, ⟨2, 2⟩], 0⟩) := by decide
  obtain ⟨p, hp, hpulls, hmeets⟩ := hgives.sound _ hmade
  cases hp
  obtain ⟨pulled, hpulled⟩ := (hpulls 3).total (by decide)
  have hanswers := ((hpulls 3).sound pulled hpulled).1
  refine ⟨by decide, _, ⟨.stored 2, 1, 1, 1⟩, ⟨.stored 3, 1, 2, 1⟩, hmade, ⟨pulled.2, ?_⟩,
    hmeets 1 _ _ rfl rfl⟩
  rw [hpulled, ← Prod.eta pulled, hanswers]
  rfl

end Plan

end Granule
