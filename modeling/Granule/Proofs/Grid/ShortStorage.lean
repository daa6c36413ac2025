import Mathlib.Order.Bounds.Basic
import Granule.Proofs.Grid.Scatter
import Granule.Proofs.Grid.Sequence

/-!
# Gathering from Storage That Is Too Short

A source that never fails and its bytes in memory are gathered alike, and they are
too short for the same plans: the selected elements come in storage order, so the
last of them tells whether all of them are there. A source that refuses reads from
an offset on must have every chunk before that offset as well.

**Main statements**:
- `Selection.endsBy_iff` : the last selected element speaks for all of them
- `Plan.collect_eq_error` : collecting fails as the first part that cannot be fetched
- `Plan.gather_agrees_with_copy` : a source is gathered as its bytes are copied
-/

namespace Granule

/-! ## §1 The last selected element -/

namespace Selection

/-- The last selected element, if there is one, ends at or before an offset. -/
def EndsBy (s : Selection) (shape : Shape) (elemSize dataStart stop : Nat) : Prop :=
  s.size = 0 ∨ dataStart + (s.storageElem shape (s.size - 1) + 1) * elemSize ≤ stop

instance (s : Selection) (shape : Shape) (elemSize dataStart stop : Nat) :
    Decidable (s.EndsBy shape elemSize dataStart stop) :=
  inferInstanceAs (Decidable (_ ∨ _))

variable {s : Selection} {shape : Shape} {elemSize dataStart stop : Nat}

/-- No selected element comes behind the last one. -/
theorem storageElem_le_last (h : s.Fits shape) {j : Nat} (hj : j < s.size) :
    s.storageElem shape j ≤ s.storageElem shape (s.size - 1) := by
  rcases (Nat.le_sub_one_of_lt hj).eq_or_lt with rfl | hlt
  · exact le_rfl
  · rw [← elemAt_eq_storageElem, ← elemAt_eq_storageElem]
    exact (walk_lt_walk (fits_iff.mp h) hlt (Nat.sub_one_lt_of_lt hj)).le

/-- The last selected element speaks for all of them. -/
theorem endsBy_iff (h : s.Fits shape) :
    s.EndsBy shape elemSize dataStart stop ↔
      ∀ e ∈ s.elems shape, dataStart + (e + 1) * elemSize ≤ stop := by
  constructor
  · rintro hends e he
    obtain ⟨j, hj, rfl⟩ := List.mem_map.mp he
    have hj := List.mem_range.mp hj
    have hlast := hends.resolve_left (Nat.ne_zero_of_lt hj)
    exact le_trans (Nat.add_le_add_left
      (Nat.mul_le_mul_right _ (Nat.succ_le_succ (storageElem_le_last h hj))) _) hlast
  · intro hall
    by_cases hnone : s.size = 0
    · exact .inl hnone
    · exact .inr (hall _ (List.mem_map_of_mem (List.mem_range.mpr (by omega))))

end Selection

namespace Plan

/-! ## §2 The first part that is missing -/

private theorem mapM_eq_error {f : Nat → Except IoError Bytes} {before after : List Nat} {k : Nat}
    {e : IoError} (hbefore : ∀ j ∈ before, ∃ part, f j = .ok part) (hk : f k = .error e) :
    (before ++ k :: after).mapM f = .error e := by
  induction before with
  | nil =>
    rw [List.nil_append, List.mapM_cons, hk]
    rfl
  | cons j rest ih =>
    obtain ⟨⟨part, hj⟩, hrest⟩ := List.forall_mem_cons.mp hbefore
    rw [List.cons_append, List.mapM_cons, hj, ih hrest]
    rfl

/-- Collecting fails as the first part that cannot be fetched. -/
theorem collect_eq_error {p : Plan} {fetch : (pos count : Nat) → Except IoError Bytes} {k : Nat}
    {e : IoError} (hk : k < p.chunkCount)
    (hbefore : ∀ j < k, ∃ part, fetch (p.bytePos j) (p.perChunk * p.elemSize) = .ok part)
    (hfails : fetch (p.bytePos k) (p.perChunk * p.elemSize) = .error e) :
    p.collect fetch = .error (.io e) := by
  have hsplit : List.range p.chunkCount =
      List.range k ++ k :: List.range' (k + 1) (p.chunkCount - (k + 1)) := by
    have hjoin := List.range'_append_1 (s := 0) (m := k) (n := p.chunkCount - (k + 1) + 1)
    have hcount : k + (p.chunkCount - (k + 1) + 1) = p.chunkCount := by omega
    rw [Nat.zero_add, hcount, List.range'_succ] at hjoin
    rw [List.range_eq_range', List.range_eq_range', hjoin]
  rw [collect_eq, hsplit, mapM_eq_error (fun j hj => hbefore j (List.mem_range.mp hj)) hfails]

/-- The chunks of a plan that end behind an offset, by their numbers. -/
def endingBehind (p : Plan) (stop : Nat) : Set Nat :=
  {k | k < p.chunkCount ∧ stop < p.bytePos k + (p.chunk k).byteCount}

/-- Unless every chunk ends by an offset, there is a first one that does not. -/
theorem exists_isLeast_endingBehind {p : Plan} {stop : Nat}
    (h : ¬ ∀ k < p.chunkCount, p.bytePos k + p.perChunk * p.elemSize ≤ stop) :
    ∃ k, IsLeast (p.endingBehind stop) k := by
  have hsome : ∃ k, k < p.chunkCount ∧ stop < p.bytePos k + p.perChunk * p.elemSize := by
    simpa only [not_forall, exists_prop, Nat.not_le] using h
  exact ⟨Nat.find hsome, Nat.find_spec hsome, fun _ hk => Nat.find_min' hsome hk⟩

variable {shape : Shape} {selection : Selection} {elemSize dataStart : Nat} {p : Plan}

/-- Chunks before the first one that ends behind an offset end by it. -/
theorem end_le_of_isLeast {stop k : Nat} (h : IsLeast (p.endingBehind stop) k) {j : Nat}
    (hj : j < k) : p.bytePos j + p.perChunk * p.elemSize ≤ stop := by
  refine Nat.le_of_not_lt fun hlt => ?_
  exact Nat.not_le.mpr hj (h.2 ⟨hj.trans h.1.1, hlt⟩)

/-! ## §3 Sources and their bytes -/

/-- A source that never fails but ends inside a chunk is gathered up to there. -/
theorem gather_eq_error (hplan : ofSelection shape elemSize selection dataStart = .ok p)
    {source : Source} (hsteady : source.NeverFails) {k : Nat}
    (hk : IsLeast (p.endingBehind source.size) k) :
    p.gather source = .error (.io .endOfData) := by
  obtain ⟨hlt, hpast⟩ := hk.1
  refine collect_eq_error hlt (fun j hj => ⟨_, readExact_run ?_⟩) ?_
  · rw [hsteady.readable.1]
    exact end_le_of_isLeast hk hj
  · have hbytes := byteCount_pos hplan hlt
    have hnot : ¬ (p.perChunk * p.elemSize = 0 ∨
        p.bytePos k + p.perChunk * p.elemSize ≤ source.bytes.length) := by
      rw [Source.length_bytes]
      exact not_or.mpr ⟨hbytes.ne', Nat.not_le.mpr hpast⟩
    rw [Source.readExact_eq hsteady, if_neg hnot]

/-- A copy out of memory that ends inside a chunk names the first such chunk. -/
theorem copy_eq_error {storage : Bytes} {k : Nat}
    (hk : IsLeast (p.endingBehind storage.length) k) :
    p.copy storage = .error (.io (.pastStorage (p.bytePos k) storage.length)) := by
  have hpast : storage.length < p.bytePos k + p.perChunk * p.elemSize := hk.1.2
  refine collect_eq_error hk.1.1 (fun j hj => ?_) ?_
  · exact ⟨_, by rw [Bytes.slice?_of_le (end_le_of_isLeast hk hj)]⟩
  · rw [Bytes.slice?_of_lt hpast]

/-- The chunks of a plan end by an offset when their numbers say so. -/
theorem chunks_end_by_iff {stop : Nat} :
    (∀ chunk ∈ p.chunks, ∃ pos, chunk.storedPos = some pos ∧ pos + chunk.byteCount ≤ stop) ↔
      ∀ k < p.chunkCount, p.bytePos k + p.perChunk * p.elemSize ≤ stop := by
  rw [chunks, List.forall_mem_map]
  simp only [List.mem_range, storedPos_chunk, Option.some.injEq, exists_eq_left']
  rfl

end Plan

/-- **A source is gathered as its bytes are copied**, however it splits its reads. If it never
fails, both give the bytes of the selected elements when the last of these ends inside the storage,
and both come to the end of the data when it does not. A source that refuses reads from an offset
on is gathered when, in addition, every chunk ends by that offset. A machine can only give up where
a number has no place in a word, or a buffer would be too large. -/
theorem Plan.gather_agrees_with_copy (shape : Shape) (selection : Selection)
    (elemSize dataStart : Nat) (hsize : 0 < elemSize) (hfits : selection.Fits shape) :
    (makeChecked shape elemSize selection dataStart).Gives
      (selection.HasRoom shape elemSize dataStart) fun made => ∃ plan, made = .ok plan ∧
        let wide := dataStart + shape.size * elemSize < wordLimit ∧
          selection.size * elemSize < bufferLimit
        ∀ source : Source,
          let inside := selection.EndsBy shape elemSize dataStart source.size
          let selected :=
            Bytes.elements (source.bytes.drop dataStart) elemSize (selection.elems shape)
          (source.NeverFails →
            (inside → (plan.gatherChecked source).Gives wide (· = .ok selected) ∧
              (plan.copyChecked source.bytes).Gives wide (· = .ok selected)) ∧
            (¬ inside → (plan.gatherChecked source).Gives wide (· = .error (.io .endOfData)) ∧
              ∃ k, IsLeast (plan.endingBehind source.size) k ∧
                (plan.copyChecked source.bytes).Gives wide
                  (· = .error (.io (.pastStorage (plan.bytePos k) source.size))))) ∧
          ∀ f, source.failsFrom = some f → (plan.gatherChecked source).Gives wide fun gathered =>
            ∀ bytes, gathered = .ok bytes ↔ inside ∧ bytes = selected ∧
              ∀ chunk ∈ plan.chunks, ∃ pos, chunk.storedPos = some pos ∧
                pos + chunk.byteCount ≤ f := by
  obtain ⟨plan, hplan⟩ : ∃ plan, Plan.ofSelection shape elemSize selection dataStart = .ok plan :=
    ⟨_, Plan.ofSelection_eq_ok_iff.mpr ⟨hsize, hfits, rfl⟩⟩
  refine (gives_makeChecked hplan).mono fun made hmade => ⟨plan, hmade, ?_⟩
  intro wide source inside selected
  have hgather := gives_gatherChecked hplan source
  have hcopy := gives_copyChecked hplan source.bytes
  -- the last element decides for all of them, since they come in storage order
  have hinside : inside ↔
      ∀ e ∈ selection.elems shape, dataStart + (e + 1) * elemSize ≤ source.size :=
    Selection.endsBy_iff hfits
  refine ⟨fun hsteady => ⟨fun hends => ⟨?gather, ?copy⟩, fun hnot => ?short⟩, ?fails⟩
  case gather =>
    have hall : plan.gather source = .ok selected := by
      rw [gather_eq_ok_iff hplan hsteady, Source.length_bytes]
      exact ⟨hinside.mp hends, rfl⟩
    rwa [hall] at hgather
  case copy =>
    have hall : plan.copy source.bytes = .ok selected := by
      refine copy_eq_elements hplan ?_
      rw [Source.length_bytes]
      exact hinside.mp hends
    rwa [hall] at hcopy
  case short =>
    -- both stop at the first chunk that does not lie inside
    rw [hinside, elems_inside_iff hplan] at hnot
    obtain ⟨k, hk⟩ := exists_isLeast_endingBehind hnot
    rw [gather_eq_error hplan hsteady hk] at hgather
    have hk' := hk
    rw [← Source.length_bytes] at hk'
    rw [copy_eq_error hk', Source.length_bytes] at hcopy
    exact ⟨hgather, k, hk, hcopy⟩
  case fails =>
    intro f hf
    refine hgather.mono fun gathered hgathered bytes => ?_
    have hend : source.readableEnd = min f source.size := by
      rw [Source.readableEnd, hf]
    rw [hgathered, gather_eq_ok_iff_readable hplan, chunks_end_by_iff, ← elems_inside_iff hplan,
      hinside, hend]
    simp only [le_min_iff, forall_and]
    tauto

/-- The last two columns of a small array behind a header of one byte, from a source that hands over
one byte at a time: whole, without its last byte, and refusing to read that byte. -/
theorem Plan.gather_agrees_with_copy_columns :
    (0 < 2 ∧ (⟨[⟨0, 1, 2⟩, ⟨1, 1, 2⟩]⟩ : Selection).Fits ⟨[2, 3]⟩) ∧
      ∃ plan, makeChecked ⟨[2, 3]⟩ 2 ⟨[⟨0, 1, 2⟩, ⟨1, 1, 2⟩]⟩ 1 = .ok (.ok plan) ∧
        plan.gatherChecked ⟨#[0, 1, 2, 3, 4, 5, 6, 7, 8, 9, 10, 11, 12], none, .endOfData,
          fun _ => 0, fun _ => 1⟩ = .ok (.ok [3, 4, 5, 6, 9, 10, 11, 12]) ∧
        plan.copyChecked [0, 1, 2, 3, 4, 5, 6, 7, 8, 9, 10, 11, 12] =
          .ok (.ok [3, 4, 5, 6, 9, 10, 11, 12]) ∧
        plan.gatherChecked (.ofBytes [0, 1, 2, 3, 4, 5, 6, 7, 8, 9, 10, 11]) =
          .ok (.error (.io .endOfData)) ∧
        (∃ pos, plan.copyChecked [0, 1, 2, 3, 4, 5, 6, 7, 8, 9, 10, 11] =
          .ok (.error (.io (.pastStorage pos 12)))) ∧
        ¬ ∃ bytes, plan.gatherChecked { data := #[0, 1, 2, 3, 4, 5, 6, 7, 8, 9, 10, 11, 12]
                                        failsFrom := some 12 } = .ok (.ok bytes) := by
  have hgives := gather_agrees_with_copy ⟨[2, 3]⟩ ⟨[⟨0, 1, 2⟩, ⟨1, 1, 2⟩]⟩ 2 1
    (by decide) (by decide)
  have hmade : Plan.makeChecked ⟨[2, 3]⟩ 2 ⟨[⟨0, 1, 2⟩, ⟨1, 1, 2⟩]⟩ 1 =
      .ok (.ok ⟨2, 1, 4, 2, [⟨2, 3⟩], 1⟩) := by decide
  obtain ⟨plan, hplan, hsources⟩ := hgives.sound _ hmade
  cases hplan
  obtain ⟨hgather, hcopy⟩ := ((hsources ⟨#[0, 1, 2, 3, 4, 5, 6, 7, 8, 9, 10, 11, 12], none,
    .endOfData, fun _ => 0, fun _ => 1⟩).1 rfl).1 (by decide)
  obtain ⟨hshort, k, -, hpast⟩ := ((hsources (.ofBytes [0, 1, 2, 3, 4, 5, 6, 7, 8, 9, 10, 11])).1
    (Source.neverFails_ofBytes _)).2 (by decide)
  refine ⟨by decide, _, hmade, hgather.eq_ok (by decide), hcopy.eq_ok (by decide),
    hshort.eq_ok (by decide), ⟨_, hpast.eq_ok (by decide)⟩, ?_⟩
  rintro ⟨bytes, hbytes⟩
  obtain ⟨-, -, hchunks⟩ := (((hsources _).2 12 rfl).sound _ hbytes bytes).mp rfl
  exact absurd hchunks (by decide)

/-- Behind the last position there is, a byte is neither gathered from a source of one byte nor
copied out of one, and the data do not come to an end either. -/
theorem Plan.gather_behind_last_position :
    (0 < 1 ∧ (⟨[⟨1, 1, 1⟩]⟩ : Selection).Fits ⟨[2]⟩) ∧
      ∃ plan, makeChecked ⟨[2]⟩ 1 ⟨[⟨1, 1, 1⟩]⟩ (2 ^ 64 - 1) = .ok (.ok plan) ∧
        ¬ (⟨[⟨1, 1, 1⟩]⟩ : Selection).EndsBy ⟨[2]⟩ 1 (2 ^ 64 - 1) 1 ∧
        plan.gatherChecked (.ofBytes [0]) = .error .overflow ∧
        plan.copyChecked [0] = .error .overflow :=
  ⟨by decide, ⟨1, 2 ^ 64 - 1, 1, 1, [], 1⟩, by decide, by decide,
    fillChecked_of_error (by decide) (by decide), fillChecked_of_error (by decide) (by decide)⟩

end Granule
