import Granule.Proofs.Grid.Gather

/-!
# Chunks Follow One Another in Storage

The selected elements come in storage order (`Selection.pairwise_elems`), and a
chunk holds neighbours. So the last element of a chunk lies before the first one
of the next chunk, whichever dimensions the odometer carries over in between,
and a driver that takes the chunks as they come only moves forward, both in the
storage stream and in its destination.

**Main statements**:
- `Selection.fits_iff_staysIn` : which selections are planned
- `Plan.elemOf_add_perChunk_le` : a chunk ends before the next one starts
- `Plan.elemOf_add_perChunk_le_size` : and inside the array
- `Plan.tile_chunks` : the chunks fill their destination, one behind the other
-/

namespace Granule

/-! ## §1 Selections that stay inside -/

/-- One range for each dimension of an array, where every range moves on and selects no index
outside. An empty range may start at the extent. -/
structure Selection.StaysIn (s : Selection) (shape : Shape) : Prop where
  rank_eq : s.rank = shape.rank
  stride_pos : ∀ r ∈ s.ranges, 0 < r.stride
  index_lt : ∀ (d : Nat) (r : IndexRange) (extent : Nat), s.ranges[d]? = some r →
    shape.extents[d]? = some extent → ∀ i < r.count, r.start + i * r.stride < extent
  start_le : ∀ (d : Nat) (r : IndexRange) (extent : Nat), s.ranges[d]? = some r →
    shape.extents[d]? = some extent → r.count = 0 → r.start ≤ extent

/-- The last index speaks for all of them. -/
theorem IndexRange.isWithin_iff {r : IndexRange} {extent : Nat} (hstride : 0 < r.stride) :
    r.isWithin extent = true ↔
      (∀ i < r.count, r.start + i * r.stride < extent) ∧ (r.count = 0 → r.start ≤ extent) := by
  constructor
  · intro hwithin
    refine ⟨fun i hi => Fits.index_lt ⟨hstride, hwithin⟩ hi, fun hzero => ?_⟩
    rw [isWithin, (last_eq_none_iff r).mpr hzero] at hwithin
    exact of_decide_eq_true hwithin
  · rintro ⟨hindex, hstart⟩
    unfold isWithin last
    split
    · rename_i last hlast
      split at hlast
      · cases hlast
      · cases hlast
        exact decide_eq_true (hindex (r.count - 1) (by omega))
    · rename_i hlast
      exact decide_eq_true (hstart ((last_eq_none_iff r).mp hlast))

/-- The selections that are not refused are those that stay inside. -/
theorem Selection.fits_iff_staysIn {s : Selection} {shape : Shape} :
    s.Fits shape ↔ s.StaysIn shape := by
  rw [fits_iff, List.forall₂_iff_get]
  constructor
  · rintro ⟨hrank, hranges⟩
    -- a dimension is named by its number on one side, and by its place in the lists on the other
    have hat : ∀ (d : Nat) (r : IndexRange) (extent : Nat), s.ranges[d]? = some r →
        shape.extents[d]? = some extent → r.Fits extent := by
      intro d r extent hr hextent
      obtain ⟨hd, rfl⟩ := List.getElem?_eq_some_iff.mp hr
      obtain ⟨hd', rfl⟩ := List.getElem?_eq_some_iff.mp hextent
      exact hranges d hd hd'
    refine ⟨hrank, ?stride, ?index, ?start⟩
    case stride =>
      intro r hr
      obtain ⟨d, hd, rfl⟩ := List.mem_iff_getElem.mp hr
      exact (hranges d hd (hrank ▸ hd)).stride_pos
    case index => exact fun d r extent hr hextent i hi => (hat d r extent hr hextent).index_lt hi
    case start =>
      intro d r extent hr hextent
      have hfits := hat d r extent hr hextent
      exact ((IndexRange.isWithin_iff hfits.stride_pos).mp hfits.within).2
  · intro h
    refine ⟨h.rank_eq, fun d hd hd' => ?_⟩
    have hr := List.getElem?_eq_getElem hd
    have hextent := List.getElem?_eq_getElem hd'
    have hstride := h.stride_pos _ (List.getElem_mem hd)
    exact ⟨hstride, (IndexRange.isWithin_iff hstride).mpr
      ⟨h.index_lt d _ _ hr hextent, h.start_le d _ _ hr hextent⟩⟩

/-! ## §2 One chunk and the next -/

namespace Plan

variable {shape : Shape} {selection : Selection} {elemSize dataStart : Nat} {p : Plan}

theorem getElem?_chunks_eq_some {k : Nat} {chunk : Chunk} (h : p.chunks[k]? = some chunk) :
    k < p.chunkCount ∧ chunk = p.chunk k := by
  rw [chunks, List.getElem?_map, Option.map_eq_some_iff] at h
  obtain ⟨j, hj, rfl⟩ := h
  obtain ⟨hlt, rfl⟩ := List.getElem?_eq_some_iff.mp hj
  rw [List.length_range] at hlt
  exact ⟨hlt, by rw [List.getElem_range]⟩

/-- Places inside the runs are steps of the walk. -/
theorem step_lt_size (hplan : ofSelection shape elemSize selection dataStart = .ok p) {k i : Nat}
    (hk : k < p.chunkCount) (hi : i < p.perChunk) : k * p.perChunk + i < selection.size :=
  calc k * p.perChunk + i
      < (k + 1) * p.perChunk := by rw [Nat.succ_mul]; exact Nat.add_lt_add_left hi _
    _ ≤ p.chunkCount * p.perChunk := Nat.mul_le_mul_right _ hk
    _ = selection.size := chunkCount_mul_perChunk hplan

theorem fits_of_ofSelection (hplan : ofSelection shape elemSize selection dataStart = .ok p) :
    selection.Fits shape :=
  (ofSelection_eq_ok_iff.mp hplan).2.1

/-- The first element of a run is the step after the last element of the run before it. -/
theorem exists_step (hplan : ofSelection shape elemSize selection dataStart = .ok p) {k : Nat}
    (hk : k + 1 < p.chunkCount) :
    ∃ j, j + 1 = (k + 1) * p.perChunk ∧ j + 1 < selection.size ∧
      Selection.walk shape.extents selection.ranges j + 1 = p.elemOf k + p.perChunk ∧
      Selection.walk shape.extents selection.ranges (j + 1) = p.elemOf (k + 1) := by
  have hpos := perChunk_pos hplan (Nat.zero_lt_of_lt hk)
  have hlast := walk_eq hplan (Nat.lt_of_succ_lt hk) (Nat.sub_lt hpos Nat.one_pos)
  have hfirst := walk_eq hplan hk hpos
  have hsize := step_lt_size hplan hk hpos
  have hnext : k * p.perChunk + (p.perChunk - 1) + 1 = (k + 1) * p.perChunk := by
    rw [Nat.succ_mul]
    omega
  rw [Nat.add_zero] at hfirst hsize
  refine ⟨k * p.perChunk + (p.perChunk - 1), hnext, hnext ▸ hsize, ?_, hnext ▸ hfirst⟩
  rw [hlast]
  omega

/-- A run ends before the next one starts. -/
theorem elemOf_add_perChunk_le (hplan : ofSelection shape elemSize selection dataStart = .ok p)
    {k : Nat} (hk : k + 1 < p.chunkCount) : p.elemOf k + p.perChunk ≤ p.elemOf (k + 1) := by
  obtain ⟨j, -, hj, hlast, hfirst⟩ := exists_step hplan hk
  rw [← hlast, ← hfirst]
  exact Selection.walk_lt_walk (Selection.fits_iff.mp (fits_of_ofSelection hplan))
    (Nat.lt_succ_self j) hj

/-- A run ends inside the array. -/
theorem elemOf_add_perChunk_le_size
    (hplan : ofSelection shape elemSize selection dataStart = .ok p) {k : Nat}
    (hk : k < p.chunkCount) : p.elemOf k + p.perChunk ≤ shape.size := by
  have hpos := perChunk_pos hplan (Nat.zero_lt_of_lt hk)
  have hinside : _ < shape.size :=
    Selection.walk_lt (Selection.fits_iff.mp (fits_of_ofSelection hplan))
      (step_lt_size hplan hk (Nat.sub_lt hpos Nat.one_pos))
  rw [walk_eq hplan hk (Nat.sub_lt hpos Nat.one_pos)] at hinside
  omega

/-- Where a chunk ends in the storage stream. -/
theorem bytePos_add_byteCount (p : Plan) (k : Nat) :
    p.bytePos k + (p.chunk k).byteCount =
      p.dataStart + (p.elemOf k + p.perChunk) * p.elemSize := by
  rw [bytePos, Nat.add_mul, Nat.add_assoc]
  rfl

end Plan

/-! ## §3 All chunks -/

/-- The destinations of the chunks are the bytes from `first` up to `stop`, one after the other,
without gap or overlap. -/
def Chunk.Tile : (first : Nat) → List Chunk → (stop : Nat) → Prop
  | first, [], stop => first = stop
  | first, chunk :: rest, stop =>
    chunk.destOffset = first ∧ Tile (first + chunk.byteCount) rest stop

namespace Plan

/-- Chunks of neighbouring numbers have neighbouring destinations. -/
theorem tile_chunks (p : Plan) (first count : Nat) :
    Chunk.Tile (first * p.perChunk * p.elemSize) ((List.range' first count).map p.chunk)
      ((first + count) * p.perChunk * p.elemSize) := by
  induction count generalizing first with
  | zero => rfl
  | succ n ih =>
    have hnext : first * p.perChunk * p.elemSize + (p.chunk first).byteCount =
        (first + 1) * p.perChunk * p.elemSize := by
      rw [Nat.succ_mul, Nat.add_mul]
      rfl
    rw [List.range'_succ, List.map_cons]
    refine ⟨rfl, ?_⟩
    rw [hnext, ← Nat.add_assoc, Nat.add_right_comm]
    exact ih (first + 1)

end Plan

end Granule
