import Granule.Proofs.Grid.Storage
import Granule.Proofs.Grid.Transfers
import Granule.Proofs.Source.Steady

/-!
# Scattering and Gathering

Scattering writes the runs of a plan, one after the other. A run is a row of
neighbouring elements, so the bytes that come of it are those of laying every
selected element into its own place (`Bytes.lay`). The places of different elements
do not meet, because the selected elements come in storage order; what an element
was given is therefore still there when all have been laid.

**Main statements**:
- `Plan.scatter_eq` : what scattering writes are the selected elements, in their places
- `Plan.gather_eq_ok_iff_readable` : a gather succeeds if the selected elements can all be read
- `Plan.scatter_gather` : on a machine, scattering and gathering are inverse, and touch nothing else
-/

namespace Granule

/-! ## §1 Elements laid into their places -/

namespace Bytes

variable {bs src : Bytes} {start elemSize : Nat}

theorem getElem?_between (bs : Bytes) (start stop i : Nat) :
    (bs.between start stop)[i]? = if i < stop - start then bs[start + i]? else none := by
  rw [between, List.getElem?_take, List.getElem?_drop]

/-- Lays elements into their places, one after the other. Places start at byte `start`, and `src`
has the bytes of the elements in their order. -/
def lay (start elemSize : Nat) : (bs : Bytes) → (elems : List Nat) → (src : Bytes) → Bytes
  | bs, [], _ => bs
  | bs, e :: rest, src =>
    lay start elemSize (Storage.overlay bs (start + e * elemSize) (src.take elemSize)) rest
      (src.drop elemSize)

theorem lay_append (bs : Bytes) (a b : List Nat) (src : Bytes) :
    lay start elemSize bs (a ++ b) src =
      lay start elemSize (lay start elemSize bs a src) b (src.drop (a.length * elemSize)) := by
  induction a generalizing bs src with
  | nil => rw [List.nil_append, List.length_nil, Nat.zero_mul, List.drop_zero, lay]
  | cons e rest ih =>
    rw [List.cons_append, lay, ih, lay, List.drop_drop, List.length_cons, Nat.succ_mul,
      Nat.add_comm elemSize]

/-- Laying elements takes nothing away. -/
theorem length_le_length_lay (start elemSize : Nat) (bs : Bytes) (elems : List Nat) (src : Bytes) :
    bs.length ≤ (lay start elemSize bs elems src).length := by
  induction elems generalizing bs src with
  | nil => exact le_rfl
  | cons e rest ih => exact (Storage.length_le_length_overlay _ _ _).trans (ih _ _)

/-- Bytes for `n + 1` elements are the bytes of the first one and those for the other `n`. -/
private theorem length_take_drop {n : Nat} (h : (n + 1) * elemSize ≤ src.length) :
    (src.take elemSize).length = elemSize ∧ n * elemSize ≤ (src.drop elemSize).length := by
  rw [Nat.succ_mul] at h
  rw [List.length_take, List.length_drop]
  omega

/-- Neighbouring elements are laid as one stretch. -/
theorem lay_range' (bs : Bytes) (first count : Nat) (hsrc : count * elemSize ≤ src.length) :
    lay start elemSize bs (List.range' first count) src =
      Storage.overlay bs (start + first * elemSize) (src.take (count * elemSize)) := by
  induction count generalizing bs src first with
  | zero => rw [Nat.zero_mul, List.take_zero, Storage.overlay_nil]; rfl
  | succ n ih =>
    obtain ⟨hlen, hrest⟩ := length_take_drop hsrc
    have hplace : start + (first + 1) * elemSize =
        start + first * elemSize + (src.take elemSize).length := by
      rw [hlen, Nat.succ_mul, Nat.add_assoc]
    rw [List.range'_succ, lay, ih _ _ hrest, hplace, ← Storage.overlay_append, Nat.succ_mul,
      Nat.add_comm _ elemSize, List.take_add]

variable {elems : List Nat}

/-- The bytes reach as far as before, and to the end of every element laid. -/
theorem length_lay_le_iff (hsize : 0 < elemSize) (hsrc : elems.length * elemSize ≤ src.length)
    {stop : Nat} :
    (lay start elemSize bs elems src).length ≤ stop ↔
      bs.length ≤ stop ∧ ∀ e ∈ elems, start + (e + 1) * elemSize ≤ stop := by
  induction elems generalizing bs src with
  | nil => simp [lay]
  | cons e rest ih =>
    obtain ⟨hlen, hrest⟩ := length_take_drop hsrc
    have hne : src.take elemSize ≠ [] := List.ne_nil_of_length_pos (by rw [hlen]; exact hsize)
    rw [lay, ih hrest, Storage.length_overlay _ _ hne, hlen, max_le_iff, List.forall_mem_cons,
      Nat.succ_mul, Nat.add_assoc, and_assoc]

/-- Every element that was laid is all there. -/
theorem le_length_lay (bs : Bytes) (start : Nat) (hsize : 0 < elemSize)
    (hsrc : elems.length * elemSize ≤ src.length) :
    ∀ e ∈ elems, start + (e + 1) * elemSize ≤ (lay start elemSize bs elems src).length :=
  ((length_lay_le_iff hsize hsrc).mp le_rfl).2

/-- Elements in storage order reach to the end of the last one. -/
theorem length_lay (hsize : 0 < elemSize) (hordered : elems.Pairwise (· < ·))
    (hsrc : elems.length * elemSize ≤ src.length) :
    (lay start elemSize bs elems src).length =
      elems.getLast?.elim bs.length fun last => max bs.length (start + (last + 1) * elemSize) := by
  cases hlast : elems.getLast? with
  | none =>
    rw [List.getLast?_eq_none_iff.mp hlast]
    rfl
  | some last =>
    obtain ⟨before, rfl⟩ := List.getLast?_eq_some_iff.mp hlast
    -- the elements climb, so none ends behind the last
    have hends : ∀ e ∈ before ++ [last],
        start + (e + 1) * elemSize ≤ start + (last + 1) * elemSize := by
      intro e he
      refine Nat.add_le_add_left (Nat.mul_le_mul_right _ (Nat.succ_le_succ ?_)) _
      rcases List.mem_append.mp he with he | he
      · exact ((List.pairwise_append.mp hordered).2.2 e he last (by simp)).le
      · exact (List.mem_singleton.mp he).le
    refine le_antisymm ((length_lay_le_iff hsize hsrc).mpr ⟨le_max_left _ _, fun e he => ?_⟩)
      (max_le (length_le_length_lay _ _ _ _ _) (le_length_lay bs start hsize hsrc last (by simp)))
    exact (hends e he).trans (le_max_right _ _)

/-- A byte outside the places of the elements is as it was. -/
theorem getD_lay_of_outside {pos : Nat}
    (h : ∀ e ∈ elems, ¬ (start + e * elemSize ≤ pos ∧ pos < start + (e + 1) * elemSize)) :
    (lay start elemSize bs elems src)[pos]?.getD 0 = bs[pos]?.getD 0 := by
  induction elems generalizing bs src with
  | nil => rfl
  | cons e rest ih =>
    obtain ⟨he, hrest⟩ := List.forall_mem_cons.mp h
    have hlen : (src.take elemSize).length ≤ elemSize := List.length_take_le _ _
    rw [Nat.succ_mul] at he
    rw [lay, ih hrest, Storage.getD_overlay, if_neg (by omega)]

/-- Bytes of elements in storage order are, in the end, those that were given for them. -/
theorem getD_lay (hordered : elems.Pairwise (· < ·)) (hsrc : elems.length * elemSize ≤ src.length)
    {i j : Nat} (hj : j < elems.length) (hi : i < elemSize) :
    (lay start elemSize bs elems src)[start + elems[j] * elemSize + i]?.getD 0 =
      src[j * elemSize + i]?.getD 0 := by
  induction elems generalizing bs src j with
  | nil => cases hj
  | cons e rest ih =>
    obtain ⟨hbehind, hordered⟩ := List.pairwise_cons.mp hordered
    obtain ⟨hlen, hrest⟩ := length_take_drop hsrc
    cases j with
    -- the later elements lie behind the first one
    | zero =>
      have houtside : ∀ e' ∈ rest, ¬ (start + e' * elemSize ≤ start + e * elemSize + i ∧
          start + e * elemSize + i < start + (e' + 1) * elemSize) := by
        intro e' he'
        have hle := Nat.mul_le_mul_right elemSize (Nat.succ_le_of_lt (hbehind e' he'))
        rw [Nat.succ_mul] at hle
        omega
      rw [lay, List.getElem_cons_zero, getD_lay_of_outside houtside, Storage.getD_overlay,
        if_pos (by omega), Nat.add_sub_cancel_left, List.getElem?_take_of_lt hi, Nat.zero_mul,
        Nat.zero_add]
    | succ j =>
      rw [lay, List.getElem_cons_succ, ih hordered hrest (Nat.lt_of_succ_lt_succ hj),
        List.getElem?_drop, ← Nat.add_assoc, Nat.succ_mul, Nat.add_comm elemSize]

theorem length_element {e : Nat} (h : start + (e + 1) * elemSize ≤ bs.length) :
    (Bytes.element (bs.drop start) elemSize e).length = elemSize := by
  rw [element, between_drop, length_between _ h, Nat.succ_mul]
  omega

theorem length_elements (h : ∀ e ∈ elems, start + (e + 1) * elemSize ≤ bs.length) :
    (Bytes.elements (bs.drop start) elemSize elems).length = elems.length * elemSize := by
  induction elems with
  | nil => rw [elements_nil, List.length_nil, List.length_nil, Nat.zero_mul]
  | cons e rest ih =>
    obtain ⟨he, hrest⟩ := List.forall_mem_cons.mp h
    rw [elements, List.flatMap_cons, ← elements, List.length_append, length_element he, ih hrest,
      List.length_cons, Nat.succ_mul, Nat.add_comm]

/-- Elements that have these bytes already are laid without a change. -/
theorem lay_elements (bs : Bytes) (start elemSize : Nat) (elems : List Nat)
    (hinside : ∀ e ∈ elems, start + (e + 1) * elemSize ≤ bs.length) :
    lay start elemSize bs elems (Bytes.elements (bs.drop start) elemSize elems) = bs := by
  induction elems with
  | nil => rfl
  | cons e rest ih =>
    obtain ⟨he, hrest⟩ := List.forall_mem_cons.mp hinside
    have hlen := length_element he
    rw [elements, List.flatMap_cons, ← elements, lay, List.take_left' hlen, List.drop_left' hlen,
      element, between_drop, Storage.overlay_of_hasAt (hasAt_between _ _ _), ih hrest]

end Bytes

namespace Plan

variable {shape : Shape} {selection : Selection} {elemSize dataStart : Nat} {p : Plan}

/-! ## §2 Scattering -/

/-- The bytes given for run `k` of a plan, and for all runs behind it. -/
def sourceFrom (p : Plan) (src : Bytes) (k : Nat) : Bytes := src.drop (k * p.perChunk * p.elemSize)

theorem length_sourceFrom {src : Bytes} {k : Nat}
    (hsrc : (k + 1) * p.perChunk * p.elemSize ≤ src.length) :
    (p.stretch k).elems.length * p.elemSize ≤ (p.sourceFrom src k).length := by
  rw [Nat.succ_mul, Nat.add_mul] at hsrc
  rw [sourceFrom, List.length_drop, Stretch.elems, List.length_range']
  exact Nat.le_sub_of_add_le' hsrc

/-- A run is written in one piece, and the piece overlays what laying its elements would. -/
theorem writeChunk_eq_write (p : Plan) (k : Nat) (storage : Storage) {src : Bytes}
    (hsrc : (k + 1) * p.perChunk * p.elemSize ≤ src.length) :
    ∃ part, writeChunk src storage (p.chunk k) =
        ((storage.write (p.bytePos k) part).1.map .io, (storage.write (p.bytePos k) part).2) ∧
      Storage.overlay storage.bytes (p.bytePos k) part =
        storage.bytes.lay p.dataStart p.elemSize (p.stretch k).elems (p.sourceFrom src k) := by
  refine ⟨(p.sourceFrom src k).take (p.perChunk * p.elemSize), ?write, ?overlay⟩
  case write =>
    have hpart : src.between (p.chunk k).destOffset ((p.chunk k).destOffset + (p.chunk k).byteCount) =
        (p.sourceFrom src k).take (p.perChunk * p.elemSize) := by
      rw [Bytes.between, Nat.add_sub_cancel_left]
      rfl
    simp only [writeChunk, storedPos_chunk, hpart]
    split
    case h_1 heq => rw [heq]; rfl
    case h_2 heq => rw [heq]; rfl
  case overlay =>
    have hrest := length_sourceFrom hsrc
    rw [Stretch.elems, List.length_range'] at hrest
    rw [Stretch.elems, Bytes.lay_range' _ _ _ hrest]
    rfl

/-- A run is written into storage that may grow by laying its elements. -/
theorem writeChunk_eq (p : Plan) (k : Nat) {storage : Storage} (hgrows : storage.grows)
    {src : Bytes} (hsrc : (k + 1) * p.perChunk * p.elemSize ≤ src.length) :
    writeChunk src storage (p.chunk k) =
      (none, { storage with
        bytes := storage.bytes.lay p.dataStart p.elemSize (p.stretch k).elems
          (p.sourceFrom src k) }) := by
  obtain ⟨part, hwrite, hoverlay⟩ := p.writeChunk_eq_write k storage hsrc
  rw [hwrite, Storage.write_of_grows hgrows, hoverlay]
  rfl

/-- The bytes after the elements still to come have been laid into their places. -/
def laidFrom (src : Bytes) (c : PlanCursor) (bs : Bytes) : Bytes :=
  bs.lay c.plan.dataStart c.plan.elemSize c.elems (c.plan.sourceFrom src c.odometer.pulled)

theorem laidFrom_of_elems_eq_nil {c : PlanCursor} (h : c.elems = []) (src bs : Bytes) :
    laidFrom src c bs = bs := by
  rw [laidFrom, h, Bytes.lay]

/-- The elements of the next run are laid first. -/
theorem laidFrom_of_elems {c : PlanCursor} (src bs : Bytes)
    (h : c.elems = (c.plan.stretch c.odometer.pulled).elems ++ c.pass.elems) :
    laidFrom src c bs =
      laidFrom src c.pass (bs.lay c.plan.dataStart c.plan.elemSize
        (c.plan.stretch c.odometer.pulled).elems (c.plan.sourceFrom src c.odometer.pulled)) := by
  have hbehind : c.odometer.pulled * c.plan.perChunk * c.plan.elemSize +
      (c.plan.stretch c.odometer.pulled).elems.length * c.plan.elemSize =
        c.pass.odometer.pulled * c.plan.perChunk * c.plan.elemSize := by
    rw [Stretch.elems, List.length_range', ← Nat.add_mul]
    exact congrArg (· * c.plan.elemSize) (Nat.succ_mul _ _).symm
  rw [laidFrom, h, Bytes.lay_append, sourceFrom, List.drop_drop, hbehind]
  rfl

/-- Scattering has come to the end, or goes on behind the next run unless that is refused. -/
theorem scatterFrom_cases {c : PlanCursor} (hstep : c.InStep) {src : Bytes}
    (hsrc : c.plan.chunkCount * c.plan.perChunk * c.plan.elemSize ≤ src.length)
    (storage : Storage) :
    (c.elems = [] ∧ scatterFrom src c storage = (none, storage)) ∨
      (c.pass.left < c.left ∧
        c.elems = (c.plan.stretch c.odometer.pulled).elems ++ c.pass.elems ∧
        (c.odometer.pulled + 1) * c.plan.perChunk * c.plan.elemSize ≤ src.length ∧
        scatterFrom src c storage =
          match writeChunk src storage (c.plan.chunk c.odometer.pulled) with
          | (none, written) => scatterFrom src c.pass written
          | (some e, written) => (some e, written)) := by
  rcases hstep.next_cases with ⟨hnext, hnone⟩ | ⟨hmore, hnext, helems⟩
  · exact .inl ⟨hnone, scatterFrom_of_none hnext⟩
  · have hrun : (c.odometer.pulled + 1) * c.plan.perChunk * c.plan.elemSize ≤ src.length :=
      le_trans (Nat.mul_le_mul_right _ (Nat.mul_le_mul_right _ hmore)) hsrc
    have hleft := PlanCursor.left_next hnext
    exact .inr ⟨Nat.lt_of_succ_le hleft.le, helems, hrun, scatterFrom_of_next hnext⟩

/-- The runs still to come are written into storage that may grow by laying their elements. -/
theorem scatterFrom_eq {src : Bytes} {c : PlanCursor} {storage : Storage} (hstep : c.InStep)
    (hgrows : storage.grows)
    (hsrc : c.plan.chunkCount * c.plan.perChunk * c.plan.elemSize ≤ src.length) :
    scatterFrom src c storage =
      (none, { storage with bytes := laidFrom src c storage.bytes }) := by
  rcases scatterFrom_cases hstep hsrc storage with ⟨hnone, hend⟩ | ⟨hleft, helems, hrun, hstart⟩
  · rw [hend, laidFrom_of_elems_eq_nil hnone]
  · rw [hstart, writeChunk_eq c.plan _ hgrows hrun, laidFrom_of_elems _ _ helems]
    exact scatterFrom_eq hstep.pass hgrows hsrc
termination_by c.left

/-- Scattering a whole plan lays the selected elements into their places. -/
theorem laidFrom_zero (hplan : ofSelection shape elemSize selection dataStart = .ok p)
    (src bs : Bytes) :
    laidFrom src ⟨p, 0⟩ bs = bs.lay dataStart elemSize (selection.elems shape) src := by
  have hstart : p.sourceFrom src (0 : Odometer).pulled = src := by
    rw [sourceFrom, show (0 : Odometer).pulled = 0 from rfl, Nat.zero_mul, Nat.zero_mul,
      List.drop_zero]
  rw [laidFrom, PlanCursor.elems_zero, elems_eq hplan, dataStart_eq hplan, elemSize_eq hplan,
    hstart]

/-- Bytes of the right number are scattered run by run. -/
theorem scatter_eq_scatterFrom (hplan : ofSelection shape elemSize selection dataStart = .ok p)
    (storage : Storage) {src : Bytes} (hsrc : src.length = selection.size * elemSize) :
    p.scatter storage src = scatterFrom src ⟨p, 0⟩ storage ∧
      p.chunkCount * p.perChunk * p.elemSize ≤ src.length := by
  rw [scatter, if_pos (hsrc.trans (totalBytes_eq hplan).symm), chunkCount_mul_perChunk hplan,
    elemSize_eq hplan, hsrc]
  exact ⟨rfl, le_rfl⟩

/-- Scattering bytes of the right number lays the selected elements into their places. -/
theorem scatter_eq (hplan : ofSelection shape elemSize selection dataStart = .ok p)
    {storage : Storage} (hgrows : storage.grows) {src : Bytes}
    (hsrc : src.length = selection.size * elemSize) :
    p.scatter storage src =
      (none, { storage with
        bytes := storage.bytes.lay dataStart elemSize (selection.elems shape) src }) := by
  obtain ⟨hscatter, henough⟩ := scatter_eq_scatterFrom hplan storage hsrc
  rw [hscatter, scatterFrom_eq (PlanCursor.inStep_zero p) hgrows henough, laidFrom_zero hplan]

/-! ## §3 Gathering -/

/-- What was collected was fetched, part by part. -/
theorem fetched_of_collect {fetch : (pos count : Nat) → Except IoError Bytes} {bytes : Bytes}
    (h : p.collect fetch = .ok bytes) {k : Nat} (hk : k < p.chunkCount) :
    ∃ part, fetch (p.bytePos k) (p.perChunk * p.elemSize) = .ok part := by
  -- a list of reads answers only if each of them does
  have hparts : ∀ (numbers : List Nat) (parts : List Bytes),
      numbers.mapM (fun k => fetch (p.bytePos k) (p.perChunk * p.elemSize)) = .ok parts →
        ∀ k ∈ numbers, ∃ part, fetch (p.bytePos k) (p.perChunk * p.elemSize) = .ok part := by
    intro numbers
    induction numbers with
    | nil => exact fun _ _ _ hk => nomatch hk
    | cons j rest ih =>
      intro parts hparts k hk
      rw [List.mapM_cons] at hparts
      cases hj : fetch (p.bytePos j) (p.perChunk * p.elemSize) with
      | error e => rw [hj] at hparts; cases hparts
      | ok part =>
        rw [hj] at hparts
        rcases List.mem_cons.mp hk with rfl | hk
        · exact ⟨part, hj⟩
        · cases hrest : rest.mapM fun k => fetch (p.bytePos k) (p.perChunk * p.elemSize) with
          | error e => simp only [hrest] at hparts; cases hparts
          | ok others => exact ih others hrest k hk
  rw [collect_eq] at h
  split at h
  · cases h
  · rename_i parts hmap
    exact hparts _ parts hmap k (List.mem_range.mpr hk)

/-- An exact read of a run that can be read gives the bytes of its elements. -/
theorem readExact_run {source : Source} {k : Nat}
    (hinside : p.bytePos k + p.perChunk * p.elemSize ≤ source.readableEnd) :
    source.readExact (p.bytePos k) (p.perChunk * p.elemSize) =
      .ok (Bytes.elements (source.bytes.drop p.dataStart) p.elemSize (p.stretch k).elems) := by
  rw [Source.readExact_eq_readable, if_pos (.inr hinside), Stretch.elems, Bytes.elements_range',
    Bytes.between_drop, bytePos, stretch, Nat.add_mul, Nat.add_assoc]

/-- A gather gives the bytes of the selected elements, if they can all be read. -/
theorem gather_eq_ok_iff_readable
    (hplan : ofSelection shape elemSize selection dataStart = .ok p) {source : Source}
    {bytes : Bytes} :
    p.gather source = .ok bytes ↔
      (∀ e ∈ selection.elems shape, dataStart + (e + 1) * elemSize ≤ source.readableEnd) ∧
        bytes = Bytes.elements (source.bytes.drop dataStart) elemSize (selection.elems shape) := by
  rw [elems_inside_iff hplan, ← elems_eq hplan, elems, Bytes.elements, List.flatMap_assoc]
  -- where every chunk can be read, the chunks are the elements in order
  have hwhole : (∀ k < p.chunkCount,
      p.bytePos k + p.perChunk * p.elemSize ≤ source.readableEnd) →
        p.gather source = .ok ((List.range p.chunkCount).flatMap fun k =>
          Bytes.elements (source.bytes.drop dataStart) elemSize (p.stretch k).elems) := by
    intro hall
    rw [← dataStart_eq hplan, ← elemSize_eq hplan]
    exact collect_eq_ok fun k hk => readExact_run (hall k hk)
  constructor
  · intro hgather
    have hall : ∀ k < p.chunkCount,
        p.bytePos k + p.perChunk * p.elemSize ≤ source.readableEnd := by
      intro k hk
      obtain ⟨part, hpart⟩ := fetched_of_collect hgather hk
      exact (Source.facts_of_readExact hpart).1.resolve_left (byteCount_pos hplan hk).ne'
    refine ⟨hall, ?_⟩
    have hbytes := hgather.symm.trans (hwhole hall)
    cases hbytes
    rfl
  · rintro ⟨hall, rfl⟩
    exact hwhole hall

/-- From a source that never fails, all bytes can be read. -/
theorem gather_eq_ok_iff (hplan : ofSelection shape elemSize selection dataStart = .ok p)
    {source : Source} (hsteady : source.NeverFails) {bytes : Bytes} :
    p.gather source = .ok bytes ↔
      (∀ e ∈ selection.elems shape, dataStart + (e + 1) * elemSize ≤ source.bytes.length) ∧
        bytes = Bytes.elements (source.bytes.drop dataStart) elemSize (selection.elems shape) := by
  rw [gather_eq_ok_iff_readable hplan, hsteady.readable.1, Source.length_bytes]

end Plan

/-! ## §4 There and back -/

/-- The bytes after the selected elements of an array were laid into their places. -/
structure Selection.Stored (selection : Selection) (shape : Shape) (elemSize dataStart : Nat)
    (old src written : Bytes) : Prop where
  /-- A byte of a selected element is the one that was given for it. -/
  selected : ∀ j < selection.size, ∀ i < elemSize,
    written[dataStart + selection.storageElem shape j * elemSize + i]? = src[j * elemSize + i]?
  /-- Any other byte is as it was, or zero where there was none. -/
  others : ∀ pos < written.length,
    (∀ j < selection.size, ∀ i < elemSize,
      pos ≠ dataStart + selection.storageElem shape j * elemSize + i) →
    written[pos]? = some (old[pos]?.getD 0)
  /-- The bytes reach as far as before, or else to the end of the last selected element. -/
  length_eq : written.length = (selection.elems shape).getLast?.elim old.length
    fun last => max old.length (dataStart + (last + 1) * elemSize)

namespace Selection

variable {selection : Selection} {shape : Shape} {elemSize dataStart : Nat}

theorem length_elems (selection : Selection) (shape : Shape) :
    (selection.elems shape).length = selection.size := by
  rw [elems, List.length_map, List.length_range]

theorem getElem_elems {j : Nat} (hj : j < (selection.elems shape).length) :
    (selection.elems shape)[j] = selection.storageElem shape j := by
  simp only [elems, List.getElem_map, List.getElem_range]

/-- Laying the selected elements into their places stores them, and nothing else. -/
theorem stored_lay (dataStart : Nat) (hsize : 0 < elemSize) (hfits : selection.Fits shape)
    (old : Bytes) {src : Bytes} (hsrc : src.length = selection.size * elemSize) :
    selection.Stored shape elemSize dataStart old src
      (old.lay dataStart elemSize (selection.elems shape) src) := by
  have hordered := pairwise_elems hfits
  have henough : (selection.elems shape).length * elemSize ≤ src.length := by
    rw [length_elems, hsrc]
  have hreach := Bytes.le_length_lay old dataStart hsize henough
  refine ⟨?selected, ?others, Bytes.length_lay hsize hordered henough⟩
  case selected =>
    intro j hj i hi
    have hj' : j < (selection.elems shape).length := by rwa [length_elems]
    have hthere := hreach _ (List.getElem_mem hj')
    have hgiven : (j + 1) * elemSize ≤ src.length := hsrc ▸ Nat.mul_le_mul_right _ hj
    have hbyte : (old.lay dataStart elemSize (selection.elems shape) src)[
        dataStart + selection.storageElem shape j * elemSize + i]?.getD 0 =
          src[j * elemSize + i]?.getD 0 := by
      rw [← getElem_elems hj']
      exact Bytes.getD_lay hordered henough hj' hi
    rw [getElem_elems hj', Nat.succ_mul] at hthere
    rw [Nat.succ_mul] at hgiven
    rw [List.getElem?_eq_getElem (by omega), List.getElem?_eq_getElem (by omega)] at hbyte ⊢
    exact congrArg some hbyte
  case others =>
    intro pos hpos houtside
    have hbyte : (old.lay dataStart elemSize (selection.elems shape) src)[pos]?.getD 0 =
        old[pos]?.getD 0 := by
      refine Bytes.getD_lay_of_outside ?_
      rintro e he ⟨hfirst, hstop⟩
      obtain ⟨j, hj, rfl⟩ := List.mem_map.mp he
      rw [Nat.succ_mul] at hstop
      exact houtside j (List.mem_range.mp hj)
        (pos - (dataStart + selection.storageElem shape j * elemSize)) (by omega) (by omega)
    rw [← hbyte, List.getElem?_eq_getElem hpos]
    rfl

/-- Stored elements are the bytes that were given for them. -/
theorem Stored.elements_eq {old src written : Bytes}
    (h : selection.Stored shape elemSize dataStart old src written)
    (hsrc : src.length = selection.size * elemSize) :
    Bytes.elements (written.drop dataStart) elemSize (selection.elems shape) = src := by
  have helement : ∀ j ∈ List.range selection.size,
      Bytes.element (written.drop dataStart) elemSize (selection.storageElem shape j) =
        src.element elemSize j := by
    intro j hj
    refine List.ext_getElem? fun i => ?_
    rw [Bytes.element, Bytes.between_drop, Bytes.element, Bytes.getElem?_between,
      Bytes.getElem?_between, Nat.add_sub_add_left, Nat.succ_mul, Nat.succ_mul,
      Nat.add_sub_cancel_left, Nat.add_sub_cancel_left]
    split
    case isTrue hi => exact h.selected j (List.mem_range.mp hj) i hi
    case isFalse => rfl
  rw [elems, Bytes.elements, List.flatMap_map, List.flatMap_congr helement, ← Bytes.elements,
    List.range_eq_range', Bytes.elements_range', Nat.zero_mul, Nat.zero_add, ← hsrc, Bytes.between,
    List.drop_zero, Nat.sub_zero, List.take_length]

end Selection

/-- **Scattering and gathering are inverse**: bytes of the right number are stored in the selected
elements and nowhere else, and gathered again from there; what was gathered is scattered without a
change; and bytes of any other number are refused before anything is written. A machine can only
give up where a number has no place in a word, or a buffer would be too large. -/
theorem Plan.scatter_gather (shape : Shape) (selection : Selection) (elemSize dataStart : Nat)
    (hsize : 0 < elemSize) (hfits : selection.Fits shape) :
    (makeChecked shape elemSize selection dataStart).Gives
      (selection.HasRoom shape elemSize dataStart) fun made => ∃ plan, made = .ok plan ∧
        let positions := dataStart + shape.size * elemSize < wordLimit
        let bytes := selection.size * elemSize
        (∀ storage src, storage.grows → src.length = bytes → ∃ written,
          (plan.scatterChecked storage src).Gives positions
            (· = (none, { storage with bytes := written })) ∧
          selection.Stored shape elemSize dataStart storage.bytes src written ∧
          ∀ source, source.NeverFails → source.bytes = written →
            (plan.gatherChecked source).Gives (positions ∧ bytes < bufferLimit) (· = .ok src)) ∧
        (∀ storage source gathered, storage.grows → source.NeverFails →
          source.bytes = storage.bytes → plan.gatherChecked source = .ok (.ok gathered) →
          (plan.scatterChecked storage gathered).Gives positions (· = (none, storage))) ∧
        ∀ storage src, src.length ≠ bytes →
          (plan.scatterChecked storage src).Gives (bytes < wordLimit)
            (· = (some (.invalid (.sourceLength src.length bytes)), storage)) := by
  obtain ⟨plan, hplan⟩ : ∃ plan, Plan.ofSelection shape elemSize selection dataStart = .ok plan :=
    ⟨_, Plan.ofSelection_eq_ok_iff.mpr ⟨hsize, hfits, rfl⟩⟩
  refine (gives_makeChecked hplan).mono fun made hmade => ⟨plan, hmade, ?_⟩
  intro positions bytes
  refine ⟨?store, ?restore, fun storage src hsrc => gives_scatterChecked_of_length hplan _ hsrc⟩
  case store =>
    intro storage src hgrows hsrc
    have hstored := Selection.stored_lay dataStart hsize hfits storage.bytes hsrc
    have hscatter := gives_scatterChecked hplan storage src
    rw [scatter_eq hplan hgrows hsrc] at hscatter
    refine ⟨_, hscatter, hstored, fun source hsteady hbytes => ?_⟩
    -- what was laid there is what the same plan finds
    have hgather : plan.gather source = .ok src := by
      rw [gather_eq_ok_iff hplan hsteady, hbytes]
      refine ⟨?_, (hstored.elements_eq hsrc).symm⟩
      have henough : (selection.elems shape).length * elemSize ≤ src.length := by
        rw [Selection.length_elems, hsrc]
      exact Bytes.le_length_lay _ _ hsize henough
    exact hgather ▸ gives_gatherChecked hplan source
  case restore =>
    intro storage source gathered hgrows hsteady hbytes hgather
    have hgathered := (gives_gatherChecked hplan source).sound _ hgather
    obtain ⟨hinside, rfl⟩ := (gather_eq_ok_iff hplan hsteady).mp hgathered.symm
    have hlen := Bytes.length_elements hinside
    rw [Selection.length_elems] at hlen
    have hscatter := gives_scatterChecked hplan storage
      (Bytes.elements (source.bytes.drop dataStart) elemSize (selection.elems shape))
    rw [hbytes] at hinside hlen hscatter ⊢
    -- to lay the elements that are there already changes nothing
    rwa [scatter_eq hplan hgrows hlen, Bytes.lay_elements _ _ _ _ hinside] at hscatter

/-- The last two columns of a small array go behind a header of one byte into storage that is too
short for them, and come back from there. -/
theorem Plan.scatter_gather_columns :
    (0 < 2 ∧ (⟨[⟨0, 1, 2⟩, ⟨1, 1, 2⟩]⟩ : Selection).Fits ⟨[2, 3]⟩) ∧
      ∃ plan, makeChecked ⟨[2, 3]⟩ 2 ⟨[⟨0, 1, 2⟩, ⟨1, 1, 2⟩]⟩ 1 = .ok (.ok plan) ∧
        (∃ written, plan.scatterChecked ⟨[7, 7, 7, 7], true⟩ [1, 2, 3, 4, 5, 6, 7, 8] =
            .ok (none, ⟨written, true⟩) ∧
          (⟨[⟨0, 1, 2⟩, ⟨1, 1, 2⟩]⟩ : Selection).Stored ⟨[2, 3]⟩ 2 1 [7, 7, 7, 7]
            [1, 2, 3, 4, 5, 6, 7, 8] written ∧
          plan.gatherChecked (.ofBytes written) = .ok (.ok [1, 2, 3, 4, 5, 6, 7, 8]) ∧
          plan.scatterChecked ⟨written, true⟩ [1, 2, 3, 4, 5, 6, 7, 8] =
            .ok (none, ⟨written, true⟩)) ∧
        plan.scatterChecked ⟨[7, 7, 7, 7], true⟩ [1, 2] =
          .ok (some (.invalid (.sourceLength 2 8)), ⟨[7, 7, 7, 7], true⟩) := by
  have hgives := scatter_gather ⟨[2, 3]⟩ ⟨[⟨0, 1, 2⟩, ⟨1, 1, 2⟩]⟩ 2 1 (by decide) (by decide)
  obtain ⟨made, hmade⟩ := hgives.total (by decide)
  obtain ⟨plan, rfl, hstore, hrestore, hrefuse⟩ := hgives.sound made hmade
  obtain ⟨written, hscatter, hstored, hgather⟩ := hstore ⟨[7, 7, 7, 7], true⟩
    [1, 2, 3, 4, 5, 6, 7, 8] rfl rfl
  have hback := (hgather (.ofBytes written) (Source.neverFails_ofBytes written)
    (Source.bytes_ofBytes written)).eq_ok (by decide)
  have hagain := (hrestore ⟨written, true⟩ (.ofBytes written) _ rfl
    (Source.neverFails_ofBytes written) (Source.bytes_ofBytes written) hback).eq_ok (by decide)
  exact ⟨by decide, plan, hmade, ⟨written, hscatter.eq_ok (by decide), hstored, hback, hagain⟩,
    (hrefuse ⟨[7, 7, 7, 7], true⟩ [1, 2] (by decide)).eq_ok (by decide)⟩

/-- One byte is not written behind the last position there is. -/
theorem Plan.scatter_behind_last_position :
    (0 < 1 ∧ (⟨[⟨1, 1, 1⟩]⟩ : Selection).Fits ⟨[2]⟩) ∧
      ∃ plan, makeChecked ⟨[2]⟩ 1 ⟨[⟨1, 1, 1⟩]⟩ (2 ^ 64 - 1) = .ok (.ok plan) ∧
        plan.totalBytes = 1 ∧ plan.scatterChecked ⟨[], true⟩ [7] = .error .overflow :=
  ⟨by decide, ⟨1, 2 ^ 64 - 1, 1, 1, [], 1⟩, by decide, by decide,
    scatterChecked_of_error (by decide) (by decide) (by decide)⟩

end Granule
