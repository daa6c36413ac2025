import Granule.Proofs.Grid.Queue

/-!
# Reading Numbers from Chunks

A run of elements is split where a segment ends, and each part of it is handed
out as a chunk of its own. A split falls between two elements, so no number lies
across it: the numbers that are read from the chunks, one chunk after the other,
are those that are read from the bytes of the whole run.

Where the segments hold the bytes of a storage, these are the numbers of the
selected elements of the storage, wherever the segments begin and end. A machine that
hands out a chunk has counted the bytes of its segment, so it also comes to the view
of the chunk.

**Main statements**:
- `ElementView.numbers_append` : numbers are read from two parts as from both in one
- `Assembly.Underway.typedRun` : chunk by chunk the same numbers are read as from the whole run
- `Assembly.typed_reads_commute` : so it is from any supplier that does not end the run
-/

namespace Granule

open Checked

/-! ## §1 Numbers in parts -/

theorem NumberType.width_pos (type : NumberType) : 0 < type.width := by
  cases type <;> decide

def Bytes.numberOf (storage : Bytes) (type : NumberType) (order : ByteOrder) (elem : Nat) :
    Number :=
  type.ofBits (order.toNat (storage.element type.width elem))

namespace ElementView

variable {type : NumberType} {order : ByteOrder}

/-- Where bytes are split between two numbers, both parts are read on their own. -/
theorem numbers_append {m : Nat} {xs : Bytes} (h : xs.length = m * type.width) (n : Nat)
    (ys : Bytes) :
    numbers type order (m + n) (xs ++ ys) = numbers type order m xs ++ numbers type order n ys := by
  induction m generalizing xs with
  | zero =>
    rw [Nat.zero_mul] at h
    rw [List.eq_nil_of_length_eq_zero h, Nat.zero_add]
    rfl
  | succ m ih =>
    rw [Nat.succ_mul] at h
    have hfirst : type.width ≤ xs.length := by omega
    have hrest : (xs.drop type.width).length = m * type.width := by
      rw [List.length_drop]
      omega
    rw [Nat.succ_add, numbers, List.take_append_of_le_length hfirst,
      List.drop_append_of_le_length hfirst, ih hrest, numbers, List.cons_append]

/-- Elements of a storage are read one by one. -/
theorem numbers_elements (order : ByteOrder) {storage : Bytes} {elems : List Nat}
    (h : ∀ e ∈ elems, (e + 1) * type.width ≤ storage.length) :
    numbers type order elems.length (storage.elements type.width elems) =
      elems.map (storage.numberOf type order) := by
  induction elems with
  | nil => rfl
  | cons e elems ih =>
    obtain ⟨hfirst, hrest⟩ := List.forall_mem_cons.mp h
    have hlen : (storage.element type.width e).length = type.width := by
      rw [Bytes.element, Bytes.length_between _ hfirst, Nat.succ_mul, Nat.add_sub_cancel_left]
    have hsplit : storage.elements type.width (e :: elems) =
        storage.element type.width e ++ storage.elements type.width elems := List.flatMap_cons
    rw [hsplit, List.length_cons, numbers, List.take_left' hlen, List.drop_left' hlen, ih hrest]
    rfl

/-- Bytes that lie in a storage are read as its elements. -/
theorem numbers_of_hasAt (order : ByteOrder) {storage bytes : Bytes} {first n : Nat} (hn : 0 < n)
    (hlen : bytes.length = n * type.width) (h : storage.HasAt (first * type.width) bytes) :
    numbers type order n bytes = (List.range' first n).map (storage.numberOf type order) := by
  have hne : bytes ≠ [] := List.length_pos_iff.mp (hlen ▸ Nat.mul_pos hn type.width_pos)
  have hroom : (first + n) * type.width ≤ storage.length := by
    rw [Nat.add_mul, ← hlen]
    exact h.length_le hne
  have hinside : ∀ e ∈ List.range' first n, (e + 1) * type.width ≤ storage.length := by
    intro e he
    obtain ⟨-, hlt⟩ := List.mem_range'_1.mp he
    exact (Nat.mul_le_mul_right _ hlt).trans hroom
  have hbytes : storage.elements type.width (List.range' first n) = bytes := by
    rw [Bytes.elements_range', Nat.add_mul, ← hlen, h.between_eq]
  have hread := numbers_elements order hinside
  rwa [List.length_range', hbytes] at hread

theorem readAll_eq_ok {v : ElementView} {count : Nat} (hwidth : v.elemSize = type.width)
    (hlen : v.bytes.length = count * type.width) :
    v.readAll type order count = .ok (numbers type order count v.bytes) := by
  rw [readAll, if_neg (not_not.mpr hwidth), if_neg (not_not.mpr hlen)]

end ElementView

/-- A machine comes to a view of a chunk with as many elements as the chunk has, and they are read
as these values. -/
def Chunk.ReadsAs (type : NumberType) (order : ByteOrder) (c : Chunk) (values : List Number) :
    Prop :=
  ∃ v, c.viewChecked = .ok (some v) ∧ v.length = c.count ∧
    v.readAll type order c.count = .ok values

theorem Chunk.readsAs_of_view {type : NumberType} {order : ByteOrder} {c : Chunk} {bytes : Bytes}
    (hview : c.viewChecked = .ok (some ⟨bytes, type.width⟩)) (hlen : bytes.length = c.count * type.width) :
    c.ReadsAs type order (ElementView.numbers type order c.count bytes) := by
  refine ⟨_, hview, ?_, ElementView.readAll_eq_ok rfl hlen⟩
  rw [ElementView.length, if_neg type.width_pos.ne', hlen, Nat.mul_div_cancel _ type.width_pos]

/-! ## §2 Chunks of a storage -/

/-- The bytes of the elements of a segment lie in a storage, where these elements lie in it. -/
def Segment.PartOf (s : Segment) (elemSize : Nat) (storage : Bytes) : Prop :=
  storage.HasAt (s.first * elemSize) (s.data.take (s.count * elemSize))

instance (s : Segment) (elemSize : Nat) (storage : Bytes) : Decidable (s.PartOf elemSize storage) :=
  inferInstanceAs
    (Decidable (storage.HasAt (s.first * elemSize) (s.data.take (s.count * elemSize))))

/-- What lies among the elements of a part lies in the storage, as far behind its first element. -/
theorem Segment.PartOf.hasAt {s : Segment} {elemSize : Nat} {storage bytes : Bytes}
    (h : s.PartOf elemSize storage) {elem n : Nat} (hlen : bytes.length = n * elemSize)
    (hne : bytes ≠ []) (hend : elem + n ≤ s.count) (hat : s.data.HasAt (elem * elemSize) bytes) :
    storage.HasAt ((s.first + elem) * elemSize) bytes := by
  have hfront : s.data.HasAt 0 (s.data.take (s.count * elemSize)) := List.take_prefix _ _
  have hin : elem * elemSize + bytes.length ≤ s.count * elemSize := by
    rw [hlen, ← Nat.add_mul]
    exact Nat.mul_le_mul_right _ hend
  have hinner : Bytes.HasAt (s.data.take (s.count * elemSize)) (elem * elemSize) bytes := by
    refine hfront.within (by rwa [Nat.zero_add]) ?_
    rw [List.length_take]
    exact Nat.le_min_of_le_of_le hin (hat.length_le hne)
  rw [Nat.add_mul]
  exact Bytes.HasAt.trans h hinner

namespace Assembly

/-- The elements that a chunk serves are neighbours in storage. -/
theorem Serves.elems_eq {selection : Selection} {shape : Shape} {elemSize : Nat} {s : Segment}
    {done : Nat} {c : Chunk} (h : Serves selection shape elemSize s done c) :
    ((selection.elems shape).drop done).take c.count =
      List.range' (selection.storageElem shape done) c.count := by
  have hinside := h.inside
  apply List.ext_getElem
  · rw [List.length_take, List.length_drop, Selection.length_elems, List.length_range']
    omega
  · intro i hi _
    rw [List.length_take] at hi
    rw [List.getElem_take, List.getElem_drop, Selection.getElem_elems, List.getElem_range',
      h.elems i (by omega), Nat.one_mul]

/-- A chunk of a segment that is part of a storage is read as the numbers of its elements there. -/
theorem Serves.values_eq {selection : Selection} {shape : Shape} {type : NumberType}
    {order : ByteOrder} {s : Segment} {done elem : Nat} {c : Chunk}
    (h : Serves selection shape type.width s done c) (hplace : c.place = .decoded s.data elem)
    (hend : elem + c.count ≤ s.count) {storage : Bytes} (hpart : s.PartOf type.width storage)
    {values : List Number} (hreads : c.ReadsAs type order values) :
    values = (((selection.elems shape).drop done).take c.count).map
      (storage.numberOf type order) := by
  obtain ⟨bytes, hlen, hview, hat⟩ := h.view_eq
  obtain ⟨v, hv, -, hvalues⟩ := hreads
  rw [Chunk.view_of_viewChecked hv] at hview
  -- the view and its bytes are the ones the chunk serves
  cases hview
  rw [ElementView.readAll_eq_ok rfl hlen] at hvalues
  cases hvalues
  have helem : elem = selection.storageElem shape done - s.first := by
    have hsame := hplace.symm.trans h.place_eq
    cases hsame
    rfl
  rw [← helem] at hat
  have hne : bytes ≠ [] := List.length_pos_iff.mp (hlen ▸ Nat.mul_pos h.count_pos type.width_pos)
  have hstart : s.first + elem = selection.storageElem shape done := by
    rw [helem]
    exact Nat.add_sub_cancel' h.held
  have hstored := hpart.hasAt hlen hne hend hat
  rw [hstart] at hstored
  rw [h.elems_eq]
  exact ElementView.numbers_of_hasAt order h.count_pos hlen hstored

/-! ## §3 Runs that no failure ends -/

section Run

variable [SegmentSupplier σ]

/-- A pull that gives nothing changes nothing. -/
theorem next_of_none {a : Assembly σ} (h : a.next.1 = none) : a.next = (none, a) := by
  unfold next at h ⊢
  split
  · rfl
  · rename_i hworking
    rw [if_neg hworking] at h
    split
    · rfl
    · rename_i run taken htake
      simp only [htake] at h
      split at h <;> cases h

/-- From the first pull that gives nothing on, the assembly stays as it is. -/
theorem after_min {a : Assembly σ} {last : Nat} (h : a.pulled last = none) (k : Nat) :
    a.after k = a.after (min k last) := by
  rcases Nat.le_total k last with hle | hle
  · rw [Nat.min_eq_left hle]
  · obtain ⟨more, rfl⟩ := Nat.exists_eq_add_of_le' hle
    have hstays : (a.after last).next.2 = a.after last := by rw [next_of_none h]
    rw [Nat.min_eq_right hle, after, Function.iterate_add_apply]
    exact Function.iterate_fixed hstays more

/-- An assembly hands out these chunks, one after the other, and then nothing more. -/
inductive HandsOut : Assembly σ → List Chunk → Prop
  | done {a : Assembly σ} (h : a.next.1 = none) : HandsOut a []
  | more {a after : Assembly σ} {c : Chunk} {chunks : List Chunk}
      (h : a.next = (some (.ok c), after)) (hrest : HandsOut after chunks) :
      HandsOut a (c :: chunks)

theorem HandsOut.pulled_eq {a : Assembly σ} {chunks : List Chunk} (h : a.HandsOut chunks) (k : Nat) :
    a.pulled k = chunks[k]?.map .ok := by
  induction h generalizing k with
  | @done a hnone =>
    have hfirst : a.pulled 0 = none := hnone
    rw [pulled, after_min hfirst, Nat.min_zero]
    exact hnone
  | @more a after c chunks hnext _ ih =>
    cases k with
    | zero =>
      show a.next.1 = _
      rw [hnext]
      rfl
    | succ k =>
      show a.next.2.pulled k = _
      rw [hnext, ih, List.getElem?_cons_succ]

variable {selection : Selection} {shape : Shape} {elemSize : Nat} {plan : Plan}

/-- A run that no failure ends hands out its chunks until nothing is left. -/
theorem Underway.exists_handsOut (hplan : Plan.ofSelection shape elemSize selection 0 = .ok plan)
    {done : Nat} {a : Assembly (Watched σ)} (h : Underway selection shape plan done a)
    (hclean : ∀ k e, a.pulled k ≠ some (.error e)) : ∃ chunks, a.HandsOut chunks := by
  have hpull := h.pull hplan
  rcases hnext : a.next with ⟨answer, after⟩
  rw [hnext] at hpull
  cases hpull with
  | finished => exact ⟨[], .done (congrArg Prod.fst hnext)⟩
  | stopped hfailed =>
    rw [h.working] at hfailed
    cases hfailed
  | @failed e =>
    have hfirst : a.pulled 0 = some (.error e) := congrArg Prod.fst hnext
    exact absurd hfirst (hclean 0 e)
  | chunk hafter =>
    have hcleanAfter : ∀ k e, after.pulled k ≠ some (.error e) := by
      intro k e
      have hlater := hclean (k + 1) e
      rwa [show a.pulled (k + 1) = a.next.2.pulled k from rfl, hnext] at hlater
    obtain ⟨chunks, hchunks⟩ := hafter.exists_handsOut hplan hcleanAfter
    exact ⟨_, .more hnext hchunks⟩
termination_by a.work
decreasing_by exact left_next hnext

/-- Nothing is given only when all elements have been handed out. -/
theorem Underway.eq_size_of_next (hplan : Plan.ofSelection shape elemSize selection 0 = .ok plan)
    {done : Nat} {a : Assembly (Watched σ)} (h : Underway selection shape plan done a)
    (hnone : a.next.1 = none) : done = selection.size := by
  have hpull := h.pull hplan
  rw [next_of_none hnone] at hpull
  cases hpull with
  | finished hdone => exact hdone
  | stopped hfailed =>
    rw [h.working] at hfailed
    cases hfailed

/-- A chunk that is given serves the next elements from the segment that is then the current one. -/
theorem Underway.serves_of_next (hplan : Plan.ofSelection shape elemSize selection 0 = .ok plan)
    {done : Nat} {a after : Assembly (Watched σ)} (h : Underway selection shape plan done a)
    {c : Chunk} (hnext : a.next = (some (.ok c), after)) :
    Underway selection shape plan (done + c.count) after ∧
      ∃ s, after.current = some s ∧ Serves selection shape elemSize s done c := by
  have hpull := h.pull hplan
  rw [hnext] at hpull
  cases hpull with
  | @chunk _ s _ hafter hlast hserves =>
    refine ⟨hafter, s, ?_, hserves⟩
    rw [← hlast, ← Plan.elemSize_eq hplan]
    exact hafter.current_eq

end Run

section Reads

variable [CheckedSupplier σ] {selection : Selection} {shape : Shape} {plan : Plan}
  {type : NumberType} {order : ByteOrder} {a : Assembly (Watched σ)} {chunks : List Chunk}

/-- **Chunk by chunk.** The numbers that are read from the chunks, one behind the other, are those
that are read from the bytes collected. -/
theorem HandsOut.reads (hout : a.HandsOut chunks)
    (hplan : Plan.ofSelection shape type.width selection 0 = .ok plan) {done : Nat}
    (h : Underway selection shape plan done a) (hcounted : a.unwatch.Counted type.width)
    (hgiven : ∀ k, ∃ answer, a.unwatch.pullChecked k = .ok answer) :
    ∃ parts bytes, List.Forall₂ (Chunk.ReadsAs type order) chunks parts ∧
      (∀ hand, a.collect hand = .ok (hand.toList ++ bytes)) ∧
      bytes.length = (selection.size - done) * type.width ∧
      ElementView.numbers type order (selection.size - done) bytes = parts.flatten := by
  induction hout generalizing done with
  | @done a hnone =>
    have hdone := h.eq_size_of_next hplan hnone
    refine ⟨[], [], .nil, fun hand => ?_, ?_, ?_⟩
    · rw [collect_of_done hnone, List.append_nil]
    · rw [hdone, Nat.sub_self, Nat.zero_mul]
      rfl
    · rw [hdone, Nat.sub_self]
      rfl
  | @more a after c chunks hnext _ ih =>
    obtain ⟨hafter, s, hcurrent, hserves⟩ := h.serves_of_next hplan hnext
    obtain ⟨bytes, hbytes, hview, -⟩ := hserves.view_eq
    obtain ⟨t, elem, hsame, hplace, hend⟩ := within_of_next hnext
    -- the machine hands out this chunk, and has counted the bytes of its segment
    obtain ⟨pulled, hpulled, -⟩ := bind_eq_ok_iff.mp (hgiven 0).choose_spec
    have hlater := hcounted.nextChecked (h.plan_eq.symm ▸ hplan) ⟨h.inStep, h.whole, h.rest⟩ hpulled
    obtain rfl := (h.gives_nextChecked hplan).sound _ hpulled
    rw [hnext] at hlater hpulled
    have hgiven' : ∀ k, ∃ answer, after.unwatch.pullChecked k = .ok answer := by
      intro k
      have hpull := hgiven (k + 1)
      rwa [pullChecked, hpulled] at hpull
    obtain ⟨parts, rest, hparts, hcollect, hrest, hnumbers⟩ := ih hafter hlater hgiven'
    have hviewed : c.viewChecked = .ok (some ⟨bytes, type.width⟩) := by
      have hwidth : type.width = c.elemSize := (Chunk.length_view hview).2
      rw [← hview]
      exact viewChecked_eq hplace hend (hwidth ▸ hlater t hsame)
    have hcount : selection.size - done = c.count + (selection.size - (done + c.count)) := by
      have hinside := hserves.inside
      omega
    refine ⟨ElementView.numbers type order c.count bytes :: parts, bytes ++ rest,
      .cons (Chunk.readsAs_of_view hviewed hbytes) hparts, fun hand => ?_, ?_, ?_⟩
    · rw [collect_of_chunk hnext hview, hcollect]
      simp only [Array.toList_appendList, List.append_assoc]
    · rw [List.length_append, hbytes, hrest, hcount, Nat.add_mul]
    · rw [hcount, ElementView.numbers_append hbytes, hnumbers, List.flatten_cons]

/-- **The numbers of a storage.** If the segments that are served from are parts of a storage, the
numbers read from the chunks are those of the elements there. -/
theorem HandsOut.values_eq (hout : a.HandsOut chunks)
    (hplan : Plan.ofSelection shape type.width selection 0 = .ok plan) {done : Nat}
    (h : Underway selection shape plan done a) {parts : List (List Number)}
    (hparts : List.Forall₂ (Chunk.ReadsAs type order) chunks parts) {storage : Bytes}
    (hstored : ∀ k s, (a.after k).current = some s → s.PartOf type.width storage) :
    parts.flatten = ((selection.elems shape).drop done).map (storage.numberOf type order) := by
  induction hout generalizing done parts with
  | @done a hnone =>
    cases hparts
    rw [h.eq_size_of_next hplan hnone, List.drop_of_length_le (Selection.length_elems ..).le]
    rfl
  | @more a after c chunks hnext _ ih =>
    cases hparts with
    | @cons _ values _ parts hreads hparts =>
    obtain ⟨hafter, s, hcurrent, hserves⟩ := h.serves_of_next hplan hnext
    obtain ⟨t, elem, hsame, hplace, hend⟩ := within_of_next hnext
    obtain rfl : t = s := Option.some.inj (hsame.symm.trans hcurrent)
    have hpart : t.PartOf type.width storage := by
      apply hstored 1
      show a.next.2.current = some t
      rw [hnext, hcurrent]
    have hlater : ∀ k s, (after.after k).current = some s → s.PartOf type.width storage := by
      intro k s hs
      apply hstored (k + 1)
      show (a.next.2.after k).current = some s
      rw [hnext, hs]
    rw [List.flatten_cons, hserves.values_eq hplace hend hpart hreads, ih hafter hparts hlater,
      ← List.map_append, ← List.drop_drop, List.take_append_drop]

end Reads

/-! ## §4 Typed reads -/

variable [CheckedSupplier σ]

/-- What a machine reads from the chunks of an assembly, and from the bytes of its run. -/
structure TypedRun (selection : Selection) (shape : Shape) (type : NumberType) (order : ByteOrder)
    (a : Assembly σ) (chunks : List Chunk) (parts : List (List Number)) : Prop where
  /-- These are the chunks, and nothing comes behind them. -/
  chunks_eq : ∀ k, a.pullChecked k = .ok (chunks[k]?.map .ok)
  /-- Each has a view that is read as its part of the numbers. -/
  reads : List.Forall₂ (Chunk.ReadsAs type order) chunks parts
  /-- The bytes of the run, in one view, are read as all the parts. -/
  run_reads : selection.size * type.width < bufferLimit → ∃ bytes, a.runChecked = .ok (.ok bytes) ∧
    (ElementView.mk bytes type.width).readAll type order selection.size = .ok parts.flatten
  /-- From parts of a storage, they are the numbers of the selected elements, however it was cut. -/
  stored : ∀ storage : Bytes,
    (∀ k s, (a.after k).current = some s → s.PartOf type.width storage) →
      parts.flatten = (selection.elems shape).map (storage.numberOf type order)

/-- No pull fails, and a machine gives up at none. -/
def Clean (a : Assembly σ) : Prop :=
  ∀ k, ∃ answer, a.pullChecked k = .ok answer ∧ ∀ e, answer ≠ some (.error e)

theorem Underway.typedRun {selection : Selection} {shape : Shape} {type : NumberType}
    {order : ByteOrder} {plan : Plan}
    (hplan : Plan.ofSelection shape type.width selection 0 = .ok plan) {a : Assembly (Watched σ)}
    (h : Underway selection shape plan 0 a) (hcounted : a.unwatch.Counted type.width)
    (hclean : a.unwatch.Clean) :
    ∃ chunks parts, a.unwatch.TypedRun selection shape type order chunks parts := by
  -- no pull gives up, so each is the one that the exact assembly makes
  have hgiven : ∀ k, a.unwatch.pullChecked k = .ok (a.pulled k) := by
    intro k
    obtain ⟨answer, hanswer, -⟩ := hclean k
    rw [hanswer, (Standing.gives_pullChecked hplan (.inl h) k).sound _ hanswer]
  have hanswers : ∀ k, ∃ answer, a.unwatch.pullChecked k = .ok answer := fun k => ⟨_, hgiven k⟩
  have hworks : ∀ k e, a.pulled k ≠ some (.error e) := by
    intro k e
    obtain ⟨answer, hanswer, hnot⟩ := hclean k
    rw [hgiven k] at hanswer
    exact Except.ok.inj hanswer ▸ hnot e
  obtain ⟨chunks, hout⟩ := h.exists_handsOut hplan hworks
  obtain ⟨parts, bytes, hparts, hcollect, hlen, hnumbers⟩ :=
    hout.reads hplan h hcounted hanswers
  rw [Nat.sub_zero] at hlen hnumbers
  refine ⟨chunks, parts, ?chunks, hparts, fun hbuffer => ⟨bytes, ?run, ?all⟩, ?stored⟩
  case chunks =>
    intro k
    rw [hgiven k, hout.pulled_eq]
  case run =>
    have hrun := (h.gives_runChecked hplan hcounted).eq_ok ⟨hbuffer, hanswers⟩
    rw [hrun, Assembly.run, hcollect]
    rfl
  case all => rw [ElementView.readAll_eq_ok rfl hlen, hnumbers]
  case stored =>
    intro storage hstored
    apply hout.values_eq hplan h hparts
    intro k s hs
    apply hstored k s
    rw [after_unwatch]
    exact hs

/-- Where there is room, only a failure can be in the way. -/
theorem clean_of_hasRoom {selection : Selection} {shape : Shape} {elemSize : Nat} {plan : Plan}
    (hplan : Plan.ofSelection shape elemSize selection 0 = .ok plan)
    (hshape : shape.size * elemSize < wordLimit) {source : σ}
    (hroom : CheckedSupplier.HasRoom elemSize source)
    (hworks : ∀ k e, pulled { cursor := ⟨plan, 0⟩, source } k ≠ some (.error e)) :
    Clean { cursor := ⟨plan, 0⟩, source } := by
  intro k
  have hunder := underway_start (Plan.fits_of_ofSelection hplan) hplan source
  have hpull := (Standing.gives_pullChecked hplan (.inl hunder) k).eq_ok ⟨hshape, nofun, hroom⟩
  rw [← pulled_unwatch] at hpull
  exact ⟨_, hpull, hworks k⟩

/-- **Typed reads commute with segments.** A selection that fits is assembled from any supplier. If
no pull is a failure, every chunk has a view of as many elements, the view is read as numbers of the
type, and these are, chunk after chunk, the numbers that the bytes of the run are read as. Where the
segments are parts of one storage they are its numbers, whatever the segments are. A machine can
only give up where a number of the plan, or a segment, has no place in words. -/
theorem typed_reads_commute (shape : Shape) (selection : Selection) (type : NumberType)
    (order : ByteOrder) (source : σ) (hfits : selection.Fits shape) :
    (startChecked shape type.width selection source).Gives
      (selection.HasRoom shape type.width 0) fun started =>
        ∃ a : Assembly σ, started = .ok a ∧
          (a.Clean → ∃ chunks parts, a.TypedRun selection shape type order chunks parts) := by
  obtain ⟨plan, hplan⟩ :
      ∃ plan, Plan.ofSelection shape type.width selection 0 = .ok plan :=
    ⟨_, Plan.ofSelection_eq_ok_iff.mpr ⟨type.width_pos, hfits, rfl⟩⟩
  have hunder := underway_start hfits hplan source
  exact (gives_startChecked hplan source).mono fun started hstarted =>
    ⟨_, hstarted, hunder.typedRun hplan (counted_start type.width plan source)⟩

/-- The last two columns of a small array, from two segments of which the first ends inside a row:
the numbers are those of the array, as it would be in one segment. -/
theorem typed_reads_commute_columns :
    let selection : Selection := ⟨[⟨0, 1, 2⟩, ⟨1, 1, 2⟩]⟩
    let source : SegmentQueue :=
      ⟨[⟨0, 2, [0, 0, 0, 1]⟩, ⟨2, 4, [0xff, 0xfe, 0, 3, 0, 4, 0x80, 0]⟩]⟩
    selection.Fits ⟨[2, 3]⟩ ∧ ∃ a, startChecked ⟨[2, 3]⟩ 2 selection source = .ok (.ok a) ∧
      a.Clean ∧ ∃ chunks parts, a.TypedRun selection ⟨[2, 3]⟩ .int16 .big chunks parts ∧
        parts.flatten = [.integer 1, .integer (-2), .integer 4, .integer (-32768)] := by
  intro selection source
  have hfits : selection.Fits ⟨[2, 3]⟩ := by decide
  have hplan : Plan.ofSelection ⟨[2, 3]⟩ 2 selection 0 = .ok ⟨2, 0, 4, 2, [⟨2, 3⟩], 1⟩ := by decide
  have hgives := typed_reads_commute ⟨[2, 3]⟩ selection .int16 .big source hfits
  obtain ⟨started, hstarted⟩ := hgives.total (by decide)
  obtain ⟨a, rfl, hreads⟩ := hgives.sound _ hstarted
  have ha : a = { cursor := ⟨⟨2, 0, 4, 2, [⟨2, 3⟩], 1⟩, 0⟩, source } := by
    cases hstarted
    rfl
  -- three chunks are handed out
  have hlast : a.pulled 3 = none := by
    rw [ha]
    decide +kernel
  have hgiven : ∀ k < 4, (a.pulled k).map Except.toOption ≠ some none := by
    rw [ha]
    decide +kernel
  have hroom : CheckedSupplier.HasRoom 2 source := SegmentQueue.hasRoom (by decide)
  have hclean : a.Clean := by
    subst ha
    refine clean_of_hasRoom hplan (by decide) hroom fun k e herror => ?_
    rw [pulled, after_min hlast] at herror
    apply hgiven (min k 3) (by omega)
    rw [pulled, herror]
    rfl
  have hpart : ∀ k < 4, ∀ s ∈ (a.after k).current,
      s.PartOf 2 [0, 0, 0, 1, 0xff, 0xfe, 0, 3, 0, 4, 0x80, 0] := by
    rw [ha]
    decide +kernel
  obtain ⟨chunks, parts, hread⟩ := hreads hclean
  refine ⟨hfits, a, hstarted, hclean, chunks, parts, hread, ?_⟩
  rw [hread.stored [0, 0, 0, 1, 0xff, 0xfe, 0, 3, 0, 4, 0x80, 0]]
  · decide
  · intro k s hs
    rw [after_min hlast] at hs
    exact hpart _ (by omega) s hs

end Assembly

end Granule
