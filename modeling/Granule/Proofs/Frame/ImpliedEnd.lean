import Granule.Proofs.Frame.Grammar
import Granule.Proofs.Frame.Reassembly

/-!
# The End That a Message Implies

Sections are found in two ways. Division looks for them inside a frame, whose end is known; the
walk over a source goes from one section length to the next, and so comes to an end of its own.
Here the two are held against each other. A frame that is divided has its parts up to where the
walk ends, less the trailer. And a frame that is cut where the walk ends is divided, unless its
data section has no room for its fixed fields: the walk asks of this one section only that it has
room for its own length.

**Main statements**:
- `Grib1.exists_front_of_dataAt` : what the walk passes is a product definition and the sections
  that it announces
- `Grib1.FrontAt.divide_eq` : behind such a front, the data section decides about the division
- `Grib1.division_agrees_with_walk` : where the two ways agree, and the one case where they do not
-/

namespace Granule

namespace Grib1

variable {bs frame product : Bytes} {pos magicAt start length : Nat}
  {held : List (Section × Bytes)}

/-! ## §1 What the walk passes -/

/-- As many bytes as the first three of them say are a section, if it has room for its fields. -/
theorem Section.exists_holds (s : Section) (hlength : bs.natAt? pos lengthWidth = some length)
    (hwidth : lengthWidth ≤ length) (hmin : s.minLength ≤ length)
    (hinside : pos + length ≤ bs.length) :
    ∃ part, s.Holds part ∧ part.length = length ∧ bs.HasAt pos part := by
  rw [Bytes.natAt?, Option.ite_none_right_eq_some, Option.some.injEq] at hlength
  obtain ⟨hholds, hlen⟩ := holds_between (s := s) hlength.2 hwidth hmin hinside
  exact ⟨_, hholds, hlen, Bytes.hasAt_between _ _ _⟩

/-- A walk that stays in the bytes passes sections, of any kinds that need no room but for their
length. -/
theorem exists_held_of_sectionsEnd {sections : List Section} {last : Nat}
    (hmin : ∀ s ∈ sections, s.minLength ≤ lengthWidth)
    (h : sectionsEnd? bs sections.length pos = some last) (hlast : last ≤ bs.length) :
    ∃ held : List (Section × Bytes), held.map (·.1) = sections ∧ (∀ x ∈ held, x.1.Holds x.2) ∧
      bs.HasAt pos (packSections held) ∧ pos + (packSections held).length = last := by
  -- on the sections: the walk passes a length field, and what it covers is a section
  induction sections generalizing pos with
  | nil =>
    cases h
    exact ⟨[], rfl, by simp, Bytes.hasAt_nil _ _, rfl⟩
  | cons s rest ih =>
    obtain ⟨hfirst, hrest⟩ := List.forall_mem_cons.mp hmin
    rw [List.length_cons, sectionsEnd?, Option.bind_eq_some_iff] at h
    obtain ⟨length, hlength, h⟩ := h
    obtain ⟨hwidth, h⟩ := Option.ite_none_left_eq_some.mp h
    obtain ⟨held, rfl, hholds, hat, rfl⟩ := ih hrest h
    obtain ⟨part, hpart, rfl, hpartAt⟩ :=
      s.exists_holds hlength (by omega) (by omega) (by omega)
    refine ⟨(s, part) :: held, rfl, List.forall_mem_cons.mpr ⟨hpart, hholds⟩, ?_, ?_⟩
    · rw [packSections_cons]
      exact Bytes.hasAt_append.mpr ⟨hpartAt, hat⟩
    · rw [packSections_cons, List.length_append, Nat.add_assoc]

/-- Where the data section of the message at an offset starts: behind the product definition and
the sections that its flags announce. -/
def dataAt? (bs : Bytes) (magicAt : Nat) : Option Nat := do
  let productStart := magicAt + indicatorLength
  let productLength ← bs.natAt? productStart lengthWidth
  let flags ← bs.byteAt? (productStart + flagsOffset)
  dataStart? bs productStart productLength flags

/-- A message ends as far behind the start of its data as the length that it finds there says, and
the trailer is long. -/
theorem impliedEnd_eq_some_iff_dataAt {stop : Nat} :
    impliedEnd? bs magicAt = some stop ↔
      ∃ start length, dataAt? bs magicAt = some start ∧ bs.natAt? start lengthWidth = some length ∧
        lengthWidth ≤ length ∧ start + length + trailer.length = stop := by
  simp only [impliedEnd_eq_some_iff, dataAt?, bind, Option.bind_eq_some_iff]
  constructor
  · rintro ⟨productLength, flags, start, length, hproduct, hflags, hstart, hdata⟩
    exact ⟨start, length, ⟨productLength, hproduct, flags, hflags, hstart⟩, hdata⟩
  · rintro ⟨start, length, ⟨productLength, hproduct, flags, hflags, hstart⟩, hdata⟩
    exact ⟨productLength, flags, start, length, hproduct, hflags, hstart, hdata⟩

/-- What stands between the indicator of the message at an offset and its data: a product definition
and the sections that it announces. -/
structure FrontAt (bs : Bytes) (magicAt : Nat) (product : Bytes) (held : List (Section × Bytes)) :
    Prop where
  holds_product : Section.product.Holds product
  holds_held : ∀ x ∈ held, x.1.Holds x.2
  announced : held.map (·.1) = Section.announced (product.getD flagsOffset 0)
  hasAt : bs.HasAt (magicAt + indicatorLength) (product ++ packSections held)

/-- An announced section needs no room but for its length. -/
theorem Section.minLength_of_announced {s : Section} {flags : UInt8}
    (h : s ∈ Section.announced flags) : s.minLength ≤ lengthWidth := by
  rcases List.mem_append.mp h with h | h
  · obtain rfl := List.mem_singleton.mp ((List.mem_ite_nil_right.mp h).2)
    exact Nat.le_refl _
  · obtain rfl := List.mem_singleton.mp ((List.mem_ite_nil_right.mp h).2)
    exact Nat.le_refl _

/-- **The walk.** Where it stays in the bytes, it has passed a product definition and the sections
that its flags announce. -/
theorem exists_front_of_dataAt (h : dataAt? bs magicAt = some start) (hstart : start ≤ bs.length) :
    ∃ product held, FrontAt bs magicAt product held ∧
      start = magicAt + indicatorLength + (product ++ packSections held).length := by
  simp only [dataAt?, bind, Option.bind_eq_some_iff] at h
  obtain ⟨productLength, hlength, flags, hflags, hwalk⟩ := h
  obtain ⟨hshort, hwalk⟩ := Option.ite_none_left_eq_some.mp hwalk
  have hmin : Section.minLength .product ≤ productLength := Nat.not_lt.mp hshort
  have hflagsIn : flagsOffset < Section.minLength .product := by decide
  have hwidth : lengthWidth ≤ Section.minLength .product := by decide
  obtain ⟨held, hheld, hholds, hat, rfl⟩ := exists_held_of_sectionsEnd
    (fun s hs => Section.minLength_of_announced hs) hwalk hstart
  obtain ⟨product, hproduct, rfl, hproductAt⟩ :=
    Section.product.exists_holds hlength (hwidth.trans hmin) hmin (by omega)
  -- the flags that were read are those of the product definition
  have hsame := hproductAt.byteAt_of_part (Bytes.byteAt_of_lt (hflagsIn.trans_le hmin))
  rw [hflags, Option.some.injEq] at hsame
  refine ⟨product, held, ⟨hproduct, hholds, hsame ▸ hheld, ?_⟩, ?_⟩
  · exact Bytes.hasAt_append.mpr ⟨hproductAt, hat⟩
  · rw [List.length_append, Nat.add_assoc]

/-! ## §2 What is divided -/

/-- A section whose length is at hand, and fits, is found if it has room for its fields. -/
theorem Section.span_of_natAt (s : Section) {limit : Nat}
    (hlength : frame.natAt? pos lengthWidth = some length) (hwidth : lengthWidth ≤ length)
    (hlimit : pos + length ≤ limit) :
    s.span frame limit pos =
      if length < s.minLength then .error (.malformed (.sectionShort s.name length))
      else .ok ⟨s.kind, pos, pos + length⟩ := by
  rw [Bytes.natAt?, Option.ite_none_right_eq_some, Option.some.injEq] at hlength
  unfold span
  rw [if_neg (by omega)]
  simp only [hlength.2]
  rw [if_neg (by omega)]

/-- **Division.** Behind a front that lies in the frame, all depends on the data section. -/
theorem FrontAt.divide_eq (h : FrontAt frame 0 product held) (hmagic : frame.HasAt 0 magic)
    (hroom : indicatorLength + (product ++ packSections held).length + trailer.length ≤
      frame.length) :
    ∃ spans, divide frame =
      (Section.span .data frame (frame.length - trailer.length)
        (indicatorLength + (product ++ packSections held).length)).map
          fun data => spans ++ [data] := by
  have hat := h.hasAt
  rw [Nat.zero_add] at hat
  obtain ⟨hproduct, hheld⟩ := Bytes.hasAt_append.mp hat
  rw [List.length_append, ← Nat.add_assoc] at hroom ⊢
  -- the optional sections are passed, and the data section is left
  obtain ⟨others, hspans⟩ : ∃ others,
      Section.spans frame (frame.length - trailer.length) (indicatorLength + product.length)
          (Section.announced (product.getD flagsOffset 0) ++ [.data]) =
        (Section.spans frame (frame.length - trailer.length)
          (indicatorLength + product.length + (packSections held).length) [.data]).map
            (others ++ ·) := by
    rw [← h.announced]
    exact ⟨_, Section.spans_append held [.data] h.holds_held hheld
      (show _ + (packSections held).length ≤ frame.length - trailer.length by omega)⟩
  refine ⟨⟨indicatorKind, 0, indicatorLength⟩ ::
    ⟨Section.kind .product, indicatorLength, indicatorLength + product.length⟩ :: others, ?_⟩
  rw [Grib1.divide_eq hmagic h.holds_product hproduct (by omega), hspans, Section.spans]
  cases Section.span .data frame (frame.length - trailer.length)
      (indicatorLength + product.length + (packSections held).length) <;> rfl

/-- A frame that is cut at the end that it implies is divided, its last part being the data, unless
the data section is shorter than its fields. -/
theorem divide_of_impliedEnd {stop : Nat} (hmagic : bs.HasAt magicAt magic)
    (hstart : dataAt? bs magicAt = some start) (hlength : bs.natAt? start lengthWidth = some length)
    (hwidth : lengthWidth ≤ length) (hstop : start + length + trailer.length = stop)
    (hinside : stop ≤ bs.length) :
    ∃ spans, divide (bs.between magicAt stop) =
      if length < Section.minLength .data then
        .error (.malformed (.sectionShort "binary data" length))
      else .ok (spans ++
        [⟨Section.kind .data, start - magicAt, stop - trailer.length - magicAt⟩]) := by
  obtain ⟨product, held, hfront, hfrontEnd⟩ := exists_front_of_dataAt hstart (by omega)
  have hframe : bs.HasAt magicAt (bs.between magicAt stop) := Bytes.hasAt_between _ _ _
  have hlen := bs.length_between magicAt hinside
  have hindicator : magic.length ≤ indicatorLength := by decide
  -- all of it lies in the frame as it does in the bytes
  have hfrontIn : FrontAt (bs.between magicAt stop) 0 product held := by
    refine { hfront with hasAt := ?_ }
    rw [Nat.zero_add]
    exact hframe.within hfront.hasAt (by omega)
  have hmagicIn : (bs.between magicAt stop).HasAt 0 magic := hframe.within hmagic (by omega)
  have hdata : (bs.between magicAt stop).natAt? (start - magicAt) lengthWidth = some length := by
    rw [Bytes.natAt?, Option.ite_none_right_eq_some] at hlength ⊢
    refine ⟨by omega, ?_⟩
    rw [← hframe.between_part (by omega), ← hlength.2]
    congr 3 <;> omega
  obtain ⟨spans, hdivide⟩ := hfrontIn.divide_eq hmagicIn (by omega)
  have hplace : indicatorLength + (product ++ packSections held).length = start - magicAt := by
    omega
  have hend : start - magicAt + length = stop - trailer.length - magicAt := by omega
  refine ⟨spans, ?_⟩
  rw [hdivide, hplace, Section.span_of_natAt .data hdata hwidth (by omega), hend]
  split <;> rfl

/-! ## §3 The two ways -/

/-- **Division agrees with the walk.** On a source that never fails: when the bytes from an offset
on, up to some other, are divided, the last part stops where the walk from there ends, less the
trailer. And when the walk from a magic ends inside the source, the bytes up to there are divided
exactly if the length of the data section leaves room for its fields; the data are then the last
part, and stop before the last four bytes, and otherwise it is the data section that is called too
short. -/
theorem division_agrees_with_walk (source : Source) (hsteady : source.NeverFails) (magicAt : Nat) :
    (∀ stop spans, stop ≤ source.size → divide (source.bytes.between magicAt stop) = .ok spans →
      ∃ last, spans.getLast? = some last ∧
        impliedEnd source magicAt = .ok (some (magicAt + last.stop + trailer.length))) ∧
    ∀ stop, impliedEnd source magicAt = .ok (some stop) → stop ≤ source.size →
      source.bytes.HasAt magicAt magic →
      ∃ start length, dataAt? source.bytes magicAt = some start ∧
        source.bytes.natAt? start lengthWidth = some length ∧
        (Section.minLength .data ≤ length → ∃ spans data,
          divide (source.bytes.between magicAt stop) = .ok spans ∧ spans.getLast? = some data ∧
            data.kind = Section.kind .data ∧ magicAt + data.start = start ∧
            magicAt + data.stop + trailer.length = stop) ∧
        (length < Section.minLength .data →
          divide (source.bytes.between magicAt stop) =
            .error (.malformed (.sectionShort "binary data" length))) := by
  have hshown := fun stop => (impliedEnd_answers hsteady magicAt).eq_ok_some_iff stop
  refine ⟨fun stop spans hstop hdivide => ?divided, fun stop himplied hstop hmagic => ?implied⟩
  case divided =>
    obtain ⟨last, hchain, -, himplied⟩ := exists_last_of_divide hdivide
    obtain ⟨product, rest, -, -, rfl⟩ := exists_of_divide hdivide
    obtain ⟨front, span, hspans⟩ := List.eq_nil_or_concat' (⟨indicatorKind, 0, indicatorLength⟩ ::
      product :: rest) |>.resolve_left (List.cons_ne_nil _ _)
    rw [hspans] at hchain ⊢
    refine ⟨span, List.getLast?_concat, (hshown _).mpr ?_⟩
    -- the walk reads the same bytes in the source as the division did in the frame
    rw [hchain.getLast_eq, Nat.add_assoc]
    exact impliedEnd_of_part (Bytes.hasAt_between _ _ _) himplied
  case implied =>
    obtain ⟨start, length, hstart, hlength, hwidth, hend⟩ :=
      impliedEnd_eq_some_iff_dataAt.mp ((hshown stop).mp himplied)
    have hinside : stop ≤ source.bytes.length := hstop.trans (Source.length_bytes source).ge
    obtain ⟨spans, hdivide⟩ := divide_of_impliedEnd hmagic hstart hlength hwidth hend hinside
    -- the data start behind the sections that the walk passed
    obtain ⟨product, held, -, hfront⟩ := exists_front_of_dataAt hstart (by omega)
    refine ⟨start, length, hstart, hlength, fun hlong => ?_, fun hshort => ?_⟩
    · rw [if_neg (Nat.not_lt.mpr hlong)] at hdivide
      exact ⟨_, _, hdivide, List.getLast?_concat, rfl, by simp only; omega, by simp only; omega⟩
    · rwa [if_pos hshort] at hdivide

def wholeSample : Source := .ofBytes ([1, 2] ++ closedSample.encode ++ [3])

/-- A message with a data section of five bytes. -/
def shortSample : Source :=
  .ofBytes (magic ++ [0, 0, 25, 1] ++ [0, 0, 8, 0, 0, 0, 0, 0] ++ [0, 0, 5, 1, 2] ++ trailer)

/-- The one is divided up to the end that it implies, the other is not. -/
theorem division_agrees_with_walk_samples :
    (impliedEnd wholeSample 2 = .ok (some 36) ∧ ∃ spans data,
      divide (wholeSample.bytes.between 2 36) = .ok spans ∧ spans.getLast? = some data ∧
        data.kind = 4 ∧ 2 + data.stop + 4 = 36) ∧
    impliedEnd shortSample 0 = .ok (some 25) ∧
      divide (shortSample.bytes.between 0 25) =
        .error (.malformed (.sectionShort "binary data" 5)) := by
  constructor
  · have himplied : impliedEnd wholeSample 2 = .ok (some 36) := by decide +kernel
    obtain ⟨-, hagrees⟩ :=
      division_agrees_with_walk wholeSample (Source.neverFails_ofBytes _) 2
    obtain ⟨start, length, hstart, hlength, hdivided, -⟩ :=
      hagrees 36 himplied (by decide +kernel) (by decide +kernel)
    have hplace : dataAt? wholeSample.bytes 2 = some 21 := by decide +kernel
    obtain rfl : 21 = start := Option.some.inj (hplace.symm.trans hstart)
    have hfield : wholeSample.bytes.natAt? 21 lengthWidth = some 11 := by decide +kernel
    obtain rfl : 11 = length := Option.some.inj (hfield.symm.trans hlength)
    obtain ⟨spans, data, hdivide, hlast, hkind, -, hstop⟩ := hdivided (by decide)
    exact ⟨himplied, spans, data, hdivide, hlast, hkind, hstop⟩
  · have himplied : impliedEnd shortSample 0 = .ok (some 25) := by decide +kernel
    obtain ⟨-, hagrees⟩ :=
      division_agrees_with_walk shortSample (Source.neverFails_ofBytes _) 0
    obtain ⟨start, length, hstart, hlength, -, hrefused⟩ :=
      hagrees 25 himplied (by decide +kernel) (by decide +kernel)
    have hplace : dataAt? shortSample.bytes 0 = some 16 := by decide +kernel
    obtain rfl : 16 = start := Option.some.inj (hplace.symm.trans hstart)
    have hfield : shortSample.bytes.natAt? 16 lengthWidth = some 5 := by decide +kernel
    obtain rfl : 5 = length := Option.some.inj (hfield.symm.trans hlength)
    exact ⟨himplied, hrefused (by decide)⟩

end Grib1

end Granule
