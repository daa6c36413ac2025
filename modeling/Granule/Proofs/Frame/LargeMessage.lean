import Mathlib.Data.List.Nodup
import Granule.Proofs.Frame.Grib1
import Granule.Proofs.Scan.Coverage

/-!
# Recovering Large GRIB Messages

The length of a large message is found by one walk over its sections and its parts by
another. The first one reads the length field of the data section as an excess, which is
what it is in a large message; the second one reads it as the length of a section. An
excess below the shortest data section is thus no length that the second one accepts, and
such a message is dropped although its length was found.

**Main statements**:
- `Grib1.LargeMessage.largeLength_eq` : the repair finds the length of every large message
- `Grib1.LargeMessage.divide_eq` : it is divided exactly when the excess could be a length
- `Grib1.large_messages_found` : what becomes of a large message that a scan comes to
-/

namespace Granule.Grib1

open StreamFrame TypedBytes

/-! ## §1 Walking over sections -/

def packSections (sections : List (Section × Bytes)) : Bytes :=
  packWith (fun _ => []) (sections.map fun x => x.1.content x.2)

theorem packSections_cons (x : Section × Bytes) (rest : List (Section × Bytes)) :
    packSections (x :: rest) = x.2 ++ packSections rest := by
  rw [packSections, List.map_cons, packWith_cons, List.nil_append]
  rfl

/-- The walk over sections that lie one behind the other ends behind the last one. -/
theorem sectionsEnd_eq {bs : Bytes} {pos : Nat} (sections : List (Section × Bytes))
    (h : ∀ x ∈ sections, x.1.Holds x.2) (hat : bs.HasAt pos (packSections sections)) :
    sectionsEnd? bs sections.length pos = some (pos + (packSections sections).length) := by
  induction sections generalizing pos with
  | nil => rfl
  | cons x rest ih =>
    rw [packSections_cons] at hat ⊢
    obtain ⟨hfirst, hrest⟩ := Bytes.hasAt_append.mp hat
    have hx := h x (List.mem_cons_self ..)
    have hlength : bs.natAt? pos lengthWidth = some x.2.length :=
      Bytes.HasAt.natAt_eq (by simpa using hfirst.trans hx.length_at) (by decide) hx.length_lt
    have hwidth : ¬ x.2.length < lengthWidth := by
      have hmin := hx.minLength_le
      revert hmin
      cases x.1 <;> simp only [Section.minLength, lengthWidth] <;> omega
    rw [List.length_cons, sectionsEnd?, hlength, Option.bind_some, if_neg hwidth,
      ih (fun y hy => h y (List.mem_cons_of_mem _ hy)) hrest, List.length_append, Nat.add_assoc]

/-- Sections that are found in a frame end before the limit. -/
theorem Section.within_of_spans {frame : Bytes} {limit pos : Nat} {sections : List Section}
    {found : List Span} (h : Section.spans frame limit pos sections = .ok found) :
    ∀ span ∈ found, span.start ≤ span.stop ∧ span.stop ≤ limit := by
  induction sections generalizing pos found with
  | nil =>
    cases h
    simp
  | cons s rest ih =>
    rw [Section.spans] at h
    cases hspan : s.span frame limit pos with
    | error e => simp [hspan] at h
    | ok first =>
      obtain ⟨-, hstart, hmin, hstop⟩ := Section.span_facts hspan
      cases hrest : Section.spans frame limit first.stop rest with
      | error e => simp [hspan, hrest, Except.map] at h
      | ok more =>
        simp only [hspan, hrest, Except.map, Except.ok.injEq] at h
        subst h
        exact List.forall_mem_cons.mpr ⟨⟨by omega, hstop⟩, ih hrest⟩

/-! ## §2 Large messages -/

/-- The sections of a large message. The data section runs up to the trailer. -/
structure LargeMessage where
  product : Bytes
  grid : Option Bytes
  bitmap : Option Bytes
  data : Bytes
  /-- The length in units, and how many bytes these have too many. -/
  units : Nat
  excess : Nat

namespace LargeMessage

variable (m : LargeMessage)

def flags : UInt8 := m.product.getD flagsOffset 0

def between : Bytes := packSections (optionalSections m.grid m.bitmap)

def indicator : Bytes := magic ++ (Bytes.ofNatBE 3 (largeMark + m.units) ++ [edition])

def encode : Bytes := m.indicator ++ (m.product ++ (m.between ++ (m.data ++ trailer)))

def length : Nat := m.encode.length

/-- A message of the centre that has large ones, whose sections are whole, and whose data section
holds the excess of the units over its length where others hold their length. -/
structure WellFormed : Prop where
  product : Section.product.Holds m.product
  centre : m.product.getD 4 0 = largeCentre
  grid : ∀ bs ∈ m.grid, Section.grid.Holds bs
  bitmap : ∀ bs ∈ m.bitmap, Section.bitmap.Holds bs
  hasGrid : m.grid.isSome ↔ m.flags &&& 0x80 ≠ 0
  hasBitmap : m.bitmap.isSome ↔ m.flags &&& 0x40 ≠ 0
  data : largeUnit ≤ m.data.length
  excess_at : m.data.HasAt 0 (Bytes.ofNatBE lengthWidth m.excess)
  excess_lt : m.excess < largeUnit
  units_lt : m.units < largeMark
  length_eq : m.length + m.excess = m.units * largeUnit + 4

variable {m} {bs : Bytes} {start : Nat}

theorem length_indicator : m.indicator.length = indicatorLength := by
  simp [indicator, magic, indicatorLength]

theorem length_eq_sum : m.length = indicatorLength + (m.product.length + (m.between.length +
    (m.data.length + trailer.length))) := by
  simp only [length, encode, List.length_append, length_indicator]

/-- Where the sections of a message lie. -/
theorem hasAt_sections (hat : bs.HasAt start m.encode) :
    bs.HasAt (start + indicatorLength) m.product ∧
      bs.HasAt (start + indicatorLength + m.product.length) m.between ∧
      bs.HasAt (start + indicatorLength + m.product.length + m.between.length) m.data ∧
      bs.HasAt (start + m.length - trailer.length) trailer := by
  rw [encode] at hat
  obtain ⟨-, hat⟩ := Bytes.hasAt_append.mp hat
  rw [length_indicator] at hat
  obtain ⟨hproduct, hat⟩ := Bytes.hasAt_append.mp hat
  obtain ⟨hbetween, hat⟩ := Bytes.hasAt_append.mp hat
  obtain ⟨hdata, htrailer⟩ := Bytes.hasAt_append.mp hat
  have hend : start + m.length - trailer.length = start + indicatorLength + m.product.length +
      m.between.length + m.data.length := by
    rw [length_eq_sum]
    omega
  exact ⟨hproduct, hbetween, hdata, hend ▸ htrailer⟩

theorem hasAt_indicator (hat : bs.HasAt start m.encode) :
    bs.HasAt start magic ∧
      bs.HasAt (start + magic.length) (Bytes.ofNatBE 3 (largeMark + m.units)) ∧
      bs.HasAt (start + magic.length + 3) [edition] := by
  obtain ⟨hindicator, -⟩ := Bytes.hasAt_append.mp hat
  obtain ⟨hmagic, hrest⟩ := Bytes.hasAt_append.mp hindicator
  obtain ⟨hlength, hedition⟩ := Bytes.hasAt_append.mp hrest
  rw [Bytes.length_ofNatBE] at hedition
  exact ⟨hmagic, hlength, hedition⟩

namespace WellFormed

/-- The byte of the product definition at an offset. -/
theorem byteAt_product (h : m.WellFormed) (hat : bs.HasAt start m.encode) {i : Nat} (hi : i < 8) :
    bs.byteAt? (start + indicatorLength + i) = some (m.product.getD i 0) := by
  have hlong : i < m.product.length := hi.trans_le h.product.minLength_le
  exact (hasAt_sections hat).1.byteAt_of_part (Bytes.byteAt_of_lt hlong)

/-- The sections between are passed by their own lengths. -/
theorem dataStart_eq (h : m.WellFormed) (hat : bs.HasAt start m.encode) :
    dataStart? bs (start + indicatorLength) m.product.length m.flags =
      some (start + indicatorLength + m.product.length + m.between.length) := by
  have hmin : ¬ m.product.length < Section.minLength .product :=
    Nat.not_lt.mpr h.product.minLength_le
  have hcount : (Section.announced m.flags).length = (optionalSections m.grid m.bitmap).length := by
    rw [← map_optionalSections h.hasGrid h.hasBitmap, List.length_map]
  rw [dataStart?, if_neg hmin, hcount,
    sectionsEnd_eq _ (holds_optionalSections h.grid h.bitmap) (hasAt_sections hat).2.1]
  rfl

/-- The product definition starts with its length. -/
theorem natAt_product (h : m.WellFormed) (hat : bs.HasAt start m.encode) :
    bs.natAt? (start + indicatorLength) lengthWidth = some m.product.length := by
  obtain ⟨hproduct, -, -, -⟩ := hasAt_sections hat
  exact Bytes.HasAt.natAt_eq (by simpa using hproduct.trans h.product.length_at) (by decide)
    h.product.length_lt

/-- The data section starts with the excess. -/
theorem natAt_data (h : m.WellFormed) (hat : bs.HasAt start m.encode) :
    bs.natAt? (start + indicatorLength + m.product.length + m.between.length) lengthWidth =
      some m.excess := by
  obtain ⟨-, -, hdata, -⟩ := hasAt_sections hat
  exact Bytes.HasAt.natAt_eq (by simpa using hdata.trans h.excess_at) (by decide)
    (h.excess_lt.trans (by decide))

/-- **The repair.** It finds the length of every large message. -/
theorem largeLength_eq (h : m.WellFormed) (hat : bs.HasAt start m.encode) (declared : Nat) :
    largeLength? bs ⟨start, largeMark + m.units, declared⟩ = some m.length := by
  have hproductLength := h.natAt_product hat
  have hexcess := h.natAt_data hat
  have hle : m.excess ≤ m.units * largeUnit + 4 := h.length_eq ▸ Nat.le_add_left _ _
  obtain ⟨hlarge, hlength⟩ := Grib1.largeLength_eq h.units_lt hle
  have hflags := h.byteAt_product hat (show flagsOffset < 8 by decide)
  have hcentre := h.byteAt_product hat (show 4 < 8 by decide)
  rw [h.centre] at hcentre
  unfold largeLength?
  simp only [hlarge, if_true, hproductLength, hcentre, hflags, bind, Option.bind_some]
  rw [show m.product.getD flagsOffset 0 = m.flags from rfl, h.dataStart_eq hat]
  simp only [Option.bind_some, hexcess, h.excess_lt, if_true, hlength, Option.some.injEq]
  rw [← h.length_eq, Nat.add_sub_cancel]

/-- The data section is found where its excess could be the length of one. -/
theorem span_data (h : m.WellFormed) :
    Section.span .data m.encode (m.encode.length - trailer.length)
        (indicatorLength + m.product.length + m.between.length) =
      if m.excess < lengthWidth then
        .error (.malformed (.sectionLength "binary data" m.excess
          (indicatorLength + m.product.length + m.between.length) m.encode.length))
      else if m.excess < Section.minLength .data then
        .error (.malformed (.sectionShort "binary data" m.excess))
      else
        .ok ⟨Section.kind .data, indicatorLength + m.product.length + m.between.length,
          indicatorLength + m.product.length + m.between.length + m.excess⟩ := by
  have hat : m.encode.HasAt 0 m.encode := List.prefix_rfl
  have hread := ((hasAt_sections hat).2.2.1.trans h.excess_at).between_eq
  have hlt : m.excess < 256 ^ lengthWidth := h.excess_lt.trans (by decide)
  have hsize : m.encode.length = _ := m.length_eq_sum
  have hlong : 120 ≤ m.data.length := h.data
  have hexcess : m.excess < 120 := h.excess_lt
  have hwidth : lengthWidth = 3 := rfl
  rw [Bytes.length_ofNatBE, Nat.zero_add, Nat.add_zero] at hread
  unfold Section.span
  -- the section has room for its length, and for what its length says
  rw [if_neg (by omega)]
  simp only [hread, Bytes.toNatBE_ofNatBE, Nat.mod_eq_of_lt hlt]
  by_cases hshort : m.excess < lengthWidth
  · rw [if_pos (.inl hshort), if_pos hshort]
    rfl
  · rw [if_neg (by omega), if_neg hshort]
    rfl

/-- **Division.** A large message is divided where its excess could be the length of a data
section, and refused otherwise. -/
theorem divide_eq (h : m.WellFormed) :
    (Section.minLength .data ≤ m.excess → ∃ spans, divide m.encode = .ok spans) ∧
      (m.excess < Section.minLength .data → ∃ e, divide m.encode = .error e) := by
  have hat : m.encode.HasAt 0 m.encode := List.prefix_rfl
  obtain ⟨hproduct, hbetween, -, -⟩ := hasAt_sections hat
  rw [Nat.zero_add] at hproduct hbetween
  have hsize : m.encode.length = _ := m.length_eq_sum
  have hdivide := Grib1.divide_eq (hasAt_indicator hat).1 h.product hproduct (by omega)
  have hspans := Section.spans_append (optionalSections m.grid m.bitmap) [.data]
    (holds_optionalSections h.grid h.bitmap) hbetween
    (show _ + (m.between).length ≤ m.encode.length - trailer.length by omega)
  rw [map_optionalSections h.hasGrid h.hasBitmap] at hspans
  rw [hdivide, show m.product.getD flagsOffset 0 = m.flags from rfl, hspans, Section.spans,
    show (packWith (fun _ => []) ((optionalSections m.grid m.bitmap).map fun x =>
      x.1.content x.2)).length = m.between.length from rfl, h.span_data]
  refine ⟨fun hle => ?_, fun hlt => ?_⟩
  · have hwidth : ¬ m.excess < lengthWidth := by
      simp only [Section.minLength, lengthWidth] at hle ⊢
      omega
    rw [if_neg hwidth, if_neg (Nat.not_lt.mpr hle)]
    exact ⟨_, rfl⟩
  · by_cases hwidth : m.excess < lengthWidth
    · rw [if_pos hwidth]
      exact ⟨_, rfl⟩
    · rw [if_neg hwidth, if_pos hlt]
      exact ⟨_, rfl⟩

end WellFormed

end LargeMessage

/-- The parts of a message lie inside it. -/
theorem isWithin_of_divide {frame : Bytes} {spans : List Span} (h : divide frame = .ok spans) :
    ∀ span ∈ spans, span.isWithin frame.length = true := by
  obtain ⟨product, rest, hproduct, hrest, rfl⟩ := exists_of_divide h
  obtain ⟨-, hstart, hmin, hstop⟩ := Section.span_facts hproduct
  have hlong := minLength_le_of_divide h
  simp only [minLength] at hlong
  simp only [List.forall_mem_cons, Span.isWithin, decide_eq_true_eq]
  refine ⟨⟨Nat.zero_le _, by omega⟩, ⟨by omega, by omega⟩, fun span hspan => ?_⟩
  obtain ⟨hle, hlimit⟩ := Section.within_of_spans hrest span hspan
  exact ⟨hle, by omega⟩

/-! ## §3 Scans -/

namespace LargeMessage.WellFormed

variable {m : LargeMessage} {bs : Bytes} {start : Nat}

/-- The preamble of a large message holds the marked length. -/
theorem preamble_eq (h : m.WellFormed) (hat : bs.HasAt start m.encode) (settings : ScanSettings) :
    (plainScan settings bs).view.preamble bs start =
      some ⟨start + magic.length + 4,
        some ⟨start, largeMark + m.units, largeMark + m.units⟩⟩ := by
  obtain ⟨-, hlength, hedition⟩ := hasAt_indicator hat
  have hlt : largeMark + m.units < 256 ^ 3 := by
    have hunits := h.units_lt
    simp only [largeMark] at hunits ⊢
    omega
  exact preamble_of_field settings hlength hedition hlt

/-- The verdict on a large message is that of the second walk, on a frame of the right length. -/
theorem verdict_eq (h : m.WellFormed) (hat : bs.HasAt start m.encode) (settings : ScanSettings) :
    (plainScan settings bs).verdict start =
      ((plainScan settings bs).spansOf m.encode).elim (.dropped .undivided true)
        (.record (start + m.length) true) := by
  have hrepair : (plainScan settings bs).view.repair bs
      ⟨start, largeMark + m.units, largeMark + m.units⟩ = some m.length :=
    h.largeLength_eq hat _
  have hne : m.encode ≠ [] := List.cons_ne_nil _ _
  have hsize : start + m.length ≤ bs.length := hat.length_le hne
  have hlong : ¬ m.length < (plainScan settings bs).format.minLength := by
    show ¬ m.length < indicatorLength + trailer.length
    have hsum := m.length_eq_sum
    omega
  have hinside : ¬ (plainScan settings bs).bytes.length < start + m.length :=
    Nat.not_lt.mpr hsize
  have hends : (plainScan settings bs).EndsAt (start + m.length) := by
    refine ⟨?_, hsize, (hasAt_sections hat).2.2.2⟩
    show trailer.length ≤ start + m.length
    rw [length_eq_sum]
    omega
  -- the frame is the message itself, so only its division is left open
  have hframe : bs.between start (start + m.length) = m.encode := hat.between_eq
  rw [PlainScan.verdict, show (plainScan settings bs).bytes = bs from rfl,
    h.preamble_eq hat settings]
  simp only [hrepair, Option.getD_some, Option.isSome_some]
  rw [PlainScan.verdictOf, if_neg hlong, if_neg hinside, PlainScan.stopOf, if_pos hends]
  simp only [show (plainScan settings bs).bytes = bs from rfl, hframe]
  cases (plainScan settings bs).spansOf m.encode <;> rfl

theorem verdict_cases (h : m.WellFormed) (hat : bs.HasAt start m.encode)
    (settings : ScanSettings) :
    (Section.minLength .data ≤ m.excess →
      ∃ spans, (plainScan settings bs).verdict start = .record (start + m.length) true spans) ∧
      (m.excess < Section.minLength .data →
        (plainScan settings bs).verdict start = .dropped .undivided true) := by
  obtain ⟨hfound, hrefused⟩ := h.divide_eq
  rw [h.verdict_eq hat settings]
  refine ⟨fun hle => ?_, fun hlt => ?_⟩
  · obtain ⟨spans, hdivide⟩ := hfound hle
    have hspans : (plainScan settings bs).spansOf m.encode = some spans :=
      PlainScan.spansOf_of_divide hdivide (isWithin_of_divide hdivide)
    rw [hspans]
    exact ⟨spans, rfl⟩
  · obtain ⟨e, hdivide⟩ := hrefused hlt
    rw [PlainScan.spansOf, show (plainScan settings bs).format.divide m.encode = .error e
      from hdivide]
    rfl

end LargeMessage.WellFormed

/-- **Large messages.** In every run over a source that never fails, a large message that the
scan comes to is taken up as one record of its true length, if its excess is at least as long as
the shortest data section. With a smaller excess it is dropped, though its length was found, and
the scan goes on behind its first bytes. -/
theorem large_messages_found {m : LargeMessage} (h : m.WellFormed) (settings : ScanSettings)
    {source : Source} (hsteady : source.NeverFails) (calls : List Scanner.Call) {x : Sighting}
    (hx : x ∈ ((Scanner.start source standard settings).run calls).sightings)
    (hat : source.bytes.HasAt x.start m.encode) :
    (Section.minLength .data ≤ m.excess → ∃ r, x.outcome = .record r ∧ r.start = x.start ∧
        r.stop = x.start + m.length ∧ r.isRepaired = true ∧ x.resume = r.stop) ∧
      (m.excess < Section.minLength .data → x.outcome = .dropped ∧
        x.resume = x.start + usualResyncDistance) ∧
      ∀ y ∈ ((Scanner.start source standard settings).run calls).sightings,
        y.start = x.start → y = x := by
  have hdescribes : (plainScan settings source.bytes).Describes source :=
    ⟨hsteady, rfl, format_readsAs largeMessageRepair_readsAs⟩
  -- a run comes to a magic as the plain scan judges it, whatever calls brought it there
  have hgoes := (hdescribes.run_goesBy calls).2 x hx
  have htraced := Run.traced source standard settings calls
  obtain ⟨before, hplaced⟩ := htraced.placed.exists_of_mem hx
  have hresume := hplaced.resume
  obtain ⟨hfound, hdropped⟩ := h.verdict_cases hat settings
  refine ⟨fun hle => ?_, fun hlt => ?_, fun y hy hsame => ?_⟩
  · obtain ⟨spans, hverdict⟩ := hfound hle
    rw [Sighting.GoesBy, hverdict] at hgoes
    obtain ⟨r, hrecord, hstart, hstop, hrepaired⟩ := hgoes
    rw [WireFormat.ResumesAt, hrecord] at hresume
    exact ⟨r, hrecord, hstart, hstop, hrepaired, hresume.2.2.2⟩
  · rw [Sighting.GoesBy, hdropped hlt] at hgoes
    rw [WireFormat.ResumesAt, hgoes] at hresume
    exact ⟨hgoes, hresume⟩
  · have hincreasing := Run.increasing_of_traced (show 0 < standard.minLength by decide) htraced
    exact List.inj_on_of_nodup_map (hincreasing.imp Nat.ne_of_lt) hy hx hsame

/-- A large message of two units, less an excess. -/
def largeSample (excess : Nat) : LargeMessage where
  product := [0, 0, 8, 1, 98, 0, 0, 0]
  grid := none
  bitmap := none
  data := Bytes.ofNatBE 3 excess ++ List.replicate (221 - excess) 0x55
  units := 2
  excess

theorem length_largeSample (excess : Nat) :
    (largeSample excess).length = 8 + (8 + (0 + (3 + (221 - excess) + 4))) := by
  rw [LargeMessage.length_eq_sum]
  simp [largeSample, LargeMessage.between, packSections, optionalSections, packWith,
    indicatorLength, trailer]

theorem wellFormed_largeSample {excess : Nat} (hdata : excess ≤ 104) :
    (largeSample excess).WellFormed where
  product := show Section.product.Holds [0, 0, 8, 1, 98, 0, 0, 0] from
    ⟨by decide, by decide, by decide⟩
  centre := rfl
  grid _ h := by cases h
  bitmap _ h := by cases h
  hasGrid := show none.isSome = true ↔ (0 : UInt8) &&& 0x80 ≠ 0 by decide
  hasBitmap := show none.isSome = true ↔ (0 : UInt8) &&& 0x40 ≠ 0 by decide
  data := by
    simp only [largeSample, List.length_append, Bytes.length_ofNatBE, List.length_replicate,
      largeUnit]
    omega
  excess_at := List.prefix_append _ _
  excess_lt := show excess < 120 by omega
  units_lt := show 2 < largeMark by decide
  length_eq := by
    rw [length_largeSample]
    show 8 + (8 + (0 + (3 + (221 - excess) + 4))) + excess = 2 * 120 + 4
    omega

/-- A scan of the sample alone comes to its magic. -/
theorem exists_sighting_largeSample {excess : Nat} (hdata : excess ≤ 104) :
    ∃ x ∈ ((Scanner.start (.ofBytes (largeSample excess).encode) standard {}).run
      [.next]).sightings, x.start = 0 := by
  let r := plainScan {} (largeSample excess).encode
  have hdescribes : r.Describes (.ofBytes (largeSample excess).encode) :=
    ⟨Source.neverFails_ofBytes _, Source.bytes_ofBytes _,
      format_readsAs largeMessageRepair_readsAs⟩
  have hat : (largeSample excess).encode.HasAt 0 (largeSample excess).encode := List.prefix_rfl
  have hfirst : r.bytes.firstOccurrence r.format.magic ({} : PlainScan.State).cursor = some 0 :=
    Bytes.firstOccurrence_eq_some_iff.mpr ⟨le_rfl, List.length_pos_iff.mpr (List.cons_ne_nil _ _),
      (LargeMessage.hasAt_indicator hat).1, fun p _ hp => absurd hp (Nat.not_lt_zero p)⟩
  obtain ⟨hfound, hdropped⟩ := (wellFormed_largeSample hdata).verdict_cases hat {}
  have hnoted := hdescribes.sighting_eq hfirst 0
  -- the message is a record or dropped, and noted in both cases
  obtain ⟨x, hx, hstart⟩ : ∃ x, (r.scanner (.ofBytes (largeSample excess).encode) {}).sighting? 0 =
      some x ∧ x.start = 0 := by
    rcases Nat.lt_or_ge excess (Section.minLength .data) with hlt | hle
    · rw [hnoted, show r.verdict 0 = _ from hdropped hlt]
      exact ⟨_, rfl, rfl⟩
    · obtain ⟨spans, hverdict⟩ := hfound hle
      rw [hnoted, show r.verdict 0 = _ from hverdict]
      exact ⟨_, rfl, rfl⟩
  exact ⟨x, Scanner.mem_sightings hx, hstart⟩

/-- With an excess of twenty the sample is a record; with ten it is dropped. -/
theorem large_messages_found_samples :
    (∃ x ∈ ((Scanner.start (.ofBytes (largeSample 20).encode) standard {}).run [.next]).sightings,
      ∃ r, x.outcome = .record r ∧ r.start = 0 ∧ r.stop = 224 ∧ r.isRepaired = true) ∧
    ∃ x ∈ ((Scanner.start (.ofBytes (largeSample 10).encode) standard {}).run [.next]).sightings,
      x.start = 0 ∧ x.outcome = .dropped ∧ x.resume = 20 := by
  have hat : ∀ (excess : Nat) {x : Sighting}, x.start = 0 →
      (Source.ofBytes (largeSample excess).encode).bytes.HasAt x.start
        (largeSample excess).encode := by
    intro excess x hstart
    rw [hstart, Source.bytes_ofBytes]
    exact List.prefix_rfl
  constructor
  · have hsmall : 20 ≤ 104 := by decide
    obtain ⟨x, hx, hstart⟩ := exists_sighting_largeSample hsmall
    obtain ⟨hfound, -⟩ := large_messages_found (wellFormed_largeSample hsmall) {}
      (Source.neverFails_ofBytes _) [.next] hx (hat 20 hstart)
    obtain ⟨r, hrecord, hrstart, hstop, hrepaired, -⟩ := hfound (show 11 ≤ 20 by decide)
    rw [hstart, length_largeSample] at hstop
    exact ⟨x, hx, r, hrecord, hrstart.trans hstart, hstop, hrepaired⟩
  · have hsmall : 10 ≤ 104 := by decide
    obtain ⟨x, hx, hstart⟩ := exists_sighting_largeSample hsmall
    obtain ⟨-, hdropped, -⟩ := large_messages_found (wellFormed_largeSample hsmall) {}
      (Source.neverFails_ofBytes _) [.next] hx (hat 10 hstart)
    obtain ⟨houtcome, hresume⟩ := hdropped (show 10 < 11 by decide)
    rw [hstart] at hresume
    exact ⟨x, hx, hstart, houtcome, hresume⟩

end Granule.Grib1
