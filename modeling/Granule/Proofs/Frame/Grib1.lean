import Granule.Proofs.Scan.Stream

/-!
# Streams of GRIB Messages

A message is built from its sections, each of which starts with its own length,
and is divided back into them: the flags in the product definition say which of
the optional ones to expect. A stream of such messages is scanned back into them,
whatever the sections hold.

**Main statements**:
- `Grib1.Message.divide_encode` : a message is divided into the sections it was built from
- `Grib1.scan_yields_messages` : a scan of a stream of messages gives every one
-/

namespace Granule.Grib1

open StreamFrame TypedBytes

/-! ## §1 Sections -/

namespace Section

/-- The bytes are a section: they start with their own length, and have room for the fixed
fields. -/
structure Holds (s : Section) (bs : Bytes) : Prop where
  length_at : bs.HasAt 0 (Bytes.ofNatBE lengthWidth bs.length)
  minLength_le : s.minLength ≤ bs.length
  length_lt : bs.length < 256 ^ lengthWidth

def content (s : Section) (bs : Bytes) : TypedBytes := ⟨s.kind, bs⟩

@[simp] theorem data_content (s : Section) (bs : Bytes) : (s.content bs).data = bs := rfl

@[simp] theorem kind_content (s : Section) (bs : Bytes) : (s.content bs).kind = s.kind := rfl

variable {frame : Bytes} {limit pos : Nat}

/-- A section that lies in a frame is found there. -/
theorem Holds.span_eq {s : Section} {bs : Bytes} (h : s.Holds bs) (hat : frame.HasAt pos bs)
    (hlimit : pos + bs.length ≤ limit) :
    s.span frame limit pos = .ok ⟨s.kind, pos, pos + bs.length⟩ := by
  have hwidth : lengthWidth ≤ bs.length := by
    have := h.minLength_le
    cases s <;> simp only [minLength, lengthWidth] at * <;> omega
  have hread := (hat.trans h.length_at).between_eq
  rw [Bytes.length_ofNatBE, Nat.add_zero] at hread
  have hmin := h.minLength_le
  unfold span
  -- none of the three reasons to refuse a section applies
  rw [if_neg (by omega)]
  simp only [hread, Bytes.toNatBE_ofNatBE, Nat.mod_eq_of_lt h.length_lt]
  rw [if_neg (by omega), if_neg (by omega)]

/-- Sections that lie one behind the other are found there, and more are looked for behind them. -/
theorem spans_append (sections : List (Section × Bytes)) (more : List Section)
    (h : ∀ x ∈ sections, x.1.Holds x.2)
    (hat : frame.HasAt pos (packWith (fun _ => []) (sections.map fun x => x.1.content x.2)))
    (hlimit : pos + (packWith (fun _ => []) (sections.map fun x => x.1.content x.2)).length ≤
      limit) :
    spans frame limit pos (sections.map (·.1) ++ more) =
      (spans frame limit
          (pos + (packWith (fun _ => []) (sections.map fun x => x.1.content x.2)).length) more).map
        (((offsetsFrom (fun _ => []) pos (sections.map fun x => x.1.content x.2)).map
          fun part => ⟨part.2.kind, part.1, part.1 + part.2.data.length⟩) ++ ·) := by
  induction sections generalizing pos with
  | nil =>
    show spans frame limit pos more = (spans frame limit pos more).map ([] ++ ·)
    cases spans frame limit pos more <;> rfl
  | cons x rest ih =>
    rw [List.map_cons, packWith_cons, List.nil_append, data_content] at hat hlimit
    obtain ⟨hfirst, hrest⟩ := Bytes.hasAt_append.mp hat
    rw [List.length_append] at hlimit
    simp only [List.map_cons, List.cons_append, spans, packWith_cons, List.nil_append,
      data_content, List.length_append]
    rw [(h x (List.mem_cons_self ..)).span_eq hfirst (by omega)]
    simp only
    rw [ih (fun y hy => h y (List.mem_cons_of_mem _ hy)) hrest (by omega), Nat.add_assoc]
    -- what is found further on goes behind this section, whatever it is
    generalize spans frame limit _ more = found
    cases found <;> simp [Except.map, offsetsFrom]

theorem spans_eq (sections : List (Section × Bytes)) (h : ∀ x ∈ sections, x.1.Holds x.2)
    (hat : frame.HasAt pos (packWith (fun _ => []) (sections.map fun x => x.1.content x.2)))
    (hlimit : pos + (packWith (fun _ => []) (sections.map fun x => x.1.content x.2)).length ≤
      limit) :
    spans frame limit pos (sections.map (·.1)) =
      .ok ((offsetsFrom (fun _ => []) pos (sections.map fun x => x.1.content x.2)).map
        fun part => ⟨part.2.kind, part.1, part.1 + part.2.data.length⟩) := by
  have hall := spans_append sections [] h hat hlimit
  simpa [spans, Except.map] using hall

end Section

/-- A frame that starts with a magic and a whole product definition is divided into them and the
sections that the flags announce. -/
theorem divide_eq {frame product : Bytes} (hmagic : frame.HasAt 0 magic)
    (h : Section.product.Holds product) (hat : frame.HasAt indicatorLength product)
    (hsize : indicatorLength + product.length + trailer.length ≤ frame.length) :
    divide frame =
      (Section.spans frame (frame.length - trailer.length) (indicatorLength + product.length)
          (Section.announced (product.getD flagsOffset 0) ++ [.data])).map
        fun rest => ⟨indicatorKind, 0, indicatorLength⟩ ::
          ⟨Section.kind .product, indicatorLength, indicatorLength + product.length⟩ :: rest := by
  have hmin : 8 ≤ product.length := h.minLength_le
  have hlong : ¬ frame.length < minLength := by
    simp only [minLength]
    omega
  have hstarts : magic.isPrefixOf frame = true := by
    rw [List.isPrefixOf_iff_prefix]
    exact hmagic
  have hspan := h.span_eq hat
    (show indicatorLength + product.length ≤ frame.length - trailer.length by omega)
  -- the flags read off the message are those of the product section
  have hflags : frame.getD (indicatorLength + flagsOffset) 0 = product.getD flagsOffset 0 := by
    rw [List.getD_eq_getElem?_getD, hat.getElem?_eq (show flagsOffset < product.length from hmin),
      List.getD_eq_getElem?_getD]
  unfold divide
  simp only [if_neg hlong, hstarts, if_true, hspan, hflags]

/-- A frame that is divided starts with a product definition, and the sections that it announces
follow. -/
theorem exists_of_divide {frame : Bytes} {spans : List Span} (h : divide frame = .ok spans) :
    ∃ product rest, Section.span .product frame (frame.length - trailer.length) indicatorLength =
        .ok product ∧
      Section.spans frame (frame.length - trailer.length) product.stop
        (Section.announced (frame.getD (indicatorLength + flagsOffset) 0) ++ [.data]) = .ok rest ∧
      spans = ⟨indicatorKind, 0, indicatorLength⟩ :: product :: rest := by
  unfold divide at h
  simp only at h
  split at h
  · cases h
  · split at h
    · split at h
      · cases h
      · rename_i product hproduct
        cases hrest : Section.spans frame (frame.length - trailer.length) product.stop
            (Section.announced (frame.getD (indicatorLength + flagsOffset) 0) ++ [.data]) with
        | error e =>
          rw [hrest] at h
          cases h
        | ok rest =>
          rw [hrest] at h
          cases h
          exact ⟨product, rest, hproduct, hrest, rfl⟩
    · cases h

def optionalSections (grid bitmap : Option Bytes) : List (Section × Bytes) :=
  grid.toList.map (Section.grid, ·) ++ bitmap.toList.map (Section.bitmap, ·)

/-- A section that is there exactly when it is announced. -/
private theorem map_toList (s : Section) {bs : Option Bytes} {announced : Prop}
    [Decidable announced] (h : bs.isSome ↔ announced) :
    (bs.toList.map (s, ·)).map (·.1) = if announced then [s] else [] := by
  cases bs with
  | none =>
    rw [if_neg fun ha => by cases h.mpr ha]
    rfl
  | some bs =>
    rw [if_pos (h.mp rfl)]
    rfl

/-- The optional sections are the announced ones. -/
theorem map_optionalSections {grid bitmap : Option Bytes} {flags : UInt8}
    (hgrid : grid.isSome ↔ flags &&& 0x80 ≠ 0) (hbitmap : bitmap.isSome ↔ flags &&& 0x40 ≠ 0) :
    (optionalSections grid bitmap).map (·.1) = Section.announced flags := by
  rw [optionalSections, List.map_append, map_toList _ hgrid, map_toList _ hbitmap,
    Section.announced]

theorem holds_optionalSections {grid bitmap : Option Bytes}
    (hgrid : ∀ bs ∈ grid, Section.grid.Holds bs)
    (hbitmap : ∀ bs ∈ bitmap, Section.bitmap.Holds bs) :
    ∀ x ∈ optionalSections grid bitmap, x.1.Holds x.2 := by
  intro x hx
  rcases List.mem_append.mp hx with hx | hx
  · obtain ⟨bs, hbs, rfl⟩ := List.mem_map.mp hx
    exact hgrid bs (Option.mem_toList.mp hbs)
  · obtain ⟨bs, hbs, rfl⟩ := List.mem_map.mp hx
    exact hbitmap bs (Option.mem_toList.mp hbs)

/-! ## §2 Messages -/

/-- The sections of a message, and what stands between the last one and the trailer. -/
structure Message where
  product : Bytes
  grid : Option Bytes
  bitmap : Option Bytes
  data : Bytes
  padding : Bytes

namespace Message

variable (m : Message)

def flags : UInt8 := m.product.getD flagsOffset 0

def otherSections : List (Section × Bytes) :=
  m.grid.toList.map (Section.grid, ·) ++ (m.bitmap.toList.map (Section.bitmap, ·) ++
    [(Section.data, m.data)])

def length : Nat :=
  indicatorLength + (m.product.length + ((m.grid.getD []).length + ((m.bitmap.getD []).length +
    (m.data.length + (m.padding.length + trailer.length)))))

def indicator : Bytes := magic ++ (Bytes.ofNatBE 3 m.length ++ [edition])

def encode : Bytes :=
  m.indicator ++ (m.product ++ (m.grid.getD [] ++ (m.bitmap.getD [] ++
    (m.data ++ (m.padding ++ trailer)))))

def contents : List TypedBytes :=
  ⟨indicatorKind, m.indicator⟩ :: Section.product.content m.product ::
    m.otherSections.map fun x => x.1.content x.2

/-- A message with the gap before it, in a stream. -/
def streamFrame (gap : Bytes) : StreamFrame where
  gap
  bytes := m.encode
  parts := offsetsFrom (fun _ => []) 0 m.contents

/-- The sections are whole, the flags announce the optional ones, and the length is one that
its field can hold without the mark of large messages. -/
structure WellFormed : Prop where
  product : Section.product.Holds m.product
  grid : ∀ bs ∈ m.grid, Section.grid.Holds bs
  bitmap : ∀ bs ∈ m.bitmap, Section.bitmap.Holds bs
  data : Section.data.Holds m.data
  hasGrid : m.grid.isSome ↔ m.flags &&& 0x80 ≠ 0
  hasBitmap : m.bitmap.isSome ↔ m.flags &&& 0x40 ≠ 0
  length_lt : m.length < largeMark

theorem encode_eq : m.encode = packWith (fun _ => []) m.contents ++ (m.padding ++ trailer) := by
  cases hgrid : m.grid <;> cases hbitmap : m.bitmap <;>
    simp [encode, contents, packWith, otherSections, Section.content, hgrid, hbitmap]

theorem length_indicator : m.indicator.length = indicatorLength := by
  simp [indicator, magic, indicatorLength]

theorem trailer_suffix (m : Message) : trailer <:+ m.encode := by
  rw [m.encode_eq, ← List.append_assoc]
  exact List.suffix_append _ _

theorem length_encode : m.encode.length = m.length := by
  simp only [encode, length, List.length_append, length_indicator]

theorem otherSections_eq :
    m.otherSections = optionalSections m.grid m.bitmap ++ [(Section.data, m.data)] := by
  rw [otherSections, optionalSections, List.append_assoc]

/-- The other sections are those that the flags announce, and the data. -/
theorem map_otherSections (h : m.WellFormed) :
    m.otherSections.map (·.1) = Section.announced m.flags ++ [.data] := by
  rw [otherSections_eq, List.map_append, map_optionalSections h.hasGrid h.hasBitmap]
  rfl

theorem holds_otherSections (h : m.WellFormed) : ∀ x ∈ m.otherSections, x.1.Holds x.2 := by
  intro x hx
  rw [otherSections_eq, List.mem_append] at hx
  rcases hx with hx | hx
  · exact holds_optionalSections h.grid h.bitmap x hx
  · obtain rfl := List.mem_singleton.mp hx
    exact h.data

/-- The sections behind the product definition, one behind the other. -/
def otherBytes : Bytes := packWith (fun _ => []) (m.otherSections.map fun x => x.1.content x.2)

theorem packWith_contents :
    packWith (fun _ => []) m.contents = m.indicator ++ (m.product ++ m.otherBytes) := by
  rw [contents, packWith_cons, packWith_cons]
  rfl

theorem hasAt_contents : m.encode.HasAt 0 (packWith (fun _ => []) m.contents) := by
  rw [encode_eq]
  exact List.prefix_append _ _

theorem hasAt_sections : m.encode.HasAt indicatorLength m.product ∧
    m.encode.HasAt (indicatorLength + m.product.length) m.otherBytes := by
  have hat := m.hasAt_contents
  rw [packWith_contents, Bytes.hasAt_append, length_indicator, Bytes.hasAt_append] at hat
  simpa using hat.2

theorem length_eq : m.length = indicatorLength + (m.product.length +
    (m.otherBytes.length + (m.padding.length + trailer.length))) := by
  rw [← length_encode, encode_eq, packWith_contents]
  simp only [List.length_append, length_indicator]
  omega

theorem hasAt_indicator {bs : Bytes} {start : Nat} (h : bs.HasAt start m.encode) :
    bs.HasAt (start + magic.length) (Bytes.ofNatBE 3 m.length) ∧
      bs.HasAt (start + magic.length + 3) [edition] := by
  obtain ⟨hindicator, -⟩ := Bytes.hasAt_append.mp h
  obtain ⟨-, hrest⟩ := Bytes.hasAt_append.mp hindicator
  obtain ⟨hlength, hedition⟩ := Bytes.hasAt_append.mp hrest
  rw [Bytes.length_ofNatBE] at hedition
  exact ⟨hlength, hedition⟩

theorem parts_streamFrame (gap : Bytes) : ∀ part ∈ (m.streamFrame gap).parts,
    m.encode.HasAt part.1 part.2.data ∧ part.1 + part.2.data.length ≤ m.encode.length := by
  intro part hpart
  obtain ⟨hat, hle⟩ := offsetsFrom_facts m.hasAt_contents part hpart
  have hlen := congrArg List.length m.encode_eq
  rw [List.length_append] at hlen
  exact ⟨hat, by omega⟩

/-- **Division.** A message is divided into the sections it was built from. -/
theorem divide_encode (gap : Bytes) (h : m.WellFormed) :
    divide m.encode = .ok (m.streamFrame gap).spans := by
  obtain ⟨hproduct, hothers⟩ := m.hasAt_sections
  have hsize := m.length_eq
  rw [← length_encode] at hsize
  have hspans := Section.spans_eq m.otherSections (m.holds_otherSections h) hothers
    (show _ ≤ m.encode.length - trailer.length by
      have hlen : (packWith (fun _ => []) (m.otherSections.map fun x => x.1.content x.2)).length =
          m.otherBytes.length := rfl
      omega)
  -- the sections that are looked for are the ones that are there
  rw [m.map_otherSections h, flags] at hspans
  have hmagic : m.encode.HasAt 0 magic := by
    show magic <+: m.encode
    rw [encode, indicator, List.append_assoc]
    exact List.prefix_append _ _
  rw [divide_eq hmagic h.product hproduct (by omega), hspans]
  simp [Except.map, streamFrame, StreamFrame.spans, contents, offsetsFrom, length_indicator]

end Message

/-! ## §3 Streams -/

/-- A scan for messages. -/
def plainScan (settings : ScanSettings) (bytes : Bytes) : PlainScan where
  format := standard
  view := view largeLength?
  settings
  bytes

/-- A length without the mark of large messages is not repaired. -/
theorem largeLength_of_lt {bs : Bytes} {p : Preamble} (h : p.field < largeMark) :
    largeLength? bs p = none := by
  have hmark : isLarge p.field = false := by
    rw [isLarge, Nat.div_eq_of_lt h]
    rfl
  rw [largeLength?, hmark]
  rfl

/-- A magic before a length and the edition is one of ours, and declares that length. -/
theorem preamble_of_field {bs : Bytes} {start n : Nat} (settings : ScanSettings)
    (hlength : bs.HasAt (start + magic.length) (Bytes.ofNatBE 3 n))
    (hedition : bs.HasAt (start + magic.length + 3) [edition]) (hn : n < 256 ^ 3) :
    (plainScan settings bs).view.preamble bs start =
      some ⟨start + magic.length + 4, some ⟨start, n, n⟩⟩ := by
  show (Bytes.natAt? _ _ _).bind _ = _
  rw [hlength.natAt_eq (by decide) hn, Option.bind_some, hedition.byteAt_eq]
  rfl

/-- A well-formed message is read as a whole. -/
theorem readsFrame {gap bytes : Bytes} {m : Message} {settings : ScanSettings}
    (hgap : gap.firstOccurrence magic 0 = none) (h : m.WellFormed) :
    (plainScan settings bytes).ReadsFrame (m.streamFrame gap) := by
  apply PlainScan.readsFrame_of_honest
  case hne => exact List.cons_ne_nil _ _
  case hfirst =>
    show (gap ++ m.encode).firstOccurrence magic 0 = some gap.length
    have hmagic : m.encode = magic ++ m.encode.drop magic.length := rfl
    rw [hmagic]
    exact Bytes.firstOccurrence_behind _ (by decide) hgap
  case hpreamble =>
    intro start hat
    obtain ⟨hlength, hedition⟩ := m.hasAt_indicator hat
    -- an ordinary length leaves the mark of a large message alone
    have hsmall : m.length < 256 ^ 3 := Nat.lt_trans h.length_lt (by decide)
    exact ⟨_, _, preamble_of_field settings hlength hedition hsmall,
      largeLength_of_lt h.length_lt, m.length_encode.symm⟩
  case hmin => exact minLength_le_of_divide (m.divide_encode gap h)
  case htrailer => exact m.trailer_suffix
  case hdivide => exact m.divide_encode gap h
  case hparts => exact m.parts_streamFrame gap

/-- **GRIB streams.** A scan of well-formed messages, each behind a gap without a magic, gives
every one of them with its sections and nothing else, whatever the sections hold. -/
theorem scan_yields_messages (settings : ScanSettings) (items : List (Bytes × Message))
    (last : Bytes) (hmessages : ∀ x ∈ items, x.2.WellFormed)
    (hgaps : ∀ x ∈ items, x.1.firstOccurrence magic 0 = none)
    (hlast : last.firstOccurrence magic 0 = none)
    (source : Source) (hsteady : source.NeverFails)
    (hbytes : source.bytes = join (items.map fun x => x.2.streamFrame x.1) ++ last) :
    (Scanner.start source standard settings).Yields (items.map fun x => x.2.streamFrame x.1) := by
  have hdescribes : (plainScan settings source.bytes).Describes source :=
    ⟨hsteady, rfl, format_readsAs largeMessageRepair_readsAs⟩
  have hclean : (plainScan settings source.bytes).Clean
      (items.map fun x => x.2.streamFrame x.1) last := by
    refine ⟨hbytes, ?_, hlast⟩
    intro f hf
    obtain ⟨x, hx, rfl⟩ := List.mem_map.mp hf
    exact readsFrame (hgaps x hx) (hmessages x hx)
  exact hclean.yields hdescribes

/-- A message with a bit map, a byte of padding, and another magic in its data. -/
def sample : Message where
  product := [0, 0, 8, 1, 7, 0, 0, 0x40]
  grid := none
  bitmap := some [0, 0, 3]
  data := [0, 0, 11, 0x47, 0x52, 0x49, 0x42, 0, 0, 0, 0]
  padding := [0]

theorem wellFormed_sample : sample.WellFormed where
  product := ⟨by decide, by decide, by decide⟩
  grid _ h := by cases h
  bitmap bs h := by
    cases h
    exact ⟨by decide, by decide, by decide⟩
  data := ⟨by decide, by decide, by decide⟩
  hasGrid := by decide
  hasBitmap := by decide
  length_lt := by decide

theorem scan_yields_sample_message :
    sample.WellFormed ∧ Bytes.firstOccurrence [0x47, 0x52] magic 0 = none ∧
      ∃ record, (Scanner.start (.ofBytes ([0x47, 0x52] ++ sample.encode)) standard {}).next.1 =
          .ok (some record) ∧
        record.header = [0x47, 0x52] ∧ record.start = 2 ∧ record.stop = 37 := by
  have hgap : Bytes.firstOccurrence [0x47, 0x52] magic 0 = none := by decide
  refine ⟨wellFormed_sample, hgap, ?_⟩
  obtain ⟨-, record, hnext, hshows⟩ := scan_yields_messages {} [([0x47, 0x52], sample)] []
    (by simpa using wellFormed_sample) (by simpa using hgap) (by decide)
    (.ofBytes ([0x47, 0x52] ++ sample.encode)) (Source.neverFails_ofBytes _) (by decide) 0
  exact ⟨record, hnext, hshows.header_eq, hshows.start_eq, hshows.stop_eq⟩

end Granule.Grib1
