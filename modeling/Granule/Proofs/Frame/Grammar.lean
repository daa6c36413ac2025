import Granule.Proofs.Frame.LargeMessage

/-!
# The Grammar of Sections

Division of a message is held against a grammar that speaks of neither offsets nor
limits: an indicator, a product definition, the two optional sections that its flags
announce, the binary data, and at least four bytes more. Each section starts with its
own length. A frame is divided exactly when it is such a message, and into the sections
that the grammar finds in it.

**Main statements**:
- `Grib1.Section.spans_eq_ok_iff` : sections are found where they lie one behind the other
- `Grib1.divideChecked_eq` : no byte outside of a frame is ever looked at
- `Grib1.divide_follows_grammar` : which frames are divided, how, and what is said of the others
-/

namespace Granule

namespace Grib1

/-! ## §1 Sections one behind the other -/

namespace Section

/-- Where sections lie of which the first one starts at `pos`: each starts where the one before it
stops. -/
def spansFrom : (pos : Nat) → List (Section × Bytes) → List Span
  | _, [] => []
  | pos, (s, bs) :: rest => ⟨s.kind, pos, pos + bs.length⟩ :: spansFrom (pos + bs.length) rest

variable {frame : Bytes} {limit pos : Nat}

/-- Bytes of a frame that are as many as the first three of them say are a section. -/
theorem holds_between {s : Section} {length : Nat}
    (hlength : Bytes.toNatBE (frame.between pos (pos + lengthWidth)) = length)
    (hwidth : lengthWidth ≤ length) (hmin : s.minLength ≤ length)
    (hinside : pos + length ≤ frame.length) :
    s.Holds (frame.between pos (pos + length)) ∧
      (frame.between pos (pos + length)).length = length := by
  have hlen : (frame.between pos (pos + length)).length = length := by
    rw [Bytes.length_between _ hinside, Nat.add_sub_cancel_left]
  have hfield : (frame.between pos (pos + lengthWidth)).length = lengthWidth := by
    rw [Bytes.length_between _ (by omega), Nat.add_sub_cancel_left]
  have hlt := Bytes.toNatBE_lt (frame.between pos (pos + lengthWidth))
  have hback := Bytes.ofNatBE_toNatBE (frame.between pos (pos + lengthWidth))
  have hsplit := frame.between_append_between (Nat.le_add_right pos lengthWidth)
    (Nat.add_le_add_left hwidth pos)
  rw [hfield, hlength] at hlt hback
  refine ⟨⟨?_, by rwa [hlen], by rwa [hlen]⟩, hlen⟩
  rw [hlen, hback, ← hsplit]
  exact List.prefix_append _ _

/-- A section is found where the bytes of one lie before the limit. -/
theorem span_eq_ok_iff {s : Section} {found : Span} (hlimit : limit ≤ frame.length) :
    s.span frame limit pos = .ok found ↔
      ∃ bs, s.Holds bs ∧ frame.HasAt pos bs ∧ pos + bs.length ≤ limit ∧
        found = ⟨s.kind, pos, pos + bs.length⟩ := by
  constructor
  · intro h
    unfold span at h
    split at h
    · cases h
    · simp only at h
      split at h
      · cases h
      · rename_i hlength
        split at h
        · cases h
        · rename_i hmin
          cases h
          obtain ⟨hholds, hlen⟩ := holds_between (s := s) rfl (by omega) (Nat.not_lt.mp hmin)
            (show pos + Bytes.toNatBE (frame.between pos (pos + lengthWidth)) ≤ frame.length by
              omega)
          exact ⟨_, hholds, Bytes.hasAt_between _ _ _, by omega, by rw [hlen]⟩
  · rintro ⟨bs, hholds, hat, hstop, rfl⟩
    exact hholds.span_eq hat hstop

/-- Sections are found where they lie one behind the other before the limit. -/
theorem spans_eq_ok_iff {sections : List Section} {found : List Span}
    (hlimit : limit ≤ frame.length) (hpos : pos ≤ limit) :
    spans frame limit pos sections = .ok found ↔
      ∃ held : List (Section × Bytes), held.map (·.1) = sections ∧ (∀ x ∈ held, x.1.Holds x.2) ∧
        frame.HasAt pos (packSections held) ∧ pos + (packSections held).length ≤ limit ∧
        found = spansFrom pos held := by
  -- on the sections: the first one takes up the front, and the others what is behind it
  induction sections generalizing pos found with
  | nil =>
    constructor
    · rintro ⟨⟩
      exact ⟨[], rfl, by simp, Bytes.hasAt_nil _ _, hpos, rfl⟩
    · rintro ⟨held, hheld, -, -, -, rfl⟩
      rw [List.map_eq_nil_iff.mp hheld]
      rfl
  | cons s rest ih =>
    constructor
    · intro h
      rw [spans] at h
      cases hspan : s.span frame limit pos with
      | error e => rw [hspan] at h; cases h
      | ok first =>
        obtain ⟨bs, hholds, hat, hstop, rfl⟩ := (span_eq_ok_iff hlimit).mp hspan
        cases hrest : spans frame limit (pos + bs.length) rest with
        | error e => simp [hspan, hrest, Except.map] at h
        | ok more =>
          simp only [hspan, hrest, Except.map, Except.ok.injEq] at h
          obtain ⟨held, rfl, hheld, hbehind, hend, rfl⟩ := (ih hstop).mp hrest
          refine ⟨(s, bs) :: held, rfl, List.forall_mem_cons.mpr ⟨hholds, hheld⟩, ?_, ?_, h.symm⟩
          · rw [packSections_cons]
            exact Bytes.hasAt_append.mpr ⟨hat, hbehind⟩
          · rw [packSections_cons, List.length_append, ← Nat.add_assoc]
            exact hend
    · rintro ⟨held, hheld, hholds, hat, hstop, rfl⟩
      obtain ⟨⟨s', bs⟩, others, rfl, rfl, rfl⟩ := List.map_eq_cons_iff.mp hheld
      obtain ⟨hfirst, hothers⟩ := List.forall_mem_cons.mp hholds
      rw [packSections_cons] at hat hstop
      obtain ⟨hfront, hbehind⟩ := Bytes.hasAt_append.mp hat
      rw [List.length_append, ← Nat.add_assoc] at hstop
      simp only at hfirst hfront hbehind hstop
      have hrest : spans frame limit (pos + bs.length) (others.map (·.1)) =
          .ok (spansFrom (pos + bs.length) others) :=
        (ih (by omega)).mpr ⟨others, rfl, hothers, hbehind, hstop, rfl⟩
      rw [spans, hfirst.span_eq hfront (by omega)]
      simp only [hrest]
      rfl

end Section

/-- An optional section that is there exactly when it is announced. -/
private theorem exists_toList (s : Section) {held : List (Section × Bytes)} {announced : Prop}
    [Decidable announced] (h : held.map (·.1) = if announced then [s] else []) :
    ∃ bs : Option Bytes, held = bs.toList.map (s, ·) ∧ (bs.isSome ↔ announced) := by
  split at h
  · rename_i ha
    obtain ⟨⟨s', bs⟩, none, rfl, rfl, hnone⟩ := List.map_eq_cons_iff.mp h
    obtain rfl := List.map_eq_nil_iff.mp hnone
    exact ⟨some bs, rfl, by simp [ha]⟩
  · rename_i ha
    exact ⟨none, List.map_eq_nil_iff.mp h, by simp [ha]⟩

/-- Sections of the announced kinds are optional sections that are there, and the data. -/
theorem exists_otherSections {held : List (Section × Bytes)} {flags : UInt8}
    (h : held.map (·.1) = Section.announced flags ++ [.data]) :
    ∃ (grid bitmap : Option Bytes) (data : Bytes),
      held = optionalSections grid bitmap ++ [(.data, data)] ∧
        (grid.isSome ↔ flags &&& 0x80 ≠ 0) ∧ (bitmap.isSome ↔ flags &&& 0x40 ≠ 0) := by
  obtain ⟨optional, last, rfl, hoptional, hlast⟩ := List.map_eq_append_iff.mp h
  obtain ⟨first, second, rfl, hfirst, hsecond⟩ := List.map_eq_append_iff.mp hoptional
  obtain ⟨grid, rfl, hgrid⟩ := exists_toList .grid hfirst
  obtain ⟨bitmap, rfl, hbitmap⟩ := exists_toList .bitmap hsecond
  obtain ⟨⟨s, data⟩, none, rfl, hs, hnone⟩ := List.map_eq_cons_iff.mp hlast
  obtain rfl := List.map_eq_nil_iff.mp hnone
  obtain rfl : s = .data := hs
  exact ⟨grid, bitmap, data, rfl, hgrid, hbitmap⟩

/-! ## §2 The grammar -/

/-- The pieces of a message. The rest is all that comes after the data, with whatever stands in the
place of the trailer. -/
structure Layout where
  indicator : Bytes
  product : Bytes
  grid : Option Bytes
  bitmap : Option Bytes
  data : Bytes
  rest : Bytes

namespace Layout

def sections (m : Layout) : List (Section × Bytes) :=
  (.product, m.product) :: (optionalSections m.grid m.bitmap ++ [(.data, m.data)])

def bytes (m : Layout) : Bytes := m.indicator ++ (packSections m.sections ++ m.rest)

/-- Where the indicator and the sections lie, one behind the other. -/
def spans (m : Layout) : List Span :=
  ⟨indicatorKind, 0, indicatorLength⟩ :: Section.spansFrom indicatorLength m.sections

/-- The pieces are those of a message: sections start with their own length and have room for their
fixed fields, and the flags of the product definition say which of the optional ones are there. -/
structure Grammatical (m : Layout) : Prop where
  magic_prefix : magic <+: m.indicator
  indicator_length : m.indicator.length = 8
  product : Section.product.Holds m.product
  grid : ∀ bs ∈ m.grid, Section.grid.Holds bs
  bitmap : ∀ bs ∈ m.bitmap, Section.bitmap.Holds bs
  data : Section.data.Holds m.data
  hasGrid : m.grid.isSome ↔ m.product.getD 7 0 &&& 0x80 ≠ 0
  hasBitmap : m.bitmap.isSome ↔ m.product.getD 7 0 &&& 0x40 ≠ 0
  rest_length : 4 ≤ m.rest.length

variable {m : Layout}

/-- The sections behind the product definition are those that are announced, and the data. -/
theorem Grammatical.map_sections (h : m.Grammatical) :
    m.sections.map (·.1) =
      .product :: (Section.announced (m.product.getD flagsOffset 0) ++ [.data]) := by
  rw [sections, List.map_cons, List.map_append, map_optionalSections h.hasGrid h.hasBitmap]
  rfl

theorem Grammatical.holds_sections (h : m.Grammatical) : ∀ x ∈ m.sections, x.1.Holds x.2 := by
  refine List.forall_mem_cons.mpr ⟨h.product, fun x hx => ?_⟩
  rcases List.mem_append.mp hx with hx | hx
  · exact holds_optionalSections h.grid h.bitmap x hx
  · rw [List.mem_singleton.mp hx]
    exact h.data

theorem Grammatical.length_bytes (h : m.Grammatical) :
    m.bytes.length = 8 + (packSections m.sections).length + m.rest.length := by
  rw [bytes, List.length_append, List.length_append, h.indicator_length, Nat.add_assoc]

/-- The sections lie behind the indicator. -/
theorem Grammatical.hasAt_sections (h : m.Grammatical) :
    m.bytes.HasAt indicatorLength (packSections m.sections) := by
  have hat := Bytes.hasAt_middle m.indicator (packSections m.sections) m.rest
  rwa [h.indicator_length] at hat

/-- A message is divided into its sections. -/
theorem Grammatical.divide_eq (h : m.Grammatical) : divide m.bytes = .ok m.spans := by
  have hlen := h.length_bytes
  have hat := h.hasAt_sections
  have hrest := h.rest_length
  have hmagic : m.bytes.HasAt 0 magic := h.magic_prefix.trans (List.prefix_append _ _)
  have hindicator : indicatorLength = 8 := rfl
  have htrailer : trailer.length = 4 := rfl
  rw [sections, packSections_cons] at hat hlen
  obtain ⟨hproduct, hothers⟩ := Bytes.hasAt_append.mp hat
  rw [List.length_append] at hlen
  simp only at hproduct hothers hlen
  have hholds : ∀ x ∈ optionalSections m.grid m.bitmap ++ [(.data, m.data)], x.1.Holds x.2 :=
    fun x hx => h.holds_sections x (List.mem_cons_of_mem _ hx)
  -- the sections behind the first one, which says in its flags which of them there are
  have hspans : Section.spans m.bytes (m.bytes.length - trailer.length)
      (indicatorLength + m.product.length)
      (Section.announced (m.product.getD flagsOffset 0) ++ [.data]) = .ok _ :=
    (Section.spans_eq_ok_iff (Nat.sub_le _ _) (by omega)).mpr
      ⟨_, (List.cons.inj h.map_sections).2, hholds, hothers, by omega, rfl⟩
  rw [Grib1.divide_eq hmagic h.product hproduct (by omega), hspans]
  rfl

end Layout

/-- A frame that is divided starts with the magic. -/
theorem magic_prefix_of_divide {frame : Bytes} {spans : List Span} (h : divide frame = .ok spans) :
    magic <+: frame := by
  unfold divide at h
  simp only at h
  split at h
  · cases h
  · split at h
    · rename_i hstarts
      exact List.isPrefixOf_iff_prefix.mp hstarts
    · cases h

/-- Sections behind a magic, before the last four bytes, are those of a message. -/
theorem exists_layout {frame product data : Bytes} {grid bitmap : Option Bytes}
    (hmagic : magic <+: frame)
    (hholds : ∀ x ∈ (.product, product) :: (optionalSections grid bitmap ++ [(.data, data)]),
      x.1.Holds x.2)
    (hgrid : grid.isSome ↔ product.getD 7 0 &&& 0x80 ≠ 0)
    (hbitmap : bitmap.isSome ↔ product.getD 7 0 &&& 0x40 ≠ 0)
    (hat : frame.HasAt indicatorLength
      (packSections ((.product, product) :: (optionalSections grid bitmap ++ [(.data, data)]))))
    (hroom : indicatorLength + (packSections
      ((.product, product) :: (optionalSections grid bitmap ++ [(.data, data)]))).length +
        trailer.length ≤ frame.length) :
    ∃ rest, let m : Layout := ⟨frame.take indicatorLength, product, grid, bitmap, data, rest⟩
      m.Grammatical ∧ m.bytes = frame := by
  -- what is behind the sections, the trailer included, is the rest of the layout
  obtain ⟨rest, hrest⟩ := hat
  have hlen := congrArg List.length hrest
  rw [List.length_append, List.length_drop] at hlen
  have hindicator : indicatorLength = 8 := rfl
  have htrailer : trailer.length = 4 := rfl
  obtain ⟨hproduct, hothers⟩ := List.forall_mem_cons.mp hholds
  refine ⟨rest, ⟨List.prefix_take_iff.mpr ⟨hmagic, by decide⟩, ?_, hproduct, ?_, ?_, ?_, hgrid,
    hbitmap, ?_⟩, ?_⟩
  · rw [List.length_take]
    omega
  · intro bs hbs
    refine hothers (.grid, bs) (List.mem_append_left _ (List.mem_append_left _ ?_))
    exact List.mem_map_of_mem (Option.mem_toList.mpr hbs)
  · intro bs hbs
    refine hothers (.bitmap, bs) (List.mem_append_left _ (List.mem_append_right _ ?_))
    exact List.mem_map_of_mem (Option.mem_toList.mpr hbs)
  · exact hothers (.data, data) List.mem_concat_self
  · show 4 ≤ rest.length
    omega
  · rw [Layout.bytes, Layout.sections, hrest, List.take_append_drop]

/-- A frame that is divided is a message, and its parts are the sections of the message. -/
theorem exists_layout_of_divide {frame : Bytes} {spans : List Span}
    (h : divide frame = .ok spans) :
    ∃ m : Layout, m.Grammatical ∧ m.bytes = frame ∧ spans = m.spans := by
  have hlong : 12 ≤ frame.length := minLength_le_of_divide h
  have htrailer : trailer.length = 4 := rfl
  have hlimit : frame.length - trailer.length ≤ frame.length := Nat.sub_le _ _
  have hmagic := magic_prefix_of_divide h
  obtain ⟨found, others, hproduct, hothers, rfl⟩ := exists_of_divide h
  obtain ⟨product, hholds, hat, hstop, rfl⟩ := (Section.span_eq_ok_iff hlimit).mp hproduct
  obtain ⟨held, hheld, hholdsAll, hatAll, hstopAll, rfl⟩ :=
    (Section.spans_eq_ok_iff hlimit hstop).mp hothers
  -- the flags that were read from the frame are those of the product definition
  have hflags : frame.getD (indicatorLength + flagsOffset) 0 = product.getD flagsOffset 0 := by
    have hmin : flagsOffset < product.length := hholds.minLength_le
    rw [List.getD_eq_getElem?_getD, hat.getElem?_eq hmin, List.getD_eq_getElem?_getD]
  rw [hflags] at hheld
  obtain ⟨grid, bitmap, data, rfl, hgrid, hbitmap⟩ := exists_otherSections hheld
  have hroom : indicatorLength + (product ++
      packSections (optionalSections grid bitmap ++ [(.data, data)])).length + trailer.length ≤
        frame.length := by
    rw [List.length_append]
    omega
  obtain ⟨rest, hm, hbytes⟩ := exists_layout hmagic
    (List.forall_mem_cons.mpr ⟨hholds, hholdsAll⟩) hgrid hbitmap
    (packSections_cons _ _ ▸ Bytes.hasAt_append.mpr ⟨hat, hatAll⟩)
    (packSections_cons _ _ ▸ hroom)
  exact ⟨_, hm, hbytes, rfl⟩

/-! ## §3 Looking at bytes under check -/

/-- The section at `pos` like `Section.span`, but giving up where a byte is to be looked at that the
frame does not have. -/
def Section.spanChecked (s : Section) (frame : Bytes) (limit pos : Nat) :
    Option (Except DivisionError Span) :=
  if limit < pos + lengthWidth then some (.error (.malformed (.sectionStart s.name pos)))
  else
    (frame.slice? pos lengthWidth).map fun field =>
      let length := Bytes.toNatBE field
      if length < lengthWidth ∨ limit < pos + length then
        .error (.malformed (.sectionLength s.name length pos frame.length))
      else if length < s.minLength then .error (.malformed (.sectionShort s.name length))
      else .ok ⟨s.kind, pos, pos + length⟩

/-- Several sections like `Section.spans`, under check. -/
def Section.spansChecked (frame : Bytes) (limit : Nat) : (pos : Nat) → List Section →
    Option (Except DivisionError (List Span))
  | _, [] => some (.ok [])
  | pos, s :: rest =>
    match s.spanChecked frame limit pos with
    | none => none
    | some (.error e) => some (.error e)
    | some (.ok found) =>
      (spansChecked frame limit found.stop rest).map fun spans => spans.map (found :: ·)

/-- Divides a message like `divide`, under check. -/
def divideChecked (frame : Bytes) : Option (Except DivisionError (List Span)) :=
  let size := frame.length
  if size < minLength then some (.error (.truncated minLength size))
  else if magic.isPrefixOf frame then
    let limit := size - trailer.length
    match Section.spanChecked .product frame limit indicatorLength with
    | none => none
    | some (.error e) => some (.error e)
    | some (.ok product) =>
      match frame[indicatorLength + flagsOffset]? with
      | none => none
      | some flags =>
        (Section.spansChecked frame limit product.stop (Section.announced flags ++ [.data])).map
          fun rest => rest.map (⟨indicatorKind, 0, indicatorLength⟩ :: product :: ·)
  else some (.error (.malformed (.start "GRIB")))

namespace Section

variable {frame : Bytes} {limit : Nat}

theorem spanChecked_eq (s : Section) (hlimit : limit ≤ frame.length) (pos : Nat) :
    s.spanChecked frame limit pos = some (s.span frame limit pos) := by
  unfold spanChecked span
  split
  · rfl
  · rw [Bytes.slice?_of_le (by omega)]
    rfl

theorem spansChecked_eq (sections : List Section) (hlimit : limit ≤ frame.length) (pos : Nat) :
    spansChecked frame limit pos sections = some (spans frame limit pos sections) := by
  induction sections generalizing pos with
  | nil => rfl
  | cons s rest ih =>
    rw [spansChecked, spans, spanChecked_eq s hlimit]
    cases s.span frame limit pos with
    | error e => rfl
    | ok found => simp only [ih, Option.map_some]

end Section

/-- **No byte outside of a frame is ever looked at** when it is divided. -/
theorem divideChecked_eq (frame : Bytes) : divideChecked frame = some (divide frame) := by
  have hlimit : frame.length - trailer.length ≤ frame.length := Nat.sub_le _ _
  unfold divideChecked divide
  simp only [Section.spanChecked_eq _ hlimit, Section.spansChecked_eq _ hlimit]
  split_ifs
  · rfl
  · cases hproduct : Section.span .product frame (frame.length - trailer.length) indicatorLength with
    | error e => rfl
    | ok product =>
      -- the product definition that was found has a byte for the flags
      obtain ⟨bs, hholds, hat, hstop, -⟩ := (Section.span_eq_ok_iff hlimit).mp hproduct
      have hflags : indicatorLength + flagsOffset < frame.length := by
        have hmin : flagsOffset < bs.length := hholds.minLength_le
        omega
      simp only [List.getElem?_eq_getElem hflags, List.getD_eq_getElem?_getD, Option.getD_some,
        Option.map_some]
  · rfl

/-! ## §4 Division -/

/-- A section that is refused is malformed. -/
theorem Section.exists_malformed_of_span {s : Section} {frame : Bytes} {limit pos : Nat}
    {e : DivisionError} (h : s.span frame limit pos = .error e) : ∃ how, e = .malformed how := by
  unfold span at h
  simp only at h
  split_ifs at h <;> cases h <;> exact ⟨_, rfl⟩

theorem Section.exists_malformed_of_spans {sections : List Section} {frame : Bytes}
    {limit pos : Nat} {e : DivisionError} (h : spans frame limit pos sections = .error e) :
    ∃ how, e = .malformed how := by
  induction sections generalizing pos with
  | nil => cases h
  | cons s rest ih =>
    rw [spans] at h
    cases hspan : s.span frame limit pos with
    | error e' =>
      rw [hspan] at h
      cases h
      exact exists_malformed_of_span hspan
    | ok found =>
      cases hrest : spans frame limit found.stop rest with
      | error e' =>
        simp only [hspan, hrest] at h
        cases h
        exact ih hrest
      | ok more => simp [hspan, hrest, Except.map] at h

/-- A frame that is long enough and is refused is malformed. -/
theorem exists_malformed_of_divide {frame : Bytes} {e : DivisionError}
    (hlong : minLength ≤ frame.length) (h : divide frame = .error e) :
    ∃ how, e = .malformed how := by
  unfold divide at h
  simp only [if_neg (Nat.not_lt.mpr hlong)] at h
  -- behind the length check it is the magic or a section that is refused
  split at h
  · split at h
    · rename_i hproduct
      cases h
      exact Section.exists_malformed_of_span hproduct
    · rename_i product hproduct
      cases hrest : Section.spans frame (frame.length - trailer.length) product.stop
          (Section.announced (frame.getD (indicatorLength + flagsOffset) 0) ++ [.data]) with
      | error e' =>
        rw [hrest] at h
        cases h
        exact Section.exists_malformed_of_spans hrest
      | ok rest =>
        rw [hrest] at h
        cases h
  · cases h
    exact ⟨_, rfl⟩

/-- **Division follows the grammar.** A frame is divided exactly when it is a message, and then into
the indicator and the sections; it is called truncated when it has fewer than twelve bytes, and any
other frame that is no message is called malformed; and no byte outside of it is looked at. -/
theorem divide_follows_grammar (frame : Bytes) :
    (∀ spans, divide frame = .ok spans ↔
        ∃ m : Layout, m.Grammatical ∧ m.bytes = frame ∧ spans = m.spans) ∧
      (divide frame = .error (.truncated 12 frame.length) ↔ frame.length < 12) ∧
      ((∃ how, divide frame = .error (.malformed how)) ↔
        12 ≤ frame.length ∧ ¬ ∃ m : Layout, m.Grammatical ∧ m.bytes = frame) ∧
      divideChecked frame = some (divide frame) := by
  have hshort : frame.length < 12 → divide frame = .error (.truncated 12 frame.length) :=
    fun h => if_pos h
  refine ⟨fun spans => ⟨exists_layout_of_divide, ?message⟩, ⟨?truncated, hshort⟩,
    ⟨?malformed, ?other⟩, divideChecked_eq frame⟩
  case message =>
    rintro ⟨m, hm, rfl, rfl⟩
    exact hm.divide_eq
  case truncated =>
    intro h
    refine Nat.lt_of_not_le fun hlong => ?_
    obtain ⟨how, hhow⟩ := exists_malformed_of_divide hlong h
    cases hhow
  case malformed =>
    rintro ⟨how, hhow⟩
    refine ⟨Nat.le_of_not_lt fun h => ?_, ?_⟩
    · rw [hshort h] at hhow
      cases hhow
    · rintro ⟨m, hm, rfl⟩
      rw [hm.divide_eq] at hhow
      cases hhow
  case other =>
    rintro ⟨hlong, hnone⟩
    -- a frame that is divided follows the grammar, so this one is refused
    cases hdivide : divide frame with
    | ok spans =>
      obtain ⟨m, hm, hbytes, -⟩ := exists_layout_of_divide hdivide
      exact absurd ⟨m, hm, hbytes⟩ hnone
    | error e =>
      obtain ⟨how, rfl⟩ := exists_malformed_of_divide hlong hdivide
      exact ⟨how, rfl⟩

/-- A message with a bit map, whose last four bytes are no trailer. -/
example : divide ([0x47, 0x52, 0x49, 0x42, 0, 0, 0, 0] ++ [0, 0, 8, 0, 0, 0, 0, 0x40] ++ [0, 0, 3] ++
    [0, 0, 11, 0, 0, 0, 0, 0, 0, 0, 0] ++ [1, 2, 3, 4]) =
      .ok [⟨0, 0, 8⟩, ⟨1, 8, 16⟩, ⟨3, 16, 19⟩, ⟨4, 19, 30⟩] := by
  decide +kernel

end Grib1

end Granule
