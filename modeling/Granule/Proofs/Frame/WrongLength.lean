import Granule.Proofs.Frame.ImpliedEnd
import Granule.Proofs.Scan.Rest

/-!
# Messages With a Wrong Length

The length field of a message is the only part of it that the inner structure does not need. When
another number stands there, a scan that accepts implied ends looks for a trailer where this number
says, and, as there is none, where the data section ends. It takes up the message as it was, but
for the bytes of the length field itself.

What follows the message is untouched, and so is the table, as an indicator is not kept in it. Two
scans of bytes that are the same from some offset on give the same once both are behind it, and so
the wrong number is forgotten with the message that has it.

**Main statements**:
- `PlainScan.MeetsAt.next_eq` : scans that meet at an offset go on alike behind it
- `Grib1.Message.verdict_encodeWith` : a message with a wrong length is divided like the right one
- `Grib1.wrong_length_rescued` : it is taken up whole, and the scan goes on as it would have
-/

namespace Granule

/-! ## §1 Scans that meet -/

namespace PlainScan

/-- Two scans whose bytes are the same from an offset on, and that read them alike. -/
structure MeetsAt (r r' : PlainScan) (e : Nat) : Prop where
  cuts : r.CutsAt e
  cuts' : r'.CutsAt e
  rest_eq : r.rest e = r'.rest e

/-- Parts with the same contents are taken up alike. -/
theorem parts_congr {r r' : PlainScan} {start : Nat} {spans : List Span}
    (hformat : r.format = r'.format)
    (h : ∀ span ∈ spans, r.contentOf start span = r'.contentOf start span) (table : InternTable) :
    r.parts start spans table = r'.parts start spans table := by
  induction spans generalizing table with
  | nil => rfl
  | cons span rest ih =>
    obtain ⟨hspan, hrest⟩ := List.forall_mem_cons.mp h
    simp only [contentOf, TypedBytes.mk.injEq, true_and] at hspan
    simp only [parts, hformat, hspan, ih hrest]

namespace MeetsAt

variable {r r' : PlainScan} {e start : Nat}

theorem format_eq (h : r.MeetsAt r' e) : r.format = r'.format := by
  rw [← r.rest_format e, h.rest_eq, rest_format]

theorem settings_eq (h : r.MeetsAt r' e) : r.settings = r'.settings := by
  rw [← r.rest_settings e, h.rest_eq, rest_settings]

theorem drop_eq (h : r.MeetsAt r' e) : r.bytes.drop e = r'.bytes.drop e := congrArg bytes h.rest_eq

theorem length_eq (h : r.MeetsAt r' e) : r.bytes.length = r'.bytes.length := by
  rw [← h.cuts.length_rest, ← h.cuts'.length_rest, h.rest_eq]

theorem between_eq (h : r.MeetsAt r' e) {stop : Nat} (hstart : e ≤ start) (hstop : e ≤ stop) :
    r.bytes.between start stop = r'.bytes.between start stop := by
  obtain ⟨a, rfl⟩ := Nat.exists_eq_add_of_le hstart
  obtain ⟨b, rfl⟩ := Nat.exists_eq_add_of_le hstop
  rw [← Bytes.between_drop, ← Bytes.between_drop, h.drop_eq]

theorem hasAt_iff (h : r.MeetsAt r' e) {pos : Nat} (hpos : e ≤ pos) (part : Bytes) :
    r.bytes.HasAt pos part ↔ r'.bytes.HasAt pos part := by
  obtain ⟨k, rfl⟩ := Nat.exists_eq_add_of_le hpos
  rw [← Bytes.hasAt_drop_iff, h.drop_eq, Bytes.hasAt_drop_iff]

/-- A part that starts behind the offset has the same content. -/
theorem contentOf_eq (h : r.MeetsAt r' e) {span : Span} (hstart : e ≤ start + span.start)
    (hstop : e ≤ start + span.stop) : r.contentOf start span = r'.contentOf start span := by
  rw [contentOf, contentOf, h.between_eq hstart hstop]

theorem parts_eq (h : r.MeetsAt r' e) (hstart : e ≤ start) (spans : List Span)
    (table : InternTable) : r.parts start spans table = r'.parts start spans table :=
  parts_congr h.format_eq (fun _ _ => h.contentOf_eq (hstart.trans (Nat.le_add_right _ _))
    (hstart.trans (Nat.le_add_right _ _))) table

theorem firstOccurrence_eq (h : r.MeetsAt r' e) {pos : Nat} (hpos : e ≤ pos) :
    r.bytes.firstOccurrence r.format.magic pos = r'.bytes.firstOccurrence r'.format.magic pos := by
  obtain ⟨k, rfl⟩ := Nat.exists_eq_add_of_le hpos
  rw [Bytes.firstOccurrence_drop, Bytes.firstOccurrence_drop, h.drop_eq, h.format_eq]

/-- A magic behind the offset becomes the same in both, and a record at it ends behind the offset,
too. -/
theorem verdict_eq (h : r.MeetsAt r' e) (hstart : e ≤ start) :
    r'.verdict start = r.verdict start ∧
      ∀ stop repaired spans, r.verdict start = .record stop repaired spans → e ≤ stop := by
  obtain ⟨k, rfl⟩ := Nat.exists_eq_add_of_le hstart
  rw [h.cuts.verdict_rest, h.cuts'.verdict_rest, h.rest_eq]
  refine ⟨rfl, fun stop repaired spans hrecord => ?_⟩
  cases hverdict : (r'.rest e).verdict k with
  | foreign resume => simp [hverdict, Verdict.behind] at hrecord
  | dropped reason repaired => simp [hverdict, Verdict.behind] at hrecord
  | record stop' repaired' spans' =>
    simp only [hverdict, Verdict.behind, Verdict.record.injEq] at hrecord
    omega

theorem headerOf_eq (h : r.MeetsAt r' e) {headerFrom : Nat} (hstart : e ≤ start)
    (hfrom : e ≤ headerFrom) : r.headerOf start headerFrom = r'.headerOf start headerFrom := by
  rw [headerOf, headerOf, h.settings_eq]
  exact h.between_eq (by omega) hstart

/-- **Behind the offset** the next record is the same, and so is the state after it. -/
theorem next_eq (h : r.MeetsAt r' e) {st : State} {headerFrom : Nat} (hcursor : e ≤ st.cursor)
    (hfrom : e ≤ headerFrom) :
    r'.next st headerFrom = r.next st headerFrom ∧ e ≤ (r.next st headerFrom).2.cursor := by
  -- both go from magic to magic, and so does the induction
  fun_induction next r st headerFrom with
  | case1 st headerFrom hnone =>
    rw [next_of_none (h.firstOccurrence_eq hcursor ▸ hnone), h.length_eq]
    exact ⟨rfl, h.length_eq ▸ h.cuts.inside⟩
  | case2 st headerFrom start hfound _ resume hverdict ih =>
    have hstart : e ≤ start := hcursor.trans (Bytes.firstOccurrence_eq_some_iff.mp hfound).1
    rw [next_of_some (h.firstOccurrence_eq hcursor ▸ hfound), (h.verdict_eq hstart).1, hverdict]
    have hpass : r'.passForeign st start resume = r.passForeign st start resume := by
      rw [PlainScan.passForeign, PlainScan.passForeign, h.format_eq]
    simp only [hpass]
    exact ih (by simp only [PlainScan.passForeign]; omega) hfrom
  | case3 st headerFrom start hfound _ reason repaired hverdict ih =>
    have hstart : e ≤ start := hcursor.trans (Bytes.firstOccurrence_eq_some_iff.mp hfound).1
    rw [next_of_some (h.firstOccurrence_eq hcursor ▸ hfound), (h.verdict_eq hstart).1, hverdict]
    have hresync : r'.resyncAt start = r.resyncAt start := by
      rw [resyncAt, resyncAt, h.format_eq]
    have hlater : e ≤ r.resyncAt start := hstart.trans (Nat.le_add_right _ _)
    simp only [PlainScan.drop, hresync] at ih ⊢
    exact ih hlater hlater
  | case4 st headerFrom start hfound _ stop repaired spans hverdict =>
    have hstart : e ≤ start := hcursor.trans (Bytes.firstOccurrence_eq_some_iff.mp hfound).1
    rw [next_of_some (h.firstOccurrence_eq hcursor ▸ hfound), (h.verdict_eq hstart).1, hverdict]
    simp only [recordAt, PlainScan.passRecord, h.parts_eq hstart, h.headerOf_eq hstart hfrom]
    exact ⟨rfl, (h.verdict_eq hstart).2 stop repaired spans hverdict⟩

theorem pull_eq (h : r.MeetsAt r' e) {st : State} (hcursor : e ≤ st.cursor) :
    r'.pull st = r.pull st ∧ e ≤ (r.pull st).2.cursor := h.next_eq hcursor hcursor

/-- So all later pulls are the same. -/
theorem iterate_pull (h : r.MeetsAt r' e) {st : State} (hcursor : e ≤ st.cursor) (n : Nat) :
    (fun st => (r'.pull st).2)^[n] st = (fun st => (r.pull st).2)^[n] st ∧
      e ≤ ((fun st => (r.pull st).2)^[n] st).cursor := by
  induction n generalizing st with
  | zero => exact ⟨rfl, hcursor⟩
  | succ n ih =>
    obtain ⟨hsame, hlater⟩ := h.pull_eq hcursor
    rw [Function.iterate_succ_apply, Function.iterate_succ_apply, hsame]
    exact ih hlater

/-- **Scanners that meet.** In one state behind the offset, scanners of the two differ in their
source only, however often they are pulled, and their pulls give the same. -/
theorem iterate_next (h : r.MeetsAt r' e) {source source' : Source} (hr : r.Describes source)
    (hr' : r'.Describes source') {st : State} (hcursor : e ≤ st.cursor) (n : Nat) :
    let s := (fun s : Scanner => s.next.2)^[n] (r.scanner source st)
    let s' := (fun s : Scanner => s.next.2)^[n] (r'.scanner source' st)
    s' = { s with source := source' } ∧ s'.next.1 = s.next.1 := by
  intro s s'
  obtain ⟨hsame, hlater⟩ := h.iterate_pull hcursor n
  have hs : s = r.scanner source _ := hr.iterate_next n st
  have hs' : s' = r'.scanner source' _ := hr'.iterate_next n st
  rw [hs', hs, hr'.next_scanner, hr.next_scanner, hsame, (h.pull_eq hlater).1]
  exact ⟨by simp only [scanner, h.format_eq, h.settings_eq], rfl⟩

end MeetsAt

end PlainScan

/-! ## §2 Another number for the length -/

namespace Grib1

def indicatorOf (field : Nat) : Bytes := magic ++ (Bytes.ofNatBE 3 field ++ [edition])

theorem length_indicatorOf (field : Nat) : (indicatorOf field).length = indicatorLength := by
  simp [indicatorOf, magic, indicatorLength]

namespace Message

variable (m : Message)

def encodeWith (field : Nat) : Bytes := indicatorOf field ++ m.encode.drop indicatorLength

theorem encode_eq_encodeWith : m.encode = m.encodeWith m.length := by
  rw [encodeWith, encode, ← m.length_indicator, List.drop_left]
  rfl

theorem length_encodeWith (field : Nat) : (m.encodeWith field).length = m.length := by
  have hlen := congrArg List.length m.encode_eq_encodeWith
  rw [length_encode] at hlen
  rw [hlen]
  simp only [encodeWith, List.length_append, length_indicatorOf]

/-- The pieces of the message with this number in its length field. -/
def layoutWith (field : Nat) : Layout :=
  ⟨indicatorOf field, m.product, m.grid, m.bitmap, m.data, m.padding ++ trailer⟩

theorem bytes_layoutWith (field : Nat) : (m.layoutWith field).bytes = m.encodeWith field := by
  have hother : packSections m.otherSections = m.otherBytes := rfl
  rw [encodeWith, encode_eq, packWith_contents, List.append_assoc, ← m.length_indicator,
    List.drop_left, Layout.bytes, Layout.sections, packSections_cons]
  simp only [layoutWith, ← otherSections_eq, hother, List.append_assoc]

/-- Where the sections lie, whatever the length field says. -/
def sectionSpans : List Span :=
  Section.spansFrom indicatorLength ((.product, m.product) :: m.otherSections)

theorem spans_layoutWith (field : Nat) : (m.layoutWith field).spans =
    ⟨indicatorKind, 0, indicatorLength⟩ :: m.sectionSpans := by
  rw [Layout.spans, Layout.sections, sectionSpans, otherSections_eq]
  rfl

variable {m} {bytes gap rest : Bytes} {start field : Nat} {settings : ScanSettings}

/-- The number in the length field plays no part in the division. -/
theorem divide_encodeWith (h : m.WellFormed) (field : Nat) : divide (m.encodeWith field) =
    .ok (⟨indicatorKind, 0, indicatorLength⟩ :: m.sectionSpans) := by
  have hgrammatical : (m.layoutWith field).Grammatical := by
    refine ⟨List.prefix_append _ _, length_indicatorOf field, h.product, h.grid, h.bitmap, h.data,
      h.hasGrid, h.hasBitmap, ?_⟩
    rw [layoutWith, List.length_append]
    exact Nat.le_add_left _ _
  rw [← bytes_layoutWith, hgrammatical.divide_eq, spans_layoutWith]

/-- Nor does it in the end that the message implies. -/
theorem impliedEnd_encodeWith (h : m.WellFormed) (hpadding : m.padding = []) (field : Nat) :
    impliedEnd? (m.encodeWith field) 0 = some m.length := by
  obtain ⟨last, hchain, -, himplied⟩ := exists_last_of_divide (m.divide_encodeWith h field)
  obtain ⟨last', hchain', -, himplied'⟩ := exists_last_of_divide (m.divide_encodeWith h m.length)
  rw [← encode_eq_encodeWith, m.impliedEnd_eq h hpadding] at himplied'
  rw [himplied, himplied', hchain.unique hchain']

/-- The sections start behind the indicator. -/
theorem le_start_sectionSpans (h : m.WellFormed) :
    ∀ span ∈ m.sectionSpans, indicatorLength ≤ span.start ∧ span.start ≤ span.stop := by
  obtain ⟨last, ⟨-, -, hchain⟩, -⟩ := exists_last_of_divide (m.divide_encodeWith h m.length)
  intro span hspan
  have hwithin := isWithin_of_divide (m.divide_encodeWith h m.length) span
    (List.mem_cons_of_mem _ hspan)
  rw [Span.isWithin, decide_eq_true_eq] at hwithin
  exact ⟨hchain.le_start span hspan, hwithin.1⟩

theorem trailer_suffix_encodeWith (m : Message) (field : Nat) : trailer <:+ m.encodeWith field := by
  rw [← bytes_layoutWith, Layout.bytes, layoutWith, ← List.append_assoc, ← List.append_assoc]
  exact List.suffix_append _ _

/-- The trailer ends where the message does. -/
theorem endsAt_encodeWith (hat : bytes.HasAt start (m.encodeWith field)) :
    (plainScan settings bytes).EndsAt (start + m.length) := by
  have hends := PlainScan.endsAt_of_suffix (r := plainScan settings bytes) hat
    (List.cons_ne_nil _ _) (m.trailer_suffix_encodeWith field)
  rwa [length_encodeWith] at hends

/-- **The verdict.** A message is taken up whole if its length field says the truth, or if implied
ends are accepted and no trailer ends where the field says. -/
theorem verdict_encodeWith (h : m.WellFormed) (hpadding : m.padding = [])
    (hat : bytes.HasAt start (m.encodeWith field)) (hmin : minLength ≤ field)
    (hfield : field < largeMark) (hinside : start + field ≤ bytes.length)
    (hend : field = m.length ∨ settings.acceptsImpliedEnd = true ∧
      ¬ bytes.HasAt (start + field - trailer.length) trailer) :
    (plainScan settings bytes).verdict start =
      .record (start + m.length) false (⟨indicatorKind, 0, indicatorLength⟩ :: m.sectionSpans) := by
  have hlen := m.length_encodeWith field
  have hdivide := m.divide_encodeWith h field
  have hlong : minLength ≤ m.length := hlen ▸ minLength_le_of_divide hdivide
  -- magic, length field and edition come one after the other
  obtain ⟨hindicator, -⟩ := Bytes.hasAt_append.mp hat
  obtain ⟨-, hrest⟩ := Bytes.hasAt_append.mp hindicator
  obtain ⟨hlength, hedition⟩ := Bytes.hasAt_append.mp hrest
  rw [Bytes.length_ofNatBE] at hedition
  have hread := preamble_of_field settings hlength hedition (hfield.trans (by decide))
  refine PlainScan.verdict_eq_record hread (largeLength_of_lt hfield) hmin hinside ?stop ?spans
  case stop =>
    rcases hend with rfl | ⟨haccepts, hnone⟩
    · exact if_pos (endsAt_encodeWith hat)
    · -- no trailer ends where the field says, but one does where the data section ends
      have himplied : (plainScan settings bytes).view.impliedEnd bytes start =
          some (start + m.length) :=
        impliedEnd_of_part hat (m.impliedEnd_encodeWith h hpadding field)
      have hshown : (plainScan settings bytes).innerStop start = some (start + m.length) := by
        rw [PlainScan.innerStop, show (plainScan settings bytes).bytes = bytes from rfl, himplied]
        exact Option.filter_eq_some_iff.mpr ⟨rfl, decide_eq_true
          ⟨Nat.add_le_add_left hlong start, endsAt_encodeWith hat⟩⟩
      have hmissing : ¬ (plainScan settings bytes).EndsAt (start + field) :=
        fun hends => hnone hends.2.2
      have haccepts' : (plainScan settings bytes).settings.acceptsImpliedEnd = true := haccepts
      rw [PlainScan.stopOf, if_neg hmissing, haccepts', hshown]
      rfl
  case spans =>
    have hframe : bytes.between start (start + m.length) = m.encodeWith field :=
      hlen ▸ hat.between_eq
    show (plainScan settings bytes).spansOf (bytes.between start (start + m.length)) = _
    rw [hframe]
    exact PlainScan.spansOf_of_divide hdivide (isWithin_of_divide hdivide)

/-! ## §3 The first message of a stream -/

/-- Where the first magic stands does not depend on the length behind it. -/
theorem first_encodeWith (hfirst : (gap ++ (m.encode ++ rest)).firstOccurrence magic 0 =
    some gap.length) (field : Nat) :
    (gap ++ (m.encodeWith field ++ rest)).firstOccurrence magic 0 = some gap.length := by
  have hsplit : ∀ field, gap ++ (m.encodeWith field ++ rest) = (gap ++ magic) ++
      (Bytes.ofNatBE 3 field ++ [edition] ++ m.encode.drop indicatorLength ++ rest) := by
    intro field
    simp [encodeWith, indicatorOf]
  rw [encode_eq_encodeWith, hsplit] at hfirst
  rw [hsplit]
  exact Bytes.firstOccurrence_front _ _ hfirst (by decide) (by simp)

/-- Scans of a stream with one length and with another meet behind the indicator. -/
theorem meetsAt_encodeWith (m : Message) (settings : ScanSettings) (gap rest : Bytes)
    (field field' : Nat) :
    (plainScan settings (gap ++ (m.encodeWith field ++ rest))).MeetsAt
      (plainScan settings (gap ++ (m.encodeWith field' ++ rest)))
      (gap.length + indicatorLength) := by
  have hdrop : ∀ field, (gap ++ (m.encodeWith field ++ rest)).drop (gap.length + indicatorLength) =
      m.encode.drop indicatorLength ++ rest := by
    intro field
    rw [← List.drop_drop, List.drop_left, encodeWith, List.append_assoc, ← length_indicatorOf field,
      List.drop_left, length_indicatorOf]
  have hcuts : ∀ field, (plainScan settings (gap ++ (m.encodeWith field ++ rest))).CutsAt
      (gap.length + indicatorLength) := by
    intro field
    refine ⟨?_, view_forward fun _ _ he p => largeLength?_drop he p, Nat.le_add_left _ _⟩
    simp only [plainScan, encodeWith, List.length_append, length_indicatorOf]
    omega
  refine ⟨hcuts field, hcuts field', ?_⟩
  simp only [PlainScan.rest, plainScan, hdrop]

/-- The message comes first in the bytes, behind a gap, with a number in its length field that is
right, or that implied ends make up for. -/
structure Leads (m : Message) (settings : ScanSettings) (bytes gap : Bytes) (field : Nat) :
    Prop where
  wellFormed : m.WellFormed
  /-- The data end at the trailer. -/
  padding : m.padding = []
  hasAt : bytes.HasAt 0 (gap ++ m.encodeWith field)
  first : bytes.firstOccurrence magic 0 = some gap.length
  min : minLength ≤ field
  lt : field < largeMark
  inside : gap.length + field ≤ bytes.length
  ends : field = m.length ∨ settings.acceptsImpliedEnd = true ∧
    ¬ bytes.HasAt (gap.length + field - trailer.length) trailer

/-- With the right number it does so in every scan. -/
theorem leads_of_right (h : m.WellFormed) (hpadding : m.padding = []) (settings : ScanSettings)
    (hbytes : bytes = gap ++ (m.encode ++ rest))
    (hfirst : bytes.firstOccurrence magic 0 = some gap.length) :
    m.Leads settings bytes gap m.length where
  wellFormed := h
  padding := hpadding
  hasAt := by
    rw [hbytes, ← encode_eq_encodeWith, ← List.append_assoc]
    exact List.prefix_append _ _
  first := hfirst
  min := m.length_encode ▸ minLength_le_of_divide (m.divide_encode gap h)
  lt := h.length_lt
  inside := by
    simp only [hbytes, List.length_append, length_encode]
    omega
  ends := .inl rfl

/-- **The first pull** gives the message, and its indicator with whatever number stands in the
length field. -/
theorem Leads.pull_eq (h : m.Leads settings bytes gap field) :
    let r := plainScan settings bytes
    let others := r.parts gap.length m.sectionSpans .empty
    r.pull {} =
      (some ⟨gap.drop (gap.length - settings.headerLimit), gap.length, gap.length + m.length,
        ⟨gap.length, ⟨indicatorKind, indicatorOf field⟩, none⟩ :: others.1, false⟩,
      ⟨gap.length + m.length, { records := 1 }, others.2⟩) := by
  intro r others
  obtain ⟨hgap, hmessage⟩ := Bytes.hasAt_append.mp h.hasAt
  rw [Nat.zero_add] at hmessage
  have hindicator := (Bytes.hasAt_append.mp hmessage).1.between_eq
  rw [length_indicatorOf] at hindicator
  have hverdict : r.verdict gap.length = _ :=
    verdict_encodeWith h.wellFormed h.padding hmessage h.min h.lt h.inside h.ends
  have hpull : r.next {} 0 = _ := PlainScan.next_of_some h.first
  -- the indicator is a part of its own, which is not kept in the table
  have hparts : r.parts gap.length (⟨indicatorKind, 0, indicatorLength⟩ :: m.sectionSpans) .empty =
      (⟨gap.length, ⟨indicatorKind, indicatorOf field⟩, none⟩ :: others.1, others.2) := by
    have hcontent : r.contentOf gap.length ⟨indicatorKind, 0, indicatorLength⟩ =
        ⟨indicatorKind, indicatorOf field⟩ := congrArg (TypedBytes.mk indicatorKind) hindicator
    have hnot : r.format.recurs indicatorKind ≠ true := fun hrecurs =>
      absurd ((recurs_iff _ _).mp hrecurs) (by decide)
    rw [PlainScan.parts_cons_of_not_recurs hnot, hcontent]
    rfl
  have hheader := PlainScan.headerOf_gap (r := r) hgap
  rw [Nat.zero_add] at hheader
  rw [PlainScan.pull, hpull, hverdict]
  simp only [PlainScan.recordAt, PlainScan.passRecord, PlainScan.State.countRepair, hheader]
  simp only [Bool.false_eq_true, if_false, hparts]
  rfl

end Message

/-- **A wrong length is rescued.** Let the first magic of a stream start a message whose data end
at the trailer, and let its length field hold another number, where no trailer ends. A scan that
accepts implied ends gives the message as if it had the right length, with the number in the
indicator only: the same header, the same other parts, no repair and no fault. From there on the
two scans are in the same state, and their pulls give the same. -/
theorem wrong_length_rescued (settings : ScanSettings)
    (haccepts : settings.acceptsImpliedEnd = true) {m : Message} (hm : m.WellFormed)
    (hpadding : m.padding = []) (gap rest : Bytes) {field : Nat} (hmin : minLength ≤ field)
    (hfield : field < largeMark) {clean spoiled : Source} (hclean : clean.NeverFails)
    (hspoiled : spoiled.NeverFails)
    (hbytes : clean.bytes = gap ++ (m.encode ++ rest))
    (hbytes' : spoiled.bytes = gap ++ (m.encodeWith field ++ rest))
    (hfirst : clean.bytes.firstOccurrence magic 0 = some gap.length)
    (hinside : gap.length + field ≤ clean.size)
    (hnone : ¬ clean.bytes.HasAt (gap.length + field - trailer.length) trailer) :
    let told := Scanner.start clean standard settings
    let misled := Scanner.start spoiled standard settings
    (∃ record others, told.next.1 = .ok (some record) ∧
      record.header = gap.drop (gap.length - settings.headerLimit) ∧
      record.start = gap.length ∧ record.stop = gap.length + m.length ∧
      record.isRepaired = false ∧
      record.parts = ⟨gap.length, ⟨indicatorKind, m.indicator⟩, none⟩ :: others ∧
      misled.next.1 = .ok (some { record with
        parts := ⟨gap.length, ⟨indicatorKind, indicatorOf field⟩, none⟩ :: others })) ∧
      misled.next.2.tally = { records := 1 } ∧
      ∀ n, let s := (fun s : Scanner => s.next.2)^[n] told.next.2
        let s' := (fun s : Scanner => s.next.2)^[n] misled.next.2
        s' = { s with source := spoiled } ∧ s'.next.1 = s.next.1 := by
  intro told misled
  have hreads : standard.ReadsAs (view largeLength?) := format_readsAs largeMessageRepair_readsAs
  let r := plainScan settings clean.bytes
  let r' := plainScan settings spoiled.bytes
  have hr : r.Describes clean := ⟨hclean, rfl, hreads⟩
  have hr' : r'.Describes spoiled := ⟨hspoiled, rfl, hreads⟩
  have hmeets : r.MeetsAt r' (gap.length + indicatorLength) := by
    show (plainScan settings clean.bytes).MeetsAt (plainScan settings spoiled.bytes) _
    rw [hbytes, hbytes', m.encode_eq_encodeWith]
    exact m.meetsAt_encodeWith settings gap rest m.length field
  have hlead := Message.leads_of_right hm hpadding settings hbytes hfirst
  -- where the wrong length says, no trailer ends in the other stream, either
  have hlead' : m.Leads settings spoiled.bytes gap field := by
    refine ⟨hm, hpadding, ?_, ?_, hmin, hfield, ?_, .inr ⟨haccepts, ?_⟩⟩
    · rw [hbytes', ← List.append_assoc]
      exact List.prefix_append _ _
    · rw [hbytes']
      exact Message.first_encodeWith (hbytes ▸ hfirst) field
    · exact (hinside.trans clean.length_bytes.ge).trans hmeets.length_eq.le
    · simp only [minLength] at hmin
      exact (hmeets.hasAt_iff (by omega) trailer).not.mp hnone
  -- the other parts lie where the scans have met
  have hothers : r.parts gap.length m.sectionSpans .empty =
      r'.parts gap.length m.sectionSpans .empty := by
    refine PlainScan.parts_congr hmeets.format_eq (fun span hspan => ?_) .empty
    obtain ⟨hstart, hstop⟩ := m.le_start_sectionSpans hm span hspan
    exact hmeets.contentOf_eq (by omega) (by omega)
  have htold : told.next = _ := hr.next_scanner {}
  have hmisled : misled.next = _ := hr'.next_scanner {}
  rw [hlead.pull_eq] at htold
  rw [hlead'.pull_eq, ← hothers] at hmisled
  rw [htold, hmisled]
  refine ⟨⟨_, _, rfl, rfl, rfl, rfl, rfl, rfl, rfl⟩, rfl, fun n => ?_⟩
  -- both go on from the end of the message, with one table
  exact hmeets.iterate_next hr hr' (Nat.add_le_add_left (Nat.le_add_right _ _) gap.length) n

/-- The closed sample message twice, behind a gap of one byte; the first time with this length. -/
def twiceSample (field : Nat) : Source :=
  .ofBytes ([9] ++ (closedSample.encodeWith field ++ closedSample.encode))

/-- With the length of a shorter message it is taken up as before, and so is the other one. -/
theorem wrong_length_rescued_sample :
    let told := Scanner.start (twiceSample 34) standard { acceptsImpliedEnd := true }
    let misled := Scanner.start (twiceSample 20) standard { acceptsImpliedEnd := true }
    (∃ record, misled.next.1 = .ok (some record) ∧ record.header = [9] ∧ record.start = 1 ∧
      record.stop = 35 ∧ record.isRepaired = false) ∧
      misled.next.2.tally = { records := 1 } ∧ misled.next.2.next.1 = told.next.2.next.1 := by
  intro told misled
  have hfirst : (twiceSample 34).bytes.firstOccurrence magic 0 = some 1 := by decide +kernel
  have hnone : ¬ (twiceSample 34).bytes.HasAt (1 + 20 - trailer.length) trailer := by decide +kernel
  obtain ⟨⟨record, others, -, hheader, hstart, hstop, hrepaired, -, hmisled⟩, htally, hlater⟩ :=
    wrong_length_rescued { acceptsImpliedEnd := true } rfl wellFormed_closedSample rfl [9]
      closedSample.encode (show minLength ≤ 20 by decide) (show 20 < largeMark by decide)
      (Source.neverFails_ofBytes _) (Source.neverFails_ofBytes _)
      (show (twiceSample 34).bytes = _ by decide +kernel) (Source.bytes_ofBytes _) hfirst
      (show 1 + 20 ≤ (twiceSample 34).size by decide +kernel) hnone
  exact ⟨⟨_, hmisled, hheader, hstart, hstop, hrepaired⟩, htally, (hlater 0).2⟩

end Grib1

end Granule
