import Granule.Proofs.Frame.LargeMessage
import Granule.Proofs.Scan.Reading

/-!
# Joining the Parts of a Message

A record keeps its parts and not its frame, so the bytes of a message are those of its
parts, joined, and the trailer. A message is divided by walking over its sections, each of
which says how long it is, and the parts lie one behind the other up to where that walk
ends. The length field of the data section has the last word: the parts reach as far as
this field says, and no further.

In an ordinary message this is the trailer, and nothing is lost. In a large one the field
holds the excess of the units over the true length, which is not the length of anything.
The data part then ends after as many bytes as the excess, though the length of the
message was found and its bytes were read.

**Main statements**:
- `Grib1.exists_last_of_divide` : the parts of a message lie one behind the other, up to the end
  that its data section implies
- `Record.ReadFrom.exists_spans` : the parts of a record hold the bytes at its spans
- `Grib1.parts_join` : what the parts of every record are together
-/

namespace Granule

/-! ## §1 Spans that meet -/

/-- The spans lie one behind the other, from `first` to `last`. -/
def Span.Chain : (first : Nat) → List Span → (last : Nat) → Prop
  | first, [], last => first = last
  | first, span :: rest, last =>
    span.start = first ∧ span.start ≤ span.stop ∧ Chain span.stop rest last

theorem Span.Chain.le {first last : Nat} {spans : List Span} (h : Chain first spans last) :
    first ≤ last := by
  induction spans generalizing first with
  | nil => exact Nat.le_of_eq h
  | cons span rest ih =>
    obtain ⟨rfl, hle, hrest⟩ := h
    exact hle.trans (ih hrest)

theorem Span.Chain.le_start {first last : Nat} {spans : List Span} (h : Chain first spans last) :
    ∀ span ∈ spans, first ≤ span.start := by
  induction spans generalizing first with
  | nil => simp
  | cons span rest ih =>
    obtain ⟨rfl, hle, hrest⟩ := h
    exact List.forall_mem_cons.mpr
      ⟨Nat.le_refl _, fun other hother => hle.trans (ih hrest other hother)⟩

theorem Span.Chain.getLast_eq {first last : Nat} {span : Span} {spans : List Span}
    (h : Chain first (spans ++ [span]) last) : span.stop = last := by
  induction spans generalizing first with
  | nil => exact h.2.2
  | cons other rest ih => exact ih h.2.2

/-- What lies at spans that meet is one stretch of the bytes. -/
theorem Span.Chain.flatMap_contentIn {first last : Nat} {spans : List Span}
    (h : Chain first spans last) (bytes : Bytes) (start : Nat) :
    spans.flatMap (fun span => (span.contentIn bytes start).data) =
      bytes.between (start + first) (start + last) := by
  induction spans generalizing first with
  | nil =>
    obtain rfl : first = last := h
    rw [Bytes.between_self]
    rfl
  | cons span rest ih =>
    obtain ⟨rfl, hle, hrest⟩ := h
    rw [List.flatMap_cons, ih hrest]
    exact bytes.between_append_between (Nat.add_le_add_left hle start)
      (Nat.add_le_add_left hrest.le start)

theorem Span.Chain.unique {first last last' : Nat} {spans : List Span}
    (h : Chain first spans last) (h' : Chain first spans last') : last = last' := by
  induction spans generalizing first with
  | nil => exact Eq.trans (Eq.symm h) h'
  | cons span rest ih => exact ih h.2.2 h'.2.2

/-- Contents that are packed one behind the other are found at spans that meet. -/
theorem Span.chain_offsetsFrom (contents : List TypedBytes) (first : Nat) :
    Chain first
      ((TypedBytes.offsetsFrom (fun _ => []) first contents).map
        fun part => ⟨part.2.kind, part.1, part.1 + part.2.data.length⟩)
      (first + (TypedBytes.packWith (fun _ => []) contents).length) := by
  induction contents generalizing first with
  | nil => rfl
  | cons content rest ih =>
    refine ⟨rfl, Nat.le_add_right _ _, ?_⟩
    rw [TypedBytes.packWith_cons, List.nil_append, List.length_append, ← Nat.add_assoc]
    exact ih (first + content.data.length)

/-! ## §2 The parts of a record -/

namespace Record

def joined (r : Record) : Bytes := r.parts.flatMap (·.content.data)

/-- Nothing that is known has the fingerprint of what lies where a part does that is kept once. -/
def KeptApart (r : Record) (bytes : Bytes) (known : TypedBytes → Prop) : Prop :=
  ∀ part ∈ r.parts, part.interned.isSome = true → ∀ content : TypedBytes,
    bytes.HasAt part.offset content.data → ¬ content.Collides known

variable {r : Record} {source : Source} {format : WireFormat} {settings : ScanSettings}
  {known : TypedBytes → Prop}

/-- There is nothing to be mistaken where no part is kept once. -/
theorem keptApart_of_none (r : Record) {bytes : Bytes}
    (h : ∀ part ∈ r.parts, part.interned = none) : r.KeptApart bytes known := by
  intro part hpart hsome
  rw [h part hpart] at hsome
  cases hsome

/-- Parts that are kept apart hold what lies at their spans. -/
private theorem flatMap_of_taken {bytes : Bytes} {start : Nat} {parts : List Part}
    {spans : List Span} (h : List.Forall₂ (Part.TakenFrom · bytes known start ·) parts spans)
    (hapart : ∀ part ∈ parts, part.interned.isSome = true → ∀ content : TypedBytes,
      bytes.HasAt part.offset content.data → ¬ content.Collides known) :
    parts.flatMap (·.content.data) =
      spans.flatMap fun span => (span.contentIn bytes start).data := by
  induction h with
  | nil => rfl
  | @cons part span parts spans hpart _ ih =>
    obtain ⟨hfirst, hrest⟩ := List.forall_mem_cons.mp hapart
    have hcontent : part.content = span.contentIn bytes start := by
      refine hpart.content.resolve_right fun ⟨hinterned, hcollides⟩ => ?_
      refine hfirst hinterned _ ?_ hcollides
      rw [hpart.offset_eq]
      exact Bytes.hasAt_between _ _ _
    rw [List.flatMap_cons, List.flatMap_cons, hcontent, ih hrest]

/-- The parts of a record hold the bytes at the spans that divide its frame. -/
theorem ReadFrom.exists_spans (h : r.ReadFrom source format settings known)
    (hapart : r.KeptApart source.bytes known) :
    ∃ spans, format.divide (source.bytes.between r.start r.stop) = .ok spans ∧
      r.joined = spans.flatMap fun span => (span.contentIn source.bytes r.start).data := by
  obtain ⟨spans, hdivide, -, htaken⟩ := h.divided
  exact ⟨spans, hdivide, flatMap_of_taken htaken hapart⟩

end Record

/-! ## §3 Division goes by the lengths of sections -/

namespace Grib1

theorem sectionsEnd_add (bs : Bytes) (m n pos : Nat) :
    sectionsEnd? bs (m + n) pos = (sectionsEnd? bs m pos).bind (sectionsEnd? bs n) := by
  induction m generalizing pos with
  | zero => rw [Nat.zero_add]; rfl
  | succ m ih =>
    rw [Nat.succ_add, sectionsEnd?, sectionsEnd?]
    cases bs.natAt? pos lengthWidth with
    | none => rfl
    | some length =>
      simp only [Option.bind_some]
      split
      · rfl
      · exact ih _

/-- A section that is found is as long as it says. -/
theorem Section.natAt_of_span {s : Section} {frame : Bytes} {limit pos : Nat} {found : Span}
    (h : s.span frame limit pos = .ok found) (hlimit : limit ≤ frame.length) :
    ∃ length, frame.natAt? pos lengthWidth = some length ∧ lengthWidth ≤ length ∧
      found = ⟨s.kind, pos, pos + length⟩ := by
  unfold span at h
  split at h
  · cases h
  · rename_i hroom
    simp only at h
    split at h
    · cases h
    · rename_i hlength
      split at h
      · cases h
      · cases h
        exact ⟨_, if_pos (by omega), by omega, rfl⟩

/-- Sections that are found lie one behind the other, up to where the walk over their lengths
ends. -/
theorem Section.chain_of_spans {frame : Bytes} {limit pos : Nat} {sections : List Section}
    {found : List Span} (h : Section.spans frame limit pos sections = .ok found)
    (hlimit : limit ≤ frame.length) (hpos : pos ≤ limit) :
    ∃ last, sectionsEnd? frame sections.length pos = some last ∧ Span.Chain pos found last ∧
      last ≤ limit := by
  -- each span starts where the one before it ends, so the ends follow the length fields
  induction sections generalizing pos found with
  | nil =>
    cases h
    exact ⟨pos, rfl, rfl, hpos⟩
  | cons s rest ih =>
    rw [Section.spans] at h
    cases hspan : s.span frame limit pos with
    | error e => simp [hspan] at h
    | ok first =>
      obtain ⟨length, hlength, hwidth, rfl⟩ := natAt_of_span hspan hlimit
      obtain ⟨-, -, -, hstop⟩ := span_facts hspan
      cases hrest : Section.spans frame limit (pos + length) rest with
      | error e => simp [hspan, hrest, Except.map] at h
      | ok more =>
        simp only [hspan, hrest, Except.map, Except.ok.injEq] at h
        subst h
        obtain ⟨last, hend, hchain, hlast⟩ := ih hrest hstop
        refine ⟨last, ?_, ⟨rfl, Nat.le_add_right _ _, hchain⟩, hlast⟩
        rw [List.length_cons, sectionsEnd?, hlength, Option.bind_some,
          if_neg (Nat.not_lt.mpr hwidth), hend]

/-- What the data section implies, field by field. -/
theorem impliedEnd_eq_some_iff {bs : Bytes} {magicAt stop : Nat} :
    impliedEnd? bs magicAt = some stop ↔
      ∃ productLength flags start length,
        bs.natAt? (magicAt + indicatorLength) lengthWidth = some productLength ∧
        bs.byteAt? (magicAt + indicatorLength + flagsOffset) = some flags ∧
        dataStart? bs (magicAt + indicatorLength) productLength flags = some start ∧
        bs.natAt? start lengthWidth = some length ∧ lengthWidth ≤ length ∧
        start + length + trailer.length = stop := by
  simp only [impliedEnd?, bind, Option.bind_eq_some_iff, Option.ite_none_left_eq_some,
    Option.some.injEq, Nat.not_lt]
  simp only [exists_and_left]

/-- **Division.** The parts of a message lie one behind the other, from its start up to the end
that its data section implies, less the trailer. -/
theorem exists_last_of_divide {frame : Bytes} {spans : List Span} (h : divide frame = .ok spans) :
    ∃ last, Span.Chain 0 spans last ∧ last + trailer.length ≤ frame.length ∧
      impliedEnd? frame 0 = some (last + trailer.length) := by
  obtain ⟨product, rest, hproduct, hrest, rfl⟩ := exists_of_divide h
  have hlong := minLength_le_of_divide h
  have hmin : minLength = indicatorLength + trailer.length := rfl
  obtain ⟨-, -, hfields, hlimit⟩ := Section.span_facts hproduct
  obtain ⟨productLength, hlength, hwidth, rfl⟩ :=
    Section.natAt_of_span hproduct (Nat.sub_le _ _)
  dsimp only at hfields hlimit hrest
  obtain ⟨last, hend, hchain, hlast⟩ := Section.chain_of_spans hrest (Nat.sub_le _ _) hlimit
  -- the data section is the last one that the walk comes to
  rw [List.length_append, sectionsEnd_add, Option.bind_eq_some_iff] at hend
  obtain ⟨start, hstart, hdata⟩ := hend
  simp only [List.length_singleton, sectionsEnd?, Option.bind_eq_some_iff,
    Option.ite_none_left_eq_some, Option.some.injEq] at hdata
  obtain ⟨length, hdataLength, hdataWidth, hstop⟩ := hdata
  refine ⟨last, ⟨rfl, Nat.zero_le _, rfl, Nat.le_add_right _ _, hchain⟩, by omega,
    impliedEnd_eq_some_iff.mpr ⟨productLength, frame.getD (indicatorLength + flagsOffset) 0, start,
      length, ?_, ?_, ?_, hdataLength, Nat.not_lt.mp hdataWidth, by rw [hstop]⟩⟩
  · rw [Nat.zero_add]
    exact hlength
  · rw [Nat.zero_add]
    refine Bytes.byteAt_of_lt ?_
    simp only [Section.minLength, flagsOffset] at hfields ⊢
    omega
  · rw [Nat.zero_add, dataStart?, if_neg (by omega), hstart]

/-- The walk over sections in a part of the bytes is the walk there. -/
theorem sectionsEnd_of_part {bs part : Bytes} {pos n offset last : Nat} (hat : bs.HasAt pos part)
    (h : sectionsEnd? part n offset = some last) :
    sectionsEnd? bs n (pos + offset) = some (pos + last) := by
  induction n generalizing offset with
  | zero =>
    cases h
    rfl
  | succ n ih =>
    rw [sectionsEnd?, Option.bind_eq_some_iff] at h
    obtain ⟨length, hlength, h⟩ := h
    obtain ⟨hwidth, h⟩ := Option.ite_none_left_eq_some.mp h
    rw [sectionsEnd?, hat.natAt_of_part (by decide) hlength, Option.bind_some, if_neg hwidth,
      Nat.add_assoc, ih h]

/-- The end that a message implies does not depend on where it lies. -/
theorem impliedEnd_of_part {bs frame : Bytes} {pos stop : Nat} (hat : bs.HasAt pos frame)
    (h : impliedEnd? frame 0 = some stop) : impliedEnd? bs pos = some (pos + stop) := by
  obtain ⟨productLength, flags, start, length, hproduct, hflags, hstart, hlength, hwidth, rfl⟩ :=
    impliedEnd_eq_some_iff.mp h
  rw [Nat.zero_add] at hproduct hflags hstart
  rw [dataStart?, Option.ite_none_left_eq_some] at hstart
  obtain ⟨hlong, hstart⟩ := hstart
  refine impliedEnd_eq_some_iff.mpr ⟨productLength, flags, pos + start, length,
    hat.natAt_of_part (by decide) hproduct, ?_, ?_, hat.natAt_of_part (by decide) hlength, hwidth,
    by rw [Nat.add_assoc, Nat.add_assoc, Nat.add_assoc]⟩
  · rw [Nat.add_assoc]
    exact hat.byteAt_of_part hflags
  · rw [dataStart?, if_neg hlong, Nat.add_assoc]
    exact sectionsEnd_of_part hat hstart

/-! ## §4 Messages -/

variable {r : Record} {source : Source} {settings : ScanSettings} {known : TypedBytes → Prop}

/-- The parts of a record reach from its start to the end that its data section implies, less the
trailer. -/
theorem exists_stop_of_readFrom {repair : LengthRule}
    (h : r.ReadFrom source (format repair) settings known)
    (hapart : r.KeptApart source.bytes known) :
    ∃ stop, impliedEnd? source.bytes r.start = some stop ∧ stop ≤ r.stop ∧
      r.joined = source.bytes.between r.start (stop - trailer.length) := by
  obtain ⟨spans, hdivide, hjoined⟩ := h.exists_spans hapart
  obtain ⟨last, hchain, hlast, himplied⟩ := exists_last_of_divide hdivide
  obtain ⟨hlong, hinside⟩ := h.inside
  rw [Bytes.length_between _ hinside] at hlast
  refine ⟨r.start + (last + trailer.length),
    impliedEnd_of_part (Bytes.hasAt_between _ _ _) himplied, by omega, ?_⟩
  rw [hjoined, hchain.flatMap_contentIn, Nat.add_zero, ← Nat.add_assoc, Nat.add_sub_cancel]

/-- So where that is its own end, the parts and the trailer are the whole record. -/
theorem joined_append_trailer {repair : LengthRule}
    (h : r.ReadFrom source (format repair) settings known)
    (hapart : r.KeptApart source.bytes known)
    (hend : impliedEnd? source.bytes r.start = some r.stop)
    (htrailer : (format repair).EndsIn source.bytes r.stop) :
    r.joined ++ trailer = source.bytes.between r.start r.stop := by
  obtain ⟨stop, himplied, -, hjoined⟩ := exists_stop_of_readFrom h hapart
  obtain ⟨hlong, -⟩ := h.inside
  obtain ⟨hroom, hat⟩ : trailer.length ≤ r.stop ∧
      source.bytes.HasAt (r.stop - trailer.length) trailer := htrailer
  have hlast := hat.between_eq
  have hmin : (format repair).minLength = indicatorLength + trailer.length := rfl
  rw [himplied, Option.some.injEq] at hend
  rw [Nat.sub_add_cancel hroom] at hlast
  rw [hjoined, hend]
  nth_rewrite 2 [← hlast]
  exact Bytes.between_append_between _ (by omega) (Nat.sub_le _ _)

/-- A record goes by the verdict on its magic, unless its source passes a failure off as the end
of the data. -/
theorem exists_verdict_of_readFrom (h : r.ReadFrom source standard settings known)
    (hsource : source.NeverFails ∨ source.fault ≠ .endOfData) :
    ∃ spans, (plainScan settings source.bytes).verdict r.start =
      .record r.stop r.isRepaired spans := by
  have hreads := format_readsAs largeMessageRepair_readsAs
  rcases hsource with hsteady | hfault
  · exact h.exists_verdict (p := plainScan settings source.bytes) ⟨hsteady, rfl, hreads⟩
  · -- without failures the same would have been read
    have hshort : source.FallsShortOf (.ofBytes source.bytes) :=
      ⟨(Source.bytes_ofBytes _).symm, Source.neverFails_ofBytes _, hfault⟩
    exact (h.of_fallsShortOf hshort (relays largeMessageRepair_relays)).exists_verdict
      (p := plainScan settings source.bytes)
      ⟨Source.neverFails_ofBytes _, Source.bytes_ofBytes _, hreads⟩

namespace Message

variable {m : Message}

/-- Without padding, the data section of a message implies the end that the message has. -/
theorem impliedEnd_eq (h : m.WellFormed) (hpadding : m.padding = []) :
    impliedEnd? m.encode 0 = some m.length := by
  obtain ⟨last, hchain, -, himplied⟩ := exists_last_of_divide (m.divide_encode [] h)
  have hcontents := Span.chain_offsetsFrom m.contents 0
  have hlength := congrArg List.length m.encode_eq
  rw [length_encode, hpadding, List.nil_append, List.length_append] at hlength
  rw [himplied, hchain.unique hcontents, hlength, Nat.zero_add]

/-- A message is a record of its own length. -/
theorem stop_eq_of_readFrom (h : m.WellFormed) (hread : r.ReadFrom source standard settings known)
    (hsource : source.NeverFails ∨ source.fault ≠ .endOfData)
    (hat : source.bytes.HasAt r.start m.encode) : r.stop = r.start + m.length := by
  obtain ⟨spans, hverdict⟩ := exists_verdict_of_readFrom hread hsource
  have hwhole : (plainScan settings source.bytes).verdict r.start =
      .record (r.start + m.encode.length) false (m.streamFrame []).spans :=
    (readsFrame (by decide) h).verdict r.start hat
  rw [hverdict, PlainScan.Verdict.record.injEq] at hwhole
  rw [hwhole.1, length_encode]

end Message

namespace LargeMessage.WellFormed

variable {m : LargeMessage} {bs : Bytes} {start : Nat}

/-- The data section of a large message implies an end as far behind its start as its excess. -/
theorem impliedEnd_eq (h : m.WellFormed) (hat : bs.HasAt start m.encode)
    (hexcess : lengthWidth ≤ m.excess) :
    impliedEnd? bs start = some (start + indicatorLength + m.product.length + m.between.length +
      m.excess + trailer.length) :=
  impliedEnd_eq_some_iff.mpr ⟨m.product.length, m.flags, _, m.excess, h.natAt_product hat,
    h.byteAt_product hat (by decide), h.dataStart_eq hat, h.natAt_data hat, hexcess, rfl⟩

/-- The data section is longer than its excess. -/
theorem excess_lt_length (h : m.WellFormed) : m.excess < m.data.length :=
  h.excess_lt.trans_le h.data

/-- What follows an excess of the data section: the rest of it, and the trailer. -/
theorem between_excess_eq (h : m.WellFormed) (hat : bs.HasAt start m.encode) :
    bs.between (start + indicatorLength + m.product.length + m.between.length + m.excess)
      (start + m.length) = m.data.drop m.excess ++ trailer := by
  obtain ⟨-, -, hdata, htrailer⟩ := hasAt_sections hat
  have hexcess := h.excess_lt_length
  have hsum := m.length_eq_sum
  have hrest : (m.data.drop m.excess ++ trailer).length =
      m.data.length - m.excess + trailer.length := by
    rw [List.length_append, List.length_drop]
  have hat' : bs.HasAt (start + indicatorLength + m.product.length + m.between.length + m.excess)
      (m.data.drop m.excess ++ trailer) := by
    refine Bytes.hasAt_append.mpr ⟨hdata.trans List.prefix_rfl, ?_⟩
    rw [List.length_drop]
    convert htrailer using 1
    omega
  rw [← hat'.between_eq, hrest]
  congr 1
  omega

/-- A large message that was taken up is a record of its true length, and its excess is at least
as long as the shortest data section. -/
theorem stop_eq_of_readFrom (h : m.WellFormed)
    (hread : r.ReadFrom source standard settings known)
    (hsource : source.NeverFails ∨ source.fault ≠ .endOfData)
    (hat : source.bytes.HasAt r.start m.encode) :
    r.stop = r.start + m.length ∧ Section.minLength .data ≤ m.excess := by
  obtain ⟨spans, hverdict⟩ := exists_verdict_of_readFrom hread hsource
  obtain ⟨hfound, hdropped⟩ := h.verdict_cases hat settings
  rcases Nat.lt_or_ge m.excess (Section.minLength .data) with hlt | hle
  · rw [hverdict] at hdropped
    cases hdropped hlt
  · obtain ⟨spans', hrecord⟩ := hfound hle
    rw [hverdict, PlainScan.Verdict.record.injEq] at hrecord
    exact ⟨hrecord.1, hle⟩

end LargeMessage.WellFormed

/-- **Joining the parts.** The parts of every record that a run comes to are, joined, the bytes of
the source from its start up to the end that its data section implies, less the trailer, unless the
table has mistaken one of them for another. So where that end is the end of the record, as in every
ordinary message whose data run up to the trailer, the parts and the trailer are the whole record.
In a large message the end is implied by the excess instead, and the data behind so many bytes are
in no part. -/
theorem parts_join (source : Source) (settings : ScanSettings) (calls : List Scanner.Call) :
    let run := (Scanner.start source standard settings).run calls
    ∀ r ∈ run.records, r.KeptApart source.bytes run.scanner.table.Has →
      (∃ stop, impliedEnd? source.bytes r.start = some stop ∧ stop ≤ r.stop ∧
        r.joined = source.bytes.between r.start (stop - trailer.length)) ∧
      (impliedEnd? source.bytes r.start = some r.stop → standard.EndsIn source.bytes r.stop →
        r.joined ++ trailer = source.bytes.between r.start r.stop) ∧
      (source.NeverFails ∨ source.fault ≠ .endOfData →
        (∀ m : Message, m.WellFormed → m.padding = [] → source.bytes.HasAt r.start m.encode →
          r.stop = r.start + m.length ∧
            r.joined ++ trailer = source.bytes.between r.start r.stop) ∧
        ∀ m : LargeMessage, m.WellFormed → source.bytes.HasAt r.start m.encode →
          r.stop = r.start + m.length ∧ m.excess < m.data.length ∧
            r.joined ++ (m.data.drop m.excess ++ trailer) =
              source.bytes.between r.start r.stop) := by
  intro run r hr hapart
  have hread : r.ReadFrom source standard settings run.scanner.table.Has :=
    Run.readFrom source standard settings calls r hr
  -- what the parts join to ends where the section lengths say, for every record
  obtain ⟨stop, himplied, hle, hjoined⟩ := exists_stop_of_readFrom hread hapart
  have hwhole : impliedEnd? source.bytes r.start = some r.stop →
      standard.EndsIn source.bytes r.stop →
      r.joined ++ trailer = source.bytes.between r.start r.stop :=
    joined_append_trailer hread hapart
  refine ⟨⟨stop, himplied, hle, hjoined⟩, hwhole, fun hsource => ⟨?message, ?large⟩⟩
  case message =>
    intro m hm hpadding hat
    have hstop := m.stop_eq_of_readFrom hm hread hsource hat
    refine ⟨hstop, hwhole ?_ ?_⟩
    · rw [hstop]
      exact impliedEnd_of_part hat (m.impliedEnd_eq hm hpadding)
    · obtain ⟨hroom, -, hends⟩ := PlainScan.endsAt_of_suffix (r := plainScan settings source.bytes)
        hat (List.cons_ne_nil _ _) m.trailer_suffix
      rw [hstop, ← m.length_encode]
      exact ⟨hroom, hends⟩
  case large =>
    intro m hm hat
    -- the length field of the data section holds the excess, so its part ends that far in
    obtain ⟨hstop, hexcess⟩ := hm.stop_eq_of_readFrom hread hsource hat
    have hend := hm.impliedEnd_eq hat (le_trans (by decide) hexcess)
    rw [himplied, Option.some.injEq] at hend
    have hsum := m.length_eq_sum
    have hshort := hm.excess_lt_length
    refine ⟨hstop, hshort, ?_⟩
    rw [hjoined, hend, Nat.add_sub_cancel, hstop, ← hm.between_excess_eq hat]
    exact Bytes.between_append_between _ (by omega) (by omega)

def closedSample : Message := { sample with padding := [] }

theorem wellFormed_closedSample : closedSample.WellFormed :=
  { wellFormed_sample with length_lt := by decide }

/-- The sample messages, one ordinary and one large, each scanned by itself. -/
theorem parts_join_samples :
    (∃ r ∈ ((Scanner.start (.ofBytes closedSample.encode) standard {}).run [.next]).records,
      r.joined ++ trailer = closedSample.encode) ∧
    ∃ r ∈ ((Scanner.start (.ofBytes (largeSample 20).encode) standard {}).run [.next]).records,
      r.joined ++ ((largeSample 20).data.drop 20 ++ trailer) = (largeSample 20).encode := by
  have hwhole : ∀ bytes : Bytes, (Source.ofBytes bytes).bytes.HasAt 0 bytes := by
    intro bytes
    rw [Source.bytes_ofBytes]
    exact List.prefix_rfl
  constructor
  · obtain ⟨r, hr, hstart, hnone⟩ :
        ∃ r ∈ ((Scanner.start (.ofBytes closedSample.encode) standard {}).run [.next]).records,
          r.start = 0 ∧ ∀ part ∈ r.parts, part.interned = none := by decide +kernel
    have hat := hstart ▸ hwhole closedSample.encode
    obtain ⟨-, -, hmessages⟩ := parts_join (.ofBytes closedSample.encode) {} [.next] r hr
      (r.keptApart_of_none hnone)
    obtain ⟨hmessage, -⟩ := hmessages (.inl (Source.neverFails_ofBytes _))
    obtain ⟨hstop, hjoined⟩ := hmessage closedSample wellFormed_closedSample rfl hat
    refine ⟨r, hr, hjoined.trans ?_⟩
    rw [hstop, ← Message.length_encode, hat.between_eq]
  · obtain ⟨r, hr, hstart, hnone⟩ :
        ∃ r ∈ ((Scanner.start (.ofBytes (largeSample 20).encode) standard {}).run
          [.next]).records, r.start = 0 ∧ ∀ part ∈ r.parts, part.interned = none := by
      decide +kernel
    have hat := hstart ▸ hwhole (largeSample 20).encode
    obtain ⟨-, -, hmessages⟩ := parts_join (.ofBytes (largeSample 20).encode) {} [.next] r hr
      (r.keptApart_of_none hnone)
    obtain ⟨-, hlarge⟩ := hmessages (.inl (Source.neverFails_ofBytes _))
    obtain ⟨hstop, -, hjoined⟩ := hlarge _ (wellFormed_largeSample (by decide)) hat
    refine ⟨r, hr, hjoined.trans ?_⟩
    rw [hstop]
    exact hat.between_eq

end Grib1

end Granule
