import Granule.Proofs.Intern
import Granule.Proofs.Scan.Refinement

/-!
# Records as They Are Read

What a frame that was settled on is read into, on any source and for any format: the
record lies where the frame does, its header are the bytes before it, its parts are
bytes inside it, and its trailer was seen unless leniency waived it. Nothing is
assumed of the format, whose spans may be reversed or leave the frame.

**Main statements**:
- `Scanner.readRecord_cases` : a frame is refused, or taken up; and then read, or not to the end
- `Scanner.readRecordChecked_eq` : no part is ever cut out past the bounds of its frame
- `WireFormat.endsIn_of_confirm` : a frame that needs its trailer has it
-/

namespace Granule

/-! ## §1 Parts -/

namespace PlainScan

/-- The content of a part of the frame at `start`, as it lies in the bytes. -/
def contentOf (r : PlainScan) (start : Nat) (span : Span) : TypedBytes :=
  ⟨span.kind, r.bytes.between (start + span.start) (start + span.stop)⟩

variable {r : PlainScan} {start : Nat} {span : Span} {rest : List Span} {table : InternTable}

/-- A part of a recurring kind holds what the table has at its place. -/
theorem parts_cons_of_recurs (hrecurs : r.format.recurs span.kind = true) {kept : TypedBytes}
    (hkept : (table.intern (r.contentOf start span)).2.content?
      (table.intern (r.contentOf start span)).1 = some kept) :
    r.parts start (span :: rest) table =
      (⟨start + span.start, kept, some (table.intern (r.contentOf start span)).1⟩ ::
          (r.parts start rest (table.intern (r.contentOf start span)).2).1,
        (r.parts start rest (table.intern (r.contentOf start span)).2).2) := by
  rw [contentOf] at hkept ⊢
  rw [parts]
  simp only [hrecurs, if_true, hkept, Option.getD_some]

/-- Another one holds what lies there, and leaves the table alone. -/
theorem parts_cons_of_not_recurs (hnot : r.format.recurs span.kind ≠ true) :
    r.parts start (span :: rest) table =
      (⟨start + span.start, r.contentOf start span, none⟩ :: (r.parts start rest table).1,
        (r.parts start rest table).2) := by
  rw [parts, contentOf]
  simp only [hnot]
  rfl

/-- Parts lie at their spans and hold what lies there, unless the table has something else with
the same fingerprint; and the table only grows. -/
theorem parts_facts (r : PlainScan) (start : Nat) (spans : List Span) (table : InternTable)
    (hkeyed : table.Keyed) :
    table.Grows (r.parts start spans table).2 ∧ (r.parts start spans table).2.Keyed ∧
      ∀ part ∈ (r.parts start spans table).1, ∃ span ∈ spans,
        part.offset = start + span.start ∧
          (part.content = r.contentOf start span ∨
            r.format.recurs span.kind = true ∧
              (r.contentOf start span).Collides (r.parts start spans table).2.Has) := by
  -- each part is shown in the table that it is added to, and a table that grows keeps showing it
  induction spans generalizing table with
  | nil => exact ⟨.refl _, hkeyed, fun part hpart => by cases hpart⟩
  | cons span rest ih =>
    by_cases hrecurs : r.format.recurs span.kind = true
    · -- what is kept under a fingerprint may be what came with it first
      obtain ⟨kept, hkept, hsame⟩ := hkeyed.content_intern (r.contentOf start span)
      obtain ⟨hgrows, hlast, hrest⟩ := ih _ (hkeyed.intern (r.contentOf start span))
      rw [parts_cons_of_recurs hrecurs hkept]
      refine ⟨(InternTable.grows_intern _ _).trans hgrows, hlast, ?_⟩
      intro part hpart
      rcases List.mem_cons.mp hpart with rfl | hpart
      · refine ⟨span, List.mem_cons_self .., rfl, ?_⟩
        exact hsame.imp_right fun hcollides => ⟨hrecurs, hgrows.collides hcollides⟩
      · obtain ⟨other, hother, hfacts⟩ := hrest part hpart
        exact ⟨other, List.mem_cons_of_mem _ hother, hfacts⟩
    · obtain ⟨hgrows, hlast, hrest⟩ := ih _ hkeyed
      rw [parts_cons_of_not_recurs hrecurs]
      refine ⟨hgrows, hlast, ?_⟩
      intro part hpart
      rcases List.mem_cons.mp hpart with rfl | hpart
      · exact ⟨span, List.mem_cons_self .., rfl, .inl rfl⟩
      · obtain ⟨other, hother, hfacts⟩ := hrest part hpart
        exact ⟨other, List.mem_cons_of_mem _ hother, hfacts⟩

end PlainScan

/-! ## §2 Parts are cut out of their frame -/

namespace Scanner

/-- The bytes of a stretch; nothing where it is reversed or leaves them. -/
def cutOut (frame : Array UInt8) (start stop : Nat) : Option Bytes :=
  if start ≤ stop ∧ stop ≤ frame.size then some (frame.extract start stop).toList else none

/-- Takes up the parts of a frame like `takeParts`, but gives up on a stretch that cannot be
cut out of the frame. -/
def takePartsChecked (format : WireFormat) (start : Nat) (frame : Array UInt8) :
    List Span → InternTable → Array Part → Option (List Part × InternTable)
  | [], table, taken => some (taken.toList, table)
  | span :: rest, table, taken =>
    match cutOut frame span.start span.stop with
    | none => none
    | some data =>
      let content : TypedBytes := ⟨span.kind, data⟩
      let offset := start + span.start
      if format.recurs span.kind then
        match table.intern content with
        | (place, table) =>
          let content := (table.content? place).getD content
          takePartsChecked format start frame rest table (taken.push ⟨offset, content, some place⟩)
      else
        takePartsChecked format start frame rest table (taken.push ⟨offset, content, none⟩)

/-- Reads a frame like `readRecord`, with parts cut out under check. -/
def readRecordChecked (s : Scanner) (frame : FrameExtent) (headerFrom : Nat) :
    Option (Except IoError (Option Record) × InternTable) :=
  let size := frame.stop - frame.start
  match noneAtEnd (s.source.readExact frame.start size) with
  | .error e => some (.error e, s.table)
  | .ok none => some (.ok none, s.table)
  | .ok (some bytes) =>
    match spansOf s.format bytes size with
    | none => some (.ok none, s.table)
    | some spans =>
      match takePartsChecked s.format frame.start bytes.toArray spans s.table #[] with
      | none => none
      | some (parts, table) =>
        let headerLength := min (frame.start - headerFrom) s.settings.headerLimit
        match s.source.readExact (frame.start - headerLength) headerLength with
        | .error e => some (.error e, table)
        | .ok header =>
          some (.ok (some ⟨header, frame.start, frame.stop, parts, frame.repaired⟩), table)

theorem takePartsChecked_eq (format : WireFormat) (start : Nat) (frame : Array UInt8)
    (spans : List Span) (hspans : ∀ span ∈ spans, span.isWithin frame.size = true)
    (table : InternTable) (taken : Array Part) :
    takePartsChecked format start frame spans table taken =
      some (takeParts format start frame spans table taken) := by
  induction spans generalizing table taken with
  | nil => rfl
  | cons span rest ih =>
    have hrest := fun t a => ih (fun s hs => hspans s (List.mem_cons_of_mem _ hs)) t a
    have hcut : cutOut frame span.start span.stop =
        some (frame.extract span.start span.stop).toList := by
      have hwithin := hspans span (List.mem_cons_self ..)
      simp only [Span.isWithin, decide_eq_true_eq] at hwithin
      exact if_pos hwithin
    rw [takePartsChecked, takeParts, hcut]
    by_cases hrecurs : format.recurs span.kind = true
    · simp [hrecurs, hrest]
    · simp [hrecurs, hrest]

/-- **No part leaves its frame.** Whatever a format answers, no stretch is ever cut out past the
bounds of a frame. -/
theorem readRecordChecked_eq (s : Scanner) (frame : FrameExtent) (headerFrom : Nat) :
    s.readRecordChecked frame headerFrom = some (s.readRecord frame headerFrom) := by
  unfold readRecordChecked readRecord
  simp only
  cases hread : s.source.readExact frame.start (frame.stop - frame.start) with
  | error e => cases e <;> rfl
  | ok bytes =>
    have hlen : bytes.length = frame.stop - frame.start := Source.length_readExact hread
    simp only [noneAtEnd]
    cases hspans : spansOf s.format bytes (frame.stop - frame.start) with
    | none => rfl
    | some spans =>
      -- the spans were compared with the size of the frame, and so many bytes were read
      have hwithin : ∀ span ∈ spans, span.isWithin bytes.toArray.size = true := by
        rw [List.size_toArray, hlen]
        unfold spansOf at hspans
        split at hspans
        · cases hspans
        · split at hspans
          · rename_i hall
            cases hspans
            exact List.all_eq_true.mp hall
          · cases hspans
      simp only [takePartsChecked_eq _ _ _ _ hwithin]
      cases s.source.readExact
        (frame.start - min (frame.start - headerFrom) s.settings.headerLimit)
        (min (frame.start - headerFrom) s.settings.headerLimit) <;> rfl

end Scanner

/-! ## §3 Trailers -/

namespace WireFormat

variable {f : WireFormat} {settings : ScanSettings} {source : Source} {frame settled : FrameExtent}

/-- The bytes before an offset are the trailer. -/
def EndsIn (f : WireFormat) (bytes : Bytes) (stop : Nat) : Prop :=
  f.trailer.length ≤ stop ∧ bytes.HasAt (stop - f.trailer.length) f.trailer

theorem endsIn_of_hasTrailer {stop : Nat} (h : f.hasTrailer source stop = .ok true) :
    f.EndsIn source.bytes stop := by
  unfold hasTrailer at h
  simp only at h
  split at h
  · cases h
  split at h
  · rename_i hempty
    have hnil : f.trailer = [] := List.length_eq_zero_iff.mp hempty
    exact ⟨by omega, hnil ▸ Bytes.hasAt_nil _ _⟩
  · refine ⟨by omega, Bytes.HasAt.of_between_eq ?_⟩
    cases hread : source.readExact (stop - f.trailer.length) f.trailer.length with
    | error e => cases e <;> simp [hread, noneAtEnd, Except.map] at h
    | ok found =>
      -- what was compared with the trailer are the bytes there
      rw [← (Source.facts_of_readExact hread).2]
      simpa [hread, noneAtEnd, Except.map] using h

theorem endsIn_of_impliedStop {start stop : Nat}
    (h : f.impliedStop source start = .ok (some stop)) : f.EndsIn source.bytes stop := by
  unfold impliedStop at h
  split at h
  · cases h
  · cases h
  · cases h
  · rename_i shown _
    split at h
    · cases h
    · cases htrailer : f.hasTrailer source shown with
      | error e => simp [htrailer, Except.map] at h
      | ok there =>
        cases there with
        | false => simp [htrailer, Except.map] at h
        | true =>
          simp only [htrailer, Except.map, if_true, Except.ok.injEq, Option.some.injEq] at h
          exact h ▸ endsIn_of_hasTrailer htrailer

/-- A frame that needs its trailer has it, at its own end or at the one its inner structure
shows. -/
theorem endsIn_of_confirm (h : f.confirm settings source frame = .ok (some settled)) :
    settled.repaired = frame.repaired ∧
      (frame.repaired = false → settings.acceptsNoTrailer = false →
        f.EndsIn source.bytes settled.stop) := by
  unfold confirm at h
  split at h
  · cases h
  · rename_i htrailer
    cases h
    exact ⟨rfl, fun _ _ => endsIn_of_hasTrailer htrailer⟩
  · simp only at h
    split at h
    · cases h
    · rename_i stop hinner
      cases h
      refine ⟨rfl, fun _ _ => ?_⟩
      split at hinner
      · exact endsIn_of_impliedStop hinner
      · cases hinner
    · simp only [Except.ok.injEq, Option.ite_none_right_eq_some] at h
      obtain ⟨hlenient, hsame⟩ := h
      cases hsame
      refine ⟨rfl, fun hrepaired hneeds => ?_⟩
      simp [hrepaired, hneeds] at hlenient

end WireFormat

/-! ## §4 Records -/

namespace Scanner

/-- The plain scan of the bytes of a scanner; where a frame is settled, its view plays no part. -/
def plain (s : Scanner) : PlainScan where
  format := s.format
  view := ⟨fun _ _ => none, fun _ _ => none, fun _ _ => none⟩
  settings := s.settings
  bytes := s.source.bytes

/-- A header that was read ends where the frame starts. -/
theorem headerOf_of_readExact {s : Scanner} {start headerFrom : Nat} {header : Bytes}
    (h : s.source.readExact (start - min (start - headerFrom) s.settings.headerLimit)
      (min (start - headerFrom) s.settings.headerLimit) = .ok header) :
    header = s.plain.headerOf start headerFrom := by
  obtain ⟨-, hheader⟩ := Source.facts_of_readExact h
  have hends : start - min (start - headerFrom) s.settings.headerLimit +
      min (start - headerFrom) s.settings.headerLimit = start := by omega
  rw [hheader, hends]
  rfl

/-- The spans that divide a frame are those that its format answers. -/
theorem divide_of_spansOf {format : WireFormat} {frame : Bytes} {size : Nat} {spans : List Span}
    (h : spansOf format frame size = some spans) : format.divide frame = .ok spans := by
  unfold spansOf at h
  split at h
  · cases h
  · rename_i found hdivide
    split at h
    · cases h
      exact hdivide
    · cases h

/-- A frame is refused, and nothing is taken up from it; or its parts are taken up, and then it
is a record, unless its header cannot be read. -/
theorem readRecord_cases (s : Scanner) (frame : FrameExtent) (headerFrom : Nat)
    (hle : frame.start ≤ frame.stop) (hstop : frame.stop ≤ s.source.size) :
    ((∀ record, (s.readRecord frame headerFrom).1 ≠ .ok (some record)) ∧
        (s.readRecord frame headerFrom).2 = s.table) ∨
      ∃ spans, s.format.divide (s.source.bytes.between frame.start frame.stop) = .ok spans ∧
        (∀ span ∈ spans, span.isWithin (frame.stop - frame.start) = true) ∧
        (s.readRecord frame headerFrom).2 = (s.plain.parts frame.start spans s.table).2 ∧
        ∀ record, (s.readRecord frame headerFrom).1 = .ok (some record) →
          record = ⟨s.plain.headerOf frame.start headerFrom, frame.start, frame.stop,
            (s.plain.parts frame.start spans s.table).1, frame.repaired⟩ := by
  have hsize : frame.start + (frame.stop - frame.start) = frame.stop := by omega
  unfold readRecord
  simp only
  -- a frame that cannot be read, or not divided, leaves the table alone
  cases hread : s.source.readExact frame.start (frame.stop - frame.start) with
  | error e => cases e <;> simp [noneAtEnd]
  | ok bytes =>
    obtain ⟨-, hbytes⟩ := Source.facts_of_readExact hread
    rw [hsize] at hbytes
    simp only [noneAtEnd]
    cases hspans : spansOf s.format bytes (frame.stop - frame.start) with
    | none => simp
    | some spans =>
      right
      have hlen : bytes.length = frame.stop - frame.start := Source.length_readExact hread
      have hwithin : ∀ span ∈ spans, span.isWithin (frame.stop - frame.start) = true := by
        rw [← hlen] at hspans ⊢
        exact PlainScan.Describes.isWithin_of_spansOf (r := s.plain)
          ((PlainScan.Describes.spansOf_eq (r := s.plain) bytes).symm.trans hspans)
      have htake := PlainScan.Describes.takeParts_eq (r := s.plain)
        (show frame.stop ≤ s.source.bytes.length by rwa [Source.length_bytes]) spans hwithin
        s.table #[]
      have hparts : takeParts s.format frame.start bytes.toArray spans s.table #[] =
          s.plain.parts frame.start spans s.table := by
        rw [hbytes]
        exact htake.trans (by simp)
      refine ⟨spans, hbytes ▸ divide_of_spansOf hspans, hwithin, ?_⟩
      simp only [hparts]
      -- from here on the parts are in the table, whether the header can be read or not
      cases hhead : s.source.readExact
          (frame.start - min (frame.start - headerFrom) s.settings.headerLimit)
          (min (frame.start - headerFrom) s.settings.headerLimit) with
      | error e => simp
      | ok header =>
        refine ⟨rfl, ?_⟩
        intro record hrecord
        cases hrecord
        rw [headerOf_of_readExact hhead]

/-- Reading a frame fails where its bytes cannot be read, or those before it that are its header. -/
theorem readRecord_error {s : Scanner} {frame : FrameExtent} {headerFrom : Nat} {e : IoError}
    (h : (s.readRecord frame headerFrom).1 = .error e) :
    noneAtEnd (s.source.readExact frame.start (frame.stop - frame.start)) = .error e ∨
      (∃ bytes, s.source.readExact frame.start (frame.stop - frame.start) = .ok bytes) ∧
        s.source.readableEnd < frame.start := by
  unfold readRecord at h
  simp only at h
  split at h
  · rename_i e' hread
    cases h
    exact .inl hread
  · cases h
  · rename_i bytes hread
    -- the frame is read, so it is the header in front of it that fails
    right
    refine ⟨⟨bytes, noneAtEnd_eq_some_iff.mp hread⟩, ?_⟩
    split at h
    · cases h
    · split at h
      · -- a header that cannot be read has bytes, and ends where the frame starts
        rename_i hheader
        rw [Source.readExact_eq_readable] at hheader
        split at hheader
        · cases hheader
        · omega
      · cases h

theorem readRecord_of_unreadable {s : Scanner} {frame : FrameExtent} {e : IoError}
    (h : noneAtEnd (s.source.readExact frame.start (frame.stop - frame.start)) = .error e)
    (headerFrom : Nat) : s.readRecord frame headerFrom = (.error e, s.table) := by
  unfold readRecord
  simp only [h]

/-- How a record comes of what a scanner reads. -/
structure Emitted (s : Scanner) (headerFrom start : Nat) (record : Record) (table : InternTable) :
    Prop where
  start_eq : record.start = start
  long : start + s.format.minLength ≤ record.stop
  inside : record.stop ≤ s.source.size
  header_eq : record.header = s.plain.headerOf start headerFrom
  trailer : record.isRepaired = false → s.settings.acceptsNoTrailer = false →
    s.format.EndsIn s.source.bytes record.stop
  divided : ∃ spans, (∀ span ∈ spans, span.isWithin (record.stop - start) = true) ∧
    (record.parts, table) = s.plain.parts start spans s.table

theorem ReadsAt.emitted {s : Scanner} {headerFrom start : Nat} {record : Record}
    {table : InternTable} (h : s.ReadsAt headerFrom start record table) :
    s.Emitted headerFrom start record table := by
  obtain ⟨frame, settled, hmeasure, hconfirm, hread⟩ := h.measured
  obtain ⟨hstart, hmin, hsize⟩ := WireFormat.measure_frame_facts hmeasure
  obtain ⟨hsettled, hlong, hinside⟩ := WireFormat.confirm_facts hconfirm (by omega) hsize
  obtain ⟨hrepaired, htrailer⟩ := WireFormat.endsIn_of_confirm hconfirm
  have hsame : settled.start = start := hsettled.trans hstart
  rw [hstart] at hlong
  rcases s.readRecord_cases settled headerFrom (by omega) hinside with
    ⟨hnone, -⟩ | ⟨spans, -, hwithin, htable, hrecord⟩
  · exact absurd (congrArg Prod.fst hread) (hnone record)
  · have heq := hrecord record (congrArg Prod.fst hread)
    rw [hread] at htable
    rw [hsame] at heq hwithin htable
    subst heq
    exact ⟨rfl, hlong, hinside, rfl, fun hnot => htrailer (hrepaired ▸ hnot),
      spans, hwithin, Prod.ext rfl htable⟩

end Scanner

end Granule
