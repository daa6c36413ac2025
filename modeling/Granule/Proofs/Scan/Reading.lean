import Granule.Proofs.Scan.Failure
import Granule.Proofs.Scan.Interning

/-!
# What a Record Was Read From

That a record is sound says where its parts may lie, not which ones it has. Here each
record of a run is traced back to the answers of its format: a frame was measured at its
start, settled to end where the record does, and divided into spans, from which the parts
were taken one by one. Calls made since then do not matter, as the source and the format
stay what they were, and the table only grows.

What a scan of a source that may fail has read so, a scan of one that never fails reads
as well, and then it is the verdict on the bytes.

**Main statements**:
- `PlainScan.parts_taken` : parts are taken from the spans of a frame, one from each
- `Run.readFrom` : every record of every run was measured, settled and divided
- `Record.ReadFrom.exists_verdict` : a record goes by the verdict on its magic
-/

namespace Granule

/-! ## §1 Parts and spans -/

def Span.contentIn (span : Span) (bytes : Bytes) (start : Nat) : TypedBytes :=
  ⟨span.kind, bytes.between (start + span.start) (start + span.stop)⟩

/-- A part lies at a span of the frame at `start` and holds what lies there, unless it is kept
once and another content with the same fingerprint is known. -/
structure Part.TakenFrom (part : Part) (bytes : Bytes) (known : TypedBytes → Prop) (start : Nat)
    (span : Span) : Prop where
  offset_eq : part.offset = start + span.start
  content : part.content = span.contentIn bytes start ∨
    part.interned.isSome = true ∧ (span.contentIn bytes start).Collides known

theorem Part.TakenFrom.mono {part : Part} {bytes : Bytes} {known known' : TypedBytes → Prop}
    {start : Nat} {span : Span} (h : part.TakenFrom bytes known start span)
    (hle : ∀ content : TypedBytes, content.Collides known → content.Collides known') :
    part.TakenFrom bytes known' start span where
  offset_eq := h.offset_eq
  content := h.content.imp_right (And.imp_right (hle _))

/-- Parts are taken from the spans of a frame, one from each. -/
theorem PlainScan.parts_taken (r : PlainScan) (start : Nat) (spans : List Span)
    {table : InternTable} (hkeyed : table.Keyed) :
    List.Forall₂ (Part.TakenFrom · r.bytes (r.parts start spans table).2.Has start ·)
      (r.parts start spans table).1 spans := by
  induction spans generalizing table with
  | nil => exact .nil
  | cons span rest ih =>
    by_cases hrecurs : r.format.recurs span.kind = true
    · obtain ⟨kept, hkept, hsame⟩ := hkeyed.content_intern (r.contentOf start span)
      have hkeyed' := hkeyed.intern (r.contentOf start span)
      -- what is known when the part is taken is known when the last one is
      obtain ⟨hgrows, -, -⟩ := r.parts_facts start rest _ hkeyed'
      rw [parts_cons_of_recurs hrecurs hkept]
      exact .cons ⟨rfl, hsame.imp_right fun hcollides => ⟨rfl, hgrows.collides hcollides⟩⟩
        (ih hkeyed')
    · rw [parts_cons_of_not_recurs hrecurs]
      exact .cons ⟨rfl, .inl rfl⟩ (ih hkeyed)

/-! ## §2 Records -/

/-- A frame was measured where the record starts, settled to end where the record does, and
divided into spans, from which its parts were taken. -/
structure Record.ReadFrom (r : Record) (source : Source) (format : WireFormat)
    (settings : ScanSettings) (known : TypedBytes → Prop) : Prop where
  settled : ∃ frame, format.measure source r.start = .ok (.framed frame) ∧
    format.confirm settings source frame = .ok (some ⟨r.start, r.stop, r.isRepaired⟩)
  divided : ∃ spans, format.divide (source.bytes.between r.start r.stop) = .ok spans ∧
    (∀ span ∈ spans, span.isWithin (r.stop - r.start) = true) ∧
    List.Forall₂ (Part.TakenFrom · source.bytes known r.start ·) r.parts spans

/-- A record that a scanner reads was read from its source. -/
theorem Scanner.ReadsAt.readFrom {s : Scanner} {headerFrom start : Nat} {record : Record}
    {table : InternTable} (h : s.ReadsAt headerFrom start record table) (hkeyed : s.table.Keyed) :
    record.ReadFrom s.source s.format s.settings table.Has := by
  obtain ⟨frame, settled, hmeasure, hconfirm, hread⟩ := h.measured
  obtain ⟨hstart, hmin, hsize⟩ := WireFormat.measure_frame_facts hmeasure
  obtain ⟨hsettled, hlong, hinside⟩ := WireFormat.confirm_facts hconfirm (by omega) hsize
  rcases s.readRecord_cases settled headerFrom (by omega) hinside with
    ⟨hnone, -⟩ | ⟨spans, hdivide, hwithin, htable, hrecord⟩
  · exact absurd (congrArg Prod.fst hread) (hnone record)
  · have heq := hrecord record (congrArg Prod.fst hread)
    rw [hread] at htable
    subst heq
    refine ⟨⟨frame, ?_, hconfirm⟩, spans, hdivide, hwithin, ?_⟩
    · rw [hsettled, hstart]
      exact hmeasure
    · have htaken := s.plain.parts_taken settled.start spans hkeyed
      rwa [← htable] at htaken

namespace Record.ReadFrom

variable {r : Record} {source : Source} {format : WireFormat} {settings : ScanSettings}
  {known : TypedBytes → Prop}

theorem mono (h : r.ReadFrom source format settings known) {known' : TypedBytes → Prop}
    (hle : ∀ content : TypedBytes, content.Collides known → content.Collides known') :
    r.ReadFrom source format settings known' where
  settled := h.settled
  divided := by
    obtain ⟨spans, hdivide, hwithin, htaken⟩ := h.divided
    exact ⟨spans, hdivide, hwithin, htaken.imp fun _ _ hpart => hpart.mono hle⟩

/-- A record lies inside its source. -/
theorem inside (h : r.ReadFrom source format settings known) :
    r.start + format.minLength ≤ r.stop ∧ r.stop ≤ source.bytes.length := by
  obtain ⟨frame, hmeasure, hconfirm⟩ := h.settled
  obtain ⟨hstart, hmin, hsize⟩ := WireFormat.measure_frame_facts hmeasure
  obtain ⟨-, hlong, hinside⟩ := WireFormat.confirm_facts hconfirm (by omega) hsize
  rw [hstart] at hlong
  exact ⟨hlong, by rwa [Source.length_bytes]⟩

/-- What was read from a source that may fail is there without failures as well. -/
theorem of_fallsShortOf (h : r.ReadFrom source format settings known) {steady : Source}
    (hshort : source.FallsShortOf steady) (hformat : format.Relays) :
    r.ReadFrom steady format settings known where
  settled := by
    obtain ⟨frame, hmeasure, hconfirm⟩ := h.settled
    -- both questions were answered, so they did not fail
    have hmeasured := WireFormat.relays_measure hformat r.start hshort
    have hconfirmed := WireFormat.relays_confirm hformat settings frame hshort
    simp only [hmeasure, reduceCtorEq, false_or] at hmeasured
    simp only [hconfirm, reduceCtorEq, false_or] at hconfirmed
    exact ⟨frame, hmeasured.symm, hconfirmed.symm⟩
  divided := hshort.bytes ▸ h.divided

end Record.ReadFrom

/-- A frame that was settled goes by the verdict on its magic. -/
theorem PlainScan.Describes.verdict_eq {p : PlainScan} {source : Source} (h : p.Describes source)
    {start stop : Nat} {repaired : Bool} {frame : FrameExtent} {spans : List Span}
    (hmeasure : p.format.measure source start = .ok (.framed frame))
    (hconfirm : p.format.confirm p.settings source frame = .ok (some ⟨start, stop, repaired⟩))
    (hspans : p.spansOf (p.bytes.between start stop) = some spans) :
    p.verdict start = .record stop repaired spans := by
  rw [h.measure_eq, Except.ok.injEq] at hmeasure
  split at hmeasure
  · cases hmeasure
  · cases hmeasure
  · -- a frame was measured, so its length is neither too short nor too long
    rename_i resume preamble hpreamble
    unfold WireFormat.extent at hmeasure
    simp only at hmeasure
    split at hmeasure
    · cases hmeasure
    · rename_i hlong
      split at hmeasure
      · cases hmeasure
      · rename_i hinside
        cases hmeasure
        rw [h.confirm_eq, Except.ok.injEq, Option.map_eq_some_iff] at hconfirm
        obtain ⟨found, hstop, hframe⟩ := hconfirm
        cases hframe
        rw [verdict, hpreamble]
        simp only [verdictOf, if_neg hlong, if_neg hinside, hstop, hspans]

/-- A record goes by the verdict on its magic. -/
theorem Record.ReadFrom.exists_verdict {r : Record} {p : PlainScan} {source : Source}
    {known : TypedBytes → Prop} (h : r.ReadFrom source p.format p.settings known)
    (hdescribes : p.Describes source) :
    ∃ spans, p.verdict r.start = .record r.stop r.isRepaired spans := by
  obtain ⟨frame, hmeasure, hconfirm⟩ := h.settled
  obtain ⟨spans, hdivide, hwithin, -⟩ := h.divided
  obtain ⟨-, hinside⟩ := h.inside
  rw [hdescribes.bytes] at hdivide hinside
  rw [← Bytes.length_between _ hinside] at hwithin
  have hspans : p.spansOf (p.bytes.between r.start r.stop) = some spans :=
    PlainScan.spansOf_of_divide hdivide hwithin
  exact ⟨spans, hdescribes.verdict_eq hmeasure hconfirm hspans⟩

/-! ## §3 Runs -/

/-- The records that a scan came to were read from its source. -/
structure Recorded (source : Source) (format : WireFormat) (settings : ScanSettings)
    (past : List Sighting) (s : Scanner) : Prop
    extends Followed source format settings False past s where
  read : ∀ x ∈ past, ∀ r, x.outcome = .record r → r.ReadFrom source format settings s.table.Has

namespace Recorded

variable {source : Source} {format : WireFormat} {settings : ScanSettings} {past : List Sighting}
  {s next : Scanner} {headerFrom after : Nat} {x : Sighting}

/-- What was read stays so when the table grows. -/
theorem read_of_grows (h : Recorded source format settings past s) {table : InternTable}
    (hgrows : s.table.Grows table) :
    ∀ x ∈ past, ∀ r, x.outcome = .record r → r.ReadFrom source format settings table.Has :=
  fun x hx r hrecord => (h.read x hx r hrecord).mono fun _ => hgrows.collides

theorem go (h : Recorded source format settings past s)
    (hstep : s.step headerFrom = .resume next after)
    (hstepped : s.Stepped headerFrom (some x) (.resume next after)) :
    Recorded source format settings (past ++ [x]) next := by
  refine ⟨(h.toFollowed.go False.elim hstep hstepped).1, ?_⟩
  rw [Scanner.table_of_resume hstep]
  refine List.forall_mem_append.mpr ⟨h.read, ?_⟩
  intro y hy r hrecord
  obtain rfl := List.mem_singleton.mp hy
  cases hstepped <;> cases hrecord

theorem stop {answer : Except IoError (Option Record)} {x : Option Sighting}
    (h : Recorded source format settings past s) (hstep : s.step headerFrom = .stop answer next)
    (hstepped : s.Stepped headerFrom x (.stop answer next)) :
    Recorded source format settings (past ++ x.toList) next := by
  refine ⟨(h.toFollowed.stop False.elim hstep hstepped).1, ?_⟩
  cases hstepped with
  | ended =>
    rw [Option.toList_none, List.append_nil]
    exact h.read
  | failed _ htaken =>
    rw [Option.toList_none, List.append_nil]
    exact h.read_of_grows (h.grows_of_taken htaken).1
  | record _ hreads =>
    obtain ⟨hgrows, -, -⟩ := hreads.emitted.shows h.keyed
    refine List.forall_mem_append.mpr ⟨h.read_of_grows hgrows, ?_⟩
    intro y hy q hq
    obtain rfl := List.mem_singleton.mp hy
    cases hq
    rw [← h.source_eq, ← h.format_eq, ← h.settings_eq]
    exact hreads.readFrom h.keyed

theorem scanFrom (h : Recorded source format settings past s) (headerFrom : Nat) :
    Recorded source format settings (past ++ s.sightings headerFrom) (s.scanFrom headerFrom).2 :=
  Scanner.scanFrom_induct
    (fun past s _ => Recorded source format settings past s)
    (fun past _ s => Recorded source format settings past s)
    (fun h hstep hstepped => h.go hstep hstepped)
    (fun h hstep hstepped => h.stop hstep hstepped) past h

theorem answer (h : Recorded source format settings past s) (c : Scanner.Call) :
    Recorded source format settings (past ++ s.sought) (s.answer c).2 :=
  Scanner.answer_keeps (P := Recorded source format settings) past h (h.scanFrom s.cursor)
    (fun peeked h => ⟨h.toFollowed.keep peeked, h.read⟩)
    (fun h => ⟨h.toFollowed.finish, h.read⟩) c

end Recorded

namespace Run

/-- Every record that a run came to was read from its source. -/
theorem readFrom (source : Source) (format : WireFormat) (settings : ScanSettings)
    (calls : List Scanner.Call) :
    let run := (Scanner.start source format settings).run calls
    ∀ r ∈ run.records, r.ReadFrom source format settings run.scanner.table.Has := by
  intro run r hr
  have hrecorded : Recorded source format settings run.sightings run.scanner :=
    Scanner.run_induct (fun _ run => Recorded source format settings run.sightings run.scanner)
      ⟨.nil source format settings False, fun x hx => by cases hx⟩
      (fun _ _ c h => h.answer c) calls
  rw [records, handed source format settings calls] at hr
  obtain ⟨x, hx, hrecord⟩ := List.mem_filterMap.mp hr
  exact hrecorded.read x hx r (Sighting.outcome_of_record? hrecord)

end Run

end Granule
