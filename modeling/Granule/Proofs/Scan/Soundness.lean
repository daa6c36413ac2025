import Granule.Proofs.Scan.Words

/-!
# What Holds of Every Record

Whatever the bytes are, whatever a format answers about them, and in whatever order a
caller asks: a record that is handed out lies in the source, behind all that was passed
before it, and shows the bytes that are there.

The header is the one part of a record that depends on how the scan got there. It starts
where the last record or the last dropped frame ended, however many foreign magics and
failed calls lie between, because a step that failed fails again.

**Main statements**:
- `Scanner.fault_of_step` : a step that failed would fail again
- `Followed.scanFrom` : what holds of the records of a run is kept by every scan
- `Run.records_sound` : what holds of every record of every run
-/

namespace Granule

/-! ## §1 Faults stay -/

namespace Scanner

variable {s t : Scanner} {headerFrom : Nat} {e : IoError}

/-- The next step fails, for a reason that no call will change. -/
inductive Fault (s : Scanner) (e : IoError) : Prop
  | search (hinside : s.cursor < s.source.size)
      (h : s.source.find s.cursor s.format.magic none s.settings.blockSize = .error e)
  | measure {start : Nat} (hcomes : s.ComesTo start) (h : s.format.measure s.source start = .error e)
  | confirm {start : Nat} {frame : FrameExtent} (hcomes : s.ComesTo start)
      (hmeasure : s.format.measure s.source start = .ok (.framed frame))
      (h : s.format.confirm s.settings s.source frame = .error e)
  | read {start : Nat} {frame settled : FrameExtent} (hcomes : s.ComesTo start)
      (hmeasure : s.format.measure s.source start = .ok (.framed frame))
      (hconfirm : s.format.confirm s.settings s.source frame = .ok (some settled))
      (h : noneAtEnd (s.source.readExact settled.start (settled.stop - settled.start)) = .error e)

/-- There is nothing to be found from here on: the scan is at the end, or at a fault. -/
def Barren (s : Scanner) : Prop := s.source.size ≤ s.cursor ∨ ∃ e, s.Fault e

/-- A repair answers for the frame at the next magic. -/
def repairsNext (s : Scanner) : Bool :=
  match s.magic? with
  | none => false
  | some start =>
    match s.format.measure s.source start with
    | .ok measured => measured.isRepaired
    | .error _ => false

/-- The step at a fault changes nothing, but it has counted what a repair answered by then. -/
theorem Fault.step_eq (h : s.Fault e) (headerFrom : Nat) :
    s.step headerFrom = .stop (.error e) (s.countRepair s.repairsNext) := by
  unfold repairsNext
  cases h with
  | search hinside h =>
    have hnone : s.magic? = none := by rw [magic?, if_neg (Nat.not_le.mpr hinside), h]
    rw [hnone, Scanner.step, if_neg (Nat.not_le.mpr hinside), h]
    rfl
  | measure hcomes h =>
    rw [hcomes.magic?_eq, hcomes.step_eq, examine]
    simp only [h]
    rfl
  | confirm hcomes hmeasure h =>
    rw [hcomes.magic?_eq, hcomes.step_eq, examine]
    simp only [hmeasure, settle_countRepair, h]
    rfl
  | @read start frame settled hcomes hmeasure hconfirm h =>
    rw [hcomes.magic?_eq, hcomes.step_eq, examine]
    simp only [hmeasure, settle_countRepair, hconfirm, readRecord_of_unreadable h,
      Measurement.isRepaired]
    -- nothing was taken up, so the table is the one that was there
    cases frame.repaired <;> rfl

theorem Fault.step (h : s.Fault e) (headerFrom : Nat) :
    ∃ t, s.step headerFrom = .stop (.error e) t := ⟨_, h.step_eq headerFrom⟩

/-- A step from there stops, and not with a record. -/
theorem Barren.step (h : s.Barren) (headerFrom : Nat) :
    ∃ answer t, s.step headerFrom = .stop answer t ∧ ∀ record, answer ≠ .ok (some record) := by
  rcases h with hend | ⟨e, hfault⟩
  · exact ⟨.ok none, s.finish, if_pos hend, by simp⟩
  · obtain ⟨t, hstep⟩ := hfault.step headerFrom
    exact ⟨.error e, t, hstep, by simp⟩

/-- A fault lies in the source and at the cursor, not in what was counted or taken up. -/
theorem Fault.congr (h : s.Fault e) (hsource : t.source = s.source) (hformat : t.format = s.format)
    (hsettings : t.settings = s.settings) (hcursor : t.cursor = s.cursor) : t.Fault e := by
  have hcomes : ∀ {start}, s.ComesTo start → t.ComesTo start := fun h =>
    ⟨by rw [hsource, hcursor]; exact h.inside,
      by rw [hsource, hformat, hsettings, hcursor]; exact h.found⟩
  cases h with
  | search hinside h =>
    exact .search (by rw [hsource, hcursor]; exact hinside)
      (by rw [hsource, hformat, hsettings, hcursor]; exact h)
  | measure h hmeasure => exact .measure (hcomes h) (by rw [hsource, hformat]; exact hmeasure)
  | confirm h hmeasure hconfirm =>
    exact .confirm (hcomes h) (by rw [hsource, hformat]; exact hmeasure)
      (by rw [hsource, hformat, hsettings]; exact hconfirm)
  | read h hmeasure hconfirm hread =>
    exact .read (hcomes h) (by rw [hsource, hformat]; exact hmeasure)
      (by rw [hsource, hformat, hsettings]; exact hconfirm) (by rw [hsource]; exact hread)

theorem Barren.congr (h : s.Barren) (hsource : t.source = s.source) (hformat : t.format = s.format)
    (hsettings : t.settings = s.settings) (hcursor : t.cursor = s.cursor) : t.Barren := by
  rcases h with hend | ⟨e, hfault⟩
  · exact .inl (by rw [hsource, hcursor]; exact hend)
  · exact .inr ⟨e, hfault.congr hsource hformat hsettings hcursor⟩

end Scanner

/-- The frames of a format have a byte to be read: in the magic, in the shortest frame, or in what
the preamble reads. -/
def WireFormat.IsSolid (f : WireFormat) : Prop :=
  f.magic ≠ [] ∨ 0 < f.minLength ∨ ∀ source start resume p,
    f.preamble source start = .ok ⟨resume, some p⟩ → start < source.readableEnd

namespace Scanner

variable {s t : Scanner} {headerFrom : Nat} {e : IoError}

/-- No read fails, or frames have a byte to be read: either way, a frame that can be read has a header
that can be read. -/
def ReadsHeaders (s : Scanner) : Prop := s.source.NeverFails ∨ s.format.IsSolid

theorem ReadsHeaders.congr (h : s.ReadsHeaders) (hsource : t.source = s.source)
    (hformat : t.format = s.format) : t.ReadsHeaders :=
  h.imp hsource.symm.subst hformat.symm.subst

/-- A frame that could be read starts within the readable bytes. -/
theorem start_le_readableEnd (hreads : s.ReadsHeaders) {start : Nat} (hcomes : s.ComesTo start)
    {frame settled : FrameExtent} (hmeasure : s.format.measure s.source start = .ok (.framed frame))
    (hconfirm : s.format.confirm s.settings s.source frame = .ok (some settled)) {bytes : Bytes}
    (hbytes : s.source.readExact settled.start (settled.stop - settled.start) = .ok bytes) :
    settled.start ≤ s.source.readableEnd := by
  obtain ⟨hstart, hmin, hsize⟩ := WireFormat.measure_frame_facts hmeasure
  obtain ⟨hsettled, hlong, hinside⟩ := WireFormat.confirm_facts hconfirm (by omega) hsize
  rcases hreads with hsteady | hmagic | hpos | hreads
  · -- a frame lies in the source, all of which is readable
    have hreadable := hsteady.readable.1
    omega
  · have hreadable := (Source.facts_of_find hcomes.found).2.2 hmagic
    omega
  · have hreadable := (Source.facts_of_readExact hbytes).1
    omega
  · obtain ⟨resume, p, hpreamble⟩ := WireFormat.preamble_of_measure hmeasure
    have hreadable := hreads _ _ _ _ hpreamble
    omega

/-- A step that failed came to a fault; or it read a frame behind the readable bytes, and then failed
on its header. -/
theorem fault_or_header_of_step (h : s.step headerFrom = .stop (.error e) t) :
    s.Fault e ∨ ∃ start frame settled bytes, s.ComesTo start ∧
      s.format.measure s.source start = .ok (.framed frame) ∧
      s.format.confirm s.settings s.source frame = .ok (some settled) ∧
      s.source.readExact settled.start (settled.stop - settled.start) = .ok bytes ∧
      s.source.readableEnd < settled.start := by
  unfold Scanner.step at h
  split at h
  · cases h
  rename_i hinside
  split at h
  · rename_i hfind
    cases h
    exact .inl (.search (Nat.not_le.mp hinside) hfind)
  · cases h
  rename_i start hfind
  have hcomes : s.ComesTo start := ⟨Nat.not_le.mp hinside, hfind⟩
  unfold examine at h
  split at h
  · rename_i hmeasure
    cases h
    exact .inl (.measure hcomes hmeasure)
  · cases h
  · cases h
  rename_i frame hmeasure
  rw [settle_countRepair] at h
  split at h
  · rename_i hconfirm
    cases h
    exact .inl (.confirm hcomes hmeasure hconfirm)
  · cases h
  rename_i settled hconfirm
  split at h
  · rename_i e' table hread
    cases h
    rcases readRecord_error (congrArg Prod.fst hread) with hunread | ⟨⟨bytes, hbytes⟩, hbehind⟩
    · exact .inl (.read hcomes hmeasure hconfirm hunread)
    · exact .inr ⟨start, frame, settled, bytes, hcomes, hmeasure, hconfirm, hbytes, hbehind⟩
  · cases h
  · cases h

/-- A step that failed came to a fault: a frame that can be read has a header that can be read. -/
theorem fault_of_step (hreads : s.ReadsHeaders) (h : s.step headerFrom = .stop (.error e) t) :
    s.Fault e := by
  refine (fault_or_header_of_step h).resolve_right ?_
  rintro ⟨start, frame, settled, bytes, hcomes, hmeasure, hconfirm, hbytes, hbehind⟩
  have hstart := start_le_readableEnd hreads hcomes hmeasure hconfirm hbytes
  exact absurd hbehind (Nat.not_lt.mpr hstart)

/-- A step that failed leaves the scan at the fault. -/
theorem fault_of_stop (hreads : s.ReadsHeaders) (h : s.step headerFrom = .stop (.error e) t) :
    t.Fault e := by
  have hfault := fault_of_step hreads h
  have hstepped := s.stepped headerFrom
  rw [h] at hstepped
  generalize s.sighting? headerFrom = x at hstepped
  cases hstepped with
  | @failed _ repaired table =>
    exact hfault.congr (by cases repaired <;> rfl) (by cases repaired <;> rfl)
      (by cases repaired <;> rfl) (by cases repaired <;> rfl)

end Scanner

/-! ## §2 Where a header starts -/

namespace Sighting

def lastStop (past : List Sighting) : Nat :=
  ((past.filterMap (·.record?)).getLast?.map (·.stop)).getD 0

def lastResync (past : List Sighting) : Nat :=
  ((past.filter (·.isDropped)).getLast?.map (·.resume)).getD 0

/-- No byte before here counts as header. -/
def boundary (past : List Sighting) : Nat := max (lastStop past) (lastResync past)

variable {source : Source} {format : WireFormat} {past : List Sighting} {start resume : Nat}

/-- All of it lies behind the boundary that the scan has passed. -/
theorem boundary_le {n : Nat} (h : EachAfter (Placed source format) past)
    (hle : ∀ y ∈ past, y.resume ≤ n) : boundary past ≤ n := by
  refine max_le ?_ ?_
  · unfold lastStop
    cases hlast : (past.filterMap (·.record?)).getLast? with
    | none => exact Nat.zero_le n
    | some r =>
      -- the last record is that of a sighting, which the scan had passed at its end
      obtain ⟨x, hx, hrecord⟩ := List.mem_filterMap.mp (List.mem_of_getLast? hlast)
      obtain ⟨before, hplaced⟩ := h.exists_of_mem hx
      have hresume := hplaced.resume
      rw [record?] at hrecord
      unfold WireFormat.ResumesAt at hresume
      split at hrecord
      · rename_i hkind
        cases hrecord
        rw [hkind] at hresume
        exact hresume.2.2.2.symm.trans_le (hle x hx)
      · cases hrecord
  · unfold lastResync
    cases hlast : (past.filter (·.isDropped)).getLast? with
    | none => exact Nat.zero_le n
    | some x => exact hle x (List.mem_of_mem_filter (List.mem_of_getLast? hlast))

theorem boundary_foreign :
    boundary (past ++ [⟨start, .foreign, resume⟩]) = boundary past := by
  simp [boundary, lastStop, lastResync, record?, isDropped]

theorem boundary_dropped (hle : boundary past ≤ resume) :
    boundary (past ++ [⟨start, .dropped, resume⟩]) = resume := by
  have hstop : lastStop (past ++ [⟨start, .dropped, resume⟩]) = lastStop past := by
    simp [lastStop, record?]
  have hresync : lastResync (past ++ [⟨start, .dropped, resume⟩]) = resume := by
    simp [lastResync, isDropped]
  rw [boundary, hstop, hresync]
  exact max_eq_right ((le_max_left _ _).trans hle)

theorem boundary_record {r : Record} (hle : boundary past ≤ r.stop) :
    boundary (past ++ [⟨start, .record r, resume⟩]) = r.stop := by
  have hstop : lastStop (past ++ [⟨start, .record r, resume⟩]) = r.stop := by
    simp [lastStop, record?]
  have hresync : lastResync (past ++ [⟨start, .record r, resume⟩]) = lastResync past := by
    simp [lastResync, isDropped]
  rw [boundary, hstop, hresync]
  exact max_eq_left ((le_max_right _ _).trans hle)

end Sighting

/-! ## §3 Records -/

/-- A part lies inside its record and holds the bytes of the source at its offset, unless it is of
a recurring kind and another content with the same fingerprint is known. -/
def Part.Shows (part : Part) (source : Source) (format : WireFormat)
    (known : TypedBytes → Prop) (r : Record) : Prop :=
  ∃ content : TypedBytes, r.start ≤ part.offset ∧
    part.offset + content.data.length ≤ r.stop ∧
    source.bytes.HasAt part.offset content.data ∧
    (part.content = content ∨ format.recurs content.kind = true ∧ content.Collides known)

/-- What holds of a record that a scan came to after these sightings. -/
structure Record.Sound (r : Record) (source : Source) (format : WireFormat)
    (settings : ScanSettings) (known : TypedBytes → Prop) (before : List Sighting) : Prop where
  inside : r.stop ≤ source.size
  long : r.start + format.minLength ≤ r.stop
  magic : source.bytes.HasAt r.start format.magic
  after_records : ∀ y ∈ before, ∀ q, y.outcome = .record q → q.stop ≤ r.start
  after_dropped : ∀ y ∈ before, y.outcome = .dropped →
    y.start + max format.resyncDistance 1 ≤ r.start
  trailer : r.isRepaired = false → settings.acceptsNoTrailer = false →
    format.EndsIn source.bytes r.stop
  parts : ∀ part ∈ r.parts, part.Shows source format known r

/-- The header is the last bytes before a record, of those that count as header. -/
def Record.HeaderFrom (r : Record) (source : Source) (settings : ScanSettings)
    (boundary : Nat) : Prop :=
  r.header = source.bytes.between (r.start - min settings.headerLimit (r.start - boundary)) r.start

theorem Part.Shows.mono {part : Part} {source : Source} {format : WireFormat}
    {known known' : TypedBytes → Prop} {r : Record} (h : part.Shows source format known r)
    (hle : ∀ content : TypedBytes, content.Collides known → content.Collides known') :
    part.Shows source format known' r := by
  obtain ⟨content, hstart, hstop, hat, hsame⟩ := h
  exact ⟨content, hstart, hstop, hat, hsame.imp_right (And.imp_right (hle content))⟩

/-- The parts of a record that was read show what lies there. -/
theorem Scanner.Emitted.shows {s : Scanner} {headerFrom start : Nat} {record : Record}
    {table : InternTable} (h : s.Emitted headerFrom start record table) (hkeyed : s.table.Keyed) :
    s.table.Grows table ∧ table.Keyed ∧
      ∀ part ∈ record.parts, part.Shows s.source s.format table.Has record := by
  obtain ⟨spans, hwithin, hparts⟩ := h.divided
  obtain ⟨hgrows, hlast, hshows⟩ := s.plain.parts_facts start spans s.table hkeyed
  rw [← hparts] at hgrows hlast hshows
  refine ⟨hgrows, hlast, ?_⟩
  intro part hpart
  obtain ⟨span, hspan, hoffset, hcontent⟩ := hshows part hpart
  obtain ⟨hle, hstop⟩ : span.start ≤ span.stop ∧ span.stop ≤ record.stop - start := by
    simpa [Span.isWithin] using hwithin span hspan
  have hlong := h.long
  have hinside := h.inside
  -- the span lies in the frame and the frame in the source, so nothing of the part is cut off
  have hlen : (s.plain.contentOf start span).data.length = span.stop - span.start := by
    have hsize : start + span.stop ≤ s.source.bytes.length := by
      rw [Source.length_bytes]
      omega
    have hbetween := Bytes.length_between (start + span.start) hsize
    rw [PlainScan.contentOf]
    exact hbetween.trans (by omega)
  refine ⟨s.plain.contentOf start span, ?_, ?_, ?_, hcontent⟩
  · rw [hoffset, h.start_eq]
    exact Nat.le_add_right _ _
  · rw [hoffset, hlen]
    omega
  · rw [hoffset]
    exact Bytes.hasAt_between s.source.bytes (start + span.start) (start + span.stop)

/-! ## §4 What a scan keeps -/

/-- The records that a scan came to are sound; and if headers are `clear`, they start at the
boundary. -/
structure Followed (source : Source) (format : WireFormat) (settings : ScanSettings)
    (clear : Prop) (past : List Sighting) (s : Scanner) : Prop
    extends Traced source format settings past s where
  keyed : s.table.Keyed
  sound : EachAfter (fun before x => ∀ r, x.outcome = .record r →
    r.Sound source format settings s.table.Has before ∧
      (clear → r.HeaderFrom source settings (Sighting.boundary before))) past

namespace Followed

variable {source : Source} {format : WireFormat} {settings : ScanSettings} {clear : Prop}
  {past : List Sighting} {s next : Scanner} {headerFrom after start : Nat} {x : Sighting}

theorem nil (source : Source) (format : WireFormat) (settings : ScanSettings) (clear : Prop) :
    Followed source format settings clear [] (.start source format settings) where
  toTraced := .nil source format settings
  keyed := InternTable.keyed_empty
  sound := .nil

/-- What is known stays true of a table that has grown. -/
theorem sound_of_grows (h : Followed source format settings clear past s) {table : InternTable}
    (hgrows : s.table.Grows table) :
    EachAfter (fun before x => ∀ r, x.outcome = .record r →
      r.Sound source format settings table.Has before ∧
        (clear → r.HeaderFrom source settings (Sighting.boundary before))) past := by
  refine h.sound.mono fun before x hx r hrecord => ?_
  obtain ⟨hsound, hheader⟩ := hx r hrecord
  exact ⟨{ hsound with
    parts := fun part hpart =>
      (hsound.parts part hpart).mono fun _ => hgrows.collides }, hheader⟩

/-- Frames that are taken up leave the table keyed, and what it has in it. -/
theorem grows_of_taken (h : Followed source format settings clear past s) {table : InternTable}
    (htaken : s.Taken headerFrom table) : s.table.Grows table ∧ table.Keyed := by
  rcases htaken with rfl | ⟨frame, hle, hstop, rfl⟩
  · exact ⟨.refl _, h.keyed⟩
  · rcases s.readRecord_cases frame headerFrom hle hstop with ⟨-, hsame⟩ | ⟨spans, -, -, htable, -⟩
    · rw [hsame]
      exact ⟨.refl _, h.keyed⟩
    · rw [htable]
      obtain ⟨hgrows, hkeyed, -⟩ := s.plain.parts_facts frame.start spans s.table h.keyed
      exact ⟨hgrows, hkeyed⟩

theorem mono {clear' : Prop} (h : Followed source format settings clear past s)
    (hle : clear' → clear) : Followed source format settings clear' past s :=
  { h with
    sound := h.sound.mono fun _ _ hx r hrecord =>
      ⟨(hx r hrecord).1, fun hclear => (hx r hrecord).2 (hle hclear)⟩ }

theorem keep (h : Followed source format settings clear past s) (peeked : Option Record) :
    Followed source format settings clear past { s with peeked } :=
  { h with toTraced := h.toTraced.keep peeked }

theorem finish (h : Followed source format settings clear past s) :
    Followed source format settings clear past s.finish :=
  { h with toTraced := h.toTraced.finish }

/-- A step that goes on leaves the boundary where it is, or moves it behind a dropped frame. -/
theorem go (h : Followed source format settings clear past s)
    (hheader : clear → headerFrom = Sighting.boundary past ∨ s.Barren)
    (hstep : s.step headerFrom = .resume next after)
    (hstepped : s.Stepped headerFrom (some x) (.resume next after)) :
    Followed source format settings clear (past ++ [x]) next ∧
      (clear → after = Sighting.boundary (past ++ [x]) ∨ next.Barren) := by
  have htraced := h.toTraced.go hstepped
  -- a barren scanner would have stopped
  have hstart : clear → headerFrom = Sighting.boundary past := by
    intro hclear
    refine (hheader hclear).resolve_right fun hbarren => ?_
    obtain ⟨answer, t, hstop, -⟩ := hbarren.step headerFrom
    rw [hstep] at hstop
    cases hstop
  cases hstepped with
  | foreign hcomes hmeasure =>
    refine ⟨⟨htraced, h.keyed, h.sound.concat ?_⟩, fun hclear => .inl ?_⟩
    · intro r hrecord
      cases hrecord
    · rw [hstart hclear, Sighting.boundary_foreign]
  | @dropped start reason repaired hcomes =>
    have htable : (s.countRepair repaired).table = s.table := by cases repaired <;> rfl
    refine ⟨⟨htraced, ?_, EachAfter.concat ?_ ?_⟩, fun _ => .inl ?_⟩
    · exact (congrArg InternTable.Keyed htable).mpr h.keyed
    · exact h.sound_of_grows (htable ▸ .refl _)
    · intro r hrecord
      cases hrecord
    · -- the frame that was dropped lies behind all that was passed
      have hpassed := (h.toTraced.after_of_comesTo hcomes).2
      refine (Sighting.boundary_dropped ?_).symm
      refine Sighting.boundary_le h.placed fun y hy => (hpassed y hy).trans ?_
      exact Nat.le_add_right _ _

/-- A record that a scan comes to behind its past is sound. -/
theorem sound_record (h : Followed source format settings clear past s)
    (hcomes : s.ComesTo start) {r : Record} {table : InternTable}
    (hemitted : s.Emitted headerFrom start r table) :
    r.Sound source format settings table.Has past := by
  obtain ⟨hmagic, hpassed⟩ := h.toTraced.after_of_comesTo hcomes
  obtain ⟨-, -, hshows⟩ := hemitted.shows h.keyed
  rw [h.source_eq, h.format_eq] at hshows
  -- what was passed before tells where the search went on, and the magic lies behind that
  have hresume : ∀ y ∈ past, format.ResumesAt source y := by
    intro y hy
    obtain ⟨before, hplaced⟩ := h.placed.exists_of_mem hy
    exact hplaced.resume
  refine ⟨?inside, ?long, ?magic, ?records, ?dropped, ?trailer, hshows⟩
  case inside => exact h.source_eq ▸ hemitted.inside
  case long =>
    rw [hemitted.start_eq, ← h.format_eq]
    exact hemitted.long
  case magic => exact hemitted.start_eq ▸ hmagic
  case records =>
    intro y hy q hq
    have hat := hresume y hy
    rw [WireFormat.ResumesAt, hq] at hat
    rw [hemitted.start_eq, ← hat.2.2.2]
    exact hpassed y hy
  case dropped =>
    intro y hy hdropped
    have hat := hresume y hy
    rw [WireFormat.ResumesAt, hdropped] at hat
    rw [hemitted.start_eq, ← hat]
    exact hpassed y hy
  case trailer =>
    intro hrepaired hneeds
    have htrailer := hemitted.trailer hrepaired (h.settings_eq ▸ hneeds)
    rwa [h.format_eq, h.source_eq] at htrailer

/-- A step that stops leaves the scan at the boundary, or where there is nothing to be found. -/
theorem stop {answer : Except IoError (Option Record)} {x : Option Sighting}
    (h : Followed source format settings clear past s)
    (hheader : clear → headerFrom = Sighting.boundary past ∨ s.Barren)
    (hstep : s.step headerFrom = .stop answer next)
    (hstepped : s.Stepped headerFrom x (.stop answer next)) :
    Followed source format settings clear (past ++ x.toList) next ∧
      (clear → (∀ e, answer = .error e → format.IsSolid) →
        next.cursor = Sighting.boundary (past ++ x.toList) ∨ next.Barren) := by
  have htraced := h.toTraced.stop hstepped
  cases hstepped with
  | ended =>
    rw [Option.toList_none, List.append_nil]
    exact ⟨h.finish, fun _ _ => .inr (.inl (Nat.le_refl _))⟩
  | @failed e repaired table _ htaken =>
    rw [Option.toList_none, List.append_nil] at htraced ⊢
    obtain ⟨hgrows, hkeyed⟩ := h.grows_of_taken htaken
    exact ⟨⟨htraced, hkeyed, h.sound_of_grows hgrows⟩, fun _ hsolid =>
      .inr (.inr ⟨e, Scanner.fault_of_stop (.inr (h.format_eq ▸ hsolid e rfl)) hstep⟩)⟩
  | @record start r repaired table hcomes hreads =>
    have hemitted := hreads.emitted
    obtain ⟨hgrows, hkeyed, -⟩ := hemitted.shows h.keyed
    -- a barren scanner emits no record
    have hstart : clear → headerFrom = Sighting.boundary past := by
      intro hclear
      refine (hheader hclear).resolve_right fun hbarren => ?_
      obtain ⟨answer, t, hstop, hnone⟩ := hbarren.step headerFrom
      rw [hstep] at hstop
      cases hstop
      exact hnone r rfl
    refine ⟨⟨htraced, hkeyed, (h.sound_of_grows hgrows).concat ?_⟩, fun _ _ => .inl ?_⟩
    · intro q hq
      cases hq
      refine ⟨h.sound_record hcomes hemitted, fun hclear => ?_⟩
      rw [Record.HeaderFrom, hemitted.header_eq, hemitted.start_eq, ← hstart hclear,
        ← h.source_eq, ← h.settings_eq, Nat.min_comm]
      rfl
    · have hpassed := (h.toTraced.after_of_comesTo hcomes).2
      refine (Sighting.boundary_record ?_).symm
      refine Sighting.boundary_le h.placed fun y hy => (hpassed y hy).trans ?_
      exact (Nat.le_add_right _ _).trans hemitted.long

/-- **A scan.** From the boundary on, all steps up to the next record keep what they should. -/
theorem scanFrom (h : Followed source format settings clear past s)
    (hheader : clear → headerFrom = Sighting.boundary past ∨ s.Barren) :
    Followed source format settings clear (past ++ s.sightings headerFrom)
        (s.scanFrom headerFrom).2 ∧
      (clear → (∀ e, (s.scanFrom headerFrom).1 = .error e → format.IsSolid) →
        (s.scanFrom headerFrom).2.cursor = Sighting.boundary (past ++ s.sightings headerFrom) ∨
          (s.scanFrom headerFrom).2.Barren) :=
  Scanner.scanFrom_induct
    (fun past s headerFrom => Followed source format settings clear past s ∧
      (clear → headerFrom = Sighting.boundary past ∨ s.Barren))
    (fun past answer s => Followed source format settings clear past s ∧
      (clear → (∀ e, answer = .error e → format.IsSolid) →
        s.cursor = Sighting.boundary past ∨ s.Barren))
    (fun h hstep hstepped => h.1.go h.2 hstep hstepped)
    (fun h hstep hstepped => h.1.stop h.2 hstep hstepped) past ⟨h, hheader⟩

/-- A call keeps it as well, and the next call starts where it should. -/
theorem called (h : Followed source format settings clear past s)
    (hrests : clear → s.cursor = Sighting.boundary past ∨ s.Barren) {sought : List Sighting}
    {c : Scanner.Call} {told : Scanner.Answer} (hcalled : s.Called c sought told next)
    (hfails : clear → ∀ e, told = .failed e → format.IsSolid) :
    Followed source format settings clear (past ++ sought) next ∧
      (clear → next.cursor = Sighting.boundary (past ++ sought) ∨ next.Barren) := by
  -- a call leaves the scanner as it is, or as a scan from the cursor leaves it
  obtain ⟨hscan, hstays⟩ := h.scanFrom hrests
  cases hcalled with
  | kept =>
    rw [List.append_nil]
    exact ⟨h, hrests⟩
  | handed =>
    rw [List.append_nil]
    exact ⟨h.keep none, fun hclear => (hrests hclear).imp_right (·.congr rfl rfl rfl rfl)⟩
  | found _ hfound =>
    rw [hfound] at hscan hstays
    exact ⟨hscan.keep _, fun hclear =>
      (hstays hclear (by simp)).imp_right (·.congr rfl rfl rfl rfl)⟩
  | pulled _ hpulled =>
    rw [hpulled] at hscan hstays
    exact ⟨hscan, fun hclear => hstays hclear (by simp)⟩
  | ended _ hended =>
    rw [hended] at hscan hstays
    exact ⟨hscan, fun hclear => hstays hclear (by simp)⟩
  | @failed e _ _ hfailed =>
    rw [hfailed] at hscan hstays
    exact ⟨hscan, fun hclear => hstays hclear fun _ _ => hfails hclear (.io e) rfl⟩
  | closed _ _ hfailed =>
    rw [hfailed] at hscan
    exact ⟨hscan.finish, fun _ => .inr (.inl (Nat.le_refl _))⟩

end Followed

/-! ## §5 What a run keeps -/

namespace Run

variable {source : Source} {format : WireFormat} {settings : ScanSettings} {run : Run}

/-- Headers start at the boundary: no call failed, or calls that come after a failure fail again. -/
def Clear (run : Run) (format : WireFormat) : Prop := format.IsSolid ∨ ¬ run.Failed

/-- The records of a run are sound, and the next call starts at the boundary. -/
structure Upheld (source : Source) (format : WireFormat) (settings : ScanSettings) (run : Run) :
    Prop where
  followed : Followed source format settings (run.Clear format) run.sightings run.scanner
  rests : run.Clear format →
    run.scanner.cursor = Sighting.boundary run.sightings ∨ run.scanner.Barren

theorem clear_of_call {c : Scanner.Call} (h : (run.call c).Clear format) :
    run.Clear format ∧ ∀ e, (run.scanner.answer c).1 = .failed e → format.IsSolid := by
  rcases h with hsolid | hnot
  · exact ⟨.inl hsolid, fun _ _ => hsolid⟩
  · refine ⟨.inr fun ⟨e, he⟩ => hnot ⟨e, ?_⟩, fun e he => absurd ⟨e, ?_⟩ hnot⟩
    · exact List.mem_append_left _ he
    · exact List.mem_append_right _ (he ▸ List.mem_singleton_self _)

theorem Upheld.call (h : run.Upheld source format settings) (c : Scanner.Call) :
    (run.call c).Upheld source format settings := by
  have hclear : (run.call c).Clear format → run.Clear format := fun h => (clear_of_call h).1
  obtain ⟨hfollowed, hrests⟩ := (h.followed.mono hclear).called (fun h' => h.rests (hclear h'))
    (run.scanner.called c) (fun h' => (clear_of_call h').2)
  exact ⟨hfollowed, hrests⟩

theorem upheld (source : Source) (format : WireFormat) (settings : ScanSettings)
    (calls : List Scanner.Call) :
    ((Scanner.start source format settings).run calls).Upheld source format settings :=
  Scanner.run_induct (fun _ run => run.Upheld source format settings)
    ⟨.nil source format settings _, fun _ => .inl rfl⟩ (fun _ _ c h => h.call c) calls

/-- Every record that a run handed out is one that the run came to behind those before it, and
sound. Its header starts at the boundary, unless a call failed and frames are found without a byte
being read. -/
def RecordsSound (source : Source) (format : WireFormat) (settings : ScanSettings) (run : Run) :
    Prop :=
  ∀ earlier r later, run.answers.filterMap (·.record?) = earlier ++ r :: later →
    ∃ before x after, run.sightings = before ++ x :: after ∧ x.outcome = .record r ∧
      before.filterMap (·.record?) = earlier ∧
      EachAfter (Sighting.Placed source format) before ∧
      r.Sound source format settings run.scanner.table.Has before ∧
      (¬ run.Failed ∨ format.IsSolid →
        r.HeaderFrom source settings (Sighting.boundary before))

theorem recordsSound (source : Source) (format : WireFormat) (settings : ScanSettings)
    (calls : List Scanner.Call) :
    ((Scanner.start source format settings).run calls).RecordsSound source format settings := by
  generalize hrun : (Scanner.start source format settings).run calls = run
  intro earlier r later hsplit
  have hupheld : run.Upheld source format settings := hrun ▸ upheld source format settings calls
  have hhanded : run.answers.filterMap (·.record?) ++ run.scanner.peeked.toList =
      run.sightings.filterMap (·.record?) := hrun ▸ handed source format settings calls
  -- what was handed out is what was found, so the record is that of a sighting
  rw [hsplit, List.append_assoc, List.cons_append] at hhanded
  obtain ⟨first, rest, hfirst, hearlier, hrest⟩ := List.filterMap_eq_append_iff.mp hhanded.symm
  obtain ⟨between, x, after, hbetween, hnone, hx, -⟩ := List.filterMap_eq_cons_iff.mp hrest
  have hsightings : run.sightings = (first ++ between) ++ x :: after := by
    rw [hfirst, hbetween, List.append_assoc]
  have hrecord : x.outcome = .record r := Sighting.outcome_of_record? hx
  obtain ⟨hsound, hheader⟩ := hupheld.followed.sound _ x after hsightings r hrecord
  refine ⟨first ++ between, x, after, hsightings, hrecord, ?_, ?_, hsound, fun hclear =>
    hheader ?_⟩
  · rw [List.filterMap_append, hearlier, List.filterMap_eq_nil_iff.mpr hnone, List.append_nil]
  · intro before y later hbefore
    apply hupheld.followed.placed before y (later ++ x :: after)
    rw [hsightings, hbefore, List.append_assoc, List.cons_append]
  · exact hclear.symm

/-- **Every record of every run.** Whatever the source, the format and the settings are, and in
whatever order calls are made, no part is cut out past its frame; and the records that a machine
hands out are sound. It answers all calls if it has room for what they come to. -/
theorem records_sound (source : Source) (format : WireFormat) (settings : ScanSettings)
    (calls : List Scanner.Call) :
    let s := Scanner.start source format settings
    (∀ (t : Scanner) (frame : FrameExtent) (headerFrom : Nat),
      t.readRecordChecked frame headerFrom = some (t.readRecord frame headerFrom)) ∧
    (s.runChecked calls).Gives (s.FitsWords calls) (·.RecordsSound source format settings) :=
  ⟨Scanner.readRecordChecked_eq,
    Scanner.gives_runChecked (recordsSound source format settings calls)⟩

/-- The record of a short frame is sound, and its header is the one byte before it. -/
theorem records_sound_sample :
    let source : Source := .ofBytes [9, 0x41, 1, 7, 0x41]
    let s := Scanner.start source PlainScan.sampleFormat.format {}
    let r : Record := ⟨[9], 1, 4, [⟨3, ⟨0, [7]⟩, none⟩], false⟩
    ∃ run, s.runChecked [.next] = .ok run ∧ run.answers = [.record r] ∧ ∃ before,
      r.Sound source PlainScan.sampleFormat.format {} run.scanner.table.Has before ∧
        r.HeaderFrom source {} (Sighting.boundary before) := by
  intro source s r
  obtain ⟨-, hsound, htotal⟩ := records_sound source PlainScan.sampleFormat.format {} [.next]
  obtain ⟨run, hanswered⟩ := htotal
    (fitsWords_of_room (fun _ => by decide) (by decide) [.next])
  have hanswers : run.answers = [.record r] := by
    rw [← Scanner.run_of_runChecked hanswered]
    decide +kernel
  obtain ⟨before, -, -, -, -, -, -, hrecord, hheader⟩ :=
    hsound run hanswered [] r [] (by rw [hanswers]; rfl)
  exact ⟨run, hanswered, hanswers, before, hrecord, hheader (.inr (.inl (by decide)))⟩

/-- A format whose frames have no bytes, but for a foreign one at the start. -/
def bareFormat : WireFormat where
  name := "bare"
  magic := []
  trailer := []
  minLength := 0
  preamble := fun _ magicAt => .ok ⟨magicAt, if magicAt = 0 then none else some ⟨magicAt, 0, 0⟩⟩
  divide := fun _ => .ok []
  recurs := fun _ => false

/-- The limits of `records_sound`: after a failed call a frame without bytes has lost its header,
and a machine can give up on a run. -/
theorem header_lost_or_given_up :
    (let source : Source := { data := #[9, 9], failsFrom := some 0 }
    let r : Record := ⟨[], 1, 1, [], false⟩
    ∃ run, (Scanner.start source bareFormat {}).runChecked [.next, .next] = .ok run ∧
      run.answers = [.failed (.io source.fault), .record r] ∧
      (∀ x ∈ run.sightings, x.isForeign ∨ x.outcome = .record r) ∧
      ¬ r.HeaderFrom source {} 0) ∧
    ∃ p, (Scanner.start farSource farFormat.format {}).runChecked [.next] = .error p := by
  refine ⟨?header, error_far .next []⟩
  case header =>
    intro source r
    have hfits : (Scanner.start source bareFormat {}).FitsWords [.next, .next] :=
      fitsWords_of_room (fun hne => absurd rfl hne) (by decide) _
    refine ⟨_, hfits.runChecked_eq, by decide +kernel, by decide +kernel, ?_⟩
    show ¬ ([] : Bytes) = _
    decide +kernel

end Run

end Granule
