import Granule.Proofs.Scan.Soundness

/-!
# What a Scan Interns

The table of a scan has one entry for each content that a part of a recurring kind had,
whatever the order of calls was, and however many frames were dropped on the way. A frame
that is dropped feeds nothing into it: whether its parts lie inside it is settled before
the first one is taken up.

Nothing is assumed of fingerprints. The table is exact about what the parts of records
hold; and a part holds the bytes that lie at its offset, unless something else in the
table has the same fingerprint.

**Main statements**:
- `PlainScan.parts_fed` : a frame feeds the table with its parts of recurring kinds
- `Scanner.table_of_resume` : a frame that is dropped leaves the table alone
- `Run.interning_exact` : what the table of a run has, and what it has counted
-/

namespace Granule

/-! ## §1 Parts -/

/-- What a part got from the table: its place there, and what is held there. -/
def Part.got? (part : Part) : Option (Nat × TypedBytes) :=
  part.interned.map fun place => (place, part.content)

/-- It names a place in the table if its kind recurs, and only then. -/
def Part.Marked (part : Part) (format : WireFormat) : Prop :=
  part.interned.isSome = format.recurs part.content.kind

/-- Contents of this kind are kept once. -/
def WireFormat.Shares (f : WireFormat) (content : TypedBytes) : Prop :=
  f.recurs content.kind = true

/-- What marked parts got from the table are the contents of those whose kind recurs. -/
theorem Part.map_got {format : WireFormat} {parts : List Part}
    (hmarked : ∀ part ∈ parts, part.Marked format) :
    (parts.filterMap got?).map (·.2) =
      (parts.filter (format.recurs ·.content.kind)).map (·.content) := by
  induction parts with
  | nil => rfl
  | cons part rest ih =>
    obtain ⟨hpart, hrest⟩ := List.forall_mem_cons.mp hmarked
    rw [List.filterMap_cons, List.filter_cons, ← hpart, got?]
    cases part.interned with
    | none => exact ih hrest
    | some place => exact congrArg (part.content :: ·) (ih hrest)

/-- A frame feeds the table with its parts of recurring kinds. -/
theorem PlainScan.parts_fed (r : PlainScan) (start : Nat) (spans : List Span) {table : InternTable}
    {got : List (Nat × TypedBytes)} (h : table.Fed r.format.Shares got) :
    (r.parts start spans table).2.Fed r.format.Shares
        (got ++ (r.parts start spans table).1.filterMap Part.got?) ∧
      ∀ part ∈ (r.parts start spans table).1, part.Marked r.format := by
  induction spans generalizing table got with
  | nil =>
    rw [parts, List.filterMap_nil, List.append_nil]
    exact ⟨h, by simp⟩
  | cons span rest ih =>
    by_cases hrecurs : r.format.recurs span.kind = true
    · have hshares : r.format.Shares (r.contentOf start span) := hrecurs
      obtain ⟨kept, hkept, hfed⟩ := h.intern hshares
      obtain ⟨hlast, hrest⟩ := ih hfed
      rw [parts_cons_of_recurs hrecurs hkept]
      refine ⟨?_, List.forall_mem_cons.mpr ⟨?_, hrest⟩⟩
      · rw [List.append_assoc] at hlast
        exact hlast
      · -- what is kept there came of a recurring kind as well
        have hknown := hfed.known_of_mem (List.mem_append_right _ (List.mem_singleton_self _))
        exact hknown.symm
    · obtain ⟨hlast, hrest⟩ := ih h
      rw [parts_cons_of_not_recurs hrecurs]
      exact ⟨hlast, List.forall_mem_cons.mpr ⟨(Bool.eq_false_iff.mpr hrecurs).symm, hrest⟩⟩

/-! ## §2 Steps that add nothing -/

namespace Scanner

variable {s next t : Scanner} {headerFrom after : Nat} {e : IoError}

/-- A frame that is no record leaves the table alone, entries and counters. -/
theorem table_of_refused {frame : FrameExtent}
    (h : (s.readRecord frame headerFrom).1 = .ok none) :
    (s.readRecord frame headerFrom).2 = s.table := by
  unfold readRecord at h ⊢
  simp only at h ⊢
  split
  · rfl
  · rfl
  · rename_i bytes hread
    simp only [hread] at h
    split
    · rfl
    · -- once its parts are taken up, a frame is a record or fails
      rename_i spans hspans
      simp only [hspans] at h
      split at h <;> cases h

/-- So does a step that goes on. -/
theorem table_of_resume (h : s.step headerFrom = .resume next after) : next.table = s.table := by
  have hstepped := s.stepped headerFrom
  rw [h] at hstepped
  generalize s.sighting? headerFrom = x at hstepped
  cases hstepped with
  | foreign => rfl
  | @dropped _ _ repaired => cases repaired <;> rfl

/-- And a step that fails: where parts were taken up, the header can be read as well. -/
theorem table_of_failed (hreads : s.ReadsHeaders) (h : s.step headerFrom = .stop (.error e) t) :
    t.table = s.table := by
  rw [(fault_of_step hreads h).step_eq] at h
  cases h
  cases s.repairsNext <;> rfl

end Scanner

/-! ## §3 Runs -/

/-- The table of a scan is fed from these parts. -/
structure Feeds (source : Source) (format : WireFormat) (parts : List Part) (s : Scanner) :
    Prop where
  source_eq : s.source = source
  format_eq : s.format = format
  fed : s.table.Fed format.Shares (parts.filterMap Part.got?)
  marked : ∀ part ∈ parts, part.Marked format

def Sighting.parts (past : List Sighting) : List Part :=
  (past.filterMap (·.record?)).flatMap (·.parts)

namespace Feeds

variable {source : Source} {format : WireFormat} {parts : List Part} {past : List Sighting}
  {s t next : Scanner} {headerFrom after : Nat} {x : Sighting}

/-- What is counted, and where the scan stands, plays no part. -/
theorem congr (h : Feeds source format parts s) (hsource : t.source = s.source)
    (hformat : t.format = s.format) (htable : t.table = s.table) :
    Feeds source format parts t where
  source_eq := hsource.trans h.source_eq
  format_eq := hformat.trans h.format_eq
  fed := htable ▸ h.fed
  marked := h.marked

theorem go (h : Feeds source format (Sighting.parts past) s)
    (hstep : s.step headerFrom = .resume next after)
    (hstepped : s.Stepped headerFrom (some x) (.resume next after)) :
    Feeds source format (Sighting.parts (past ++ [x])) next := by
  have hnone : x.record? = none := by cases hstepped <;> rfl
  have hleft := s.left_step headerFrom
  rw [hstep] at hleft
  rw [Sighting.parts, List.filterMap_append, List.filterMap_cons_none hnone, List.filterMap_nil,
    List.append_nil]
  exact h.congr hleft.1 hleft.2.1 (Scanner.table_of_resume hstep)

theorem stop (h : Feeds source format (Sighting.parts past) s)
    (hreads : source.NeverFails ∨ format.IsSolid) {answer : Except IoError (Option Record)}
    {x : Option Sighting} (hstep : s.step headerFrom = .stop answer next)
    (hstepped : s.Stepped headerFrom x (.stop answer next)) :
    Feeds source format (Sighting.parts (past ++ x.toList)) next := by
  have hleft := s.left_step headerFrom
  rw [hstep] at hleft
  obtain ⟨hsource, hformat, -⟩ := hleft
  cases hstepped with
  | ended =>
    rw [Option.toList_none, List.append_nil]
    exact h.congr hsource hformat rfl
  | failed =>
    rw [Option.toList_none, List.append_nil]
    refine h.congr hsource hformat (Scanner.table_of_failed ?_ hstep)
    rwa [Scanner.ReadsHeaders, h.source_eq, h.format_eq]
  | @record start r repaired table hcomes hrecord =>
    -- only a record feeds the table, with its parts in their order
    obtain ⟨spans, -, hparts⟩ := hrecord.emitted.divided
    have hfed := h.fed
    rw [← h.format_eq] at hfed
    obtain ⟨htable, hmarked⟩ := s.plain.parts_fed start spans hfed
    rw [← hparts] at htable hmarked
    have hlast : Sighting.parts (past ++ [⟨start, .record r, r.stop⟩]) =
        Sighting.parts past ++ r.parts := by
      simp [Sighting.parts, Sighting.record?]
    have hnew : ∀ part ∈ r.parts, part.Marked format := h.format_eq ▸ hmarked
    refine ⟨hsource.trans h.source_eq, hformat.trans h.format_eq, ?_, ?_⟩
    · rw [Option.toList_some, hlast, List.filterMap_append, ← h.format_eq]
      exact htable
    · rw [Option.toList_some, hlast]
      exact List.forall_mem_append.mpr ⟨h.marked, hnew⟩

theorem scanFrom (h : Feeds source format (Sighting.parts past) s)
    (hreads : source.NeverFails ∨ format.IsSolid) (headerFrom : Nat) :
    Feeds source format (Sighting.parts (past ++ s.sightings headerFrom))
      (s.scanFrom headerFrom).2 :=
  Scanner.scanFrom_induct
    (fun past s _ => Feeds source format (Sighting.parts past) s)
    (fun past _ s => Feeds source format (Sighting.parts past) s)
    (fun h hstep hstepped => h.go hstep hstepped)
    (fun h hstep hstepped => h.stop hreads hstep hstepped) past h

theorem answer (h : Feeds source format (Sighting.parts past) s)
    (hreads : source.NeverFails ∨ format.IsSolid) (c : Scanner.Call) :
    Feeds source format (Sighting.parts (past ++ s.sought)) (s.answer c).2 :=
  Scanner.answer_keeps (P := fun past s => Feeds source format (Sighting.parts past) s) past h
    (h.scanFrom hreads s.cursor) (fun _ h => h.congr rfl rfl rfl) (fun h => h.congr rfl rfl rfl) c

end Feeds

namespace Run

/-- The records that a run came to: those that were handed out, and the one that is kept. -/
def records (run : Run) : List Record :=
  run.answers.filterMap (·.record?) ++ run.scanner.peeked.toList

def sharedParts (run : Run) (format : WireFormat) : List Part :=
  (run.records.flatMap (·.parts)).filter (format.recurs ·.content.kind)

variable {source : Source} {format : WireFormat} {settings : ScanSettings}

/-- The table of a run is fed from the parts of its records. -/
theorem feeds (settings : ScanSettings) (hreads : source.NeverFails ∨ format.IsSolid)
    (calls : List Scanner.Call) :
    let run := (Scanner.start source format settings).run calls
    Feeds source format (run.records.flatMap (·.parts)) run.scanner := by
  intro run
  rw [records, handed source format settings calls]
  refine Scanner.run_induct
    (fun _ run => Feeds source format (Sighting.parts run.sightings) run.scanner) ?_ ?_ calls
  · exact ⟨rfl, rfl, .empty, by simp [Sighting.parts]⟩
  · exact fun _ _ c h => h.answer hreads c

/-- The parts of its records show the bytes that are there. -/
theorem shows_of_mem (source : Source) (format : WireFormat) (settings : ScanSettings)
    (calls : List Scanner.Call) :
    let run := (Scanner.start source format settings).run calls
    ∀ r ∈ run.records, ∀ part ∈ r.parts, part.Shows source format run.scanner.table.Has r := by
  intro run r hr
  rw [records, handed source format settings calls] at hr
  obtain ⟨x, hx, hrecord⟩ := List.mem_filterMap.mp hr
  obtain ⟨before, hsound⟩ :=
    (upheld source format settings calls).followed.sound.exists_of_mem hx
  exact (hsound r (Sighting.outcome_of_record? hrecord)).1.parts

/-- **Interning across a scan is exact.** After any calls, on a source that never fails or for a
format whose frames are read, the table has counted each part of a recurring kind in the records
that the run came to, and has one entry for each content among them. Such parts name the same place
exactly if they hold the same content, and hold what the table has there; other parts name none. All
parts show the bytes of the source, unless the table has something else with the same fingerprint.
And a frame that is dropped, or passed as foreign, leaves entries and counters alone: not even
reading it has changed them. -/
theorem interning_exact :
    (∀ source format settings calls, source.NeverFails ∨ format.IsSolid →
      let run := (Scanner.start source format settings).run calls
      let table := run.scanner.table
      let shared := run.sharedParts format
      table.hits + table.misses = shared.length ∧ table.misses = table.size ∧
        table.size = (shared.map (·.content)).dedup.length ∧
        (∀ part ∈ shared, ∃ place, part.interned = some place ∧
          table.content? place = some part.content) ∧
        (∀ part ∈ shared, ∀ other ∈ shared,
          part.interned = other.interned ↔ part.content = other.content) ∧
        (∀ e ∈ table.entries, format.recurs e.content.kind = true) ∧
        ∀ r ∈ run.records, ∀ part ∈ r.parts,
          (format.recurs part.content.kind = false → part.interned = none) ∧
            part.Shows source format table.Has r) ∧
    (∀ (s next : Scanner) (headerFrom after : Nat), s.step headerFrom = .resume next after →
      next.table = s.table) ∧
    ∀ (s : Scanner) (frame : FrameExtent) (headerFrom : Nat),
      (s.readRecord frame headerFrom).1 = .ok none →
        (s.readRecord frame headerFrom).2 = s.table := by
  refine ⟨?runs, fun _ _ _ _ => Scanner.table_of_resume, fun _ _ _ => Scanner.table_of_refused⟩
  intro source format settings calls hreads run table shared
  have hfeeds : Feeds source format (run.records.flatMap (·.parts)) run.scanner :=
    feeds settings hreads calls
  have hfed := hfeeds.fed
  have hcontents : ((run.records.flatMap (·.parts)).filterMap Part.got?).map (·.2) =
      shared.map (·.content) := Part.map_got hfeeds.marked
  -- each shared part was got from the table, at the place that it names
  have hgot : ∀ part ∈ shared, ∃ place, part.interned = some place ∧
      (place, part.content) ∈ (run.records.flatMap (·.parts)).filterMap Part.got? := by
    intro part hpart
    obtain ⟨hmem, hrecurs⟩ := List.mem_filter.mp hpart
    obtain ⟨place, hplace⟩ := Option.isSome_iff_exists.mp ((hfeeds.marked part hmem).trans hrecurs)
    exact ⟨place, hplace, List.mem_filterMap.mpr ⟨part, hmem, by rw [Part.got?, hplace]; rfl⟩⟩
  refine ⟨?counted, hfed.misses_eq, ?size, ?held, ?same, fun e he => (hfed.holds e he).2, ?other⟩
  case counted => rw [hfed.counted, ← List.length_map (·.2), hcontents, List.length_map]
  case size => rw [hfed.size_eq, hcontents]
  case held =>
    intro part hpart
    obtain ⟨place, hplace, hmem⟩ := hgot part hpart
    exact ⟨place, hplace, (hfed.mem_iff _ _).mp hmem⟩
  case same =>
    intro part hpart other hother
    obtain ⟨place, hplace, hmem⟩ := hgot part hpart
    obtain ⟨place', hplace', hmem'⟩ := hgot other hother
    rw [hplace, hplace', Option.some.injEq, hfed.place_eq_iff hmem hmem']
  case other =>
    intro r hr part hpart
    refine ⟨fun hnot => ?_, shows_of_mem source format settings calls r hr part hpart⟩
    have hmarked := hfeeds.marked part (List.mem_flatMap.mpr ⟨r, hr, hpart⟩)
    exact Option.not_isSome_iff_eq_none.mp (Bool.eq_false_iff.mp (hmarked.trans hnot))

/-- Three short frames, two of them with the same payload, and the beginning of a fourth one. -/
theorem interning_exact_sample :
    let source : Source := .ofBytes [0x41, 1, 7, 0x41, 1, 8, 0x41, 1, 7, 0x41, 9]
    let format := { PlainScan.sampleFormat with recurring := [payloadKind] }.format
    let run := (Scanner.start source format {}).run [.next, .hasNext, .next, .pull, .next]
    source.NeverFails ∧
      run.sharedParts format =
        [⟨2, ⟨0, [7]⟩, some 0⟩, ⟨5, ⟨0, [8]⟩, some 1⟩, ⟨8, ⟨0, [7]⟩, some 0⟩] ∧
      run.scanner.table.hits + run.scanner.table.misses = 3 ∧ run.scanner.table.size = 2 := by
  intro source format run
  have hsteady : source.NeverFails := Source.neverFails_ofBytes _
  have hparts : run.sharedParts format =
      [⟨2, ⟨0, [7]⟩, some 0⟩, ⟨5, ⟨0, [8]⟩, some 1⟩, ⟨8, ⟨0, [7]⟩, some 0⟩] := by
    decide +kernel
  obtain ⟨hruns, -⟩ := interning_exact
  obtain ⟨hcounted, -, hsize, -⟩ :=
    hruns source format {} [.next, .hasNext, .next, .pull, .next] (.inl hsteady)
  refine ⟨hsteady, hparts, hcounted.trans ?_, hsize.trans ?_⟩
  · rw [hparts]
    rfl
  · rw [hparts]
    decide

end Run

end Granule
