import Granule.Proofs.Scan.Emission

/-!
# Runs of a Scanner

A caller makes calls in any order; a `Run` collects what it is told, and the magics
that its calls came to on the way. What is known of these magics for every source and
every format, however odd its answers are, is gathered in `Traced`.

**Main statements**:
- `Scanner.run_induct` : what every call keeps holds of every run
- `Scanner.answers_run_cons` : a run goes on from its first call
- `Run.traced` : the sightings of a run follow one another, and are what was counted
- `Run.handed` : the records among them are the ones that were handed out, or are kept
- `PlainScan.Describes.run_goesBy` : for a format that reads bytes, each goes by the verdict on it
-/

namespace Granule

/-! ## §1 Runs -/

/-- What came of some calls to a scanner. -/
structure Run where
  scanner : Scanner
  sightings : List Sighting := []
  answers : List Scanner.Answer := []

namespace Run

/-- One more call. -/
def call (run : Run) (c : Scanner.Call) : Run where
  scanner := (run.scanner.answer c).2
  sightings := run.sightings ++ run.scanner.sought
  answers := run.answers ++ [(run.scanner.answer c).1]

/-- A call failed. -/
def Failed (run : Run) : Prop := ∃ e, .failed e ∈ run.answers

end Run

def Scanner.run (s : Scanner) (calls : List Scanner.Call) : Run := calls.foldl Run.call ⟨s, [], []⟩

theorem Scanner.run_concat (s : Scanner) (calls : List Scanner.Call) (c : Scanner.Call) :
    s.run (calls ++ [c]) = (s.run calls).call c := by
  simp [run]

/-- After the first call the run is that of the scanner that it left. -/
theorem Scanner.scanner_run_cons (s : Scanner) (c : Scanner.Call) (calls : List Scanner.Call) :
    (s.run (c :: calls)).scanner = ((s.answer c).2.run calls).scanner := by
  induction calls using List.reverseRecOn with
  | nil => rfl
  | append_singleton calls last ih =>
    rw [← List.cons_append, run_concat, run_concat]
    simp only [Run.call, ih]

theorem Scanner.answers_run_cons (s : Scanner) (c : Scanner.Call) (calls : List Scanner.Call) :
    (s.run (c :: calls)).answers = (s.answer c).1 :: ((s.answer c).2.run calls).answers := by
  induction calls using List.reverseRecOn with
  | nil => rfl
  | append_singleton calls last ih =>
    rw [← List.cons_append, run_concat, run_concat]
    simp only [Run.call, s.scanner_run_cons, ih, List.cons_append]

/-- **Induction along a run.** What holds before any call, and is kept by every call, holds of
every run. -/
theorem Scanner.run_induct (Kept : List Scanner.Call → Run → Prop) {s : Scanner}
    (start : Kept [] ⟨s, [], []⟩)
    (call : ∀ calls run c, Kept calls run → Kept (calls ++ [c]) (run.call c))
    (calls : List Scanner.Call) : Kept calls (s.run calls) := by
  induction calls using List.reverseRecOn with
  | nil => exact start
  | append_singleton calls c ih =>
    rw [run_concat]
    exact call calls _ c ih

/-! ## §2 Each after those before it -/

/-- Each sighting stands in this relation to those before it. -/
def EachAfter (P : List Sighting → Sighting → Prop) (past : List Sighting) : Prop :=
  ∀ before x after, past = before ++ x :: after → P before x

namespace EachAfter

variable {P Q : List Sighting → Sighting → Prop} {past : List Sighting} {x : Sighting}

theorem nil : EachAfter P [] := by
  intro before x after h
  simp at h

theorem concat (h : EachAfter P past) (hx : P past x) : EachAfter P (past ++ [x]) := by
  intro before y after hsplit
  -- the split is at the last sighting, or at one before it
  rcases List.eq_nil_or_concat after with rfl | ⟨rest, last, rfl⟩
  · obtain ⟨rfl, hlast⟩ := List.append_inj' hsplit rfl
    cases hlast
    exact hx
  · rw [List.concat_eq_append, ← List.cons_append, ← List.append_assoc] at hsplit
    obtain ⟨hpast, -⟩ := List.append_inj' hsplit rfl
    exact h before y rest hpast

theorem init (h : EachAfter P (past ++ [x])) : EachAfter P past ∧ P past x := by
  refine ⟨fun before y after hsplit => ?_, h past x [] rfl⟩
  exact h before y (after ++ [x]) (by rw [hsplit, List.append_assoc, List.cons_append])

theorem exists_of_mem (h : EachAfter P past) (hx : x ∈ past) : ∃ before, P before x := by
  obtain ⟨before, after, hsplit⟩ := List.append_of_mem hx
  exact ⟨before, h before x after hsplit⟩

/-- What each has in relation to all before it, the list has pairwise. -/
theorem pairwise {R : Sighting → Sighting → Prop}
    (h : EachAfter (fun before x => ∀ y ∈ before, R y x) past) : past.Pairwise R := by
  induction past using List.reverseRecOn with
  | nil => exact .nil
  | append_singleton past x ih =>
    obtain ⟨hbefore, hlast⟩ := h.init
    refine List.pairwise_append.mpr ⟨ih hbefore, List.pairwise_singleton R x, ?_⟩
    intro y hy z hz
    rw [List.mem_singleton.mp hz]
    exact hlast y hy

theorem mono (h : EachAfter P past) (hle : ∀ before x, P before x → Q before x) :
    EachAfter Q past :=
  fun before x after hsplit => hle before x (h before x after hsplit)

end EachAfter

/-! ## §3 What is known of every run -/

/-- Where a scan stands after a magic that became this. -/
def WireFormat.ResumesAt (f : WireFormat) (source : Source) (x : Sighting) : Prop :=
  match x.outcome with
  | .foreign => ∃ resume, f.measure source x.start = .ok (.foreign resume) ∧
      x.resume = max resume (x.start + max f.magic.length 1)
  | .dropped => x.resume = x.start + max f.resyncDistance 1
  | .record r => r.start = x.start ∧ r.start + f.minLength ≤ r.stop ∧ r.stop ≤ source.size ∧
      x.resume = r.stop

/-- The magic is there, behind all that the scan had passed, and the scan goes on behind it. -/
structure Sighting.Placed (source : Source) (format : WireFormat) (before : List Sighting)
    (x : Sighting) : Prop where
  magic : source.bytes.HasAt x.start format.magic
  after : ∀ y ∈ before, y.resume ≤ x.start
  resume : format.ResumesAt source x

theorem Sighting.Placed.start_le_resume {source : Source} {format : WireFormat}
    {before : List Sighting} {x : Sighting} (h : x.Placed source format before) :
    x.start ≤ x.resume := by
  have hresume := h.resume
  unfold WireFormat.ResumesAt at hresume
  split at hresume <;> omega

/-- The counters are those of these sightings. -/
structure ScanTally.Counts (tally : ScanTally) (past : List Sighting) : Prop where
  records : tally.records = (past.filterMap (·.record?)).length
  dropped : tally.dropped = past.countP (·.isDropped)
  foreign : tally.foreign = past.countP (·.isForeign)

/-- How a scan stands to its past. -/
structure Traced (source : Source) (format : WireFormat) (settings : ScanSettings)
    (past : List Sighting) (s : Scanner) : Prop where
  source_eq : s.source = source
  format_eq : s.format = format
  settings_eq : s.settings = settings
  /-- The scan stands behind all that it passed, unless it is at the end. -/
  ahead : (∀ x ∈ past, x.resume ≤ s.cursor) ∨ source.size ≤ s.cursor
  placed : EachAfter (Sighting.Placed source format) past
  counts : s.tally.Counts past

/-! ### The counters -/

namespace ScanTally.Counts

variable {tally : ScanTally} {past : List Sighting} {start resume : Nat}

theorem nil : ScanTally.Counts {} [] := ⟨rfl, rfl, rfl⟩

theorem foreign_concat (h : tally.Counts past) :
    ScanTally.Counts { tally with foreign := tally.foreign + 1 }
      (past ++ [⟨start, .foreign, resume⟩]) where
  records := by simpa [Sighting.record?] using h.records
  dropped := by simpa [ScanTally.dropped, Sighting.isDropped] using h.dropped
  foreign := by simpa [Sighting.isForeign] using h.foreign

theorem dropped_concat (h : tally.Counts past) (reason : DropReason) :
    (tally.add reason).Counts (past ++ [⟨start, .dropped, resume⟩]) where
  records := by
    have hsame : (tally.add reason).records = tally.records := by cases reason <;> rfl
    simpa [hsame, Sighting.record?] using h.records
  dropped := by simpa [ScanTally.dropped_add, Sighting.isDropped] using h.dropped
  foreign := by
    have hsame : (tally.add reason).foreign = tally.foreign := by cases reason <;> rfl
    simpa [hsame, Sighting.isForeign] using h.foreign

/-- Every sighting is counted once. -/
theorem sum_eq_length (h : tally.Counts past) :
    tally.records + tally.dropped + tally.foreign = past.length := by
  rw [h.records, h.dropped, h.foreign]
  clear h
  induction past with
  | nil => rfl
  | cons x rest ih =>
    obtain ⟨start, outcome, resume⟩ := x
    rw [List.length_cons, ← ih]
    cases outcome <;> simp [Sighting.record?, Sighting.isDropped, Sighting.isForeign] <;> omega

theorem record_concat (h : tally.Counts past) (r : Record) :
    ScanTally.Counts { tally with records := tally.records + 1 }
      (past ++ [⟨start, .record r, resume⟩]) where
  records := by simpa [Sighting.record?] using h.records
  dropped := by simpa [ScanTally.dropped, Sighting.isDropped] using h.dropped
  foreign := by simpa [Sighting.isForeign] using h.foreign

end ScanTally.Counts

/-! ### One step -/

namespace Traced

variable {source : Source} {format : WireFormat} {settings : ScanSettings}
  {past : List Sighting} {s next : Scanner} {headerFrom after start : Nat} {x : Sighting}

theorem nil (source : Source) (format : WireFormat) (settings : ScanSettings) :
    Traced source format settings [] (.start source format settings) where
  source_eq := rfl
  format_eq := rfl
  settings_eq := rfl
  ahead := .inl (by simp)
  placed := .nil
  counts := .nil

/-- The counter of repairs plays no part. -/
theorem countRepair (h : Traced source format settings past s) (repaired : Bool) :
    Traced source format settings past (s.countRepair repaired) := by
  cases repaired with
  | false => exact h
  | true => exact { h with counts := ⟨h.counts.records, h.counts.dropped, h.counts.foreign⟩ }

/-- At the end everything is passed. -/
theorem finish (h : Traced source format settings past s) :
    Traced source format settings past s.finish :=
  { h with ahead := .inr (h.source_eq ▸ Nat.le_refl s.source.size) }

/-- A magic that a step comes to lies behind all that was passed. -/
theorem after_of_comesTo (h : Traced source format settings past s) (hcomes : s.ComesTo start) :
    source.bytes.HasAt start format.magic ∧ ∀ y ∈ past, y.resume ≤ start := by
  obtain ⟨hle, hat, -⟩ := Source.facts_of_find hcomes.found
  rw [h.source_eq, h.format_eq] at hat
  refine ⟨hat, fun y hy => ?_⟩
  rcases h.ahead with hahead | hend
  · exact (hahead y hy).trans hle
  · have hinside := hcomes.inside
    rw [h.source_eq] at hinside
    omega

/-- One more sighting, behind which the scan then stands. -/
theorem concat (h : Traced source format settings past s) (hcomes : s.ComesTo x.start)
    (hresume : format.ResumesAt source x) (hsource : next.source = s.source)
    (hformat : next.format = s.format) (hsettings : next.settings = s.settings)
    (hcursor : next.cursor = x.resume) (hcounts : next.tally.Counts (past ++ [x])) :
    Traced source format settings (past ++ [x]) next := by
  obtain ⟨hmagic, hafter⟩ := h.after_of_comesTo hcomes
  have hplaced : x.Placed source format past := ⟨hmagic, hafter, hresume⟩
  refine ⟨hsource.trans h.source_eq, hformat.trans h.format_eq, hsettings.trans h.settings_eq,
    .inl ?_, h.placed.concat hplaced, hcounts⟩
  intro y hy
  rw [hcursor]
  rcases List.mem_append.mp hy with hy | hy
  · exact (hafter y hy).trans hplaced.start_le_resume
  · rw [List.mem_singleton.mp hy]

theorem go (h : Traced source format settings past s)
    (hstepped : s.Stepped headerFrom (some x) (.resume next after)) :
    Traced source format settings (past ++ [x]) next := by
  cases hstepped with
  | foreign hcomes hmeasure =>
    rw [h.format_eq, h.source_eq] at hmeasure
    exact h.concat hcomes ⟨_, hmeasure, by rw [h.format_eq]⟩ rfl rfl rfl rfl
      h.counts.foreign_concat
  | @dropped _ reason repaired hcomes =>
    have hrepair := h.countRepair repaired
    exact hrepair.concat (hcomes.countRepair repaired) (by rw [← h.format_eq]; rfl)
      rfl rfl rfl (by cases repaired <;> rfl) (hrepair.counts.dropped_concat reason)

theorem stop {answer : Except IoError (Option Record)} {x : Option Sighting}
    (h : Traced source format settings past s)
    (hstepped : s.Stepped headerFrom x (.stop answer next)) :
    Traced source format settings (past ++ x.toList) next := by
  cases hstepped with
  | ended =>
    rw [Option.toList_none, List.append_nil]
    exact h.finish
  | @failed e repaired =>
    rw [Option.toList_none, List.append_nil]
    exact { h.countRepair repaired with }
  | @record start record repaired table hcomes hreads =>
    have hrepair := h.countRepair repaired
    have hemitted := hreads.emitted
    refine hrepair.concat (hcomes.countRepair repaired) ?_ rfl rfl rfl rfl
      (hrepair.counts.record_concat record)
    rw [← h.source_eq, ← h.format_eq]
    exact ⟨hemitted.start_eq, hemitted.start_eq ▸ hemitted.long, hemitted.inside, rfl⟩

end Traced

/-! ## §4 Whole runs -/

namespace Traced

variable {source : Source} {format : WireFormat} {settings : ScanSettings}
  {past : List Sighting} {s : Scanner}

theorem scanFrom (h : Traced source format settings past s) (headerFrom : Nat) :
    Traced source format settings (past ++ s.sightings headerFrom) (s.scanFrom headerFrom).2 :=
  Scanner.scanFrom_induct (fun past s _ => Traced source format settings past s)
    (fun past _ s => Traced source format settings past s)
    (fun h _ hstepped => h.go hstepped) (fun h _ hstepped => h.stop hstepped) past h

/-- What is kept for later plays no part. -/
theorem keep (h : Traced source format settings past s) (peeked : Option Record) :
    Traced source format settings past { s with peeked } := { h with }

theorem answer (h : Traced source format settings past s) (c : Scanner.Call) :
    Traced source format settings (past ++ s.sought) (s.answer c).2 :=
  Scanner.answer_keeps past h (h.scanFrom s.cursor) (fun peeked h => h.keep peeked) (fun h => h.finish) c

end Traced

/-- **The trace of a run.** Of every source and every format, the magics that a run comes to
follow one another, and are what its counters say. -/
theorem Run.traced (source : Source) (format : WireFormat) (settings : ScanSettings)
    (calls : List Scanner.Call) :
    let run := (Scanner.start source format settings).run calls
    Traced source format settings run.sightings run.scanner :=
  Scanner.run_induct (fun _ run => Traced source format settings run.sightings run.scanner)
    (.nil source format settings) (fun _ _ c h => h.answer c) calls

/-- The records that a scan comes to: one where it ends with one. -/
theorem Scanner.filterMap_sightings (s : Scanner) (headerFrom : Nat) :
    (s.sightings headerFrom).filterMap (·.record?) =
      match (s.scanFrom headerFrom).1 with
      | .ok found => found.toList
      | .error _ => [] := by
  refine Scanner.scanFrom_induct (fun past _ _ => past.filterMap (·.record?) = [])
    (fun past answer _ => past.filterMap (·.record?) =
      match answer with
      | .ok found => found.toList
      | .error _ => []) ?_ ?_ [] rfl
  · intro past s headerFrom next after x h _ hstepped
    rw [List.filterMap_append, h]
    cases hstepped <;> rfl
  · intro past s headerFrom answer t x h _ hstepped
    rw [List.filterMap_append, h]
    cases hstepped <;> rfl

/-- **No record is lost on the way to the caller.** The records that were found are those that
were handed out, in the same order, and the one that is kept. -/
theorem Run.handed (source : Source) (format : WireFormat) (settings : ScanSettings)
    (calls : List Scanner.Call) :
    let run := (Scanner.start source format settings).run calls
    run.answers.filterMap (·.record?) ++ run.scanner.peeked.toList =
      run.sightings.filterMap (·.record?) := by
  refine Scanner.run_induct
    (fun _ run => run.answers.filterMap (·.record?) ++ run.scanner.peeked.toList =
      run.sightings.filterMap (·.record?)) rfl ?_ calls
  intro _ run c h
  unfold Run.call
  -- a call hands out the record that is kept, or one that it comes to
  have hcalled := run.scanner.called c
  have hfound := run.scanner.filterMap_sightings run.scanner.cursor
  have hkept := run.scanner.peeked_scanFrom run.scanner.cursor
  simp only [List.filterMap_append, ← h]
  generalize run.scanner.sought = sought, (run.scanner.answer c).1 = told,
    (run.scanner.answer c).2 = t at hcalled
  cases hcalled with
  | kept hpeeked => simp [hpeeked, Scanner.Answer.record?]
  | handed hpeeked => simp [hpeeked, Scanner.Answer.record?]
  | found hpeeked hscan => simp [hpeeked, hfound, hscan, Scanner.Answer.record?]
  | pulled hpeeked hscan =>
    simp only [hscan] at hkept
    simp [hkept, hpeeked, hfound, hscan, Scanner.Answer.record?]
  | ended hpeeked hscan =>
    simp only [hscan] at hkept
    simp [hkept, hpeeked, hfound, hscan, Scanner.Answer.record?]
  | failed hpeeked hscan =>
    simp only [hscan] at hkept
    simp [hkept, hpeeked, hfound, hscan, Scanner.Answer.record?]
  | closed _ hpeeked hscan =>
    simp only [hscan] at hkept
    simp [Scanner.finish, hkept, hpeeked, hfound, hscan, Scanner.Answer.record?]

/-! ## §5 Formats that read bytes -/

/-- What became of a magic is what the verdict on it says. -/
def Sighting.GoesBy (x : Sighting) (r : PlainScan) : Prop :=
  match r.verdict x.start with
  | .foreign _ => x.outcome = .foreign
  | .dropped _ _ => x.outcome = .dropped
  | .record stop repaired _ => ∃ record, x.outcome = .record record ∧ record.start = x.start ∧
      record.stop = stop ∧ record.isRepaired = repaired

namespace PlainScan

variable {r : PlainScan} {source : Source}

/-- A frame that has a length is dropped or a record. -/
theorem verdictOf_ne_foreign (r : PlainScan) (start total : Nat) (repaired : Bool) (resume : Nat) :
    r.verdictOf start total repaired ≠ .foreign resume := by
  unfold verdictOf
  split
  · simp
  split
  · simp
  split
  · simp
  split <;> simp

theorem Describes.isForeignAt_eq (h : r.Describes source) (st : State) (start : Nat) :
    (r.scanner source st).isForeignAt start =
      match r.verdict start with
      | .foreign _ => true
      | _ => false := by
  unfold Scanner.isForeignAt verdict
  simp only [scanner_format, scanner_source, h.measure_eq]
  rcases r.view.preamble r.bytes start with _ | ⟨resume, _ | p⟩
  · rfl
  · rfl
  · -- neither side is foreign once there is a length
    have hnot := r.verdictOf_ne_foreign start ((r.view.repair r.bytes p).getD p.declared)
      (r.view.repair r.bytes p).isSome
    simp only [WireFormat.extent]
    split
    · rename_i hextent
      split at hextent
      · cases hextent
      · split at hextent <;> cases hextent
    · rfl

theorem Describes.comesTo (h : r.Describes source) {st : State} {start : Nat}
    (hfirst : r.bytes.firstOccurrence r.format.magic st.cursor = some start) :
    (r.scanner source st).ComesTo start := by
  obtain ⟨hle, hlt, -⟩ := Bytes.firstOccurrence_eq_some_iff.mp hfirst
  have hinside : st.cursor < source.size := by
    rw [h.size_eq]
    omega
  refine ⟨hinside, ?_⟩
  simp only [scanner_source, scanner_cursor, scanner_format]
  rw [Source.find_none_eq h.steady _ fun _ => hinside, h.bytes, hfirst]

/-- What is noted of the next magic is what the verdict on it makes of the scan. -/
theorem Describes.sighting_eq (h : r.Describes source) {st : State} {start : Nat}
    (hfirst : r.bytes.firstOccurrence r.format.magic st.cursor = some start) (headerFrom : Nat) :
    (r.scanner source st).sighting? headerFrom =
      (r.stepOf source st start headerFrom (r.verdict start)).sighting?
        (match r.verdict start with
          | .foreign _ => true
          | _ => false) start := by
  rw [Scanner.sighting?, (h.comesTo hfirst).magic?_eq, Option.bind_some, h.step_eq, hfirst,
    h.isForeignAt_eq]

/-- A scan goes by the verdicts, also where it is watched. -/
theorem Describes.goesBy_sightings (h : r.Describes source) (st : State) (headerFrom : Nat) :
    ∀ x ∈ (r.scanner source st).sightings headerFrom, x.GoesBy r := by
  -- the scan goes from magic to magic, and so does the induction
  fun_induction next r st headerFrom with
  | case1 st headerFrom hnone =>
    have hstep := h.step_eq st headerFrom
    rw [hnone] at hstep
    rw [Scanner.sightings_of_stop hstep, Scanner.sighting?, hstep]
    cases (r.scanner source st).magic? <;> simp [Scanner.Step.sighting?]
  | case2 st headerFrom start hfirst _ resume hverdict ih =>
    have hstep := h.step_eq st headerFrom
    have hnoted := h.sighting_eq hfirst headerFrom
    simp only [hfirst, hverdict, stepOf] at hstep hnoted
    rw [Scanner.sightings_of_resume hstep, hnoted]
    refine List.forall_mem_cons.mpr ⟨?_, ih⟩
    simp [Sighting.GoesBy, hverdict]
  | case3 st headerFrom start hfirst _ reason repaired hverdict ih =>
    have hstep := h.step_eq st headerFrom
    have hnoted := h.sighting_eq hfirst headerFrom
    simp only [hfirst, hverdict, stepOf] at hstep hnoted
    rw [Scanner.sightings_of_resume hstep, hnoted]
    refine List.forall_mem_cons.mpr ⟨?_, ih⟩
    simp [Sighting.GoesBy, hverdict]
  | case4 st headerFrom start hfirst _ stop repaired spans hverdict =>
    have hstep := h.step_eq st headerFrom
    have hnoted := h.sighting_eq hfirst headerFrom
    simp only [hfirst, hverdict, stepOf] at hstep hnoted
    rw [Scanner.sightings_of_stop hstep, hnoted]
    refine List.forall_mem_cons.mpr ⟨?_, by simp⟩
    simp [Sighting.GoesBy, hverdict, recordAt]

end PlainScan

namespace PlainScan.Describes

variable {r : PlainScan} {source : Source}

/-- One call, where the scanner is as far as a plain scan is, with a record kept or not. -/
theorem called (h : r.Describes source) (st : State) (peeked : Option Record) {s t : Scanner}
    (hs : s = { r.scanner source st with peeked }) {c : Scanner.Call} {sought : List Sighting}
    {told : Scanner.Answer} (hcalled : s.Called c sought told t) :
    (∃ st peeked, t = { r.scanner source st with peeked }) ∧ (∀ e, told ≠ .failed e) ∧
      ∀ x ∈ sought, x.GoesBy r := by
  -- where nothing is kept, the scan is the plain one, and gives an answer
  have hplain : s.peeked = none → s = r.scanner source st := by
    intro hnone
    rw [hs] at hnone ⊢
    cases hnone
    rfl
  have hscan : s.peeked = none → s.scanFrom s.cursor =
      (.ok (r.pull st).1, r.scanner source (r.pull st).2) := by
    intro hnone
    rw [hplain hnone, h.scanFrom_eq]
    rfl
  have hgoes : s.peeked = none → ∀ x ∈ s.sightings s.cursor, x.GoesBy r := by
    intro hnone
    rw [hplain hnone]
    exact h.goesBy_sightings st _
  cases hcalled with
  | kept => exact ⟨⟨st, peeked, hs⟩, by simp, by simp⟩
  | handed => exact ⟨⟨st, none, by rw [hs]⟩, by simp, by simp⟩
  | found hnone hfound =>
    obtain ⟨-, rfl⟩ := Prod.mk.inj ((hscan hnone).symm.trans hfound)
    exact ⟨⟨_, _, rfl⟩, by simp, hgoes hnone⟩
  | pulled hnone hpulled =>
    obtain ⟨-, rfl⟩ := Prod.mk.inj ((hscan hnone).symm.trans hpulled)
    exact ⟨⟨_, none, rfl⟩, by simp, hgoes hnone⟩
  | ended hnone hended =>
    obtain ⟨-, rfl⟩ := Prod.mk.inj ((hscan hnone).symm.trans hended)
    exact ⟨⟨_, none, rfl⟩, by simp, hgoes hnone⟩
  | failed hnone hfailed =>
    rw [hscan hnone] at hfailed
    cases hfailed
  | closed _ hnone hfailed =>
    rw [hscan hnone] at hfailed
    cases hfailed

/-- **Runs of formats that read bytes.** No call fails, and every magic that a run comes to goes
by the verdict on it. -/
theorem run_goesBy (h : r.Describes source) (calls : List Scanner.Call) :
    let run := (Scanner.start source r.format r.settings).run calls
    ¬ run.Failed ∧ ∀ x ∈ run.sightings, x.GoesBy r := by
  refine (Scanner.run_induct (fun _ run =>
    (∃ st peeked, run.scanner = { r.scanner source st with peeked }) ∧
      ¬ run.Failed ∧ ∀ x ∈ run.sightings, x.GoesBy r)
    ⟨⟨{}, none, rfl⟩, by simp [Run.Failed], by simp⟩ ?_ calls).2
  rintro calls run c ⟨⟨st, peeked, hscanner⟩, hnot, hall⟩
  obtain ⟨hstate, htold, hsought⟩ := h.called st peeked hscanner (run.scanner.called c)
  refine ⟨hstate, fun ⟨e, he⟩ => ?_, fun x hx => ?_⟩
  · rcases List.mem_append.mp he with he | he
    · exact hnot ⟨e, he⟩
    · exact htold e (List.mem_singleton.mp he).symm
  · rcases List.mem_append.mp hx with hx | hx
    · exact hall x hx
    · exact hsought x hx

/-- A call for the next record is answered by the plain scan. -/
theorem answer_next (h : r.Describes source) (st : State) :
    (r.scanner source st).answer .next =
      (match (r.pull st).1 with
        | some record => .record record
        | none => .nothing,
        r.scanner source (r.pull st).2) := by
  rw [Scanner.answer, h.next_scanner]
  cases (r.pull st).1 <;> rfl

end PlainScan.Describes

end Granule
