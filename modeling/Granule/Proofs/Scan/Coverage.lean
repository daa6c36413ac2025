import Granule.Proofs.Scan.Words

/-!
# No Magic Is Lost

Every magic of a source that never fails is one that a scan comes to, or lies in what the
scan passed over after one: inside a record, within the distance that a dropped frame is
passed by, or among the bytes that were read of a foreign frame.

The invariant is that all magics before the cursor are covered in this way. A step keeps
it because the search finds the first magic from the cursor on, and the scan then stands
behind that one.

**Main statements**:
- `CoveredUpTo.scanFrom` : a scan covers every magic that it passes
- `Run.no_magic_lost` : a run that came to the end has accounted for every magic once
-/

namespace Granule

/-! ## §1 What a scan covers -/

/-- Each magic before `high` is one of these, or lies in what was passed over after one. -/
def CoveredUpTo (source : Source) (format : WireFormat) (past : List Sighting)
    (high : Nat) : Prop :=
  ∀ q < high, source.bytes.HasAt q format.magic → ∃ x ∈ past, x.start ≤ q ∧ q < x.resume

namespace CoveredUpTo

variable {source : Source} {format : WireFormat} {settings : ScanSettings}
  {past : List Sighting} {s next : Scanner} {headerFrom after high start : Nat} {x : Sighting}

theorem append (h : CoveredUpTo source format past high) (more : List Sighting) :
    CoveredUpTo source format (past ++ more) high := by
  intro q hq hat
  obtain ⟨x, hx, hin⟩ := h q hq hat
  exact ⟨x, List.mem_append_left more hx, hin⟩

/-- The search comes to the first magic, so with it all are covered that the scan then has passed. -/
theorem concat (h : CoveredUpTo source format past s.cursor) (hsteady : source.NeverFails)
    (hsource : s.source = source) (hformat : s.format = format) (hcomes : s.ComesTo x.start) :
    CoveredUpTo source format (past ++ [x]) x.resume := by
  obtain ⟨hinside, hfound⟩ := hcomes
  rw [hsource] at hinside
  rw [hsource, hformat, Source.find_none_eq hsteady _ (fun _ => hinside), Except.ok.injEq,
    Bytes.firstOccurrence_eq_some_iff] at hfound
  obtain ⟨-, -, -, hfirst⟩ := hfound
  intro q hq hat
  by_cases hlow : q < s.cursor
  · exact h.append [x] q hlow hat
  · have hstart : x.start ≤ q := Nat.le_of_not_lt fun hlt => hfirst q (Nat.le_of_not_lt hlow) hlt hat
    exact ⟨x, List.mem_append_right past (List.mem_singleton_self x), hstart, hq⟩

/-- Where the search finds nothing more, all magics of the source are covered. -/
theorem of_end (h : CoveredUpTo source format past s.cursor) (hsteady : source.NeverFails)
    (hmagic : format.magic ≠ []) (hsource : s.source = source) (hformat : s.format = format)
    (hend : s.source.size ≤ s.cursor ∨
      s.source.find s.cursor s.format.magic none s.settings.blockSize = .ok none) :
    CoveredUpTo source format past source.size := by
  intro q hq hat
  refine h q (Nat.lt_of_not_le fun hle => ?_) hat
  rcases hend with hend | hnone
  · rw [hsource] at hend
    omega
  · rw [hsource, hformat, Source.find_none_eq hsteady _ (fun hnil => absurd hnil hmagic),
      Except.ok.injEq, Bytes.firstOccurrence_eq_none_iff] at hnone
    exact hnone q hle (by rwa [Source.length_bytes]) hat

/-- A step that goes on covers what it passes. -/
theorem go (h : CoveredUpTo source format past s.cursor) (hsteady : source.NeverFails)
    (hsource : s.source = source) (hformat : s.format = format)
    (hstepped : s.Stepped headerFrom (some x) (.resume next after)) :
    CoveredUpTo source format (past ++ [x]) next.cursor := by
  cases hstepped with
  | @foreign start resume hcomes hmeasure =>
    exact h.concat hsteady hsource hformat
      (x := ⟨start, .foreign, max resume (start + max s.format.magic.length 1)⟩) hcomes
  | @dropped start reason repaired hcomes =>
    have hall := h.concat hsteady hsource hformat
      (x := ⟨start, .dropped, s.resyncAt start⟩) hcomes
    cases repaired <;> exact hall

/-- So does one that stops; at the end of the source all is covered. -/
theorem stop {answer : Except IoError (Option Record)} {x : Option Sighting}
    (h : CoveredUpTo source format past s.cursor) (hsteady : source.NeverFails)
    (hmagic : format.magic ≠ []) (hsource : s.source = source) (hformat : s.format = format)
    (hstepped : s.Stepped headerFrom x (.stop answer next)) :
    CoveredUpTo source format (past ++ x.toList) next.cursor ∧
      (answer = .ok none → CoveredUpTo source format (past ++ x.toList) source.size) := by
  cases hstepped with
  | ended hend =>
    rw [Option.toList_none, List.append_nil]
    have hall := h.of_end hsteady hmagic hsource hformat hend
    refine ⟨?_, fun _ => hall⟩
    show CoveredUpTo source format past s.source.size
    rw [hsource]
    exact hall
  | @failed e repaired =>
    rw [Option.toList_none, List.append_nil]
    exact ⟨by cases repaired <;> exact h, by simp⟩
  | @record start record repaired table hcomes =>
    exact ⟨h.concat hsteady hsource hformat (x := ⟨start, .record record, record.stop⟩) hcomes,
      by simp⟩

theorem scanFrom (h : CoveredUpTo source format past s.cursor) (hsteady : source.NeverFails)
    (hmagic : format.magic ≠ []) (htraced : Traced source format settings past s)
    (headerFrom : Nat) :
    CoveredUpTo source format (past ++ s.sightings headerFrom) (s.scanFrom headerFrom).2.cursor ∧
      ((s.scanFrom headerFrom).1 = .ok none →
        CoveredUpTo source format (past ++ s.sightings headerFrom) source.size) :=
  Scanner.scanFrom_induct
    (fun past s _ => Traced source format settings past s ∧
      CoveredUpTo source format past s.cursor)
    (fun past answer s => CoveredUpTo source format past s.cursor ∧
      (answer = .ok none → CoveredUpTo source format past source.size))
    (fun h _ hstepped => ⟨h.1.go hstepped,
      h.2.go hsteady h.1.source_eq h.1.format_eq hstepped⟩)
    (fun h _ hstepped => h.2.stop hsteady hmagic h.1.source_eq h.1.format_eq hstepped)
    past ⟨htraced, h⟩

/-- A call covers what it passes, unless it closes the sequence after a failure. -/
theorem called (h : CoveredUpTo source format past s.cursor) (hsteady : source.NeverFails)
    (hmagic : format.magic ≠ []) (htraced : Traced source format settings past s)
    {c : Scanner.Call} {sought : List Sighting} {told : Scanner.Answer}
    (hcalled : s.Called c sought told next) (hopen : c = .pull → ∀ e, told ≠ .failed e) :
    CoveredUpTo source format (past ++ sought) next.cursor ∧
      (told = .nothing → CoveredUpTo source format (past ++ sought) source.size) := by
  obtain ⟨hscan, hend⟩ := h.scanFrom hsteady hmagic htraced s.cursor
  cases hcalled with
  | kept =>
    rw [List.append_nil]
    exact ⟨h, by simp⟩
  | handed =>
    rw [List.append_nil]
    exact ⟨h, by simp⟩
  | found _ hfound =>
    rw [hfound] at hscan
    exact ⟨hscan, by simp⟩
  | pulled _ hpulled =>
    rw [hpulled] at hscan
    exact ⟨hscan, by simp⟩
  | ended _ hended =>
    rw [hended] at hscan hend
    exact ⟨hscan, fun _ => hend rfl⟩
  | failed _ hfailed =>
    rw [hfailed] at hscan
    exact ⟨hscan, by simp⟩
  | closed hpull => exact absurd rfl (hopen hpull _)

end CoveredUpTo

/-! ## §2 Whole runs -/

namespace Run

/-- Every magic of the source is accounted for once. -/
structure Accounted (run : Run) (source : Source) (format : WireFormat) : Prop where
  magic : ∀ x ∈ run.sightings, source.bytes.HasAt x.start format.magic
  increasing : (run.sightings.map (·.start)).Pairwise (· < ·)
  counts : run.scanner.tally.Counts run.sightings
  total : run.scanner.tally.records + run.scanner.tally.dropped + run.scanner.tally.foreign =
    run.sightings.length
  covered : ∀ q, source.bytes.HasAt q format.magic → q ∉ run.sightings.map (·.start) →
    ∃ x ∈ run.sightings, x.start < q ∧ q < x.resume ∧ format.ResumesAt source x

variable {source : Source} {format : WireFormat} {settings : ScanSettings}

/-- A magic that the scan came to is behind all those before it, because frames have bytes. -/
theorem increasing_of_traced {past : List Sighting} {s : Scanner} (hmin : 0 < format.minLength)
    (h : Traced source format settings past s) : (past.map (·.start)).Pairwise (· < ·) := by
  have hlt : ∀ x ∈ past, x.start < x.resume := by
    intro x hx
    obtain ⟨before, hplaced⟩ := h.placed.exists_of_mem hx
    have hresume := hplaced.resume
    unfold WireFormat.ResumesAt at hresume
    split at hresume <;> omega
  have hpairwise : past.Pairwise fun y x => y.resume ≤ x.start :=
    (h.placed.mono fun _ _ hplaced => hplaced.after).pairwise
  rw [List.pairwise_map]
  exact hpairwise.imp_of_mem fun hy _ hle => (hlt _ hy).trans_le hle

/-- A run covers every magic that it passes, unless a sequence was closed after a failure. -/
theorem covered (hsteady : source.NeverFails) (hmagic : format.magic ≠ [])
    (settings : ScanSettings) (calls : List Scanner.Call) :
    let run := (Scanner.start source format settings).run calls
    (.pull ∈ calls → ¬ run.Failed) → CoveredUpTo source format run.sightings run.scanner.cursor ∧
      (.nothing ∈ run.answers → CoveredUpTo source format run.sightings source.size) := by
  refine (Scanner.run_induct (fun calls run =>
    Traced source format settings run.sightings run.scanner ∧
    ((.pull ∈ calls → ¬ run.Failed) →
      CoveredUpTo source format run.sightings run.scanner.cursor ∧
        (.nothing ∈ run.answers → CoveredUpTo source format run.sightings source.size)))
    ⟨.nil source format settings, fun _ => ⟨fun q hq => absurd hq (Nat.not_lt_zero q), by simp⟩⟩
    ?_ calls).2
  rintro calls run c ⟨htraced, hcovered⟩
  refine ⟨htraced.answer c, fun hopen => ?_⟩
  -- a run that has not failed had not failed before its last call
  have hbefore : .pull ∈ calls → ¬ run.Failed := by
    rintro hpull ⟨e, he⟩
    exact hopen (List.mem_append_left _ hpull) ⟨e, List.mem_append_left _ he⟩
  have htold : c = .pull → ∀ e, (run.scanner.answer c).1 ≠ .failed e := by
    intro hpull e he
    refine hopen (List.mem_append_right _ (hpull ▸ List.mem_singleton_self _)) ⟨e, ?_⟩
    exact List.mem_append_right _ (he ▸ List.mem_singleton_self _)
  obtain ⟨hpassed, hended⟩ := hcovered hbefore
  obtain ⟨hnow, hend⟩ := hpassed.called hsteady hmagic htraced (run.scanner.called c) htold
  refine ⟨hnow, fun hnothing => ?_⟩
  rcases List.mem_append.mp hnothing with hearlier | hlast
  · exact (hended hearlier).append _
  · exact hend (List.mem_singleton.mp hlast).symm

theorem accounted (hsteady : source.NeverFails) (hmagic : format.magic ≠ [])
    (hmin : 0 < format.minLength) (settings : ScanSettings) (calls : List Scanner.Call) :
    let run := (Scanner.start source format settings).run calls
    .nothing ∈ run.answers → (.pull ∈ calls → ¬ run.Failed) → run.Accounted source format := by
  intro run hended hopen
  have htraced : Traced source format settings run.sightings run.scanner :=
    traced source format settings calls
  have hall : CoveredUpTo source format run.sightings source.size :=
    (covered hsteady hmagic settings calls hopen).2 hended
  refine ⟨?magic, increasing_of_traced hmin htraced, htraced.counts,
    htraced.counts.sum_eq_length, ?covered⟩
  case magic =>
    intro x hx
    obtain ⟨before, hplaced⟩ := htraced.placed.exists_of_mem hx
    exact hplaced.magic
  case covered =>
    intro q hat hother
    have hroom := hat.length_le hmagic
    have hlength := List.length_pos_iff.mpr hmagic
    rw [Source.length_bytes] at hroom
    obtain ⟨x, hx, hle, hlt⟩ := hall q (by omega) hat
    obtain ⟨before, hplaced⟩ := htraced.placed.exists_of_mem hx
    -- it is none of the magics that the scan came to, so it lies behind one
    have hne : x.start ≠ q := by
      rintro rfl
      exact hother (List.mem_map_of_mem hx)
    exact ⟨x, hx, Nat.lt_of_le_of_ne hle hne, hlt, hplaced.resume⟩

/-- **No magic is lost.** On a source that never fails, for a format whose magic and frames have
bytes, a run of a machine that was told of the end has accounted for every magic once, unless a
sequence of records ended with a failure; and a format that reads bytes never fails a call. -/
theorem no_magic_lost (hsteady : source.NeverFails) (hmagic : format.magic ≠ [])
    (hmin : 0 < format.minLength) (settings : ScanSettings) (calls : List Scanner.Call) :
    let s := Scanner.start source format settings
    (s.runChecked calls).Gives (s.FitsWords calls) fun run =>
      (.nothing ∈ run.answers → (.pull ∈ calls → ¬ run.Failed) → run.Accounted source format) ∧
        ∀ view, format.ReadsAs view → ¬ run.Failed := by
  intro s
  refine Scanner.gives_runChecked
    ⟨accounted hsteady hmagic hmin settings calls, fun view hreads => ?_⟩
  have hdescribes : (⟨format, view, settings, source.bytes⟩ : PlainScan).Describes source :=
    ⟨hsteady, rfl, hreads⟩
  exact (hdescribes.run_goesBy calls).1

/-- One of two magics starts a frame, and the other one lies in it. -/
theorem no_magic_lost_sample :
    let source : Source := .ofBytes [9, 0x41, 2, 0x41, 7]
    ∃ run, (Scanner.start source PlainScan.sampleFormat.format {}).runChecked [.next, .next] =
      .ok run ∧ .nothing ∈ run.answers ∧ run.Accounted source PlainScan.sampleFormat.format := by
  intro source
  obtain ⟨hsound, htotal⟩ := no_magic_lost (Source.neverFails_ofBytes [9, 0x41, 2, 0x41, 7])
    (show PlainScan.sampleFormat.format.magic ≠ [] by decide) (by decide) {} [.next, .next]
  obtain ⟨run, hanswered⟩ := htotal
    (fitsWords_of_room (fun _ => by decide) (by decide) [.next, .next])
  obtain ⟨haccounted, hnever⟩ := hsound run hanswered
  have hended : .nothing ∈ run.answers := by
    rw [← Scanner.run_of_runChecked hanswered]
    decide +kernel
  exact ⟨run, hanswered, hended, haccounted hended fun _ =>
    hnever _ (TaggedFormat.format_readsAs LengthRule.none_readsAs)⟩

/-- A format that refuses to read what is behind a magic. -/
def closedFormat : WireFormat where
  name := "closed"
  magic := [0x41]
  trailer := []
  minLength := 1
  preamble := fun _ _ => .error (.refused "closed")
  divide := fun _ => .ok []
  recurs := fun _ => false

/-- The limits of `no_magic_lost`: a sequence that ends with a failure leaves magics behind, and a
machine can give up before the end. -/
theorem magic_lost_or_given_up :
    (let source : Source := .ofBytes [0x41]
    source.NeverFails ∧ closedFormat.magic ≠ [] ∧ 0 < closedFormat.minLength ∧
      ∃ run, (Scanner.start source closedFormat {}).runChecked [.pull, .pull] = .ok run ∧
        .nothing ∈ run.answers ∧ ¬ run.Accounted source closedFormat) ∧
    farSource.NeverFails ∧ farFormat.format.magic ≠ [] ∧ 0 < farFormat.format.minLength ∧
      ∃ p, (Scanner.start farSource farFormat.format {}).runChecked [.next] = .error p := by
  refine ⟨⟨Source.neverFails_ofBytes _, by decide, by decide, ?lost⟩,
    Source.neverFails_ofBytes _, by decide, by decide, error_far .next []⟩
  have hfits : (Scanner.start (.ofBytes [0x41]) closedFormat {}).FitsWords [.pull, .pull] :=
    fitsWords_of_room (fun _ => by decide) (by decide) _
  have hnone : ((Scanner.start (.ofBytes [0x41]) closedFormat {}).run [.pull, .pull]).sightings =
      [] := by
    decide +kernel
  refine ⟨_, hfits.runChecked_eq, by decide +kernel, fun haccounted => ?_⟩
  obtain ⟨x, hx, -⟩ := haccounted.covered 0 (by decide) (by simp [hnone])
  rw [hnone] at hx
  cases hx

end Run

end Granule
