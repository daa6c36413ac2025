import Granule.Frame.Grib1
import Granule.Frame.Tagged
import Granule.Proofs.Scan.Words

/-!
# Scans End

The search for a record has no counter. What bounds it is the distance of the cursor
from the end of the source: a step that goes on comes to a magic at or behind the cursor,
and leaves the cursor behind that magic, whatever the format answers. Cut off after as
many steps as there are bytes ahead, the search is still complete (`scanWithin_eq`).

Between calls the cursor never leaves the source and never goes back. When frames have
bytes, a record takes up some of the source and no byte is taken up twice, which bounds
the number of records; and a scan that has come to the end stays there.

On a machine the search ends as well, but it can end in a panic: the place behind a dropped frame
at which the search would go on need not have a word.

**Main statements**:
- `Scanner.scanWithin_eq` : the search for a record ends within the bytes ahead
- `Run.scan_ends` : pulls end, records are bounded, and the end is final; a machine gives up
  exactly where a frame is dropped too far on
-/

namespace Granule

/-- Tagged frames have bytes. -/
theorem TaggedFormat.minLength_format_pos (t : TaggedFormat) : 0 < t.format.minLength := by
  show 0 < t.magic.length + max 1 (min 8 t.lengthWidth) + t.trailer.length
  omega

/-- Messages have bytes. -/
theorem Grib1.minLength_format_pos (repair : LengthRule) : 0 < (format repair).minLength := by
  show 0 < Grib1.minLength
  decide

namespace Scanner

variable {s next t : Scanner} {headerFrom after : Nat}

/-! ## §1 One search -/

/-- The search for a record, cut off after a number of steps that go on. -/
def scanWithin : (steps : Nat) → Scanner → (headerFrom : Nat) →
    Option (Except IoError (Option Record) × Scanner)
  | 0, s, headerFrom =>
    match s.step headerFrom with
    | .stop answer t => some (answer, t)
    | .resume _ _ => none
  | steps + 1, s, headerFrom =>
    match s.step headerFrom with
    | .stop answer t => some (answer, t)
    | .resume next after => scanWithin steps next after

/-- The search for a record ends within as many steps as there are bytes ahead of the cursor. -/
theorem scanWithin_eq {steps : Nat} (s : Scanner) (headerFrom : Nat)
    (h : s.source.size - s.cursor ≤ steps) :
    scanWithin steps s headerFrom = some (s.scanFrom headerFrom) := by
  -- on the budget: each step moves the cursor forward, and there is as much room as budget
  induction steps generalizing s headerFrom with
  | zero =>
    rw [scanWithin]
    cases hstep : s.step headerFrom with
    | stop answer t => rw [scanFrom_of_stop hstep]
    | resume next after =>
      have hinside := (step_resume hstep).2.2
      omega
  | succ steps ih =>
    rw [scanWithin]
    cases hstep : s.step headerFrom with
    | stop answer t => rw [scanFrom_of_stop hstep]
    | resume next after =>
      obtain ⟨hsource, hforward, hinside⟩ := step_resume hstep
      rw [scanFrom_of_resume hstep]
      refine ih next after ?_
      rw [hsource]
      omega

/-- A step that goes on has dropped or passed a magic at or behind the cursor, and leaves the cursor
behind that magic. -/
theorem sighting_of_resume (h : s.step headerFrom = .resume next after) :
    ∃ x, s.sighting? headerFrom = some x ∧ (x.isForeign ∨ x.isDropped) ∧
      s.cursor ≤ x.start ∧ x.start < next.cursor := by
  have hstepped := s.stepped headerFrom
  rw [h] at hstepped
  generalize s.sighting? headerFrom = x at hstepped
  cases hstepped with
  | foreign hcomes =>
    refine ⟨_, rfl, .inl rfl, Source.le_of_find hcomes.found, ?_⟩
    simp only [passForeign]
    omega
  | dropped hcomes =>
    refine ⟨_, rfl, .inr rfl, Source.le_of_find hcomes.found, ?_⟩
    simp only [drop]
    omega

/-- A step that stops leaves the cursor inside the source, no further back, and at the end if there
is no record. -/
theorem cursor_of_stop {answer : Except IoError (Option Record)}
    (h : s.step headerFrom = .stop answer t) :
    t.source = s.source ∧ t.cursor ≤ s.source.size ∧ min s.cursor s.source.size ≤ t.cursor ∧
      (answer = .ok none → t.cursor = s.source.size) := by
  have hstepped := s.stepped headerFrom
  rw [h] at hstepped
  generalize s.sighting? headerFrom = x at hstepped
  cases hstepped with
  | ended => exact ⟨rfl, le_rfl, min_le_right _ _, fun _ => rfl⟩
  | @failed e repaired table =>
    -- at the end of the source nothing is read, so nothing fails
    have hinside : ¬ s.source.size ≤ s.cursor := by
      intro hend
      rw [step, if_pos hend] at h
      cases h
    obtain ⟨hsource, -, hcursor⟩ := s.countRepair_facts repaired
    refine ⟨hsource, hcursor.trans_le (Nat.le_of_not_le hinside), ?_, by simp⟩
    exact (min_le_left _ _).trans hcursor.ge
  | @record start record repaired table hcomes hreads =>
    have hemitted := hreads.emitted
    have hlong := hemitted.long
    have hbehind := Source.le_of_find hcomes.found
    have hforward : s.cursor ≤ record.stop := by omega
    exact ⟨(s.countRepair_facts repaired).1, hemitted.inside, (min_le_left _ _).trans hforward,
      by simp⟩

/-- From one state of a scan to a later one, the cursor moves forward inside the source. -/
structure Advances (s t : Scanner) : Prop where
  source : t.source = s.source
  forward : s.cursor ≤ t.cursor
  inside : t.cursor ≤ s.source.size

/-- A search advances, and comes to the end if there is no record. -/
theorem advances_scanFrom (headerFrom : Nat) (h : s.cursor ≤ s.source.size) :
    s.Advances (s.scanFrom headerFrom).2 ∧
      ((s.scanFrom headerFrom).1 = .ok none →
        (s.scanFrom headerFrom).2.cursor = s.source.size) := by
  refine scanFrom_induct (fun _ t _ => t.source = s.source ∧ s.cursor ≤ t.cursor)
    (fun _ answer t => s.Advances t ∧ (answer = .ok none → t.cursor = s.source.size))
    ?go ?stop [] ⟨rfl, le_rfl⟩
  case go =>
    rintro past t headerFrom next after x ⟨hsource, hle⟩ hstep -
    obtain ⟨hsame, hforward, -⟩ := step_resume hstep
    exact ⟨hsame.trans hsource, hle.trans hforward.le⟩
  case stop =>
    rintro past t headerFrom answer next x ⟨hsource, hle⟩ hstep -
    obtain ⟨hsame, hinside, hforward, hend⟩ := cursor_of_stop hstep
    rw [hsource] at hinside hforward hend
    exact ⟨⟨hsame.trans hsource, (le_min hle h).trans hforward, hinside⟩, hend⟩

/-! ## §2 One call -/

/-- A call advances. -/
theorem advances_answer (c : Call) (h : s.cursor ≤ s.source.size) :
    s.Advances (s.answer c).2 := by
  obtain ⟨hscan, -⟩ := advances_scanFrom s.cursor h
  refine answer_keeps (P := fun _ t => s.Advances t) [] ⟨rfl, le_rfl, h⟩ hscan
    (fun _ ht => { ht with }) ?_ c
  intro past t ht
  have hend : t.finish.cursor = s.source.size := congrArg Source.size ht.source
  exact ⟨ht.source, hend ▸ h, hend.le⟩

/-- A scan that has come to the end of its source, and keeps no record. -/
structure Exhausted (s : Scanner) : Prop where
  peeked : s.peeked = none
  cursor : s.cursor = s.source.size

/-- The end is final: every call says that there is nothing, and changes nothing. -/
theorem Exhausted.answer_eq (h : s.Exhausted) (c : Call) : s.answer c = (.nothing, s) := by
  have hsame : s.finish = s := by rw [finish, ← h.cursor]
  have hscan : s.scanFrom s.cursor = (.ok none, s) := by
    rw [scanFrom_of_stop (if_pos h.cursor.ge), hsame]
  have hcalled := s.called c
  refine Prod.ext_iff.mpr ?_
  generalize s.sought = sought, (s.answer c).1 = told, (s.answer c).2 = t at hcalled
  -- no record is kept, and the search finds none
  cases hcalled with
  | ended _ hended => rw [hscan] at hended; cases hended; exact ⟨rfl, rfl⟩
  | kept hkept => rw [h.peeked] at hkept; cases hkept
  | handed hkept => rw [h.peeked] at hkept; cases hkept
  | found _ hfound => rw [hscan] at hfound; cases hfound
  | pulled _ hpulled => rw [hscan] at hpulled; cases hpulled
  | failed _ hfailed => rw [hscan] at hfailed; cases hfailed
  | closed _ _ hfailed => rw [hscan] at hfailed; cases hfailed

/-- At the end a machine has nothing to search, so it does not give up either. -/
theorem Exhausted.answerChecked_eq (h : s.Exhausted) (c : Call) :
    s.answerChecked c = .ok (.nothing, s) := by
  rw [← h.answer_eq c]
  refine (answerChecked_eq_ok_iff_scan h.peeked c).mpr ?_
  rw [scanFromChecked_of_stop (if_pos h.cursor.ge), scanFrom_of_stop (if_pos h.cursor.ge)]

/-- A call that says that there is nothing has come to the end. -/
theorem exhausted_of_nothing {c : Call} (h : s.cursor ≤ s.source.size)
    (hnothing : (s.answer c).1 = .nothing) : (s.answer c).2.Exhausted := by
  obtain ⟨hscan, hend⟩ := advances_scanFrom s.cursor h
  have hkept := s.peeked_scanFrom s.cursor
  have hcalled := s.called c
  generalize s.sought = sought, (s.answer c).1 = told, (s.answer c).2 = t at hcalled hnothing ⊢
  subst hnothing
  cases hcalled with
  | ended hpeeked hended =>
    rw [hended] at hscan hend hkept
    exact ⟨hkept.trans hpeeked, (hend rfl).trans (congrArg Source.size hscan.source).symm⟩

end Scanner

/-! ## §3 Whole runs -/

namespace Run

variable {source : Source} {format : WireFormat} {settings : ScanSettings}

/-- Records that follow one another and have bytes fit the source they come from. -/
theorem count_mul_minLength_le {past : List Sighting} {stop : Nat}
    (h : EachAfter (Sighting.Placed source format) past)
    (hstop : ∀ x ∈ past, x.record?.isSome → x.resume ≤ stop) :
    (past.filterMap (·.record?)).length * format.minLength ≤ stop := by
  induction past using List.reverseRecOn generalizing stop with
  | nil => simp
  | append_singleton past x ih =>
    obtain ⟨hbefore, hplaced⟩ := h.init
    obtain ⟨start, outcome, resume⟩ := x
    rw [List.filterMap_append]
    cases outcome with
    | foreign =>
      refine Eq.trans_le ?_ (ih hbefore fun y hy => hstop y (List.mem_append_left _ hy))
      simp [Sighting.record?]
    | dropped =>
      refine Eq.trans_le ?_ (ih hbefore fun y hy => hstop y (List.mem_append_left _ hy))
      simp [Sighting.record?]
    | record r =>
      -- the earlier records end before this one starts
      have hpast := ih hbefore fun y hy _ => hplaced.after y hy
      have hlast := hstop _ (List.mem_append_right _ (List.mem_singleton_self _)) rfl
      obtain ⟨hstart, hlong, -, hresume⟩ := hplaced.resume
      have hone : ([⟨start, .record r, resume⟩] : List Sighting).filterMap (·.record?) = [r] := rfl
      rw [hone, List.length_append, List.length_singleton, Nat.succ_mul]
      simp only at hpast hlast hstart hresume
      omega

/-- A run hands out no more records than fit its source. -/
theorem records_le (source : Source) (format : WireFormat) (settings : ScanSettings)
    (calls : List Scanner.Call) (hmin : 0 < format.minLength) :
    let run := (Scanner.start source format settings).run calls
    (run.answers.filterMap (·.record?)).length ≤ source.size / format.minLength := by
  intro run
  have htraced := traced source format settings calls
  have hfit : (run.sightings.filterMap (·.record?)).length * format.minLength ≤ source.size := by
    refine count_mul_minLength_le htraced.placed ?_
    rintro ⟨start, outcome, resume⟩ hx hrecord
    obtain ⟨before, hplaced⟩ := htraced.placed.exists_of_mem hx
    cases outcome with
    | foreign => cases hrecord
    | dropped => cases hrecord
    | record r =>
      obtain ⟨-, -, hinside, hresume⟩ := hplaced.resume
      exact hresume.trans_le hinside
  -- the records handed out are among those seen
  rw [Nat.le_div_iff_mul_le hmin]
  refine le_trans (Nat.mul_le_mul_right _ ?_) hfit
  rw [← handed source format settings calls, List.length_append]
  exact Nat.le_add_right _ _

/-- Between calls the cursor lies inside the source, and a run that was told of the end is there. -/
theorem cursor_inside (source : Source) (format : WireFormat) (settings : ScanSettings)
    (calls : List Scanner.Call) :
    let run := (Scanner.start source format settings).run calls
    run.scanner.cursor ≤ run.scanner.source.size ∧
      (.nothing ∈ run.answers → run.scanner.Exhausted) := by
  refine Scanner.run_induct (s := .start source format settings)
    (fun _ run => run.scanner.cursor ≤ run.scanner.source.size ∧
      (.nothing ∈ run.answers → run.scanner.Exhausted)) ⟨Nat.zero_le _, by simp⟩ ?_ calls
  rintro _ run c ⟨hinside, hended⟩
  have hadvances := Scanner.advances_answer c hinside
  refine ⟨hadvances.inside.trans (congrArg Source.size hadvances.source).ge, fun hnothing => ?_⟩
  rcases List.mem_append.mp hnothing with hearlier | hlast
  · have hsame : (run.call c).scanner = run.scanner :=
      congrArg Prod.snd ((hended hearlier).answer_eq c)
    rw [hsame]
    exact hended hearlier
  · exact Scanner.exhausted_of_nothing hinside (List.mem_singleton.mp hlast).symm

/-- **The scan ends.** A search goes on at most as often as there are bytes ahead, because each step
that goes on leaves the magic that it dropped or passed behind. A machine answers nothing else, and
gives up on the search exactly if it drops a frame so far on that the place to resume at has no
word; the distances that a source of this size leaves room for never lead there. When frames have
bytes (`TaggedFormat.minLength_format_pos`, `Grib1.minLength_format_pos`), calls to a fresh scan move
the cursor forward, hand out no more records than fit the source, and change nothing once one of
them has come to the end. -/
theorem scan_ends (s : Scanner) (calls : List Scanner.Call) :
    (s.peeked = none → ∃ answer t,
      s.scanWithin (s.source.size - s.cursor) s.cursor = some (answer, t) ∧
        (∀ told, s.nextChecked = .ok told → told = (answer.mapError .io, t)) ∧
        (s.settings.SearchFits s.format.magic → ((∃ told, s.nextChecked = .ok told) ↔
          ∀ x ∈ s.sightings s.cursor, x.isDropped → x.resume < wordLimit))) ∧
    (∀ next headerFrom after, s.stepChecked headerFrom = .ok (.resume next after) →
      ∃ x, s.sighting? headerFrom = some x ∧ (x.isForeign ∨ x.isDropped) ∧
        s.cursor ≤ x.start ∧ x.start < next.cursor) ∧
    let fresh := Scanner.start s.source s.format s.settings
    (0 < s.format.minLength → (fresh.runChecked calls).Gives (fresh.FitsWords calls) fun run =>
      (∀ c next, run.callChecked c = .ok next → run.scanner.cursor ≤ next.scanner.cursor) ∧
      (run.answers.filterMap (·.record?)).length ≤ s.source.size / s.format.minLength ∧
      (.nothing ∈ run.answers → run.scanner.cursor = s.source.size ∧
        ∀ c, run.scanner.answerChecked c = .ok (.nothing, run.scanner))) ∧
    (s.source.size + max s.format.resyncDistance 1 ≤ wordLimit →
      (fresh.run calls).KeepsToWords) := by
  refine ⟨?call, ?step, ?run, ?room⟩
  case call =>
    intro hpeeked
    have hnext : s.next = ((s.scanFrom s.cursor).1.mapError .io, (s.scanFrom s.cursor).2) := by
      simp only [Scanner.next, hpeeked, Scanner.scan]
    refine ⟨_, _, Scanner.scanWithin_eq s s.cursor le_rfl, fun told htold => ?_, fun hfits => ?_⟩
    · rw [← Scanner.next_of_nextChecked htold, hnext]
    · -- the machine answers exactly if the places at which its search goes on have words
      refine Iff.trans ⟨?_, ?_⟩ (Scanner.scanFromChecked_eq_ok_iff hfits)
      · rintro ⟨told, htold⟩
        simp only [Scanner.nextChecked, hpeeked, Scanner.scanChecked,
          Checked.bind_eq_ok_iff] at htold
        obtain ⟨found, hfound, -⟩ := htold
        rw [hfound, Scanner.scanFrom_of_scanFromChecked hfound]
      · intro hscan
        refine ⟨s.next, ?_⟩
        rw [hnext, Scanner.nextChecked, hpeeked]
        simp only [Scanner.scanChecked, hscan]
        rfl
  case step =>
    intro next headerFrom after hstep
    exact Scanner.sighting_of_resume (Scanner.step_of_stepChecked hstep)
  case run =>
    intro hmin
    refine Scanner.gives_runChecked ?_
    obtain ⟨hinside, hended⟩ := cursor_inside s.source s.format s.settings calls
    have hsource := (traced s.source s.format s.settings calls).source_eq
    refine ⟨fun c next hnext => ?_, records_le s.source s.format s.settings calls hmin,
      fun hnothing => ?_⟩
    · rw [← call_of_callChecked hnext]
      exact (Scanner.advances_answer c hinside).forward
    · exact ⟨(hended hnothing).cursor.trans (congrArg Source.size hsource),
        (hended hnothing).answerChecked_eq⟩
  case room => exact fun hroom => keepsToWords_of_room s.settings hroom calls

/-- Two calls on a source with one frame and the beginning of another one, and what a third one
adds; and a frame that is dropped too far on. -/
theorem scan_ends_samples :
    (let source : Source := .ofBytes [9, 0x41, 1, 7, 0x41]
    let s := Scanner.start source PlainScan.sampleFormat.format {}
    0 < PlainScan.sampleFormat.format.minLength ∧
      ∃ run, s.runChecked [.next, .next] = .ok run ∧ .nothing ∈ run.answers ∧
        (run.answers.filterMap (·.record?)).length ≤ 5 / 2 ∧ run.scanner.cursor = 5 ∧
        ∀ c, run.scanner.answerChecked c = .ok (.nothing, run.scanner)) ∧
    let s := Scanner.start farSource farFormat.format {}
    s.settings.SearchFits s.format.magic ∧ s.sightings s.cursor = [⟨1, .dropped, 2 ^ 64⟩] ∧
      ¬ ∃ told, s.nextChecked = .ok told := by
  refine ⟨?answered, ?givesUp⟩
  case answered =>
    intro source s
    have hmin := TaggedFormat.minLength_format_pos PlainScan.sampleFormat
    obtain ⟨-, -, hrun, -⟩ := scan_ends s [.next, .next]
    obtain ⟨hsound, htotal⟩ := hrun hmin
    obtain ⟨run, hanswered⟩ := htotal
      (fitsWords_of_room (fun _ => by decide) (by decide) _)
    obtain ⟨-, hrecords, hend⟩ := hsound run hanswered
    have hended : .nothing ∈ run.answers := by
      rw [← Scanner.run_of_runChecked hanswered]
      decide +kernel
    exact ⟨hmin, run, hanswered, hended, hrecords, hend hended⟩
  case givesUp =>
    intro s
    have hfits : s.settings.SearchFits s.format.magic := fun _ => by decide
    obtain ⟨hcall, -⟩ := scan_ends s []
    obtain ⟨-, -, -, -, hanswers⟩ := hcall rfl
    refine ⟨hfits, sought_far, fun htold => ?_⟩
    have hwords := (hanswers hfits).mp htold
    rw [show s.sightings s.cursor = _ from sought_far, List.forall_mem_singleton] at hwords
    exact absurd (hwords rfl) (by decide)

end Run

end Granule
