import Granule.Proofs.Scan.Run
import Granule.Words.Scan

/-!
# Runs on a Machine

A machine answers a run of calls as the run is in exact numbers, or it gives up. It gives up at
two places: where the buffer of a search is too large for any machine, and where a frame is
dropped so far on that the place at which the search would resume has no word.

**Main statements**:
- `Scanner.stepChecked_eq_ok_iff` : a step is taken unless it drops a frame too far on
- `Scanner.run_of_runChecked` : a machine that answers a run answers as the run is
- `Scanner.runChecked_eq_ok_iff` : it answers it exactly if no frame is dropped too far on
- `Run.keepsToWords_of_room` : which is so where the distance that is skipped still fits behind
  the source
- `Run.error_far` : and need not be so, for a source of four bytes
-/

namespace Granule

/-! ## §1 What has to fit -/

/-- The place at which a search resumes behind a dropped frame has a word. -/
def Sighting.KeepsToWords (x : Sighting) : Prop := x.isDropped → x.resume < wordLimit

/-- No frame is dropped so far on that the place at which the search resumes has no word. -/
def Run.KeepsToWords (run : Run) : Prop := ∀ x ∈ run.sightings, x.KeepsToWords

namespace Scanner

variable {s next : Scanner} {start headerFrom after : Nat}

/-! ## §2 One step -/

/-- A step does not go on too far behind a dropped frame. -/
def Step.KeepsToWords (isForeign : Bool) : Step → Prop
  | .stop _ _ => True
  | .resume next _ => isForeign = false → next.cursor < wordLimit

theorem Step.keepsToWords_iff {step : Step} {isForeign : Bool} :
    step.KeepsToWords isForeign ↔
      ∀ x, step.sighting? isForeign start = some x → x.KeepsToWords := by
  cases step with
  | stop answer t =>
    refine iff_of_true trivial fun x hx => ?_
    unfold Step.sighting? at hx
    split at hx
    · cases hx
      exact fun hdropped => nomatch hdropped
    · cases hx
    · rename_i heq
      cases heq
  | resume t later =>
    cases isForeign with
    | false => simp [KeepsToWords, Step.sighting?, Sighting.KeepsToWords, Sighting.isDropped]
    | true => simp [KeepsToWords, Step.sighting?, Sighting.KeepsToWords, Sighting.isDropped]

theorem resyncChecked_eq_ok_iff {reason : DropReason} :
    s.resyncChecked start reason = .ok (s.resync start reason) ↔
      (s.resync start reason).KeepsToWords false := by
  have hcursor : (s.resync start reason).KeepsToWords false ↔ s.resyncAt start < wordLimit := by
    simp only [resync, Step.KeepsToWords, drop, resyncAt, true_implies]
  rw [hcursor]
  constructor
  · intro h
    simp only [resyncChecked, Checked.bind_eq_ok_iff, Checked.word_eq_ok_iff] at h
    obtain ⟨resume, ⟨hlt, -⟩, -⟩ := h
    exact hlt
  · intro hlt
    have hword : Checked.word (start + max s.format.resyncDistance 1) = .ok (s.resyncAt start) :=
      Checked.word_of_lt hlt
    rw [resyncChecked, hword]
    rfl

theorem settleChecked_eq_ok_iff {frame : FrameExtent} :
    s.settleChecked frame headerFrom = .ok (s.settle frame headerFrom) ↔
      (s.settle frame headerFrom).KeepsToWords false := by
  unfold settleChecked settle
  cases s.format.confirm s.settings s.source frame with
  | error e => exact iff_of_true rfl trivial
  | ok settled =>
    cases settled with
    | none => exact resyncChecked_eq_ok_iff
    | some settled =>
      simp only
      rcases s.readRecord settled headerFrom with ⟨_ | _ | record, table⟩
      · exact iff_of_true rfl trivial
      · exact resyncChecked_eq_ok_iff
      · exact iff_of_true rfl trivial

theorem examineChecked_eq_ok_iff :
    s.examineChecked start headerFrom = .ok (s.examine start headerFrom) ↔
      (s.examine start headerFrom).KeepsToWords (s.isForeignAt start) := by
  unfold examineChecked examine isForeignAt
  cases s.format.measure s.source start with
  | error e => exact iff_of_true rfl trivial
  | ok measured =>
    cases measured with
    | foreign resume => exact iff_of_true rfl fun h => nomatch h
    | dropped reason repaired => exact resyncChecked_eq_ok_iff
    | framed frame => exact settleChecked_eq_ok_iff

/-- **A step is taken** unless it drops a frame too far on. -/
theorem stepChecked_eq_ok_iff (hfits : s.settings.SearchFits s.format.magic) :
    s.stepChecked headerFrom = .ok (s.step headerFrom) ↔
      ∀ x, s.sighting? headerFrom = some x → x.KeepsToWords := by
  unfold stepChecked step sighting? magic?
  rw [Source.findChecked_of_fits hfits]
  split
  · exact iff_of_true rfl fun x hx => nomatch hx
  · rename_i hahead
    rcases hfind : s.source.find s.cursor s.format.magic none s.settings.blockSize with
      e | _ | start
    · exact iff_of_true rfl fun x hx => nomatch hx
    · exact iff_of_true rfl fun x hx => nomatch hx
    · have hcomes : s.ComesTo start := ⟨Nat.not_le.mp hahead, hfind⟩
      have hstep := hcomes.step_eq headerFrom
      simp only [Option.bind_some, Checked.ok_bind]
      rw [hstep]
      exact examineChecked_eq_ok_iff.trans Step.keepsToWords_iff

/-! ## §3 From one step to the next record -/

theorem settings_of_step (h : s.step headerFrom = .resume next after) :
    next.settings = s.settings := by
  have hstepped := s.stepped headerFrom
  rw [h] at hstepped
  generalize s.sighting? headerFrom = x at hstepped
  cases hstepped with
  | foreign => rfl
  | @dropped start reason repaired => cases repaired <;> rfl

theorem scanFromChecked_of_stop {answer : Except IoError (Option Record)}
    (h : s.stepChecked headerFrom = .ok (.stop answer next)) :
    s.scanFromChecked headerFrom = .ok (answer, next) := by
  rw [scanFromChecked]
  split <;> rename_i hstep <;> rw [h] at hstep <;> cases hstep
  rfl

theorem scanFromChecked_of_resume (h : s.stepChecked headerFrom = .ok (.resume next after)) :
    s.scanFromChecked headerFrom = next.scanFromChecked after := by
  conv_lhs => rw [scanFromChecked]
  split <;> rename_i hstep <;> rw [h] at hstep <;> cases hstep
  rfl

theorem scanFromChecked_of_error {p : Panic} (h : s.stepChecked headerFrom = .error p) :
    s.scanFromChecked headerFrom = .error p := by
  rw [scanFromChecked]
  split <;> rename_i hstep <;> rw [h] at hstep <;> cases hstep
  rfl

/-- A machine comes to the end of a scan unless a frame on the way is dropped too far on. -/
theorem scanFromChecked_eq_ok_iff {s : Scanner} {headerFrom : Nat}
    (hfits : s.settings.SearchFits s.format.magic) :
    s.scanFromChecked headerFrom = .ok (s.scanFrom headerFrom) ↔
      ∀ x ∈ s.sightings headerFrom, x.KeepsToWords := by
  have hfirst : s.stepChecked headerFrom = .ok (s.step headerFrom) ↔ _ := stepChecked_eq_ok_iff hfits
  -- if the first step is taken, it is the exact one, and the rest of the scan decides
  by_cases hchecked : s.stepChecked headerFrom = .ok (s.step headerFrom)
  · have hx := hfirst.mp hchecked
    cases hstep : s.step headerFrom with
    | stop answer t =>
      rw [hstep] at hchecked
      rw [scanFromChecked_of_stop hchecked, scanFrom_of_stop hstep, sightings_of_stop hstep]
      exact iff_of_true rfl fun x hmem => hx x (Option.mem_toList.mp hmem)
    | resume next after =>
      obtain ⟨hsource, hlt, hin⟩ := step_resume hstep
      have hformat : next.format = s.format := by
        have hleft := s.left_step headerFrom
        rw [hstep] at hleft
        exact hleft.2.1
      have hfits' : next.settings.SearchFits next.format.magic := by
        rwa [settings_of_step hstep, hformat]
      rw [hstep] at hchecked
      rw [scanFromChecked_of_resume hchecked, scanFrom_of_resume hstep,
        sightings_of_resume hstep, scanFromChecked_eq_ok_iff hfits', List.forall_mem_append]
      exact ⟨fun h => ⟨fun x hmem => hx x (Option.mem_toList.mp hmem), h⟩, And.right⟩
  · refine iff_of_false (fun h => hchecked ?_) fun h => hchecked ?_
    · cases hstep : s.stepChecked headerFrom with
      | error p =>
        rw [scanFromChecked_of_error hstep] at h
        cases h
      | ok step => rw [step_of_stepChecked hstep]
    · exact hfirst.mpr fun x hx => h x (mem_sightings hx)
termination_by s.source.size - s.cursor
decreasing_by
  rw [hsource]
  omega

/-! ## §4 Calls -/

/-- Answers a call on a machine. -/
def answerChecked (s : Scanner) : Call → Checked (Answer × Scanner)
  | .hasNext => do
    match ← s.hasNextChecked with
    | (.ok more, s) => return (if more then .more else .nothing, s)
    | (.error e, s) => return (.failed e, s)
  | .next => do
    match ← s.nextChecked with
    | (.ok (some record), s) => return (.record record, s)
    | (.ok none, s) => return (.nothing, s)
    | (.error e, s) => return (.failed e, s)
  | .pull => do
    match ← s.pullChecked with
    | (some (.ok record), s) => return (.record record, s)
    | (some (.error e), s) => return (.failed e, s)
    | (none, s) => return (.nothing, s)

theorem answer_of_answerChecked {c : Call} {answered : Answer × Scanner}
    (h : s.answerChecked c = .ok answered) : s.answer c = answered := by
  cases c with
  | hasNext =>
    simp only [answerChecked, Checked.bind_eq_ok_iff] at h
    obtain ⟨⟨told, t⟩, htold, h⟩ := h
    rw [answer, hasNext_of_hasNextChecked htold]
    cases told <;> exact Except.ok.inj h
  | next =>
    simp only [answerChecked, Checked.bind_eq_ok_iff] at h
    obtain ⟨⟨told, t⟩, htold, h⟩ := h
    rw [answer, next_of_nextChecked htold]
    rcases told with e | _ | record <;> exact Except.ok.inj h
  | pull =>
    simp only [answerChecked, Checked.bind_eq_ok_iff] at h
    obtain ⟨⟨told, t⟩, htold, h⟩ := h
    rw [answer, pull_of_pullChecked htold]
    rcases told with _ | e | record <;> exact Except.ok.inj h

/-- A call is answered where nothing is looked for, because a record was kept. -/
theorem answerChecked_of_peeked {record : Record} (hpeeked : s.peeked = some record) (c : Call) :
    s.answerChecked c = .ok (s.answer c) := by
  cases c <;>
    simp [answerChecked, answer, hasNextChecked, pullChecked, nextChecked, hasNext, pull, next,
      hpeeked] <;> rfl

/-- It is answered exactly if the scan for it comes to an end. -/
theorem answerChecked_eq_ok_iff_scan (hpeeked : s.peeked = none) (c : Call) :
    s.answerChecked c = .ok (s.answer c) ↔
      s.scanFromChecked s.cursor = .ok (s.scanFrom s.cursor) := by
  cases hscan : s.scanFromChecked s.cursor with
  | error p =>
    refine iff_of_false ?_ nofun
    cases c <;>
      simp [answerChecked, hasNextChecked, pullChecked, nextChecked, scanChecked, hpeeked, hscan]
  | ok found =>
    have hexact := scanFrom_of_scanFromChecked hscan
    refine iff_of_true ?_ (congrArg Except.ok hexact.symm)
    rcases found with ⟨_ | _ | record, t⟩ <;> cases c <;>
      simp [answerChecked, hasNextChecked, pullChecked, nextChecked, scanChecked, answer, hasNext,
        pull, next, scan, hpeeked, hscan, hexact] <;>
      rfl

/-- A call is answered exactly if no frame on the way is dropped too far on. -/
theorem answerChecked_eq_ok_iff (hfits : s.settings.SearchFits s.format.magic) (c : Call) :
    s.answerChecked c = .ok (s.answer c) ↔ ∀ x ∈ s.sought, x.KeepsToWords := by
  unfold sought
  cases hpeeked : s.peeked with
  | some record => exact iff_of_true (answerChecked_of_peeked hpeeked c) (by simp)
  | none => exact (answerChecked_eq_ok_iff_scan hpeeked c).trans (scanFromChecked_eq_ok_iff hfits)

end Scanner

/-! ## §5 Runs -/

namespace Run

def callChecked (run : Run) (c : Scanner.Call) : Checked Run := do
  let (told, scanner) ← run.scanner.answerChecked c
  return ⟨scanner, run.sightings ++ run.scanner.sought, run.answers ++ [told]⟩

theorem call_of_callChecked {run next : Run} {c : Scanner.Call}
    (h : run.callChecked c = .ok next) : run.call c = next := by
  simp only [callChecked, Checked.bind_eq_ok_iff] at h
  obtain ⟨⟨told, t⟩, hanswer, h⟩ := h
  rw [call, Scanner.answer_of_answerChecked hanswer]
  exact Except.ok.inj h

theorem callChecked_eq_ok_iff (run : Run) (c : Scanner.Call) :
    run.callChecked c = .ok (run.call c) ↔
      run.scanner.answerChecked c = .ok (run.scanner.answer c) := by
  constructor
  · intro h
    simp only [callChecked, Checked.bind_eq_ok_iff] at h
    obtain ⟨answered, hanswer, -⟩ := h
    rw [hanswer, Scanner.answer_of_answerChecked hanswer]
  · intro h
    rw [callChecked, h]
    rfl

end Run

namespace Scanner

def runChecked (s : Scanner) (calls : List Call) : Checked Run :=
  calls.foldlM Run.callChecked ⟨s, [], []⟩

theorem runChecked_concat (s : Scanner) (calls : List Call) (c : Call) :
    s.runChecked (calls ++ [c]) = s.runChecked calls >>= (·.callChecked c) := by
  simp [runChecked, List.foldlM_append]

/-- **A machine that answers a run** answers as the run is. -/
theorem run_of_runChecked {s : Scanner} {calls : List Call} {run : Run}
    (h : s.runChecked calls = .ok run) : s.run calls = run := by
  induction calls using List.reverseRecOn generalizing run with
  | nil => exact Except.ok.inj h
  | append_singleton calls c ih =>
    rw [runChecked_concat, Checked.bind_eq_ok_iff] at h
    obtain ⟨before, hbefore, hcall⟩ := h
    rw [run_concat, ih hbefore, Run.call_of_callChecked hcall]

/-- Steps leave the settings alone. -/
theorem settings_scanFrom (s : Scanner) (headerFrom : Nat) :
    (s.scanFrom headerFrom).2.settings = s.settings := by
  refine scanFrom_induct (fun _ t _ => t.settings = s.settings)
    (fun _ _ t => t.settings = s.settings) ?go ?stop [] rfl
  case go => exact fun h hstep _ => (settings_of_step hstep).trans h
  case stop =>
    rintro past t headerFrom answer next x h - hstepped
    cases hstepped with
    | ended => exact h
    | @failed e repaired => cases repaired <;> exact h
    | @record start record repaired => cases repaired <;> exact h

/-- Calls leave the format and the settings alone. -/
theorem left_run (s : Scanner) (calls : List Call) :
    (s.run calls).scanner.format = s.format ∧ (s.run calls).scanner.settings = s.settings := by
  refine run_induct (fun _ run => run.scanner.format = s.format ∧
    run.scanner.settings = s.settings) ⟨rfl, rfl⟩ ?_ calls
  rintro - run c ⟨hformat, hsettings⟩
  refine answer_keeps (P := fun _ t => t.format = s.format ∧ t.settings = s.settings) []
    ⟨hformat, hsettings⟩ ⟨?_, ?_⟩ (fun _ h => h) (fun h => h) c
  · exact (run.scanner.left_scanFrom _).2.1.trans hformat
  · exact (run.scanner.settings_scanFrom _).trans hsettings

/-- **It answers it** exactly if no frame is dropped too far on. -/
theorem runChecked_eq_ok_iff {s : Scanner} (hfits : s.settings.SearchFits s.format.magic)
    (calls : List Call) :
    s.runChecked calls = .ok (s.run calls) ↔ (s.run calls).KeepsToWords := by
  induction calls using List.reverseRecOn with
  | nil => exact iff_of_true rfl (by simp [Run.KeepsToWords, run])
  | append_singleton calls c ih =>
    obtain ⟨hformat, hsettings⟩ := s.left_run calls
    have hcall := (Run.callChecked_eq_ok_iff (s.run calls) c).trans
      (answerChecked_eq_ok_iff (by rwa [hformat, hsettings]) c)
    have hsightings : (s.run (calls ++ [c])).KeepsToWords ↔
        (s.run calls).KeepsToWords ∧ ∀ x ∈ (s.run calls).scanner.sought, x.KeepsToWords := by
      rw [run_concat]
      exact List.forall_mem_append
    rw [hsightings, ← ih, ← hcall, runChecked_concat, run_concat]
    -- the last call answers in words iff what it passed keeps to them
    constructor
    · intro h
      obtain ⟨before, hbefore, hlast⟩ := Checked.bind_eq_ok_iff.mp h
      obtain rfl := run_of_runChecked hbefore
      exact ⟨hbefore, hlast⟩
    · rintro ⟨hbefore, hlast⟩
      rw [hbefore]
      exact hlast

/-- A machine has room for the buffer of the searches, and for all that these calls come to. -/
structure FitsWords (s : Scanner) (calls : List Call) : Prop where
  search : s.settings.SearchFits s.format.magic
  drops : (s.run calls).KeepsToWords

theorem FitsWords.runChecked_eq {s : Scanner} {calls : List Call} (h : s.FitsWords calls) :
    s.runChecked calls = .ok (s.run calls) :=
  (runChecked_eq_ok_iff h.search calls).mpr h.drops

theorem sightings_run_cons (s : Scanner) (c : Call) (calls : List Call) :
    (s.run (c :: calls)).sightings = s.sought ++ ((s.answer c).2.run calls).sightings := by
  induction calls using List.reverseRecOn with
  | nil => simp [run, Run.call]
  | append_singleton calls last ih =>
    rw [← List.cons_append, run_concat, run_concat]
    simp only [Run.call, s.scanner_run_cons, ih, List.append_assoc]

/-- Room for a call and all after it is room for the call, and then for those after it. -/
theorem FitsWords.of_cons {s : Scanner} {c : Call} {calls : List Call}
    (h : s.FitsWords (c :: calls)) :
    s.answerChecked c = .ok (s.answer c) ∧ (s.answer c).2.FitsWords calls := by
  obtain ⟨hformat, hsettings⟩ := s.left_run [c]
  have hdrops := h.drops
  rw [Run.KeepsToWords, sightings_run_cons, List.forall_mem_append] at hdrops
  refine ⟨(answerChecked_eq_ok_iff h.search c).mpr hdrops.1, ?_, hdrops.2⟩
  show (s.run [c]).scanner.settings.SearchFits (s.run [c]).scanner.format.magic
  rw [hformat, hsettings]
  exact h.search

/-- What is known of a run is known of what a machine comes to. -/
theorem gives_runChecked {s : Scanner} {calls : List Call} {P : Run → Prop}
    (h : P (s.run calls)) : (s.runChecked calls).Gives (s.FitsWords calls) P where
  sound _ hrun := run_of_runChecked hrun ▸ h
  total hfits := ⟨_, hfits.runChecked_eq⟩

end Scanner

/-- A magic that a step comes to starts inside the source, also if it has no bytes. -/
theorem Scanner.ComesTo.start_lt_size {s : Scanner} {start : Nat} (h : s.ComesTo start) :
    start < s.source.size := by
  obtain ⟨-, hat, -⟩ := Source.facts_of_find h.found
  by_cases hempty : s.format.magic = []
  · have hfound := h.found
    rw [Source.find, hempty] at hfound
    cases Except.ok.inj hfound
    exact h.inside
  · have hlong := hat.length_le hempty
    rw [Source.length_bytes] at hlong
    have := List.length_pos_iff.mpr hempty
    omega

/-- The scan is one of this source, and came to magics inside of it only. -/
def Scanner.StaysInside (source : Source) (past : List Sighting) (s : Scanner) : Prop :=
  s.source = source ∧ ∀ x ∈ past, x.start < source.size

theorem Scanner.StaysInside.concat {source : Source} {past : List Sighting} {s next : Scanner}
    {x : Sighting} (h : s.StaysInside source past) (hcomes : s.ComesTo x.start)
    (hnext : next.source = s.source) : next.StaysInside source (past ++ [x]) := by
  refine ⟨hnext.trans h.1, fun y hy => ?_⟩
  rcases List.mem_append.mp hy with hy | hy
  · exact h.2 y hy
  · rw [List.mem_singleton.mp hy, ← h.1]
    exact hcomes.start_lt_size

theorem Scanner.StaysInside.scanFrom {source : Source} {past : List Sighting} {s : Scanner}
    (h : s.StaysInside source past) (headerFrom : Nat) :
    (s.scanFrom headerFrom).2.StaysInside source (past ++ s.sightings headerFrom) := by
  refine scanFrom_induct (fun past s _ => s.StaysInside source past)
    (fun past _ s => s.StaysInside source past) ?go ?stop past h
  case go =>
    intro past s headerFrom next after x h hstep hstepped
    have hsource := (step_resume hstep).1
    cases hstepped with
    | foreign hcomes => exact h.concat hcomes hsource
    | dropped hcomes => exact h.concat hcomes hsource
  case stop =>
    intro past s headerFrom answer t x h hstep hstepped
    have hsource : t.source = s.source := by
      have hleft := s.left_step headerFrom
      rw [hstep] at hleft
      exact hleft.1
    cases hstepped with
    | ended => exact ⟨hsource.trans h.1, by simpa using h.2⟩
    | failed => exact ⟨hsource.trans h.1, by simpa using h.2⟩
    | record hcomes => exact h.concat hcomes hsource

/-- Every magic that a run comes to starts inside the source. -/
theorem Run.staysInside (source : Source) (format : WireFormat) (settings : ScanSettings)
    (calls : List Scanner.Call) :
    let run := (Scanner.start source format settings).run calls
    run.scanner.StaysInside source run.sightings :=
  Scanner.run_induct (fun _ run => run.scanner.StaysInside source run.sightings)
    ⟨rfl, by simp⟩
    (fun _ run c h => Scanner.answer_keeps run.sightings h (h.scanFrom run.scanner.cursor)
      (fun _ h => h) (fun h => h) c) calls

/-- No frame is dropped too far on where the distance that is skipped still fits behind the
source. -/
theorem Run.keepsToWords_of_room {source : Source} {format : WireFormat} (settings : ScanSettings)
    (hroom : source.size + max format.resyncDistance 1 ≤ wordLimit) (calls : List Scanner.Call) :
    ((Scanner.start source format settings).run calls).KeepsToWords := by
  intro x hx hdropped
  obtain ⟨before, hplaced⟩ := (traced source format settings calls).placed.exists_of_mem hx
  have hinside := (staysInside source format settings calls).2 x hx
  have hresume := hplaced.resume
  obtain ⟨start, outcome, resume⟩ := x
  cases outcome with
  | foreign => cases hdropped
  | record => cases hdropped
  | dropped =>
    simp only [WireFormat.ResumesAt] at hresume hinside ⊢
    omega

theorem Run.fitsWords_of_room {source : Source} {format : WireFormat} {settings : ScanSettings}
    (hsearch : settings.SearchFits format.magic)
    (hroom : source.size + max format.resyncDistance 1 ≤ wordLimit) (calls : List Scanner.Call) :
    (Scanner.start source format settings).FitsWords calls :=
  ⟨hsearch, keepsToWords_of_room settings hroom calls⟩

/-! ## §6 Giving up -/

theorem Scanner.runChecked_cons_of_error {s : Scanner} {c : Scanner.Call} {p : Panic}
    (h : s.answerChecked c = .error p) (calls : List Scanner.Call) :
    s.runChecked (c :: calls) = .error p := by
  simp only [runChecked, List.foldlM_cons, Run.callChecked, h, Checked.error_bind]

/-- A call is given up on if a frame on the way is dropped too far on. -/
theorem Scanner.error_of_dropped {s : Scanner} (hfits : s.settings.SearchFits s.format.magic)
    {x : Sighting} (hx : x ∈ s.sought) (hdropped : x.isDropped) (hfar : wordLimit ≤ x.resume)
    (c : Scanner.Call) : ∃ p, s.answerChecked c = .error p := by
  cases h : s.answerChecked c with
  | error p => exact ⟨p, rfl⟩
  | ok answered =>
    rw [← answer_of_answerChecked h] at h
    have hwords := (answerChecked_eq_ok_iff hfits c).mp h x hx hdropped
    omega

/-- A call is given up on if it needs a search that the machine has no room for. -/
theorem Scanner.error_of_search {s : Scanner} (hpeeked : s.peeked = none)
    (hahead : s.cursor < s.source.size) (hsearch : ¬ s.settings.SearchFits s.format.magic)
    (c : Scanner.Call) : ∃ p, s.answerChecked c = .error p := by
  cases h : s.answerChecked c with
  | error p => exact ⟨p, rfl⟩
  | ok answered =>
    rw [← answer_of_answerChecked h] at h
    have hscan := (answerChecked_eq_ok_iff_scan hpeeked c).mp h
    cases hstep : s.stepChecked s.cursor with
    | error p =>
      rw [scanFromChecked_of_error hstep] at hscan
      cases hscan
    | ok step =>
      rw [stepChecked, if_neg (by omega), Checked.bind_eq_ok_iff] at hstep
      obtain ⟨found, hfound, -⟩ := hstep
      exact absurd (Source.fits_of_findChecked hfound) hsearch

namespace Run

/-- Frames that end in a `!`, behind a bad one of which a search resumes as far on as can be said. -/
def farFormat : TaggedFormat where
  magic := [0x41]
  lengthWidth := 1
  trailer := [0x21]
  resyncDistance := 2 ^ 64 - 1

/-- A bad frame, behind one other byte. -/
def farSource : Source := .ofBytes [0x78, 0x41, 0, 0x3f]

/-- In exact numbers, the bad frame is dropped. -/
theorem sought_far : (Scanner.start farSource farFormat.format {}).sought =
    [⟨1, .dropped, 2 ^ 64⟩] := by
  decide +kernel

/-- On a machine, no call is answered. -/
theorem error_far (c : Scanner.Call) (calls : List Scanner.Call) :
    ∃ p, (Scanner.start farSource farFormat.format {}).runChecked (c :: calls) = .error p := by
  obtain ⟨p, hp⟩ := Scanner.error_of_dropped (s := .start farSource farFormat.format {})
    (fun _ => by decide) (sought_far ▸ List.mem_singleton_self _) rfl le_rfl c
  exact ⟨p, Scanner.runChecked_cons_of_error hp calls⟩

end Run

end Granule
