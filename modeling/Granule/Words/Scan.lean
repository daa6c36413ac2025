import Granule.Scan.FirstLook
import Granule.Scan.Scanner
import Granule.Words.Reckoning

/-!
# Scans on a Machine

A search needs a buffer, which takes a block of bytes and those that are kept from the block
before. A scanner that drops a frame adds to the place of its magic the distance after which the
search resumes. Blocks and distances are chosen freely, so a machine can give up at either.

**Main statements**:
- `Source.findChecked_of_fits` : a machine searches where it has room for the buffer
- `Scanner.step_of_stepChecked` : it takes no other step
- `Scanner.scan_of_scanChecked` : and comes to no other record
-/

namespace Granule

/-! ## §1 Searching -/

def Source.searchBuffer (pattern : Bytes) (block : Nat) : Checked Unit := do
  let size ← .word (max block pattern.length + (pattern.length - 1))
  .buffer size

/-- The first occurrence of a pattern at or after `pos`, as in `Source.find`. -/
def Source.findChecked (s : Source) (pos : Nat) (pattern : Bytes) (window : Option Nat)
    (block : Nat) : Checked (Except IoError (Option Nat)) :=
  if pattern.length = 0 then .ok (.ok (some pos))
  else do
    searchBuffer pattern block
    return s.find pos pattern window block

theorem Source.find_of_findChecked {s : Source} {pos : Nat} {pattern : Bytes}
    {window : Option Nat} {block : Nat} {found : Except IoError (Option Nat)}
    (h : s.findChecked pos pattern window block = .ok found) :
    s.find pos pattern window block = found := by
  unfold findChecked at h
  split at h
  · rename_i hempty
    simp only [find, if_pos hempty]
    exact Except.ok.inj h
  · simp only [Checked.bind_eq_ok_iff] at h
    obtain ⟨-, -, h⟩ := h
    exact Except.ok.inj h

/-- The buffer of a search for a pattern is not too large for a machine. -/
def Bytes.SearchFits (pattern : Bytes) (block : Nat) : Prop :=
  pattern ≠ [] → max block pattern.length + (pattern.length - 1) < bufferLimit

/-- A machine searches where it has room for the buffer. -/
theorem Source.findChecked_of_fits {pattern : Bytes} {block : Nat} (h : pattern.SearchFits block)
    (s : Source) (pos : Nat) (window : Option Nat) :
    s.findChecked pos pattern window block = .ok (s.find pos pattern window block) := by
  unfold findChecked
  split
  · rename_i hempty
    simp only [find, if_pos hempty]
  · rename_i hsome
    have hbuffer := h fun hempty => hsome (congrArg List.length hempty)
    have hword : max block pattern.length + (pattern.length - 1) < wordLimit :=
      Nat.lt_trans hbuffer (by decide)
    simp only [searchBuffer, Checked.word_of_lt hword, Checked.ok_bind, Checked.buffer_of_lt hbuffer]
    rfl

/-- A machine that has searched had room for the buffer. -/
theorem Source.fits_of_findChecked {s : Source} {pos : Nat} {pattern : Bytes}
    {window : Option Nat} {block : Nat} {found : Except IoError (Option Nat)}
    (h : s.findChecked pos pattern window block = .ok found) : pattern.SearchFits block := by
  intro hsome
  unfold findChecked searchBuffer at h
  rw [if_neg fun hempty => hsome (List.length_eq_zero_iff.mp hempty)] at h
  simp only [Checked.bind_eq_ok_iff, Checked.word_eq_ok_iff] at h
  obtain ⟨_, ⟨size, ⟨-, rfl⟩, hbuffer⟩, -⟩ := h
  exact Checked.buffer_eq_ok_iff.mp hbuffer

/-- The buffer of every search of a scan by these settings is not too large for a machine. -/
def ScanSettings.SearchFits (settings : ScanSettings) (magic : Bytes) : Prop :=
  magic.SearchFits settings.blockSize

namespace WireFormat

def lookChecked (f : WireFormat) (source : Source) (settings : ScanSettings) :
    Checked (Except IoError Bool) := do
  match ← source.findChecked 0 f.magic (some settings.lookWindow) settings.blockSize with
  | .error e => return .error e
  | .ok none => return .ok false
  | .ok (some start) => return f.looksLikeFrame source settings start

/-- The source looks like one of this format; one that cannot be read does not. -/
def looksLikeChecked (f : WireFormat) (source : Source) (settings : ScanSettings) :
    Checked Bool := do
  match ← f.lookChecked source settings with
  | .ok answer => return answer
  | .error _ => return false

end WireFormat

/-! ## §2 One step -/

namespace Scanner

/-- Goes on after a dropped frame, of which no byte counts as header. -/
def resyncChecked (s : Scanner) (start : Nat) (reason : DropReason) : Checked Step := do
  let resume ← .word (start + max s.format.resyncDistance 1)
  return .resume { s with cursor := resume, tally := s.tally.add reason } resume

/-- Settles the end of a measured frame and reads it. -/
def settleChecked (s : Scanner) (frame : FrameExtent) (headerFrom : Nat) : Checked Step :=
  match s.format.confirm s.settings s.source frame with
  | .error e => .ok (.stop (.error e) s)
  | .ok none => s.resyncChecked frame.start .noTrailer
  | .ok (some frame) =>
    match s.readRecord frame headerFrom with
    | (.error e, table) => .ok (.stop (.error e) { s with table })
    | (.ok none, _) => s.resyncChecked frame.start .undivided
    | (.ok (some record), table) =>
      .ok (.stop (.ok (some record)) ({ s with table }.passRecord record))

/-- Examines the magic at `start`. -/
def examineChecked (s : Scanner) (start headerFrom : Nat) : Checked Step :=
  match s.format.measure s.source start with
  | .error e => .ok (.stop (.error e) s)
  | .ok (.foreign resume) => .ok (.resume (s.passForeign start resume) headerFrom)
  | .ok (.dropped reason repaired) => (s.countRepair repaired).resyncChecked start reason
  | .ok (.framed frame) => (s.countRepair frame.repaired).settleChecked frame headerFrom

/-- Finds the next magic and examines it. -/
def stepChecked (s : Scanner) (headerFrom : Nat) : Checked Step :=
  if s.source.size ≤ s.cursor then .ok (.stop (.ok none) s.finish)
  else do
    match ← s.source.findChecked s.cursor s.format.magic none s.settings.blockSize with
    | .error e => return .stop (.error e) s
    | .ok none => return .stop (.ok none) s.finish
    | .ok (some start) => s.examineChecked start headerFrom

theorem resync_of_resyncChecked {s : Scanner} {start : Nat} {reason : DropReason} {step : Step}
    (h : s.resyncChecked start reason = .ok step) : s.resync start reason = step := by
  simp only [resyncChecked, Checked.bind_eq_ok_iff, Checked.word_eq_ok_iff] at h
  obtain ⟨resume, ⟨-, rfl⟩, h⟩ := h
  exact Except.ok.inj h

theorem settle_of_settleChecked {s : Scanner} {frame : FrameExtent} {headerFrom : Nat}
    {step : Step} (h : s.settleChecked frame headerFrom = .ok step) :
    s.settle frame headerFrom = step := by
  unfold settleChecked at h
  unfold settle
  cases hconfirm : s.format.confirm s.settings s.source frame with
  | error e =>
    rw [hconfirm] at h
    exact Except.ok.inj h
  | ok settled =>
    rw [hconfirm] at h
    cases settled with
    | none => exact resync_of_resyncChecked h
    | some settled =>
      simp only at h ⊢
      rcases hread : s.readRecord settled headerFrom with ⟨_ | _ | record, table⟩ <;>
        rw [hread] at h
      · exact Except.ok.inj h
      · exact resync_of_resyncChecked h
      · exact Except.ok.inj h

theorem examine_of_examineChecked {s : Scanner} {start headerFrom : Nat} {step : Step}
    (h : s.examineChecked start headerFrom = .ok step) : s.examine start headerFrom = step := by
  unfold examineChecked at h
  unfold examine
  cases hmeasure : s.format.measure s.source start with
  | error e =>
    rw [hmeasure] at h
    exact Except.ok.inj h
  | ok measured =>
    rw [hmeasure] at h
    cases measured with
    | foreign resume => exact Except.ok.inj h
    | dropped reason repaired => exact resync_of_resyncChecked h
    | framed frame => exact settle_of_settleChecked h

/-- A machine takes no other step. -/
theorem step_of_stepChecked {s : Scanner} {headerFrom : Nat} {step : Step}
    (h : s.stepChecked headerFrom = .ok step) : s.step headerFrom = step := by
  unfold stepChecked at h
  unfold Scanner.step
  split at h
  · rename_i hend
    rw [if_pos hend]
    exact Except.ok.inj h
  · rename_i hahead
    rw [if_neg hahead]
    simp only [Checked.bind_eq_ok_iff] at h
    obtain ⟨found, hfound, h⟩ := h
    rw [Source.find_of_findChecked hfound]
    rcases found with e | _ | start
    · exact Except.ok.inj h
    · exact Except.ok.inj h
    · exact examine_of_examineChecked h

/-! ## §3 Pulls -/

/-- Steps until a record, the end of the source, or a failure is reached. -/
def scanFromChecked (s : Scanner) (headerFrom : Nat) :
    Checked (Except IoError (Option Record) × Scanner) :=
  match h : s.stepChecked headerFrom with
  | .error p => .error p
  | .ok (.stop answer s) => .ok (answer, s)
  | .ok (.resume next headerFrom) =>
    have := step_resume (step_of_stepChecked h)
    scanFromChecked next headerFrom
termination_by s.source.size - s.cursor
decreasing_by
  rw [this.1]
  omega

def scanChecked (s : Scanner) : Checked (Except ScanFailure (Option Record) × Scanner) := do
  let (answer, s) ← s.scanFromChecked s.cursor
  return (answer.mapError .io, s)

/-- There is another record; it is kept for the next pull. -/
def hasNextChecked (s : Scanner) : Checked (Except ScanFailure Bool × Scanner) :=
  match s.peeked with
  | some _ => .ok (.ok true, s)
  | none => do
    match ← s.scanChecked with
    | (.error e, s) => return (.error e, s)
    | (.ok found, s) => return (.ok found.isSome, { s with peeked := found })

/-- Pulls the next record, if there is one. -/
def nextChecked (s : Scanner) : Checked (Except ScanFailure (Option Record) × Scanner) :=
  match s.peeked with
  | some record => .ok (.ok (some record), { s with peeked := none })
  | none => s.scanChecked

/-- Pulls the next record as one of a sequence that ends after a failure. -/
def pullChecked (s : Scanner) : Checked (Option (Except ScanFailure Record) × Scanner) := do
  match ← s.nextChecked with
  | (.ok (some record), s) => return (some (.ok record), s)
  | (.ok none, s) => return (none, s)
  | (.error e, s) => return (some (.error e), s.finish)

/-- Pulls at most `count` times, or until the sequence ends. -/
def pullUpToChecked : (count : Nat) → Scanner → Array (Except ScanFailure Record) →
    Checked (List (Except ScanFailure Record) × Scanner)
  | 0, s, taken => .ok (taken.toList, s)
  | n + 1, s, taken => do
    match ← s.pullChecked with
    | (none, s) => return (taken.toList, s)
    | (some answer, s) => pullUpToChecked n s (taken.push answer)

/-- Pulls until the sequence ends, as in `Scanner.drain`. -/
def drainChecked (s : Scanner) : Checked (List (Except ScanFailure Record) × Scanner) :=
  s.pullUpToChecked (s.source.size + 3) #[]

theorem scanFrom_of_scanFromChecked {s : Scanner} {headerFrom : Nat}
    {found : Except IoError (Option Record) × Scanner}
    (h : s.scanFromChecked headerFrom = .ok found) : s.scanFrom headerFrom = found := by
  fun_induction scanFromChecked s headerFrom with
  | case1 => cases h
  | case2 s headerFrom answer after hstep =>
    have hexact := step_of_stepChecked hstep
    rw [scanFrom]
    split <;> simp_all
  | case3 s headerFrom next after hstep _ ih =>
    have hexact := step_of_stepChecked hstep
    rw [scanFrom, ← ih h]
    split <;> simp_all

/-- A machine comes to no other record. -/
theorem scan_of_scanChecked {s : Scanner} {found : Except ScanFailure (Option Record) × Scanner}
    (h : s.scanChecked = .ok found) : s.scan = found := by
  simp only [scanChecked, Checked.bind_eq_ok_iff] at h
  obtain ⟨⟨answer, after⟩, hscan, h⟩ := h
  unfold scan
  rw [scanFrom_of_scanFromChecked hscan]
  exact Except.ok.inj h

theorem hasNext_of_hasNextChecked {s : Scanner} {answer : Except ScanFailure Bool × Scanner}
    (h : s.hasNextChecked = .ok answer) : s.hasNext = answer := by
  unfold hasNextChecked at h
  unfold hasNext
  cases hpeeked : s.peeked with
  | some record =>
    rw [hpeeked] at h
    exact Except.ok.inj h
  | none =>
    simp only [hpeeked, Checked.bind_eq_ok_iff] at h
    obtain ⟨⟨found, after⟩, hscan, h⟩ := h
    rw [scan_of_scanChecked hscan]
    cases found <;> exact Except.ok.inj h

theorem next_of_nextChecked {s : Scanner} {found : Except ScanFailure (Option Record) × Scanner}
    (h : s.nextChecked = .ok found) : s.next = found := by
  unfold nextChecked at h
  unfold next
  cases hpeeked : s.peeked with
  | some record =>
    rw [hpeeked] at h
    exact Except.ok.inj h
  | none =>
    rw [hpeeked] at h
    exact scan_of_scanChecked h

theorem pull_of_pullChecked {s : Scanner}
    {pulled : Option (Except ScanFailure Record) × Scanner} (h : s.pullChecked = .ok pulled) :
    s.pull = pulled := by
  simp only [pullChecked, Checked.bind_eq_ok_iff] at h
  obtain ⟨⟨found, after⟩, hnext, h⟩ := h
  unfold pull
  rw [next_of_nextChecked hnext]
  rcases found with e | _ | record <;> exact Except.ok.inj h

end Scanner

/-! ## §4 Counters -/

def ScanTally.droppedChecked (s : ScanTally) : Checked Nat :=
  (do
    let early ← Reckoning.plus s.misframed s.cutOff
    Reckoning.plus early s.undivided).run

/-- Counters that were read from a text may be too large to be added. -/
def ScanTally.summaryChecked (s : ScanTally) : Checked String := do
  let _ ← s.droppedChecked
  return s.summary

end Granule
