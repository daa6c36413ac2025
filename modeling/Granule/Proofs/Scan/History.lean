import Granule.Proofs.Source.Reads
import Granule.Scan.Scanner

/-!
# What a Scan Came To

A scan is watched from outside: every magic that it comes to is noted down as a
`Sighting`, with what became of it and where the scan stood afterwards.

`Stepped` says once what a step can do, and `Called` what a call can do. Whatever a
scan keeps is proved of a step by its five cases, and of all steps up to the next
record by `Scanner.scanFrom_induct`.

**Main statements**:
- `Scanner.stepped` : every step is one of the five kinds
- `Scanner.left_step` : what no step changes
- `Scanner.scanFrom_induct` : what every step keeps leads from record to record
- `Scanner.called` : every call is one of the seven kinds
- `Scanner.answer_keeps` : what every scan keeps, every call keeps
-/

namespace Granule

/-! ## §1 Sightings -/

/-- What became of a magic. -/
inductive Outcome where
  /-- It belongs to a frame of another format. -/
  | foreign
  /-- Its frame was dropped. -/
  | dropped
  | record (r : Record)
deriving DecidableEq, Repr

/-- A magic that a scan came to. -/
structure Sighting where
  start : Nat
  outcome : Outcome
  /-- Where the scan stood after it. -/
  resume : Nat
deriving DecidableEq, Repr

namespace Sighting

def record? (x : Sighting) : Option Record :=
  match x.outcome with
  | .record r => some r
  | _ => none

theorem outcome_of_record? {x : Sighting} {r : Record} (h : x.record? = some r) :
    x.outcome = .record r := by
  unfold record? at h
  split at h
  · rename_i hrecord
    cases h
    exact hrecord
  · cases h

def isForeign (x : Sighting) : Bool := x.outcome = .foreign

def isDropped (x : Sighting) : Bool := x.outcome = .dropped

end Sighting

/-- What a step makes of the magic at `start` that it came to; nothing where reading failed. -/
def Scanner.Step.sighting? (isForeign : Bool) (start : Nat) : Scanner.Step → Option Sighting
  | .stop (.ok (some record)) after => some ⟨start, .record record, after.cursor⟩
  | .stop _ _ => none
  | .resume after _ => some ⟨start, if isForeign then .foreign else .dropped, after.cursor⟩

namespace Scanner

variable {s next : Scanner} {headerFrom start : Nat}

/-- The magic that the next step comes to. -/
def magic? (s : Scanner) : Option Nat :=
  if s.source.size ≤ s.cursor then none
  else
    match s.source.find s.cursor s.format.magic none s.settings.blockSize with
    | .ok found => found
    | .error _ => none

/-- The magic at an offset is taken for one of another format. -/
def isForeignAt (s : Scanner) (start : Nat) : Bool :=
  match s.format.measure s.source start with
  | .ok (.foreign _) => true
  | _ => false

/-- The magic that the next step comes to, and what it makes of it. -/
def sighting? (s : Scanner) (headerFrom : Nat) : Option Sighting :=
  s.magic?.bind fun start => (s.step headerFrom).sighting? (s.isForeignAt start) start

/-- The magics that a scan comes to until it stops. -/
def sightings (s : Scanner) (headerFrom : Nat) : List Sighting :=
  match h : s.step headerFrom with
  | .stop _ _ => (s.sighting? headerFrom).toList
  | .resume next after =>
    have := step_resume h
    (s.sighting? headerFrom).toList ++ sightings next after
termination_by s.source.size - s.cursor
decreasing_by
  rw [this.1]
  omega

/-! ## §2 What a step can do -/

/-- The next step comes to the magic at `start`. -/
structure ComesTo (s : Scanner) (start : Nat) : Prop where
  inside : s.cursor < s.source.size
  found : s.source.find s.cursor s.format.magic none s.settings.blockSize = .ok (some start)

/-- A record is read at `start`, and the table goes on to `table`. -/
structure ReadsAt (s : Scanner) (headerFrom start : Nat) (record : Record) (table : InternTable) :
    Prop where
  measured : ∃ frame settled, s.format.measure s.source start = .ok (.framed frame) ∧
    s.format.confirm s.settings s.source frame = .ok (some settled) ∧
    s.readRecord settled headerFrom = (.ok (some record), table)

/-- The table may go on to `table` in a step: it is left alone, or a frame is taken up. -/
def Taken (s : Scanner) (headerFrom : Nat) (table : InternTable) : Prop :=
  table = s.table ∨ ∃ frame : FrameExtent, frame.start ≤ frame.stop ∧
    frame.stop ≤ s.source.size ∧ (s.readRecord frame headerFrom).2 = table

/-- Where the search goes on after the frame at `start` was dropped. -/
def resyncAt (s : Scanner) (start : Nat) : Nat := start + max s.format.resyncDistance 1

/-- What a step can do, and what is noted of it. -/
inductive Stepped (s : Scanner) (headerFrom : Nat) : Option Sighting → Step → Prop
  /-- There is no magic any more. -/
  | ended (h : s.source.size ≤ s.cursor ∨
        s.source.find s.cursor s.format.magic none s.settings.blockSize = .ok none) :
      Stepped s headerFrom none (.stop (.ok none) s.finish)
  /-- Reading failed, perhaps when a repair had been counted and parts been taken up. -/
  | failed {e : IoError} {repaired : Bool} {table : InternTable}
      (h : s.step headerFrom = .stop (.error e) { s.countRepair repaired with table })
      (htable : s.Taken headerFrom table) :
      Stepped s headerFrom none (.stop (.error e) { s.countRepair repaired with table })
  | foreign {start resume : Nat} (h : s.ComesTo start)
      (hmeasure : s.format.measure s.source start = .ok (.foreign resume)) :
      Stepped s headerFrom
        (some ⟨start, .foreign, max resume (start + max s.format.magic.length 1)⟩)
        (.resume (s.passForeign start resume) headerFrom)
  | dropped {start : Nat} {reason : DropReason} {repaired : Bool} (h : s.ComesTo start) :
      Stepped s headerFrom (some ⟨start, .dropped, s.resyncAt start⟩)
        (.resume ((s.countRepair repaired).drop start reason) (s.resyncAt start))
  | record {start : Nat} {record : Record} {repaired : Bool} {table : InternTable}
      (h : s.ComesTo start) (hrecord : s.ReadsAt headerFrom start record table) :
      Stepped s headerFrom (some ⟨start, .record record, record.stop⟩)
        (.stop (.ok (some record)) ({ s.countRepair repaired with table }.passRecord record))

theorem ComesTo.magic?_eq (h : s.ComesTo start) : s.magic? = some start := by
  rw [magic?, if_neg (Nat.not_le.mpr h.inside), h.found]

theorem ComesTo.step_eq (h : s.ComesTo start) (headerFrom : Nat) :
    s.step headerFrom = s.examine start headerFrom := by
  unfold step
  rw [if_neg (Nat.not_le.mpr h.inside), h.found]

theorem ComesTo.countRepair (h : s.ComesTo start) (repaired : Bool) :
    (s.countRepair repaired).ComesTo start := by
  cases repaired <;> exact ⟨h.inside, h.found⟩

theorem resync_countRepair (s : Scanner) (repaired : Bool) (start : Nat) (reason : DropReason) :
    (s.countRepair repaired).resync start reason =
      .resume ((s.countRepair repaired).drop start reason) (s.resyncAt start) := by
  cases repaired <;> rfl

/-- Counting an answer of a repair changes nothing that settling a frame depends on. -/
theorem settle_countRepair (s : Scanner) (repaired : Bool) (frame : FrameExtent) :
    (s.countRepair repaired).settle frame headerFrom =
      match s.format.confirm s.settings s.source frame with
      | .error e => .stop (.error e) (s.countRepair repaired)
      | .ok none => (s.countRepair repaired).resync frame.start .noTrailer
      | .ok (some settled) =>
        match s.readRecord settled headerFrom with
        | (.error e, table) => .stop (.error e) { s.countRepair repaired with table }
        | (.ok none, _) => (s.countRepair repaired).resync settled.start .undivided
        | (.ok (some record), table) =>
          .stop (.ok (some record)) ({ s.countRepair repaired with table }.passRecord record) := by
  cases repaired <;> rfl

/-! A step that failed is noted as nothing, and one that goes on as what it went on from. -/

private theorem stepped_of_failure {e : IoError} (repaired : Bool) (table : InternTable)
    (hstep : s.step headerFrom = .stop (.error e) { s.countRepair repaired with table })
    (htable : s.Taken headerFrom table) :
    Stepped s headerFrom (s.sighting? headerFrom) (s.step headerFrom) := by
  have hnone : s.sighting? headerFrom = none := by
    rw [sighting?, hstep]
    cases s.magic? <;> rfl
  rw [hnone, hstep]
  exact .failed hstep htable

private theorem stepped_of_drop {reason : DropReason} {repaired : Bool} (h : s.ComesTo start)
    (hforeign : s.isForeignAt start = false)
    (hstep : s.step headerFrom = (s.countRepair repaired).resync start reason) :
    Stepped s headerFrom (s.sighting? headerFrom) (s.step headerFrom) := by
  rw [resync_countRepair] at hstep
  have hsome : s.sighting? headerFrom = some ⟨start, .dropped, s.resyncAt start⟩ := by
    rw [sighting?, h.magic?_eq, Option.bind_some, hstep, hforeign]
    cases repaired <;> rfl
  rw [hsome, hstep]
  exact .dropped h

private theorem stepped_of_framed (h : s.ComesTo start) {frame : FrameExtent}
    (hmeasure : s.format.measure s.source start = .ok (.framed frame)) :
    Stepped s headerFrom (s.sighting? headerFrom) (s.step headerFrom) := by
  obtain ⟨hstart, hmin, hsize⟩ := WireFormat.measure_frame_facts hmeasure
  have hforeign : s.isForeignAt start = false := by rw [isForeignAt, hmeasure]
  have hstep : s.step headerFrom = (s.countRepair frame.repaired).settle frame headerFrom := by
    rw [h.step_eq, examine, hmeasure]
  rw [settle_countRepair] at hstep
  cases hconfirm : s.format.confirm s.settings s.source frame with
  | error e =>
    rw [hconfirm] at hstep
    exact stepped_of_failure frame.repaired s.table
      (hstep.trans (by cases frame.repaired <;> rfl)) (.inl rfl)
  | ok answer =>
    rw [hconfirm] at hstep
    cases answer with
    | none => exact stepped_of_drop h hforeign (hstart ▸ hstep)
    | some settled =>
      -- the frame that is read starts where the measured one does
      obtain ⟨hsettled, hlong, hinside⟩ := WireFormat.confirm_facts hconfirm (by omega) hsize
      rcases hread : s.readRecord settled headerFrom with ⟨_ | _ | record, table⟩
      · simp only [hread] at hstep
        exact stepped_of_failure _ _ hstep
          (.inr ⟨settled, by omega, hinside, congrArg Prod.snd hread⟩)
      · simp only [hread] at hstep
        exact stepped_of_drop h hforeign ((hsettled.trans hstart) ▸ hstep)
      · simp only [hread] at hstep
        have hsome : s.sighting? headerFrom = some ⟨start, .record record, record.stop⟩ := by
          rw [sighting?, h.magic?_eq, hstep]
          rfl
        rw [hsome, hstep]
        exact .record h ⟨frame, settled, hmeasure, hconfirm, hread⟩

/-- **One step.** Every step is of one of the five kinds. -/
theorem stepped (s : Scanner) (headerFrom : Nat) :
    Stepped s headerFrom (s.sighting? headerFrom) (s.step headerFrom) := by
  by_cases hend : s.source.size ≤ s.cursor
  · have hstep : s.step headerFrom = .stop (.ok none) s.finish := if_pos hend
    have hnone : s.sighting? headerFrom = none := by rw [sighting?, magic?, if_pos hend]; rfl
    rw [hstep, hnone]
    exact .ended (.inl hend)
  cases hfind : s.source.find s.cursor s.format.magic none s.settings.blockSize with
  | error e =>
    apply stepped_of_failure (e := e) false s.table _ (.inl rfl)
    rw [step, if_neg hend, hfind]
    rfl
  | ok found =>
    cases found with
    | none =>
      have hstep : s.step headerFrom = .stop (.ok none) s.finish := by
        rw [step, if_neg hend, hfind]
      have hnone : s.sighting? headerFrom = none := by
        rw [sighting?, magic?, if_neg hend, hfind]
        rfl
      rw [hstep, hnone]
      exact .ended (.inr hfind)
    | some start =>
      have hcomes : s.ComesTo start := ⟨Nat.not_le.mp hend, hfind⟩
      have hstep := hcomes.step_eq headerFrom
      unfold examine at hstep
      -- from here on the cases are those of the measurement
      cases hmeasure : s.format.measure s.source start with
      | error e =>
        rw [hmeasure] at hstep
        exact stepped_of_failure false s.table hstep (.inl rfl)
      | ok measured =>
        rw [hmeasure] at hstep
        cases measured with
        | foreign resume =>
          have hsome : s.sighting? headerFrom =
              some ⟨start, .foreign, max resume (start + max s.format.magic.length 1)⟩ := by
            rw [sighting?, hcomes.magic?_eq, Option.bind_some, hstep, isForeignAt, hmeasure]
            rfl
          rw [hstep, hsome]
          exact .foreign hcomes hmeasure
        | dropped reason repaired =>
          have hforeign : s.isForeignAt start = false := by rw [isForeignAt, hmeasure]
          exact stepped_of_drop hcomes hforeign hstep
        | framed frame => exact stepped_of_framed hcomes hmeasure

def Step.left : Step → Scanner
  | .stop _ s => s
  | .resume s _ => s

/-- It is a scan of the same source by the same format, and keeps what was kept. -/
theorem left_step (s : Scanner) (headerFrom : Nat) :
    (s.step headerFrom).left.source = s.source ∧ (s.step headerFrom).left.format = s.format ∧
      (s.step headerFrom).left.peeked = s.peeked := by
  have hcount : ∀ repaired, (s.countRepair repaired).source = s.source ∧
      (s.countRepair repaired).format = s.format ∧
      (s.countRepair repaired).peeked = s.peeked := by
    intro repaired
    cases repaired <;> exact ⟨rfl, rfl, rfl⟩
  have hstepped := s.stepped headerFrom
  generalize s.sighting? headerFrom = x, s.step headerFrom = step at hstepped ⊢
  cases hstepped with
  | ended => exact ⟨rfl, rfl, rfl⟩
  | foreign => exact ⟨rfl, rfl, rfl⟩
  | failed => exact hcount _
  | dropped => exact hcount _
  | record => exact hcount _

/-! ## §3 From one step to the next record -/

theorem scanFrom_of_stop {answer : Except IoError (Option Record)}
    (h : s.step headerFrom = .stop answer next) : s.scanFrom headerFrom = (answer, next) := by
  rw [scanFrom]
  split <;> rename_i hstep <;> rw [h] at hstep <;> cases hstep
  rfl

theorem scanFrom_of_resume {after : Nat} (h : s.step headerFrom = .resume next after) :
    s.scanFrom headerFrom = next.scanFrom after := by
  conv_lhs => rw [scanFrom]
  split <;> rename_i hstep <;> rw [h] at hstep <;> cases hstep
  rfl

theorem sightings_of_stop {answer : Except IoError (Option Record)}
    (h : s.step headerFrom = .stop answer next) :
    s.sightings headerFrom = (s.sighting? headerFrom).toList := by
  rw [sightings]
  split
  · rfl
  · rename_i hstep
    rw [h] at hstep
    cases hstep

theorem sightings_of_resume {after : Nat} (h : s.step headerFrom = .resume next after) :
    s.sightings headerFrom = (s.sighting? headerFrom).toList ++ next.sightings after := by
  conv_lhs => rw [sightings]
  split <;> rename_i hstep <;> rw [h] at hstep <;> cases hstep
  rfl

/-- The magic that the first step comes to is among those that a scan comes to. -/
theorem mem_sightings {x : Sighting} (h : s.sighting? headerFrom = some x) :
    x ∈ s.sightings headerFrom := by
  cases hstep : s.step headerFrom with
  | stop answer next =>
    rw [sightings_of_stop hstep, h]
    exact List.mem_singleton_self x
  | resume next after =>
    rw [sightings_of_resume hstep, h]
    exact List.mem_cons_self ..

/-- **Induction along a scan.** What holds inside a scan, of the sightings so far, and is kept by
every step that goes on, leads to what holds when a step stops it. -/
theorem scanFrom_induct (Inside : List Sighting → Scanner → Nat → Prop)
    (Stopped : List Sighting → Except IoError (Option Record) → Scanner → Prop)
    (go : ∀ {past s headerFrom next after x}, Inside past s headerFrom →
      s.step headerFrom = .resume next after →
      Stepped s headerFrom (some x) (.resume next after) → Inside (past ++ [x]) next after)
    (stop : ∀ {past s headerFrom answer t x}, Inside past s headerFrom →
      s.step headerFrom = .stop answer t →
      Stepped s headerFrom x (.stop answer t) → Stopped (past ++ x.toList) answer t)
    (past : List Sighting) {s : Scanner} {headerFrom : Nat} (h : Inside past s headerFrom) :
    Stopped (past ++ s.sightings headerFrom) (s.scanFrom headerFrom).1
      (s.scanFrom headerFrom).2 := by
  have hstepped := s.stepped headerFrom
  cases hstep : s.step headerFrom with
  | stop answer t =>
    rw [hstep] at hstepped
    rw [scanFrom_of_stop hstep, sightings_of_stop hstep]
    exact stop h hstep hstepped
  | resume next after =>
    obtain ⟨hsource, hlt, hin⟩ := step_resume hstep
    -- a step that goes on comes to a magic
    obtain ⟨x, hx⟩ : ∃ x, s.sighting? headerFrom = some x := by
      rw [hstep] at hstepped
      generalize s.sighting? headerFrom = x at hstepped
      cases hstepped with
      | foreign => exact ⟨_, rfl⟩
      | dropped => exact ⟨_, rfl⟩
    rw [hstep, hx] at hstepped
    rw [scanFrom_of_resume hstep, sightings_of_resume hstep, hx, Option.toList_some,
      ← List.append_assoc]
    exact scanFrom_induct Inside Stopped go stop _ (go h hstep hstepped)
termination_by s.source.size - s.cursor
decreasing_by
  rw [hsource]
  omega

/-- A scan leaves one of the same source by the same format, and what was kept. -/
theorem left_scanFrom (s : Scanner) (headerFrom : Nat) :
    (s.scanFrom headerFrom).2.source = s.source ∧ (s.scanFrom headerFrom).2.format = s.format ∧
      (s.scanFrom headerFrom).2.peeked = s.peeked := by
  refine scanFrom_induct
    (fun _ u _ => u.source = s.source ∧ u.format = s.format ∧ u.peeked = s.peeked)
    (fun _ _ u => u.source = s.source ∧ u.format = s.format ∧ u.peeked = s.peeked)
    ?go ?stop [] ⟨rfl, rfl, rfl⟩
  case go =>
    rintro past u after next later x ⟨hsource, hformat, hpeeked⟩ hstep -
    have hleft := u.left_step after
    rw [hstep] at hleft
    exact ⟨hleft.1.trans hsource, hleft.2.1.trans hformat, hleft.2.2.trans hpeeked⟩
  case stop =>
    rintro past u after answer next x ⟨hsource, hformat, hpeeked⟩ hstep -
    have hleft := u.left_step after
    rw [hstep] at hleft
    exact ⟨hleft.1.trans hsource, hleft.2.1.trans hformat, hleft.2.2.trans hpeeked⟩

/-- A scan leaves a record that was kept alone. -/
theorem peeked_scanFrom (s : Scanner) (headerFrom : Nat) :
    (s.scanFrom headerFrom).2.peeked = s.peeked := (s.left_scanFrom headerFrom).2.2

/-! ## §4 Calls -/

/-- What a caller can ask of a scanner. -/
inductive Call where
  | hasNext
  | next
  | pull
deriving DecidableEq, Repr

/-- What a caller is told. -/
inductive Answer where
  /-- There is another record. -/
  | more
  | record (r : Record)
  | nothing
  | failed (e : ScanFailure)
deriving DecidableEq, Repr

def Answer.record? : Answer → Option Record
  | .record r => some r
  | _ => none

/-- Answers a call. -/
def answer (s : Scanner) : Call → Answer × Scanner
  | .hasNext =>
    match s.hasNext with
    | (.ok more, s) => (if more then .more else .nothing, s)
    | (.error e, s) => (.failed e, s)
  | .next =>
    match s.next with
    | (.ok (some record), s) => (.record record, s)
    | (.ok none, s) => (.nothing, s)
    | (.error e, s) => (.failed e, s)
  | .pull =>
    match s.pull with
    | (some (.ok record), s) => (.record record, s)
    | (some (.error e), s) => (.failed e, s)
    | (none, s) => (.nothing, s)

/-- The magics that a call comes to; none where a record was kept from a call before. -/
def sought (s : Scanner) : List Sighting :=
  match s.peeked with
  | some _ => []
  | none => s.sightings s.cursor

/-- What a call can do, and what it comes to on the way. -/
inductive Called (s : Scanner) (c : Call) : List Sighting → Answer → Scanner → Prop
  /-- A record was kept from a call before. -/
  | kept {record : Record} (h : s.peeked = some record) : Called s c [] .more s
  | handed {record : Record} (h : s.peeked = some record) :
      Called s c [] (.record record) { s with peeked := none }
  | found {record : Record} {t : Scanner} (h : s.peeked = none)
      (hscan : s.scanFrom s.cursor = (.ok (some record), t)) :
      Called s c (s.sightings s.cursor) .more { t with peeked := some record }
  | pulled {record : Record} {t : Scanner} (h : s.peeked = none)
      (hscan : s.scanFrom s.cursor = (.ok (some record), t)) :
      Called s c (s.sightings s.cursor) (.record record) t
  | ended {t : Scanner} (h : s.peeked = none) (hscan : s.scanFrom s.cursor = (.ok none, t)) :
      Called s c (s.sightings s.cursor) .nothing t
  | failed {e : IoError} {t : Scanner} (h : s.peeked = none)
      (hscan : s.scanFrom s.cursor = (.error e, t)) :
      Called s c (s.sightings s.cursor) (.failed (.io e)) t
  /-- A sequence of records ends with a failure. -/
  | closed {e : IoError} {t : Scanner} (hpull : c = .pull) (h : s.peeked = none)
      (hscan : s.scanFrom s.cursor = (.error e, t)) :
      Called s c (s.sightings s.cursor) (.failed (.io e)) t.finish

/-- How a scanner answers if it keeps a record. -/
theorem answer_of_peeked {record : Record} (hpeeked : s.peeked = some record) (c : Call) :
    s.answer c =
      if c = .hasNext then (.more, s) else (.record record, { s with peeked := none }) := by
  cases c <;> simp [answer, hasNext, pull, next, hpeeked]

/-- How it answers if it keeps none, and its scan does not fail. -/
theorem answer_of_ok {found : Option Record} {t : Scanner} (hpeeked : s.peeked = none)
    (hscan : s.scanFrom s.cursor = (.ok found, t)) (c : Call) :
    s.answer c =
      if c = .hasNext then (if found.isSome then .more else .nothing, { t with peeked := found })
      else (found.elim .nothing .record, t) := by
  cases c <;> cases found <;> simp [answer, hasNext, pull, next, scan, hpeeked, hscan]

/-- How it answers if it keeps none, and its scan fails. -/
theorem answer_of_error {e : IoError} {t : Scanner} (hpeeked : s.peeked = none)
    (hscan : s.scanFrom s.cursor = (.error e, t)) (c : Call) :
    s.answer c = (.failed (.io e), if c = .pull then t.finish else t) := by
  cases c <;> simp [answer, hasNext, pull, next, scan, hpeeked, hscan]

/-- **One call.** Every call is of one of the seven kinds. -/
theorem called (s : Scanner) (c : Call) : Called s c s.sought (s.answer c).1 (s.answer c).2 := by
  cases hpeeked : s.peeked with
  | some record =>
    have hsought : s.sought = [] := by rw [sought, hpeeked]
    rw [hsought, answer_of_peeked hpeeked]
    by_cases hc : c = .hasNext
    · rw [if_pos hc]
      exact .kept hpeeked
    · rw [if_neg hc]
      exact .handed hpeeked
  | none =>
    have hsought : s.sought = s.sightings s.cursor := by rw [sought, hpeeked]
    have hkept := s.peeked_scanFrom s.cursor
    rw [hsought]
    rcases hscan : s.scanFrom s.cursor with ⟨e | _ | record, t⟩
    · rw [answer_of_error hpeeked hscan]
      by_cases hc : c = .pull
      · rw [if_pos hc]
        exact .closed hc hpeeked hscan
      · rw [if_neg hc]
        exact .failed hpeeked hscan
    · rw [hscan] at hkept
      -- nothing was kept before, so keeping nothing changes nothing
      have hsame : { t with peeked := none } = t := by
        rw [← hpeeked, ← hkept]
      rw [answer_of_ok hpeeked hscan, hsame]
      by_cases hc : c = .hasNext
      · rw [if_pos hc]
        exact .ended hpeeked hscan
      · rw [if_neg hc]
        exact .ended hpeeked hscan
    · rw [answer_of_ok hpeeked hscan]
      by_cases hc : c = .hasNext
      · rw [if_pos hc]
        exact .found hpeeked hscan
      · rw [if_neg hc]
        exact .pulled hpeeked hscan

/-- What a scan keeps, a call keeps, if keeping a record and going to the end do. -/
theorem answer_keeps {P : List Sighting → Scanner → Prop} (past : List Sighting) (h : P past s)
    (hscan : P (past ++ s.sightings s.cursor) (s.scanFrom s.cursor).2)
    (hkeep : ∀ {past t} peeked, P past t → P past { t with peeked })
    (hfinish : ∀ {past t}, P past t → P past t.finish) (c : Call) :
    P (past ++ s.sought) (s.answer c).2 := by
  have hcalled := s.called c
  generalize s.sought = sought, (s.answer c).1 = told, (s.answer c).2 = t at hcalled
  cases hcalled with
  | kept => rwa [List.append_nil]
  | handed =>
    rw [List.append_nil]
    exact hkeep none h
  | found _ hfound =>
    rw [hfound] at hscan
    exact hkeep _ hscan
  | pulled _ hpulled => rwa [hpulled] at hscan
  | ended _ hended => rwa [hended] at hscan
  | failed _ hfailed => rwa [hfailed] at hscan
  | closed _ _ hfailed =>
    rw [hfailed] at hscan
    exact hfinish hscan

/-- A call leaves a scan of the same source by the same format. -/
theorem left_answer (s : Scanner) (c : Call) :
    (s.answer c).2.source = s.source ∧ (s.answer c).2.format = s.format := by
  obtain ⟨hsource, hformat, -⟩ := s.left_scanFrom s.cursor
  exact answer_keeps (P := fun _ t => t.source = s.source ∧ t.format = s.format) []
    ⟨rfl, rfl⟩ ⟨hsource, hformat⟩ (fun _ h => h) (fun h => h) c

end Scanner

end Granule
