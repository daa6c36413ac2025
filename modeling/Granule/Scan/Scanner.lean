import Granule.Scan.Framing
import Granule.Scan.Record
import Granule.Scan.Search

/-!
# Scanning for Records

A scanner pulls one record after another out of a source. It searches for the
magic of its format, settles the extent of the frame there, divides the frame
into parts, and moves past it. A frame that fails on the way is counted and
dropped, and the search resumes a fixed distance past its magic; a magic of
another format is counted and passed. Only failures of the source itself end a
pull.

Every step that does not end a pull moves the cursor forward, which is why the
scan ends.

The distance that a format asks for may be too large for a machine to add it to an offset; what
then happens is told in `Granule.Words.Scan`.

**Main statement**: `Scanner.step_resume` — a step that goes on moves the cursor forward inside
the source.
-/

namespace Granule

/-! ## §1 Scanners -/

/-- Why a scan failed. -/
inductive ScanFailure where
  /-- The source could not be read. -/
  | io (e : IoError)
deriving DecidableEq, Repr

def ScanFailure.message : ScanFailure → String
  | .io e => "IO error: " ++ e.message

/-- A scan under way. -/
structure Scanner where
  source : Source
  format : WireFormat
  settings : ScanSettings
  /-- Where the next search starts. -/
  cursor : Nat := 0
  /-- A record that was found ahead of its pull. -/
  peeked : Option Record := none
  /-- The recurring parts seen so far. -/
  table : InternTable := .empty
  tally : ScanTally := {}

namespace Scanner

def start (source : Source) (format : WireFormat) (settings : ScanSettings) : Scanner :=
  { source, format, settings }

/-- Starts a scan of the file at a path, if there is one. -/
def startAt (files : String → Option Source) (path : String) (format : WireFormat)
    (settings : ScanSettings) : Except ScanFailure Scanner :=
  match files path with
  | some source => .ok (start source format settings)
  | none => .error (.io .notFound)

/-! ## §2 Reading a frame -/

/-- Takes up the parts of a frame that starts at `start`; those of recurring kinds
are looked up in the table, or added to it. -/
def takeParts (format : WireFormat) (start : Nat) (frame : Array UInt8) :
    List Span → InternTable → Array Part → List Part × InternTable
  | [], table, taken => (taken.toList, table)
  | span :: rest, table, taken =>
    let content : TypedBytes := ⟨span.kind, (frame.extract span.start span.stop).toList⟩
    let offset := start + span.start
    if format.recurs span.kind then
      match table.intern content with
      | (place, table) =>
        -- the bytes in the table stand for all parts with this fingerprint
        let content := (table.content? place).getD content
        takeParts format start frame rest table (taken.push ⟨offset, content, some place⟩)
    else
      takeParts format start frame rest table (taken.push ⟨offset, content, none⟩)

/-- The spans of a frame that divide it properly. -/
def spansOf (format : WireFormat) (frame : Bytes) (size : Nat) : Option (List Span) :=
  match format.divide frame with
  | .error _ => none
  | .ok spans => if spans.all (·.isWithin size) then some spans else none

/-- Reads the frame at an extent and the header before it. A frame that cannot be divided
is no record, and then nothing was taken up from it. -/
def readRecord (s : Scanner) (frame : FrameExtent) (headerFrom : Nat) :
    Except IoError (Option Record) × InternTable :=
  let size := frame.stop - frame.start
  match noneAtEnd (s.source.readExact frame.start size) with
  | .error e => (.error e, s.table)
  | .ok none => (.ok none, s.table)
  | .ok (some bytes) =>
    match spansOf s.format bytes size with
    | none => (.ok none, s.table)
    | some spans =>
      match takeParts s.format frame.start bytes.toArray spans s.table #[] with
      | (parts, table) =>
        -- the header ends at the magic and starts no earlier than the bytes that count
        let headerLength := min (frame.start - headerFrom) s.settings.headerLimit
        match s.source.readExact (frame.start - headerLength) headerLength with
        | .error e => (.error e, table)
        | .ok header =>
          (.ok (some ⟨header, frame.start, frame.stop, parts, frame.repaired⟩), table)

/-! ## §3 One step -/

def finish (s : Scanner) : Scanner := { s with cursor := s.source.size }

/-- Counts the length that a repair answered for. -/
def countRepair (s : Scanner) (repaired : Bool) : Scanner :=
  if repaired then
    { s with tally := { s.tally with repaired := s.tally.repaired + 1 } }
  else s

/-- Passes a magic of another format, whose bytes were read up to `resume`. -/
def passForeign (s : Scanner) (start resume : Nat) : Scanner :=
  { s with
    cursor := max resume (start + max s.format.magic.length 1)
    tally := { s.tally with foreign := s.tally.foreign + 1 } }

/-- Drops the frame at a magic. -/
def drop (s : Scanner) (start : Nat) (reason : DropReason) : Scanner :=
  { s with
    cursor := start + max s.format.resyncDistance 1
    tally := s.tally.add reason }

/-- Moves past a record. -/
def passRecord (s : Scanner) (record : Record) : Scanner :=
  { s with
    cursor := record.stop
    tally := { s.tally with records := s.tally.records + 1 } }

/-- Where a step leads. -/
inductive Step where
  /-- The pull ends, with a record, without one, or with a failure. -/
  | stop (answer : Except IoError (Option Record)) (s : Scanner)
  /-- The search goes on; header bytes start here. -/
  | resume (s : Scanner) (headerFrom : Nat)

/-- Goes on after a dropped frame, of which no byte counts as header. -/
def resync (s : Scanner) (start : Nat) (reason : DropReason) : Step :=
  .resume (s.drop start reason) (start + max s.format.resyncDistance 1)

/-- Settles the end of a measured frame and reads it. -/
def settle (s : Scanner) (frame : FrameExtent) (headerFrom : Nat) : Step :=
  match s.format.confirm s.settings s.source frame with
  | .error e => .stop (.error e) s
  | .ok none => s.resync frame.start .noTrailer
  | .ok (some frame) =>
    match s.readRecord frame headerFrom with
    | (.error e, table) => .stop (.error e) { s with table }
    | (.ok none, _) => s.resync frame.start .undivided
    | (.ok (some record), table) => .stop (.ok (some record)) ({ s with table }.passRecord record)

/-- Examines the magic at `start`. -/
def examine (s : Scanner) (start headerFrom : Nat) : Step :=
  match s.format.measure s.source start with
  | .error e => .stop (.error e) s
  | .ok (.foreign resume) => .resume (s.passForeign start resume) headerFrom
  | .ok (.dropped reason repaired) => (s.countRepair repaired).resync start reason
  | .ok (.framed frame) => (s.countRepair frame.repaired).settle frame headerFrom

/-- Finds the next magic and examines it. -/
def step (s : Scanner) (headerFrom : Nat) : Step :=
  if s.source.size ≤ s.cursor then .stop (.ok none) s.finish
  else
    match s.source.find s.cursor s.format.magic none s.settings.blockSize with
    | .error e => .stop (.error e) s
    | .ok none => .stop (.ok none) s.finish
    | .ok (some start) => s.examine start headerFrom

theorem countRepair_facts (s : Scanner) (repaired : Bool) :
    (s.countRepair repaired).source = s.source ∧ (s.countRepair repaired).format = s.format ∧
      (s.countRepair repaired).cursor = s.cursor := by
  unfold countRepair
  split <;> exact ⟨rfl, rfl, rfl⟩

private theorem resync_facts {s next : Scanner} {start headerFrom : Nat} {reason : DropReason}
    (h : s.resync start reason = .resume next headerFrom) :
    next.source = s.source ∧ start < next.cursor := by
  cases h
  exact ⟨rfl, by simp only [drop]; omega⟩

private theorem settle_facts {s next : Scanner} {frame : FrameExtent} {headerFrom after : Nat}
    (h : s.settle frame headerFrom = .resume next after) :
    next.source = s.source ∧ ∃ start, start < next.cursor ∧
      (start = frame.start ∨
        ∃ settled, s.format.confirm s.settings s.source frame = .ok (some settled) ∧
          start = settled.start) := by
  unfold settle at h
  split at h
  · cases h
  · exact ⟨(resync_facts h).1, _, (resync_facts h).2, .inl rfl⟩
  · rename_i settled hconfirm
    split at h
    · cases h
    · exact ⟨(resync_facts h).1, _, (resync_facts h).2, .inr ⟨settled, hconfirm, rfl⟩⟩
    · cases h

private theorem examine_facts {s next : Scanner} {start headerFrom after : Nat}
    (h : s.examine start headerFrom = .resume next after) :
    next.source = s.source ∧ start < next.cursor := by
  unfold examine at h
  split at h
  · cases h
  · cases h
    exact ⟨rfl, by simp only [passForeign]; omega⟩
  · rename_i reason repaired _
    obtain ⟨hsource, hlt⟩ := resync_facts h
    exact ⟨hsource.trans (s.countRepair_facts repaired).1, hlt⟩
  · rename_i frame hframe
    obtain ⟨hsource, place, hlt, hplace⟩ := settle_facts h
    obtain ⟨hs, hf, _⟩ := s.countRepair_facts frame.repaired
    obtain ⟨hstart, hmin, hsize⟩ := WireFormat.measure_frame_facts hframe
    refine ⟨hsource.trans hs, ?_⟩
    -- the frame that was dropped is the measured one or the confirmed one
    rcases hplace with rfl | ⟨settled, hconfirm, rfl⟩
    · omega
    · rw [hs, hf] at hconfirm
      have := (WireFormat.confirm_facts hconfirm (by omega) hsize).1
      omega

/-- A step that goes on moves the cursor forward, and starts inside the source. -/
theorem step_resume {s next : Scanner} {headerFrom after : Nat}
    (h : s.step headerFrom = .resume next after) :
    next.source = s.source ∧ s.cursor < next.cursor ∧ s.cursor < s.source.size := by
  unfold step at h
  split at h
  · cases h
  · split at h
    · cases h
    · cases h
    · rename_i start hsearch
      -- the magic is at or after the cursor, and every step goes past the magic
      have hle := Source.le_of_find hsearch
      obtain ⟨hsource, hlt⟩ := examine_facts h
      exact ⟨hsource, by omega, by omega⟩

/-! ## §4 Pulls -/

/-- Steps until a record, the end of the source, or a failure is reached. -/
def scanFrom (s : Scanner) (headerFrom : Nat) : Except IoError (Option Record) × Scanner :=
  match h : s.step headerFrom with
  | .stop answer s => (answer, s)
  | .resume next headerFrom =>
    have := step_resume h
    scanFrom next headerFrom
termination_by s.source.size - s.cursor
decreasing_by
  rw [this.1]
  omega

/-- Scans for a record from the cursor on. -/
def scan (s : Scanner) : Except ScanFailure (Option Record) × Scanner :=
  match s.scanFrom s.cursor with
  | (answer, s) => (answer.mapError .io, s)

/-- There is another record; it is kept for the next pull. -/
def hasNext (s : Scanner) : Except ScanFailure Bool × Scanner :=
  match s.peeked with
  | some _ => (.ok true, s)
  | none =>
    match s.scan with
    | (.error e, s) => (.error e, s)
    | (.ok found, s) => (.ok found.isSome, { s with peeked := found })

/-- Pulls the next record, if there is one. -/
def next (s : Scanner) : Except ScanFailure (Option Record) × Scanner :=
  match s.peeked with
  | some record => (.ok (some record), { s with peeked := none })
  | none => s.scan

/-- Pulls the next record as one of a sequence that ends after a failure. -/
def pull (s : Scanner) : Option (Except ScanFailure Record) × Scanner :=
  match s.next with
  | (.ok (some record), s) => (some (.ok record), s)
  | (.ok none, s) => (none, s)
  | (.error e, s) => (some (.error e), s.finish)

/-- Pulls at most `count` times, or until the sequence ends. -/
def pullUpTo : (count : Nat) → Scanner → Array (Except ScanFailure Record) →
    List (Except ScanFailure Record) × Scanner
  | 0, s, taken => (taken.toList, s)
  | n + 1, s, taken =>
    match s.pull with
    | (none, s) => (taken.toList, s)
    | (some answer, s) => pullUpTo n s (taken.push answer)

/-- Pulls until the sequence ends. A sequence of records that are not empty has at most
one for each byte, and one more that was peeked at, and then perhaps a failure. -/
def drain (s : Scanner) : List (Except ScanFailure Record) × Scanner :=
  pullUpTo (s.source.size + 3) s #[]

end Scanner

end Granule
