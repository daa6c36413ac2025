import Granule.Proofs.Frame.View
import Granule.Scan.Scanner

/-!
# Scanning a Byte String

What a scan is meant to find, told of a byte string that is all at hand: no
reads, no blocks, no device. A format is known here by what it reads off the
bytes (`ByteView`), and a scan goes from one magic to the next, deciding each by
a `Verdict`.

**Main statements**:
- `PlainScan.next_of_some` : a pull goes by the verdict on the first magic
- `PlainScan.next_of_none` : without a magic it ends
-/

namespace Granule

/-! ## §1 The verdict on a magic -/

/-- A scan of bytes that are all at hand. -/
structure PlainScan where
  format : WireFormat
  view : ByteView
  settings : ScanSettings
  bytes : Bytes

namespace PlainScan

/-- What becomes of a magic. -/
inductive Verdict where
  /-- It belongs to another format, whose bytes were read up to here. -/
  | foreign (resume : Nat)
  /-- Its frame is dropped; a repair may have answered before. -/
  | dropped (reason : DropReason) (repaired : Bool)
  /-- It starts a frame that ends here and is divided like this. -/
  | record (stop : Nat) (repaired : Bool) (spans : List Span)

variable (r : PlainScan)

/-- The trailer ends at this offset. -/
def EndsAt (stop : Nat) : Prop :=
  r.format.trailer.length ≤ stop ∧ stop ≤ r.bytes.length ∧
    r.bytes.HasAt (stop - r.format.trailer.length) r.format.trailer

instance (stop : Nat) : Decidable (r.EndsAt stop) :=
  inferInstanceAs (Decidable (_ ∧ _ ∧ _))

/-- The end that the inner structure shows, if the frame is long enough and the trailer there. -/
def innerStop (start : Nat) : Option Nat :=
  (r.view.impliedEnd r.bytes start).filter fun stop =>
    start + r.format.minLength ≤ stop ∧ r.EndsAt stop

/-- The end of a frame with this length: where the trailer ends, or where leniency lets it. -/
def stopOf (start total : Nat) (repaired : Bool) : Option Nat :=
  if r.EndsAt (start + total) then some (start + total)
  else
    (if r.settings.acceptsImpliedEnd || repaired then r.innerStop start else none) <|>
      (if r.settings.acceptsNoTrailer || repaired then some (start + total) else none)

def spansOf (frame : Bytes) : Option (List Span) :=
  (r.format.divide frame).toOption.filter fun spans => spans.all (·.isWithin frame.length)

/-- The verdict on a frame that has a length. -/
def verdictOf (start total : Nat) (repaired : Bool) : Verdict :=
  if total < r.format.minLength then .dropped .tooShort repaired
  else if r.bytes.length < start + total then .dropped .cutOff repaired
  else
    match r.stopOf start total repaired with
    | none => .dropped .noTrailer repaired
    | some stop =>
      match r.spansOf (r.bytes.between start stop) with
      | none => .dropped .undivided repaired
      | some spans => .record stop repaired spans

/-- The verdict on the magic at an offset. -/
def verdict (start : Nat) : Verdict :=
  match r.view.preamble r.bytes start with
  | none => .dropped .cutOff false
  | some ⟨resume, none⟩ => .foreign resume
  | some ⟨_, some p⟩ =>
    let repair := r.view.repair r.bytes p
    r.verdictOf start (repair.getD p.declared) repair.isSome

/-! ## §2 Records -/

/-- The parts of the frame at `start`. Those of recurring kinds are kept in the table, and stand
for all parts with the same fingerprint. -/
def parts (start : Nat) : List Span → InternTable → List Part × InternTable
  | [], table => ([], table)
  | span :: rest, table =>
    let content : TypedBytes :=
      ⟨span.kind, r.bytes.between (start + span.start) (start + span.stop)⟩
    if r.format.recurs span.kind then
      let (place, kept) := table.intern content
      let (more, last) := parts start rest kept
      (⟨start + span.start, (kept.content? place).getD content, some place⟩ :: more, last)
    else
      let (more, last) := parts start rest table
      (⟨start + span.start, content, none⟩ :: more, last)

/-- The last bytes before `start`, of those from `headerFrom` on. -/
def headerOf (start headerFrom : Nat) : Bytes :=
  r.bytes.between (start - min (start - headerFrom) r.settings.headerLimit) start

/-! ## §3 Pulls -/

/-- How far a scan has come. -/
structure State where
  cursor : Nat := 0
  tally : ScanTally := {}
  table : InternTable := .empty

def State.countRepair (st : State) (repaired : Bool) : State :=
  if repaired then { st with tally := { st.tally with repaired := st.tally.repaired + 1 } }
  else st

/-- The state after a magic of another format. -/
def passForeign (st : State) (start resume : Nat) : State :=
  { st with
    cursor := max resume (start + max r.format.magic.length 1)
    tally := { st.tally with foreign := st.tally.foreign + 1 } }

/-- Where the search goes on after a dropped frame, and the next header starts. -/
def resyncAt (start : Nat) : Nat := start + max r.format.resyncDistance 1

def drop (st : State) (start : Nat) (reason : DropReason) : State :=
  { st with cursor := r.resyncAt start, tally := st.tally.add reason }

def recordAt (st : State) (start stop : Nat) (repaired : Bool) (spans : List Span)
    (headerFrom : Nat) : Record :=
  ⟨r.headerOf start headerFrom, start, stop, (r.parts start spans st.table).1, repaired⟩

/-- The state after a record. -/
def passRecord (st : State) (start stop : Nat) (spans : List Span) : State where
  cursor := stop
  tally := { st.tally with records := st.tally.records + 1 }
  table := (r.parts start spans st.table).2

/-- The next record from the cursor on, with a header that starts no earlier than
`headerFrom`, and the state after it. -/
def next (st : State) (headerFrom : Nat) : Option Record × State :=
  match h : r.bytes.firstOccurrence r.format.magic st.cursor with
  | none => (none, { st with cursor := r.bytes.length })
  | some start =>
    have := Bytes.firstOccurrence_eq_some_iff.mp h
    match r.verdict start with
    | .foreign resume => next (r.passForeign st start resume) headerFrom
    | .dropped reason repaired =>
      next (r.drop (st.countRepair repaired) start reason) (r.resyncAt start)
    | .record stop repaired spans =>
      let st := st.countRepair repaired
      (some (r.recordAt st start stop repaired spans headerFrom), r.passRecord st start stop spans)
termination_by r.bytes.length - st.cursor
decreasing_by
  -- either way the cursor goes past the magic
  · simp only [passForeign]
    omega
  · simp only [drop, resyncAt]
    omega

def pull (st : State) : Option Record × State := r.next st st.cursor

variable {r} {st : State} {headerFrom start : Nat}

/-- A frame that is divided into parts inside it has these parts. -/
theorem spansOf_of_divide {frame : Bytes} {spans : List Span}
    (hdivide : r.format.divide frame = .ok spans)
    (hwithin : ∀ span ∈ spans, span.isWithin frame.length = true) :
    r.spansOf frame = some spans := by
  rw [spansOf, hdivide]
  exact Option.filter_eq_some_iff.mpr ⟨rfl, List.all_eq_true.mpr hwithin⟩

theorem next_of_none (h : r.bytes.firstOccurrence r.format.magic st.cursor = none) :
    r.next st headerFrom = (none, { st with cursor := r.bytes.length }) := by
  rw [next]
  split
  · rfl
  · rename_i found
    rw [h] at found
    cases found

/-- A pull goes by the verdict on the first magic. -/
theorem next_of_some (h : r.bytes.firstOccurrence r.format.magic st.cursor = some start) :
    r.next st headerFrom =
      match r.verdict start with
      | .foreign resume => r.next (r.passForeign st start resume) headerFrom
      | .dropped reason repaired =>
        r.next (r.drop (st.countRepair repaired) start reason) (r.resyncAt start)
      | .record stop repaired spans =>
        (some (r.recordAt (st.countRepair repaired) start stop repaired spans headerFrom),
          r.passRecord (st.countRepair repaired) start stop spans) := by
  conv_lhs => rw [next]
  split
  · rename_i found
    rw [h] at found
    cases found
  · rename_i found
    rw [h] at found
    cases found
    rfl

end PlainScan

end Granule
