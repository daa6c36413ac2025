import Granule.Proofs.Scan.History
import Granule.Proofs.Scan.PlainScan

/-!
# A Scan Is a Plain Scan

A scanner on a source that never fails does, call by call, what the plain scan of
the bytes does: it gives the same records, stands at the same position, and has
counted the same. Reads, search blocks and repeated seeks leave no trace.

Each operation of the scanner is first told in plain terms (trailer, end, parts,
record), then one step is, and the run of a pull follows by its own recursion.

**Main statements**:
- `PlainScan.Describes.scanFrom_eq` : what a scan comes to is what the plain scan comes to
- `PlainScan.Describes.next_scanner` : a pull of the scanner is a pull of the plain scan
-/

namespace Granule

namespace PlainScan

/-- The plain scan tells what a scan of this source should find. -/
structure Describes (r : PlainScan) (source : Source) : Prop where
  steady : source.NeverFails
  bytes : source.bytes = r.bytes
  reads : r.format.ReadsAs r.view

/-- The scanner that has come as far as the state of a plain scan. -/
def scanner (r : PlainScan) (source : Source) (st : State) : Scanner where
  source
  format := r.format
  settings := r.settings
  cursor := st.cursor
  table := st.table
  tally := st.tally

section

variable (r : PlainScan) (source : Source) (st : State)

@[simp] theorem scanner_source : (r.scanner source st).source = source := rfl

@[simp] theorem scanner_format : (r.scanner source st).format = r.format := rfl

@[simp] theorem scanner_settings : (r.scanner source st).settings = r.settings := rfl

@[simp] theorem scanner_cursor : (r.scanner source st).cursor = st.cursor := rfl

@[simp] theorem scanner_countRepair (repaired : Bool) :
    (r.scanner source st).countRepair repaired = r.scanner source (st.countRepair repaired) := by
  cases repaired <;> rfl

/-- What the verdict on a magic makes of a scan, as a step of the scanner. -/
def stepOf (start headerFrom : Nat) : Verdict → Scanner.Step
  | .foreign resume => .resume (r.scanner source (r.passForeign st start resume)) headerFrom
  | .dropped reason repaired =>
    .resume (r.scanner source (r.drop (st.countRepair repaired) start reason)) (r.resyncAt start)
  | .record stop repaired spans =>
    .stop (.ok (some (r.recordAt (st.countRepair repaired) start stop repaired spans headerFrom)))
      (r.scanner source (r.passRecord (st.countRepair repaired) start stop spans))

end

namespace Describes

variable {r : PlainScan} {source : Source}

theorem size_eq (h : r.Describes source) : source.size = r.bytes.length := by
  rw [← h.bytes, Source.length_bytes]

/-! ## §1 Framing -/

theorem hasTrailer_eq (h : r.Describes source) (stop : Nat) :
    r.format.hasTrailer source stop = .ok (decide (r.EndsAt stop)) := by
  unfold WireFormat.hasTrailer
  simp only [h.size_eq]
  split
  -- no trailer ends outside the source
  · rename_i hout
    have hnot : ¬ r.EndsAt stop := by
      rintro ⟨hlow, hhigh, -⟩
      omega
    simp [hnot]
  · rename_i hin
    split
    · rename_i hempty
      have hnil : r.format.trailer = [] := List.length_eq_zero_iff.mp hempty
      have hends : r.EndsAt stop := ⟨by omega, by omega, by simp [hnil]⟩
      simp [hends]
    · rename_i hne
      have hstart : stop - r.format.trailer.length + r.format.trailer.length = stop := by omega
      rw [Source.readExact_eq h.steady, h.bytes, hstart, if_pos (by omega)]
      -- the bytes that were read are the trailer exactly when the trailer lies there
      have hiff : r.bytes.between (stop - r.format.trailer.length) stop = r.format.trailer ↔
          r.EndsAt stop := by
        constructor
        · intro heq
          refine ⟨by omega, by omega, Bytes.HasAt.of_between_eq ?_⟩
          rwa [hstart]
        · rintro ⟨-, -, hat⟩
          have hbetween := hat.between_eq
          rwa [hstart] at hbetween
      simp [noneAtEnd, Except.map, hiff]

theorem impliedStop_eq (h : r.Describes source) (start : Nat) :
    r.format.impliedStop source start = .ok (r.innerStop start) := by
  have hanswer := h.reads.impliedEnd source h.steady start
  unfold Answers at hanswer
  rw [h.bytes] at hanswer
  unfold WireFormat.impliedStop innerStop
  cases hread : noneAtEnd (r.format.impliedEnd source start) with
  | error e => simp [hread, Except.map] at hanswer
  | ok answer =>
    simp only [hread, Except.map, Except.ok.injEq] at hanswer
    rw [← hanswer]
    cases answer with
    | none => rfl
    | some inner =>
      cases inner with
      | none => rfl
      | some stop =>
        simp only [Option.join_some, Option.filter_some, h.hasTrailer_eq]
        -- an end that leaves too short a frame is refused on both sides
        by_cases hshort : stop < start + r.format.minLength
        · rw [if_pos hshort, if_neg (by simp; omega)]
        · by_cases hends : r.EndsAt stop
          · simp [hshort, hends, Except.map]
          · simp [hshort, hends, Except.map]

theorem confirm_eq (h : r.Describes source) (start total : Nat) (repaired : Bool) :
    r.format.confirm r.settings source ⟨start, start + total, repaired⟩ =
      .ok ((r.stopOf start total repaired).map fun stop => ⟨start, stop, repaired⟩) := by
  unfold WireFormat.confirm stopOf
  simp only [h.hasTrailer_eq, h.impliedStop_eq]
  -- the same three questions in the same order: trailer, inner structure, leniency
  by_cases hends : r.EndsAt (start + total)
  · simp [hends]
  · cases hlenient : r.settings.acceptsImpliedEnd || repaired with
    | false =>
      cases hmissing : r.settings.acceptsNoTrailer || repaired <;> simp [hends]
    | true =>
      cases hinner : r.innerStop start with
      | none => cases hmissing : r.settings.acceptsNoTrailer || repaired <;> simp [hends]
      | some stop => simp [hends]

/-! ## §2 Records -/

theorem spansOf_eq (frame : Bytes) :
    Scanner.spansOf r.format frame frame.length = r.spansOf frame := by
  unfold Scanner.spansOf spansOf
  cases r.format.divide frame with
  | error e => rfl
  | ok spans => simp [Except.toOption, Option.filter_some]

theorem isWithin_of_spansOf {frame : Bytes} {spans : List Span}
    (h : r.spansOf frame = some spans) : ∀ span ∈ spans, span.isWithin frame.length = true := by
  obtain ⟨-, hall⟩ := Option.filter_eq_some_iff.mp h
  exact List.all_eq_true.mp hall

theorem takeParts_eq {start stop : Nat} (hstop : stop ≤ r.bytes.length) (spans : List Span)
    (hspans : ∀ span ∈ spans, span.isWithin (stop - start) = true) (table : InternTable)
    (taken : Array Part) :
    Scanner.takeParts r.format start (r.bytes.between start stop).toArray spans table taken =
      (taken.toList ++ (r.parts start spans table).1, (r.parts start spans table).2) := by
  induction spans generalizing table taken with
  | nil => simp [Scanner.takeParts, parts]
  | cons span rest ih =>
    have hrest := fun t a => ih (fun s hs => hspans s (List.mem_cons_of_mem _ hs)) t a
    obtain ⟨hle, hin⟩ : span.start ≤ span.stop ∧ span.stop ≤ stop - start := by
      simpa [Span.isWithin] using hspans span (List.mem_cons_self ..)
    -- a part of the frame is the part of the source as far behind the start
    have hcontent :
        ((r.bytes.between start stop).toArray.extract span.start span.stop).toList =
          r.bytes.between (start + span.start) (start + span.stop) := by
      have hlen := Bytes.length_between start hstop
      rw [(Bytes.hasAt_between r.bytes start stop).between_part (hlen ▸ hin)]
      simp [Bytes.between]
    rw [Scanner.takeParts, parts, hcontent]
    -- the table changes only where the kind recurs
    by_cases hrecurs : r.format.recurs span.kind = true
    · simp [hrecurs, hrest]
    · simp [hrecurs, hrest]

/-- The frame from `start` to `stop` is read, divided and taken up. -/
theorem readRecord_eq (h : r.Describes source) (st : State) {start stop headerFrom : Nat}
    (repaired : Bool) (hle : start ≤ stop) (hstop : stop ≤ r.bytes.length) :
    (r.scanner source st).readRecord ⟨start, stop, repaired⟩ headerFrom =
      match r.spansOf (r.bytes.between start stop) with
      | none => (.ok none, st.table)
      | some spans =>
        (.ok (some ⟨r.headerOf start headerFrom, start, stop, (r.parts start spans st.table).1,
          repaired⟩), (r.parts start spans st.table).2) := by
  have hlen := Bytes.length_between start hstop
  have hframe : source.readExact start (stop - start) = .ok (r.bytes.between start stop) := by
    have hend : start + (stop - start) = stop := by omega
    rw [Source.readExact_eq h.steady, h.bytes, hend, if_pos (.inr hstop)]
  have hdivide : Scanner.spansOf r.format (r.bytes.between start stop) (stop - start) =
      r.spansOf (r.bytes.between start stop) := by
    rw [← hlen, spansOf_eq]
  unfold Scanner.readRecord
  simp only [scanner, hframe, noneAtEnd, hdivide]
  cases hspans : r.spansOf (r.bytes.between start stop) with
  | none => rfl
  | some spans =>
    have hwithin := isWithin_of_spansOf hspans
    rw [hlen] at hwithin
    -- the header ends where the frame starts, so it lies inside the source as well
    have hheader : source.readExact
          (start - min (start - headerFrom) r.settings.headerLimit)
          (min (start - headerFrom) r.settings.headerLimit) =
        .ok (r.headerOf start headerFrom) := by
      have hend : start - min (start - headerFrom) r.settings.headerLimit +
          min (start - headerFrom) r.settings.headerLimit = start := by omega
      rw [Source.readExact_eq h.steady, h.bytes, hend, if_pos (.inr (by omega)), headerOf]
    simp only [takeParts_eq hstop spans hwithin, hheader, List.nil_append]

/-! ## §3 One step and one pull -/

theorem measure_eq (h : r.Describes source) (start : Nat) :
    r.format.measure source start =
      .ok (match r.view.preamble r.bytes start with
        | none => .dropped .cutOff false
        | some ⟨resume, none⟩ => .foreign resume
        | some ⟨_, some p⟩ =>
          r.format.extent r.bytes.length p (r.view.repair r.bytes p) start) := by
  unfold WireFormat.measure
  rw [h.reads.preamble source h.steady start, h.bytes]
  cases hread : r.view.preamble r.bytes start with
  | none => rfl
  | some reading =>
    -- a repair is asked only about a preamble that was accepted
    obtain ⟨resume, preamble⟩ := reading
    cases preamble with
    | none => rfl
    | some p =>
      have hanswer := h.reads.repair source h.steady p
      unfold Answers at hanswer
      rw [h.bytes] at hanswer
      cases hrepair : noneAtEnd (r.format.repair source p) with
      | error e => simp [hrepair, Except.map] at hanswer
      | ok answer =>
        simp only [hrepair, Except.map, Except.ok.injEq] at hanswer
        simp only [hanswer, h.size_eq, hrepair]

/-- A frame whose length was measured is settled by the verdict on that length. -/
theorem settle_eq (h : r.Describes source) (st : State) {start total : Nat} (repaired : Bool)
    (headerFrom : Nat) (hmin : r.format.minLength ≤ total)
    (hsize : start + total ≤ r.bytes.length) :
    (r.scanner source (st.countRepair repaired)).settle ⟨start, start + total, repaired⟩ headerFrom =
      r.stepOf source st start headerFrom (r.verdictOf start total repaired) := by
  have hconfirm := h.confirm_eq start total repaired
  rw [verdictOf, if_neg (by omega), if_neg (by omega)]
  unfold Scanner.settle
  simp only [scanner_format, scanner_settings, scanner_source, hconfirm]
  cases hstop : r.stopOf start total repaired with
  | none => rfl
  | some stop =>
    -- a confirmed end lies in the source and behind the start
    have hfacts := WireFormat.confirm_facts (hconfirm.trans (by rw [hstop]; rfl))
      (by simp only; omega) (by rw [h.size_eq]; exact hsize)
    rw [h.size_eq] at hfacts
    obtain ⟨-, hlow, hhigh⟩ := hfacts
    simp only at hlow hhigh
    simp only [Option.map_some]
    rw [h.readRecord_eq _ repaired (by omega) hhigh]
    cases r.spansOf (r.bytes.between start stop) with
    | none => rfl
    | some spans => rfl

/-- A magic is examined by the verdict on it. -/
theorem examine_eq (h : r.Describes source) (st : State) (start headerFrom : Nat) :
    (r.scanner source st).examine start headerFrom =
      r.stepOf source st start headerFrom (r.verdict start) := by
  unfold Scanner.examine verdict
  simp only [scanner_format, scanner_source, h.measure_eq]
  rcases r.view.preamble r.bytes start with _ | ⟨resume, _ | p⟩
  · rfl
  · rfl
  · simp only [WireFormat.extent]
    -- both sides take the repaired length where there is one
    generalize htotal : (r.view.repair r.bytes p).getD p.declared = total
    by_cases hmin : total < r.format.minLength
    · rw [if_pos hmin, verdictOf, if_pos hmin]
      simp only [scanner_countRepair]
      rfl
    · by_cases hsize : r.bytes.length < start + total
      · rw [if_neg hmin, if_pos hsize, verdictOf, if_neg hmin, if_pos hsize]
        simp only [scanner_countRepair]
        rfl
      · rw [if_neg hmin, if_neg hsize]
        simp only [scanner_countRepair]
        exact h.settle_eq st _ headerFrom (by omega) (by omega)

/-- A step of the scanner finds the next magic, and goes by the verdict on it. -/
theorem step_eq (h : r.Describes source) (st : State) (headerFrom : Nat) :
    (r.scanner source st).step headerFrom =
      match r.bytes.firstOccurrence r.format.magic st.cursor with
      | none => .stop (.ok none) (r.scanner source { st with cursor := r.bytes.length })
      | some start => r.stepOf source st start headerFrom (r.verdict start) := by
  have hfinish : (r.scanner source st).finish =
      r.scanner source { st with cursor := r.bytes.length } := by
    rw [← h.size_eq]
    rfl
  -- the search finds the first occurrence, and the magic there is judged as in the plain scan
  unfold Scanner.step
  rw [hfinish]
  by_cases hend : source.size ≤ st.cursor
  · -- no occurrence starts at or behind the end
    have hnone : r.bytes.firstOccurrence r.format.magic st.cursor = none := by
      rw [Bytes.firstOccurrence_eq_none_iff]
      intro p hpos hlt
      rw [h.size_eq] at hend
      omega
    rw [hnone]
    exact if_pos hend
  · have hfind : source.find st.cursor r.format.magic none r.settings.blockSize =
        .ok (r.bytes.firstOccurrence r.format.magic st.cursor) := by
      rw [Source.find_none_eq h.steady _ (fun _ => by omega), h.bytes]
    refine (if_neg hend).trans ?_
    simp only [scanner_format, scanner_source, scanner_settings, scanner_cursor, hfind]
    cases r.bytes.firstOccurrence r.format.magic st.cursor with
    | none => rfl
    | some start => exact h.examine_eq st start headerFrom

/-- The steps of a pull go on as the plain scan does, verdict by verdict. -/
theorem scanFrom_eq (h : r.Describes source) (st : State) (headerFrom : Nat) :
    (r.scanner source st).scanFrom headerFrom =
      (.ok (r.next st headerFrom).1, r.scanner source (r.next st headerFrom).2) := by
  -- the scan goes from magic to magic, and so does the induction
  fun_induction next r st headerFrom with
  | case1 st headerFrom hnone =>
    apply Scanner.scanFrom_of_stop
    rw [h.step_eq, hnone]
  | case2 st headerFrom start hfound _ resume hverdict ih =>
    rw [← ih]
    apply Scanner.scanFrom_of_resume
    rw [h.step_eq, hfound]
    simp only [hverdict, stepOf]
  | case3 st headerFrom start hfound _ reason repaired hverdict ih =>
    rw [← ih]
    apply Scanner.scanFrom_of_resume
    rw [h.step_eq, hfound]
    simp only [hverdict, stepOf]
  | case4 st headerFrom start hfound _ stop repaired spans hverdict =>
    apply Scanner.scanFrom_of_stop
    rw [h.step_eq, hfound]
    simp only [hverdict, stepOf]
    rfl

/-- A pull of the scanner is a pull of the plain scan. -/
theorem next_scanner (h : r.Describes source) (st : State) :
    (r.scanner source st).next = (.ok (r.pull st).1, r.scanner source (r.pull st).2) := by
  have hscan : (r.scanner source st).next = (r.scanner source st).scan := rfl
  rw [hscan, Scanner.scan, scanner_cursor, h.scanFrom_eq]
  rfl

/-- After any number of pulls the scanner is as far as the plain scan. -/
theorem iterate_next (h : r.Describes source) (n : Nat) (st : State) :
    (fun s : Scanner => s.next.2)^[n] (r.scanner source st) =
      r.scanner source ((fun st => (r.pull st).2)^[n] st) := by
  induction n generalizing st with
  | zero => rfl
  | succ n ih => rw [Function.iterate_succ_apply, Function.iterate_succ_apply, h.next_scanner, ih]

end Describes

/-- Frames of an `A`, a length byte and a payload. -/
def sampleFormat : TaggedFormat where
  magic := [0x41]
  lengthWidth := 1
  trailer := []

end PlainScan

end Granule
