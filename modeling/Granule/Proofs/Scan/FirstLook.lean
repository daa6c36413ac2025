import Granule.Proofs.Frame.Grib1
import Granule.Proofs.Scan.Refinement
import Granule.Scan.FirstLook

/-!
# A Quick Look and a Scan

A quick look goes to the first magic of a source, as a scan does, and asks the
same questions there: the preamble, the length and its repair, the room in the
source, the trailer. It answers yes where the scan goes on to divide a frame.

There is one difference. A repair that runs into the end of the data has no
answer for the scan, which goes by the declared length; for the look it is a
source that cannot be read. The repair of large messages walks over sections that
a message has, so in a message that is divided it does not run out; in a tagged
frame it may.

**Main statements**:
- `Grib1.repair_of_divide` : in a message that is divided, the repair does not run out of data
- `WireFormat.looksLike_as_scanned` : what a quick look says about the first pull, and conversely
-/

namespace Granule

/-! ## §1 Repairs that run out of data -/

/-- The preamble at an offset is read, but the data end before the repair has an answer. -/
def WireFormat.RepairRunsOut (f : WireFormat) (source : Source) (start : Nat) : Prop :=
  ∃ resume p, f.preamble source start = .ok ⟨resume, some p⟩ ∧
    f.repair source p = .error .endOfData

theorem WireFormat.repairRunsOut_iff {f : WireFormat} {source : Source} {start resume : Nat}
    {p : Preamble} (h : f.preamble source start = .ok ⟨resume, some p⟩) :
    f.RepairRunsOut source start ↔ f.repair source p = .error .endOfData := by
  refine ⟨?_, fun hout => ⟨resume, p, h, hout⟩⟩
  rintro ⟨_, _, hread, hout⟩
  rw [h] at hread
  cases hread
  exact hout

namespace Grib1

variable {source : Source} {frame : Bytes} {start pos limit : Nat}

/-- The length of a section that was found in a frame is read off the source. -/
theorem readNat_of_span {s : Section} {found : Span} (hsteady : source.NeverFails)
    (hframe : source.bytes.HasAt start frame) (hlimit : limit ≤ frame.length)
    (h : s.span frame limit pos = .ok found) :
    source.readNat (start + pos) lengthWidth = .ok (found.stop - pos) ∧
      lengthWidth ≤ found.stop - pos ∧ pos ≤ found.stop := by
  unfold Section.span at h
  split at h
  · cases h
  rename_i hroom
  have hin : pos + lengthWidth ≤ frame.length := by omega
  have hread : source.bytes.between (start + pos) (start + pos + lengthWidth) =
      frame.between pos (pos + lengthWidth) := by
    rw [Nat.add_assoc]
    exact hframe.between_part hin
  have hne : frame ≠ [] := by
    rintro rfl
    simp [lengthWidth] at hin
  have hsize := hframe.length_le hne
  rw [Source.readNat_eq hsteady _ (by decide), if_pos (by omega), hread]
  simp only at h
  split at h
  · cases h
  · split at h
    · cases h
    · cases h
      simp only [Except.ok.injEq]
      omega

/-- A walk over the sections of a frame ends at the last one, which has a length of its own. -/
theorem passSections_of_spans {sections : List Section} {last : Section} {found : List Span}
    (hsteady : source.NeverFails) (hframe : source.bytes.HasAt start frame)
    (hlimit : limit ≤ frame.length)
    (h : Section.spans frame limit pos (sections ++ [last]) = .ok found) :
    ∃ stop length, passSections source sections.length (start + pos) = .ok (some stop) ∧
      source.readNat stop lengthWidth = .ok length := by
  -- on the sections: the stream is walked by the length fields the division has read
  induction sections generalizing pos found with
  | nil =>
    rw [List.nil_append, Section.spans] at h
    cases hspan : last.span frame limit pos with
    | error e => simp [hspan] at h
    | ok span => exact ⟨start + pos, _, rfl, (readNat_of_span hsteady hframe hlimit hspan).1⟩
  | cons s rest ih =>
    rw [List.cons_append, Section.spans] at h
    cases hspan : s.span frame limit pos with
    | error e => simp [hspan] at h
    | ok span =>
      obtain ⟨hread, hlong, hle⟩ := readNat_of_span hsteady hframe hlimit hspan
      cases hrest : Section.spans frame limit span.stop (rest ++ [last]) with
      | error e => simp [hspan, hrest, Except.map] at h
      | ok more =>
        obtain ⟨stop, length, hpass, hlast⟩ := ih hrest
        refine ⟨stop, length, ?_, hlast⟩
        rw [List.length_cons, passSections, hread]
        simp only [if_neg (Nat.not_lt.mpr hlong)]
        rwa [show start + pos + (span.stop - pos) = start + span.stop by omega]

/-- A byte of a frame is read off the source. -/
theorem readByte_of_hasAt (hsteady : source.NeverFails) (hframe : source.bytes.HasAt start frame)
    {i : Nat} (hi : i < frame.length) : readByte source (start + i) = .ok (frame.getD i 0) := by
  have hbyte : frame.HasAt i [frame.getD i 0] := by
    rw [Bytes.HasAt, List.drop_eq_getElem_cons hi, List.getD_eq_getElem?_getD,
      List.getElem?_eq_getElem hi, Option.getD_some]
    exact List.prefix_append [_] _
  rw [Source.readByte_eq_byteAt hsteady, (hframe.trans hbyte).byteAt_eq]
  rfl

/-- In a message that is divided, the repair does not run out of data. -/
theorem repair_of_divide {spans : List Span} (hsteady : source.NeverFails)
    (hframe : source.bytes.HasAt start frame) (h : divide frame = .ok spans) (field declared : Nat) :
    ∃ answer, largeMessageRepair source ⟨start, field, declared⟩ = .ok answer := by
  obtain ⟨product, rest, hproduct, hrest, -⟩ := exists_of_divide h
  obtain ⟨-, -, hmin, hstop⟩ := Section.span_facts hproduct
  have hlimit : frame.length - trailer.length ≤ frame.length := Nat.sub_le _ _
  have hlong : indicatorLength + Section.minLength .product ≤ frame.length := by omega
  simp only [Section.minLength] at hlong hmin
  -- the fields that the repair asks for lie in the product definition and in the data section
  have hlength := (readNat_of_span hsteady hframe hlimit hproduct).1
  have hcentre := readByte_of_hasAt hsteady hframe
    (show indicatorLength + 4 < frame.length by omega)
  have hflags := readByte_of_hasAt hsteady hframe
    (show indicatorLength + flagsOffset < frame.length by simp only [flagsOffset]; omega)
  rw [← Nat.add_assoc] at hcentre hflags
  obtain ⟨stop, excess, hpass, hexcess⟩ := passSections_of_spans hsteady hframe hlimit hrest
  have hstart : dataStart source (start + indicatorLength) (product.stop - indicatorLength)
      (frame.getD (indicatorLength + flagsOffset) 0) = .ok (some stop) := by
    have hbehind : start + indicatorLength + (product.stop - indicatorLength) =
        start + product.stop := by omega
    have hwhole : ¬ product.stop - indicatorLength < Section.minLength .product := by
      simp only [Section.minLength]
      omega
    rw [dataStart, if_neg hwhole, hbehind, hpass]
  unfold largeMessageRepair
  simp only [hlength, hcentre, hflags, hstart, hexcess, bind, Except.bind]
  split_ifs <;> exact ⟨_, rfl⟩

end Grib1

/-! ## §2 The magic that is looked at -/

namespace PlainScan

/-- The frame at a magic is found, whether or not it can be divided. -/
def Verdict.isFramed : Verdict → Bool
  | .record .. | .dropped .undivided _ => true
  | .foreign _ | .dropped _ _ => false

namespace Describes

variable {r : PlainScan} {source : Source} {start : Nat}

/-- Under strict settings, a frame whose length stands is found exactly where its trailer is, and a
repaired one needs none. -/
theorem isFramed_verdictOf (hend : r.settings.acceptsImpliedEnd = false)
    (hmissing : r.settings.acceptsNoTrailer = false) (total : Nat) (repaired : Bool) :
    (r.verdictOf start total repaired).isFramed ↔ r.format.minLength ≤ total ∧
      start + total ≤ r.bytes.length ∧ (repaired ∨ r.EndsAt (start + total)) := by
  -- without leniency an end is accepted if the trailer stands there, or if the length was repaired
  have hstop : (r.stopOf start total repaired).isSome ↔ repaired ∨ r.EndsAt (start + total) := by
    unfold stopOf
    rw [hend, hmissing]
    by_cases hends : r.EndsAt (start + total)
    · simp [hends]
    · cases repaired <;> simp [hends]
  unfold verdictOf
  by_cases hmin : total < r.format.minLength
  · rw [if_pos hmin]
    refine iff_of_false Bool.false_ne_true ?_
    rintro ⟨hle, -⟩
    omega
  by_cases hsize : r.bytes.length < start + total
  · rw [if_neg hmin, if_pos hsize]
    refine iff_of_false Bool.false_ne_true ?_
    rintro ⟨-, hle, -⟩
    omega
  rw [if_neg hmin, if_neg hsize, ← hstop]
  simp only [Nat.not_lt.mp hmin, Nat.not_lt.mp hsize, true_and]
  cases r.stopOf start total repaired with
  | none => simp [Verdict.isFramed]
  | some stop =>
    simp only [Option.isSome_some, iff_true]
    cases r.spansOf (r.bytes.between start stop) <;> rfl

/-- **One magic.** Under strict settings, a look says yes exactly where a frame is found, unless
the repair of its length runs out of data. -/
theorem looksLikeFrame_iff (h : r.Describes source)
    (hend : r.settings.acceptsImpliedEnd = false)
    (hmissing : r.settings.acceptsNoTrailer = false) :
    r.format.looksLikeFrame source r.settings start = .ok true ↔
      (r.verdict start).isFramed ∧ ¬ r.format.RepairRunsOut source start := by
  have hread := h.reads.preamble source h.steady start
  rw [h.bytes] at hread
  unfold WireFormat.looksLikeFrame verdict
  -- the preamble is read, then the repair is asked, then the length is judged
  rcases hview : r.view.preamble r.bytes start with _ | ⟨resume, _ | p⟩
  · rw [hview, noneAtEnd_eq_none_iff] at hread
    simp [hread, Verdict.isFramed]
  · rw [hview, noneAtEnd_eq_some_iff] at hread
    simp [hread, Verdict.isFramed]
  · rw [hview, noneAtEnd_eq_some_iff] at hread
    rw [WireFormat.repairRunsOut_iff hread]
    simp only [hread]
    rcases (h.reads.repair source h.steady p).cases with hrepair | ⟨hrepair, -⟩
    · rw [h.bytes] at hrepair
      simp only [hrepair, reduceCtorEq, not_false_eq_true, and_true, isFramed_verdictOf hend hmissing,
        WireFormat.extent, h.size_eq]
      generalize (r.view.repair r.bytes p).getD p.declared = total
      by_cases hmin : total < r.format.minLength
      · simp [hmin, Nat.not_le.mpr hmin]
      by_cases hsize : r.bytes.length < start + total
      · simp [hmin, hsize, Nat.not_le.mpr hsize]
      simp only [if_neg hmin, if_neg hsize, Nat.not_lt.mp hmin, Nat.not_lt.mp hsize, true_and,
        hend, hmissing, Bool.or_false, h.hasTrailer_eq]
      cases (r.view.repair r.bytes p).isSome <;> simp
    · simp [hrepair]

/-- **The look.** Under strict settings, it says yes exactly where the window holds the first magic
and a frame is found there, unless the repair of its length runs out of data. -/
theorem looksLike_iff (h : r.Describes source)
    (hend : r.settings.acceptsImpliedEnd = false)
    (hmissing : r.settings.acceptsNoTrailer = false)
    (hneeds : ∀ start, r.bytes.length ≤ start → r.view.preamble r.bytes start = none) :
    r.format.looksLike source r.settings ↔
      ∃ start, r.bytes.firstOccurrence r.format.magic 0 = some start ∧
        start + r.format.magic.length ≤ r.settings.lookWindow ∧
        (r.verdict start).isFramed ∧ ¬ r.format.RepairRunsOut source start := by
  have hlook : r.format.looksLike source r.settings ↔
      r.format.look source r.settings = .ok true := by
    unfold WireFormat.looksLike
    cases r.format.look source r.settings <;> simp
  rw [hlook]
  unfold WireFormat.look
  -- the search finds the first occurrence, unless the magic is empty and there is no byte
  by_cases hempty : r.format.magic = [] → 0 < source.size
  · rw [Source.find_eq h.steady _ _ hempty, h.bytes]
    cases r.bytes.firstOccurrence r.format.magic 0 with
    | none => simp
    | some start =>
      rw [Option.filter_some]
      by_cases hwindow : start + r.format.magic.length ≤ r.settings.lookWindow
      · simp [hwindow, h.looksLikeFrame_iff hend hmissing]
      · simp [hwindow]
  · -- an empty magic is found where no byte is, and then no preamble can be read
    obtain ⟨hmagic, hsize⟩ := Classical.not_imp.mp hempty
    rw [h.size_eq] at hsize
    have hfind : source.find 0 r.format.magic (some r.settings.lookWindow) r.settings.blockSize =
        .ok (some 0) := by
      rw [Source.find, hmagic]
      rfl
    have hnone : r.bytes.firstOccurrence r.format.magic 0 = none := by
      rw [Bytes.firstOccurrence_eq_none_iff]
      intro p _ hp
      omega
    have hunread : r.verdict 0 = .dropped .cutOff false := by
      rw [verdict, hneeds 0 (by omega)]
    simp [hfind, hnone, h.looksLikeFrame_iff hend hmissing, hunread, Verdict.isFramed]

end Describes

/-! ## §3 The first pull -/

variable {r : PlainScan} {source : Source} {start : Nat}

/-- A record does not start before the cursor. -/
theorem cursor_le_start {st : State} {headerFrom : Nat} {record : Record}
    (h : (r.next st headerFrom).1 = some record) : st.cursor ≤ record.start := by
  fun_induction next r st headerFrom with
  | case1 => cases h
  | case2 st headerFrom start hfound hplace resume hverdict ih =>
    have := ih h
    simp only [passForeign] at this
    omega
  | case3 st headerFrom start hfound hplace reason repaired hverdict ih =>
    have := ih h
    simp only [drop, resyncAt] at this
    omega
  | case4 st headerFrom start hfound hplace stop repaired spans hverdict =>
    cases h
    exact hplace.1

/-- The first record starts at the first magic exactly where the verdict on it is a record. -/
theorem pull_starts_at_iff (hfirst : r.bytes.firstOccurrence r.format.magic 0 = some start) :
    (∃ record, (r.pull {}).1 = some record ∧ record.start = start) ↔
      ∃ stop repaired spans, r.verdict start = .record stop repaired spans := by
  have hnext : r.pull {} = _ := next_of_some hfirst
  rw [hnext]
  cases hverdict : r.verdict start with
  | record stop repaired spans =>
    exact ⟨fun _ => ⟨stop, repaired, spans, rfl⟩, fun _ => ⟨_, rfl, rfl⟩⟩
  -- whatever is given after this candidate starts behind it
  | foreign resume =>
    refine iff_of_false ?_ (by simp)
    rintro ⟨record, hrecord, rfl⟩
    have := cursor_le_start hrecord
    simp only [passForeign] at this
    omega
  | dropped reason repaired =>
    refine iff_of_false ?_ (by simp)
    rintro ⟨record, hrecord, rfl⟩
    have := cursor_le_start hrecord
    simp only [drop, resyncAt] at this
    omega

end PlainScan

/-- The next pull gives a record that starts here. -/
def Scanner.FindsAt (s : Scanner) (start : Nat) : Prop :=
  ∃ record, s.next.1 = .ok (some record) ∧ record.start = start

namespace PlainScan.Describes

variable {r : PlainScan} {source : Source} {start : Nat}

/-- A fresh scanner finds a record at the first magic where the verdict is one. -/
theorem findsAt_iff (h : r.Describes source)
    (hfirst : r.bytes.firstOccurrence r.format.magic 0 = some start) :
    (Scanner.start source r.format r.settings).FindsAt start ↔
      ∃ stop repaired spans, r.verdict start = .record stop repaired spans := by
  rw [← pull_starts_at_iff hfirst]
  unfold Scanner.FindsAt
  rw [show Scanner.start source r.format r.settings = r.scanner source {} from rfl,
    h.next_scanner]
  simp

/-- Where a frame is found at the first magic, a fresh scanner goes on to divide it. -/
theorem step_of_isFramed (h : r.Describes source)
    (hfirst : r.bytes.firstOccurrence r.format.magic 0 = some start)
    (hframed : (r.verdict start).isFramed) :
    let s := Scanner.start source r.format r.settings
    s.FindsAt start ∨ ∃ repaired, s.step 0 = (s.countRepair repaired).resync start .undivided := by
  have hstep : (Scanner.start source r.format r.settings).step 0 =
      r.stepOf source {} start 0 (r.verdict start) := by
    have hstart := h.step_eq {} 0
    rwa [hfirst] at hstart
  cases hverdict : r.verdict start with
  | record stop repaired spans =>
    exact .inl ((h.findsAt_iff hfirst).mpr ⟨stop, repaired, spans, hverdict⟩)
  | foreign resume =>
    rw [hverdict] at hframed
    cases hframed
  | dropped reason repaired =>
    rw [hverdict] at hframed hstep
    cases reason with
    | undivided =>
      refine .inr ⟨repaired, hstep.trans ?_⟩
      cases repaired <;> rfl
    | tooShort => cases hframed
    | cutOff => cases hframed
    | noTrailer => cases hframed

end PlainScan.Describes

/-! ## §4 The formats at hand -/

/-- One of the length rules at hand. -/
def LengthRule.IsAtHand (rule : LengthRule) : Prop :=
  rule = LengthRule.none ∨ rule = Grib1.largeMessageRepair

/-- One of the formats at hand, with this length rule. -/
def WireFormat.IsAtHand (f : WireFormat) (rule : LengthRule) : Prop :=
  f = Grib1.format rule ∨ ∃ t : TaggedFormat, t.repair = rule ∧ f = t.format

/-- The formats at hand read the bytes, and a preamble has at least one. -/
theorem WireFormat.IsAtHand.exists_view {f : WireFormat} {rule : LengthRule}
    (hf : f.IsAtHand rule) (hrule : LengthRule.IsAtHand rule) :
    ∃ v : ByteView, f.ReadsAs v ∧
      ∀ (bs : Bytes) start, bs.length ≤ start → v.preamble bs start = none := by
  obtain ⟨answer, hanswer⟩ : ∃ answer, rule.ReadsAs answer := by
    rcases hrule with rfl | rfl
    · exact ⟨_, LengthRule.none_readsAs⟩
    · exact ⟨_, Grib1.largeMessageRepair_readsAs⟩
  have hunread : ∀ (bs : Bytes) (start before width : Nat), 0 < width → bs.length ≤ start →
      bs.natAt? (start + before) width = none := by
    intro bs start before width hwidth hle
    rw [Bytes.natAt?, if_neg (by omega)]
  rcases hf with rfl | ⟨t, ht, rfl⟩
  · refine ⟨_, Grib1.format_readsAs hanswer, fun bs start hle => ?_⟩
    show (bs.natAt? (start + _) 3).bind _ = none
    rw [hunread bs start _ 3 (by decide) hle, Option.bind_none]
  · refine ⟨_, TaggedFormat.format_readsAs (ht ▸ hanswer), fun bs start hle => ?_⟩
    show (bs.natAt? (start + _) t.fieldWidth).map _ = none
    rw [hunread bs start _ _ t.fieldWidth_pos hle, Option.map_none]

/-- A record is a frame that was divided. -/
theorem PlainScan.divide_of_verdict {r : PlainScan} {start stop : Nat} {repaired : Bool}
    {spans : List Span} (h : r.verdict start = .record stop repaired spans) :
    r.format.divide (r.bytes.between start stop) = .ok spans := by
  have hspans : r.spansOf (r.bytes.between start stop) = some spans := by
    unfold verdict verdictOf at h
    split at h
    · cases h
    · cases h
    · simp only at h
      split at h
      · cases h
      · split at h
        · cases h
        · split at h
          · cases h
          · split at h
            · cases h
            · rename_i hspans
              cases h
              exact hspans
  obtain ⟨hdivide, -⟩ := Option.filter_eq_some_iff.mp hspans
  cases hresult : r.format.divide (r.bytes.between start stop) with
  | error e =>
    rw [hresult] at hdivide
    cases hdivide
  | ok found =>
    rw [hresult] at hdivide
    cases hdivide
    rfl

namespace Grib1

theorem magicAt_of_preamble {source : Source} {start resume : Nat} {p : Preamble}
    (h : preamble source start = .ok ⟨resume, some p⟩) : p.magicAt = start := by
  unfold preamble at h
  cases hfield : source.readNat (start + magic.length) 3 with
  | error e => simp [hfield, bind, Except.bind] at h
  | ok field =>
    cases hfound : readByte source (start + magic.length + 3) with
    | error e => simp [hfield, hfound, bind, Except.bind] at h
    | ok found =>
      simp only [hfield, hfound, bind, Except.bind, pure, Except.pure, Except.ok.injEq,
        PreambleReading.mk.injEq] at h
      obtain ⟨-, hp⟩ := h
      split at hp
      · cases hp
        rfl
      · cases hp

/-- In a message that is found, a repair at hand does not run out of data. -/
theorem not_repairRunsOut {r : PlainScan} {source : Source} {rule : LengthRule}
    {start stop : Nat} {repaired : Bool} {spans : List Span} (hf : r.format = format rule)
    (hrule : LengthRule.IsAtHand rule) (h : r.Describes source)
    (hverdict : r.verdict start = .record stop repaired spans) :
    ¬ r.format.RepairRunsOut source start := by
  have hdivide := PlainScan.divide_of_verdict hverdict
  rw [hf] at hdivide ⊢
  rintro ⟨resume, p, hread, hout⟩
  have hmagicAt := magicAt_of_preamble hread
  subst hmagicAt
  rcases hrule with rfl | rfl
  · cases hout
  · have hframe : source.bytes.HasAt p.magicAt (r.bytes.between p.magicAt stop) := by
      rw [h.bytes]
      exact Bytes.hasAt_between _ _ _
    obtain ⟨answer, hanswer⟩ := repair_of_divide h.steady hframe hdivide p.field p.declared
    have hcontra := hanswer.symm.trans hout
    cases hcontra

end Grib1

/-! ## §5 Looking and scanning -/

/-- **A quick look and a scan**, under strict settings, on a source that never fails. Where the look
says yes, the window holds the first magic, and a fresh scanner finds a record there or drops it
because it cannot be divided. Where the window holds the first magic and a record is found there,
the look says yes unless the repair of its length runs out of data; which it may in a tagged frame
with the repair of large messages, and does not in a message. -/
theorem WireFormat.looksLike_as_scanned (f : WireFormat) (rule : LengthRule) (source : Source)
    (settings : ScanSettings) (hf : f.IsAtHand rule) (hrule : LengthRule.IsAtHand rule)
    (hsteady : source.NeverFails) (hend : settings.acceptsImpliedEnd = false)
    (hmissing : settings.acceptsNoTrailer = false) :
    let s := Scanner.start source f settings
    (f.looksLike source settings → ∃ start, source.bytes.firstOccurrence f.magic 0 = some start ∧
      start + f.magic.length ≤ settings.lookWindow ∧
      (s.FindsAt start ∨
        ∃ repaired, s.step 0 = (s.countRepair repaired).resync start .undivided)) ∧
    (∀ start, source.bytes.firstOccurrence f.magic 0 = some start →
      start + f.magic.length ≤ settings.lookWindow → s.FindsAt start →
      (f.looksLike source settings ↔ ¬ f.RepairRunsOut source start) ∧
      (f = Grib1.format rule ∨ rule = LengthRule.none → f.looksLike source settings)) := by
  intro s
  obtain ⟨v, hreads, hneeds⟩ := hf.exists_view hrule
  let r : PlainScan := ⟨f, v, settings, source.bytes⟩
  have h : r.Describes source := ⟨hsteady, rfl, hreads⟩
  have hlook := h.looksLike_iff hend hmissing (hneeds source.bytes)
  refine ⟨?yes, ?found⟩
  case yes =>
    intro hyes
    obtain ⟨start, hfirst, hwindow, hframed, -⟩ := hlook.mp hyes
    exact ⟨start, hfirst, hwindow, h.step_of_isFramed hfirst hframed⟩
  case found =>
    intro start hfirst hwindow hfinds
    obtain ⟨stop, repaired, spans, hverdict⟩ := (h.findsAt_iff hfirst).mp hfinds
    have hiff : f.looksLike source settings ↔ ¬ f.RepairRunsOut source start := by
      refine hlook.trans ⟨?_, fun hstays => ⟨start, hfirst, hwindow, by rw [hverdict]; rfl, hstays⟩⟩
      -- there is only one first occurrence
      rintro ⟨other, hother, -, -, hstays⟩
      obtain rfl : start = other := Option.some.inj (hfirst.symm.trans hother)
      exact hstays
    refine ⟨hiff, fun hwhich => hiff.mpr ?_⟩
    rcases hwhich with hmessages | hnone
    · exact Grib1.not_repairRunsOut hmessages hrule h hverdict
    · -- a rule that has no answer reads nothing
      subst hnone
      rintro ⟨resume, p, -, hout⟩
      rcases hf with rfl | ⟨t, ht, rfl⟩
      · cases hout
      · rw [show t.format.repair = t.repair from rfl, ht] at hout
        cases hout

/-- A frame behind a byte that is none of it. -/
theorem WireFormat.looksLike_as_scanned_sample :
    (PlainScan.sampleFormat.format.IsAtHand LengthRule.none ∧
      LengthRule.IsAtHand LengthRule.none ∧ (Source.ofBytes [9, 0x41, 1, 7, 0x41]).NeverFails ∧
      ({} : ScanSettings).acceptsImpliedEnd = false ∧
      ({} : ScanSettings).acceptsNoTrailer = false) ∧
      (Scanner.start (.ofBytes [9, 0x41, 1, 7, 0x41]) PlainScan.sampleFormat.format {}).FindsAt 1 ∧
      PlainScan.sampleFormat.format.looksLike (.ofBytes [9, 0x41, 1, 7, 0x41]) {} := by
  have hf : PlainScan.sampleFormat.format.IsAtHand LengthRule.none := .inr ⟨_, rfl, rfl⟩
  let r : PlainScan := ⟨PlainScan.sampleFormat.format, PlainScan.sampleFormat.view fun _ _ => none,
    {}, [9, 0x41, 1, 7, 0x41]⟩
  have h : r.Describes (.ofBytes r.bytes) := ⟨Source.neverFails_ofBytes _, Source.bytes_ofBytes _,
    TaggedFormat.format_readsAs LengthRule.none_readsAs⟩
  have hverdict : r.verdict 1 = .record 4 false [⟨0, 2, 3⟩] := by rfl
  have hfirst : (Source.ofBytes [9, 0x41, 1, 7, 0x41]).bytes.firstOccurrence
      PlainScan.sampleFormat.format.magic 0 = some 1 := by decide
  have hfinds := (h.findsAt_iff (Source.bytes_ofBytes r.bytes ▸ hfirst)).mpr ⟨_, _, _, hverdict⟩
  have hlooks := looksLike_as_scanned PlainScan.sampleFormat.format LengthRule.none
    (.ofBytes [9, 0x41, 1, 7, 0x41]) {} hf (.inl rfl) rfl rfl rfl
  exact ⟨⟨hf, .inl rfl, rfl, rfl, rfl⟩, hfinds,
    (hlooks.2 1 hfirst (by decide) hfinds).2 (.inr rfl)⟩

end Granule
