import Granule.Proofs.Frame.Forward
import Granule.Proofs.Scan.Soundness
import Granule.Proofs.Scan.Termination

/-!
# Scanning the Rest of a Source

Behind a record a scan goes on like a fresh one of the bytes that are left. No search, trailer,
repair, inner structure or header looks at a byte before the cursor, and every offset is relative
to one that is found there; so the fresh scan finds the same records, nearer to its start by as
much as was left out.

Only the tables differ: that of the fresh scan starts empty. What a part holds is got from the
table by its fingerprint, so it is the same in both unless one of them has something else under
that fingerprint.

**Main statements**:
- `PlainScan.CutsAt.verdict_rest` : a magic becomes the same in the rest and in the whole
- `PlainScan.CutsAt.next_rest` : so does a pull
- `PlainScan.Abreast.run` : and so do all calls
- `Run.goes_on_as_fresh` : behind a record, a scan goes on like one of the rest
-/

namespace Granule

/-! ## §1 Verdicts -/

namespace PlainScan

/-- The scan of the bytes from `e` on. -/
def rest (r : PlainScan) (e : Nat) : PlainScan := { r with bytes := r.bytes.drop e }

@[simp] theorem rest_format (r : PlainScan) (e : Nat) : (r.rest e).format = r.format := rfl

@[simp] theorem rest_settings (r : PlainScan) (e : Nat) : (r.rest e).settings = r.settings := rfl

/-- The scan looks forward, and the offset lies in its bytes. -/
structure CutsAt (r : PlainScan) (e : Nat) : Prop where
  inside : e ≤ r.bytes.length
  forward : r.view.Forward
  trailer : r.format.trailer.length ≤ r.format.minLength

/-- The same verdict, `e` bytes further on. -/
def Verdict.behind (e : Nat) : Verdict → Verdict
  | .foreign resume => .foreign (e + resume)
  | .dropped reason repaired => .dropped reason repaired
  | .record stop repaired spans => .record (e + stop) repaired spans

namespace CutsAt

variable {r : PlainScan} {e : Nat}

theorem length_rest (h : r.CutsAt e) : e + (r.rest e).bytes.length = r.bytes.length := by
  rw [rest, List.length_drop]
  have hinside := h.inside
  omega

/-- A trailer that starts at `e` or later is that of the rest. -/
theorem endsAt_rest (h : r.CutsAt e) {stop : Nat} (hstop : r.format.trailer.length ≤ stop) :
    r.EndsAt (e + stop) ↔ (r.rest e).EndsAt stop := by
  have hlen := h.length_rest
  have hstart : e + stop - r.format.trailer.length = e + (stop - r.format.trailer.length) := by
    omega
  unfold EndsAt
  rw [hstart, ← Bytes.hasAt_drop_iff]
  refine and_congr ?_ (and_congr ?_ Iff.rfl)
  · exact iff_of_true (by omega) hstop
  · rw [← hlen, Nat.add_le_add_iff_left]

theorem innerStop_rest (h : r.CutsAt e) (start : Nat) :
    r.innerStop (e + start) = ((r.rest e).innerStop start).map (e + ·) := by
  have hiff : ∀ stop, e + start + r.format.minLength ≤ e + stop ∧ r.EndsAt (e + stop) ↔
      start + r.format.minLength ≤ stop ∧ (r.rest e).EndsAt stop := by
    intro stop
    have htrailer := h.trailer
    rw [Nat.add_assoc, Nat.add_le_add_iff_left]
    exact and_congr_right fun hlong => h.endsAt_rest (by omega)
  have hshown : r.view.impliedEnd r.bytes (e + start) =
      ((r.rest e).view.impliedEnd (r.rest e).bytes start).map (e + ·) :=
    h.forward.impliedEnd r.bytes e h.inside start
  unfold innerStop
  rw [hshown, rest_format]
  cases (r.rest e).view.impliedEnd (r.rest e).bytes start with
  | none => rfl
  | some stop =>
    rw [Option.map_some, Option.filter_some, Option.filter_some]
    simp only [hiff, apply_ite (Option.map (e + ·)), Option.map_some, Option.map_none]

theorem stopOf_rest (h : r.CutsAt e) (start : Nat) {total : Nat} (repaired : Bool)
    (hmin : r.format.minLength ≤ total) :
    r.stopOf (e + start) total repaired =
      ((r.rest e).stopOf start total repaired).map (e + ·) := by
  have htrailer := h.trailer
  have hends : r.EndsAt (e + (start + total)) ↔ (r.rest e).EndsAt (start + total) :=
    h.endsAt_rest (by omega)
  unfold stopOf
  rw [Nat.add_assoc, h.innerStop_rest]
  by_cases hthere : (r.rest e).EndsAt (start + total)
  · rw [if_pos (hends.mpr hthere), if_pos hthere]
    rfl
  · rw [if_neg (hends.not.mpr hthere), if_neg hthere, rest_settings]
    -- leniency is the same, and so is what the inner structure shows
    cases r.settings.acceptsImpliedEnd || repaired with
    | false => cases r.settings.acceptsNoTrailer || repaired <;> rfl
    | true =>
      cases (r.rest e).innerStop start with
      | none => cases r.settings.acceptsNoTrailer || repaired <;> rfl
      | some stop => rfl

theorem verdictOf_rest (h : r.CutsAt e) (start total : Nat) (repaired : Bool) :
    r.verdictOf (e + start) total repaired =
      ((r.rest e).verdictOf start total repaired).behind e := by
  have hcut : r.bytes.length < e + start + total ↔
      (r.rest e).bytes.length < start + total := by
    rw [← h.length_rest, Nat.add_assoc, Nat.add_lt_add_iff_left]
  unfold verdictOf
  by_cases hmin : total < r.format.minLength
  · rw [if_pos hmin, rest_format, if_pos hmin]
    rfl
  by_cases hsize : (r.rest e).bytes.length < start + total
  · rw [if_neg hmin, rest_format, if_neg hmin, if_pos (hcut.mpr hsize), if_pos hsize]
    rfl
  rw [if_neg hmin, rest_format, if_neg hmin, if_neg (hcut.not.mpr hsize), if_neg hsize,
    h.stopOf_rest start repaired (by omega)]
  cases (r.rest e).stopOf start total repaired with
  | none => rfl
  | some stop =>
    -- the frame has the same bytes, so it is divided in the same way
    have hframe : (r.rest e).bytes.between start stop = r.bytes.between (e + start) (e + stop) :=
      Bytes.between_drop r.bytes e start stop
    have hspans : (r.rest e).spansOf = r.spansOf := rfl
    simp only [Option.map_some, hframe, hspans]
    cases r.spansOf (r.bytes.between (e + start) (e + stop)) <;> rfl

/-- What becomes of a magic of the rest becomes of it in the whole, `e` bytes further on. -/
theorem verdict_rest (h : r.CutsAt e) (start : Nat) :
    r.verdict (e + start) = ((r.rest e).verdict start).behind e := by
  have hread : r.view.preamble r.bytes (e + start) =
      ((r.rest e).view.preamble (r.rest e).bytes start).map (·.behind e) :=
    h.forward.preamble r.bytes e h.inside start
  unfold verdict
  rw [hread]
  rcases (r.rest e).view.preamble (r.rest e).bytes start with _ | ⟨resume, _ | p⟩
  · rfl
  · rfl
  · have hrepair : r.view.repair r.bytes (p.behind e) = (r.rest e).view.repair (r.rest e).bytes p :=
      h.forward.repair r.bytes e h.inside p
    simp only [Option.map_some, PreambleReading.behind, hrepair]
    exact h.verdictOf_rest start _ _

end CutsAt

/-- No byte before `e` is header if none before it counts. -/
theorem headerOf_rest (r : PlainScan) (e start headerFrom : Nat) :
    r.headerOf (e + start) (e + headerFrom) = (r.rest e).headerOf start headerFrom := by
  unfold headerOf rest
  rw [Bytes.between_drop, Nat.add_sub_add_left, Nat.add_sub_assoc]
  omega

end PlainScan

/-! ## §2 Records -/

/-- The same part, `e` bytes further on. What it holds is the same, unless it was got from a table
under a fingerprint that both have. -/
structure Part.Behind (e : Nat) (part part' : Part) : Prop where
  offset : part.offset = e + part'.offset
  interned : part.interned.isSome = part'.interned.isSome
  content : part.content = part'.content ∨
    part.interned.isSome ∧ part.content.Collides (· = part'.content)

/-- The same record, `e` bytes further on. -/
structure Record.Behind (e : Nat) (r r' : Record) : Prop where
  header : r.header = r'.header
  start : r.start = e + r'.start
  stop : r.stop = e + r'.stop
  isRepaired : r.isRepaired = r'.isRepaired
  parts : List.Forall₂ (Part.Behind e) r.parts r'.parts

namespace PlainScan

variable {r : PlainScan} {e : Nat}

/-- The parts of a frame of the rest are those of the frame in the whole, whatever the tables have
in them. -/
theorem parts_rest (r : PlainScan) (e start : Nat) (spans : List Span) {table table' : InternTable}
    (hkeyed : table.Keyed) (hkeyed' : table'.Keyed) :
    List.Forall₂ (Part.Behind e) (r.parts (e + start) spans table).1
        ((r.rest e).parts start spans table').1 ∧
      (r.parts (e + start) spans table).2.Keyed ∧
      ((r.rest e).parts start spans table').2.Keyed := by
  induction spans generalizing table table' with
  | nil => exact ⟨.nil, hkeyed, hkeyed'⟩
  | cons span rest ih =>
    have hcontent : (r.rest e).contentOf start span = r.contentOf (e + start) span := by
      simp only [contentOf, PlainScan.rest, Bytes.between_drop, Nat.add_assoc]
    by_cases hrecurs : r.format.recurs span.kind = true
    · obtain ⟨kept, hkept, hkey⟩ := hkeyed.fingerprint_intern (r.contentOf (e + start) span)
      obtain ⟨kept', hkept', hkey'⟩ := hkeyed'.fingerprint_intern (r.contentOf (e + start) span)
      obtain ⟨hrest, hlast, hlast'⟩ := ih (hkeyed.intern (r.contentOf (e + start) span))
        (hkeyed'.intern (r.contentOf (e + start) span))
      rw [← hcontent] at hkept'
      rw [parts_cons_of_recurs hrecurs hkept, parts_cons_of_recurs (r := r.rest e) hrecurs hkept',
        hcontent]
      refine ⟨.cons ⟨Nat.add_assoc .., rfl, ?_⟩ hrest, hlast, hlast'⟩
      -- both tables answered to one fingerprint
      by_cases hsame : kept = kept'
      · exact .inl hsame
      · exact .inr ⟨rfl, kept', rfl, Ne.symm hsame, hkey'.trans hkey.symm⟩
    · obtain ⟨hrest, hlast, hlast'⟩ := ih hkeyed hkeyed'
      rw [parts_cons_of_not_recurs hrecurs, parts_cons_of_not_recurs (r := r.rest e) hrecurs]
      exact ⟨.cons ⟨Nat.add_assoc .., rfl, .inl hcontent.symm⟩ hrest, hlast, hlast'⟩

end PlainScan

/-! ## §3 Pulls -/

instance : Add ScanTally where
  add a b := {
    records := a.records + b.records
    misframed := a.misframed + b.misframed
    cutOff := a.cutOff + b.cutOff
    undivided := a.undivided + b.undivided
    repaired := a.repaired + b.repaired
    foreign := a.foreign + b.foreign }

theorem ScanTally.add_add (a b : ScanTally) (reason : DropReason) :
    (a + b).add reason = a + b.add reason := by
  cases reason <;> rfl

namespace PlainScan

/-- A scan has come `e` bytes further than another, and counted so much more. -/
structure State.Behind (e : Nat) (counted : ScanTally) (st st' : State) : Prop where
  cursor : st.cursor = e + st'.cursor
  tally : st.tally = counted + st'.tally
  keyed : st.table.Keyed
  keyed' : st'.table.Keyed

variable {r : PlainScan} {e : Nat} {counted : ScanTally} {st st' : State}

namespace State.Behind

theorem countRepair (h : st.Behind e counted st') (repaired : Bool) :
    (st.countRepair repaired).Behind e counted (st'.countRepair repaired) := by
  cases repaired with
  | false => exact h
  | true => exact { h with tally := by simp only [State.countRepair, if_true, h.tally]; rfl }

theorem passForeign (h : st.Behind e counted st') (start resume : Nat) :
    (r.passForeign st (e + start) (e + resume)).Behind e counted
      ((r.rest e).passForeign st' start resume) where
  cursor := by
    simp only [PlainScan.passForeign, rest_format]
    omega
  tally := by simp only [PlainScan.passForeign, h.tally]; rfl
  keyed := h.keyed
  keyed' := h.keyed'

theorem drop (h : st.Behind e counted st') (start : Nat) (reason : DropReason) :
    (r.drop st (e + start) reason).Behind e counted ((r.rest e).drop st' start reason) where
  cursor := Nat.add_assoc ..
  tally := by
    simp only [PlainScan.drop, h.tally]
    exact ScanTally.add_add ..
  keyed := h.keyed
  keyed' := h.keyed'

theorem passRecord (h : st.Behind e counted st') (start stop : Nat) (spans : List Span) :
    (r.passRecord st (e + start) (e + stop) spans).Behind e counted
      ((r.rest e).passRecord st' start stop spans) where
  cursor := rfl
  tally := by simp only [PlainScan.passRecord, h.tally]; rfl
  keyed := (r.parts_rest e start spans h.keyed h.keyed').2.1
  keyed' := (r.parts_rest e start spans h.keyed h.keyed').2.2

end State.Behind

/-- **One pull.** What the scan of the rest finds next, the scan of the whole finds as well, `e` bytes
further on. -/
theorem CutsAt.next_rest (h : r.CutsAt e) (hst : st.Behind e counted st') (headerFrom : Nat) :
    Option.Rel (Record.Behind e) (r.next st (e + headerFrom)).1
        ((r.rest e).next st' headerFrom).1 ∧
      (r.next st (e + headerFrom)).2.Behind e counted ((r.rest e).next st' headerFrom).2 := by
  have hfirst : ∀ {st st' : State}, st.Behind e counted st' →
      r.bytes.firstOccurrence r.format.magic st.cursor =
        ((r.rest e).bytes.firstOccurrence (r.rest e).format.magic st'.cursor).map (e + ·) := by
    intro st st' hst
    rw [hst.cursor]
    exact Bytes.firstOccurrence_drop ..
  -- the scan of the rest goes from magic to magic, and so does the induction
  fun_induction next (r.rest e) st' headerFrom generalizing st with
  | case1 st' headerFrom hnone =>
    have hnone' := hfirst hst
    rw [hnone] at hnone'
    rw [next_of_none hnone']
    exact ⟨.none, h.length_rest.symm, hst.tally, hst.keyed, hst.keyed'⟩
  | case2 st' headerFrom start hfound _ resume hverdict ih =>
    have hfound' := hfirst hst
    rw [hfound] at hfound'
    rw [next_of_some hfound', h.verdict_rest, hverdict]
    exact ih (hst.passForeign start resume)
  | case3 st' headerFrom start hfound _ reason repaired hverdict ih =>
    have hfound' := hfirst hst
    rw [hfound] at hfound'
    rw [next_of_some hfound', h.verdict_rest, hverdict]
    have hresync : r.resyncAt (e + start) = e + (r.rest e).resyncAt start := Nat.add_assoc ..
    simp only [Verdict.behind, hresync]
    exact ih ((hst.countRepair repaired).drop start reason)
  | case4 st' headerFrom start hfound _ stop repaired spans hverdict =>
    have hfound' := hfirst hst
    rw [hfound] at hfound'
    rw [next_of_some hfound', h.verdict_rest, hverdict]
    have hcounted := hst.countRepair repaired
    refine ⟨.some ?_, hcounted.passRecord start stop spans⟩
    exact ⟨r.headerOf_rest e start headerFrom, rfl, rfl, rfl,
      (r.parts_rest e start spans hcounted.keyed hcounted.keyed').1⟩

end PlainScan

/-! ## §4 Calls -/

namespace Scanner

/-- The same answer, `e` bytes further on. -/
inductive Answer.Behind (e : Nat) : Answer → Answer → Prop
  | more : Behind e .more .more
  | nothing : Behind e .nothing .nothing
  | record {r r' : Record} (h : r.Behind e r') : Behind e (.record r) (.record r')

end Scanner

namespace PlainScan

variable {r : PlainScan} {e : Nat} {counted : ScanTally} {source rest : Source}

/-- A scanner of the whole has come as far as one of the rest, and they keep the same record. -/
structure Abreast (r : PlainScan) (e : Nat) (counted : ScanTally) (source rest : Source)
    (s s' : Scanner) : Prop where
  states : ∃ st st' : State, st.Behind e counted st' ∧
    s = { r.scanner source st with peeked := s.peeked } ∧
    s' = { (r.rest e).scanner rest st' with peeked := s'.peeked }
  peeked : Option.Rel (Record.Behind e) s.peeked s'.peeked

/-- A scanner of a source is as far as some state of a plain scan, and keeps what it keeps. -/
theorem eq_scanner (r : PlainScan) {s : Scanner} (hsource : s.source = source)
    (hformat : s.format = r.format) (hsettings : s.settings = r.settings) :
    s = { r.scanner source ⟨s.cursor, s.tally, s.table⟩ with peeked := s.peeked } := by
  cases s
  cases hsource
  cases hformat
  cases hsettings
  rfl

namespace Abreast

variable {s s' : Scanner}

/-- A call is told the same, and leaves them abreast. -/
theorem answer (h : r.Abreast e counted source rest s s') (hcut : r.CutsAt e)
    (hwhole : r.Describes source) (hrest : (r.rest e).Describes rest) (c : Scanner.Call) :
    (s.answer c).1.Behind e (s'.answer c).1 ∧
      r.Abreast e counted source rest (s.answer c).2 (s'.answer c).2 := by
  obtain ⟨⟨st, st', hst, hs, hs'⟩, hpeeked⟩ := h
  generalize s.peeked = kept, s'.peeked = kept' at hs hs' hpeeked
  subst hs hs'
  cases hpeeked with
  | some hrecord =>
    rw [Scanner.answer_of_peeked rfl, Scanner.answer_of_peeked rfl]
    by_cases hc : c = .hasNext
    · rw [if_pos hc, if_pos hc]
      exact ⟨.more, ⟨st, st', hst, rfl, rfl⟩, .some hrecord⟩
    · rw [if_neg hc, if_neg hc]
      exact ⟨.record hrecord, ⟨st, st', hst, rfl, rfl⟩, .none⟩
  | none =>
    -- where nothing is kept, both scan on
    have hscan := hwhole.scanFrom_eq st (e + st'.cursor)
    have hscan' := hrest.scanFrom_eq st' st'.cursor
    obtain ⟨hfound, hleft⟩ := hcut.next_rest hst st'.cursor
    rw [← hst.cursor] at hscan hfound hleft
    show ((r.scanner source st).answer c).1.Behind e (((r.rest e).scanner rest st').answer c).1 ∧
      r.Abreast e counted source rest ((r.scanner source st).answer c).2
        (((r.rest e).scanner rest st').answer c).2
    rw [Scanner.answer_of_ok rfl hscan, Scanner.answer_of_ok rfl hscan']
    generalize (r.next st st.cursor).1 = found, ((r.rest e).next st' st'.cursor).1 = found'
      at hfound
    cases hfound with
    | none =>
      by_cases hc : c = .hasNext
      · rw [if_pos hc, if_pos hc]
        exact ⟨.nothing, ⟨_, _, hleft, rfl, rfl⟩, .none⟩
      · rw [if_neg hc, if_neg hc]
        exact ⟨.nothing, ⟨_, _, hleft, rfl, rfl⟩, .none⟩
    | some hrecord =>
      by_cases hc : c = .hasNext
      · rw [if_pos hc, if_pos hc]
        exact ⟨.more, ⟨_, _, hleft, rfl, rfl⟩, .some hrecord⟩
      · rw [if_neg hc, if_neg hc]
        exact ⟨.record hrecord, ⟨_, _, hleft, rfl, rfl⟩, .none⟩

/-- So do any calls. -/
theorem run (h : r.Abreast e counted source rest s s') (hcut : r.CutsAt e)
    (hwhole : r.Describes source) (hrest : (r.rest e).Describes rest)
    (calls : List Scanner.Call) :
    List.Forall₂ (Scanner.Answer.Behind e) (s.run calls).answers (s'.run calls).answers ∧
      r.Abreast e counted source rest (s.run calls).scanner (s'.run calls).scanner := by
  induction calls generalizing s s' with
  | nil => exact ⟨.nil, h⟩
  | cons c calls ih =>
    obtain ⟨htold, hleft⟩ := h.answer hcut hwhole hrest c
    obtain ⟨hanswers, hlast⟩ := ih hleft
    rw [Scanner.answers_run_cons, Scanner.answers_run_cons, Scanner.scanner_run_cons,
      Scanner.scanner_run_cons]
    exact ⟨.cons htold hanswers, hlast⟩

end Abreast

end PlainScan

/-! ## §5 Where a record leaves a scan -/

namespace Scanner

variable {s t : Scanner}

/-- A scan that ends with a record ends behind it. -/
theorem cursor_of_scanFrom {headerFrom : Nat} {record : Record}
    (h : s.scanFrom headerFrom = (.ok (some record), t)) : t.cursor = record.stop := by
  have hends : ∀ record, (s.scanFrom headerFrom).1 = .ok (some record) →
      (s.scanFrom headerFrom).2.cursor = record.stop := by
    refine scanFrom_induct (fun _ _ _ => True)
      (fun _ answer t => ∀ record, answer = .ok (some record) → t.cursor = record.stop)
      (fun _ _ _ => trivial) ?stop [] trivial
    intro past u after answer next x _ _ hstepped record hrecord
    subst hrecord
    cases hstepped with
    | record => rfl
  rw [h] at hends
  exact hends record rfl

/-- A record that is kept ends where the scan goes on. -/
def StandsBehind (s : Scanner) : Prop := ∀ record, s.peeked = some record → s.cursor = record.stop

/-- So does one that is handed out, and then none is kept. -/
theorem StandsBehind.answer (h : s.StandsBehind) (c : Call) :
    (s.answer c).2.StandsBehind ∧ ∀ record, (s.answer c).1 = .record record →
      (s.answer c).2.peeked = none ∧ (s.answer c).2.cursor = record.stop := by
  have hkept := s.peeked_scanFrom s.cursor
  have hcalled := s.called c
  generalize s.sought = sought, (s.answer c).1 = told, (s.answer c).2 = t at hcalled
  -- where nothing is kept there is nothing to show
  have hnone : t.peeked = none → t.StandsBehind := by
    intro hpeeked record hrecord
    rw [hpeeked] at hrecord
    cases hrecord
  cases hcalled with
  | kept => exact ⟨h, by simp⟩
  | handed hpeeked =>
    refine ⟨hnone rfl, fun record hrecord => ⟨rfl, ?_⟩⟩
    cases hrecord
    exact h _ hpeeked
  | found _ hscan =>
    have hcursor := cursor_of_scanFrom hscan
    refine ⟨fun record hrecord => ?_, by simp⟩
    cases hrecord
    exact hcursor
  | pulled hpeeked hscan =>
    rw [hscan, hpeeked] at hkept
    refine ⟨hnone hkept, fun record hrecord => ⟨hkept, ?_⟩⟩
    cases hrecord
    exact cursor_of_scanFrom hscan
  | ended hpeeked hscan =>
    rw [hscan, hpeeked] at hkept
    exact ⟨hnone hkept, by simp⟩
  | failed hpeeked hscan =>
    rw [hscan, hpeeked] at hkept
    exact ⟨hnone hkept, by simp⟩
  | closed _ hpeeked hscan =>
    rw [hscan, hpeeked] at hkept
    exact ⟨hnone hkept, by simp⟩

end Scanner

namespace Run

theorem standsBehind (source : Source) (format : WireFormat) (settings : ScanSettings)
    (calls : List Scanner.Call) :
    ((Scanner.start source format settings).run calls).scanner.StandsBehind :=
  Scanner.run_induct (fun _ run => run.scanner.StandsBehind)
    (by simp [Scanner.StandsBehind, Scanner.start]) (fun _ _ c h => (h.answer c).1) calls

/-- A run that goes on is further on by this than a fresh one, and has counted this before. -/
structure FurtherOn (offset : Nat) (counted : ScanTally) (late fresh : Run) : Prop where
  answers : List.Forall₂ (Scanner.Answer.Behind offset) late.answers fresh.answers
  tally : late.scanner.tally = counted + fresh.scanner.tally
  cursor : late.scanner.cursor = offset + fresh.scanner.cursor

/-- Behind a record, in exact numbers. -/
theorem furtherOn {source rest : Source} {format : WireFormat} (settings : ScanSettings)
    (hformat : format.IsForward) (hsteady : source.NeverFails) (hsteady' : rest.NeverFails)
    (earlier later : List Scanner.Call) (c : Scanner.Call) (record : Record)
    (hrecord : (((Scanner.start source format settings).run earlier).scanner.answer c).1 =
      .record record)
    (hrest : rest.bytes = source.bytes.drop record.stop) :
    let s := (((Scanner.start source format settings).run earlier).scanner.answer c).2
    FurtherOn record.stop s.tally (s.run later) ((Scanner.start rest format settings).run later) := by
  intro s
  obtain ⟨v, hreads, hforward⟩ := hformat.reads
  let r : PlainScan := ⟨format, v, settings, source.bytes⟩
  let run := (Scanner.start source format settings).run (earlier ++ [c])
  have hrun : run.scanner = s := congrArg Run.scanner (Scanner.run_concat _ earlier c)
  have htraced : Traced source format settings run.sightings run.scanner :=
    traced source format settings (earlier ++ [c])
  have hinside : run.scanner.cursor ≤ run.scanner.source.size :=
    (cursor_inside source format settings (earlier ++ [c])).1
  have hkeyed : run.scanner.table.Keyed :=
    (upheld source format settings (earlier ++ [c])).followed.keyed
  rw [hrun] at htraced hinside hkeyed
  obtain ⟨hpeeked, hcursor⟩ :=
    ((standsBehind source format settings earlier).answer c).2 record hrecord
  have hcut : r.CutsAt record.stop := by
    refine ⟨?_, hforward, hformat.trailer⟩
    rw [htraced.source_eq, hcursor] at hinside
    exact hinside.trans (Source.length_bytes source).ge
  -- behind the record, the scan of the whole and a fresh one of the rest are abreast
  have habreast : r.Abreast record.stop s.tally source rest s (.start rest format settings) := by
    refine ⟨⟨⟨s.cursor, s.tally, s.table⟩, {}, ⟨hcursor, rfl, hkeyed, InternTable.keyed_empty⟩,
      r.eq_scanner htraced.source_eq htraced.format_eq htraced.settings_eq, rfl⟩, ?_⟩
    rw [show s.peeked = none from hpeeked]
    exact .none
  obtain ⟨hanswers, ⟨st, st', hst, hlate, hfresh⟩, -⟩ :=
    habreast.run hcut ⟨hsteady, rfl, hreads⟩ ⟨hsteady', hrest, hreads⟩ later
  refine ⟨hanswers, ?tally, ?cursor⟩
  case tally =>
    rw [hlate, hfresh]
    exact hst.tally
  case cursor =>
    rw [hlate, hfresh]
    exact hst.cursor

/-- **Scanning is compositional.** When a machine told a record, whatever was called before, every
later call is told what a call to a fresh scan of the bytes behind the record is told: the same
records, with the same headers, parts and repairs, further on by where the record stops. And what
is counted by then is what had been counted at the record, and what the fresh scan counts. Each of
the two scans is answered if the machine has room for what it comes to. The formats at hand look
forward (`Grib1.isForward`, `TaggedFormat.isForward`), with the rules for lengths that come with
them. -/
theorem goes_on_as_fresh {source rest : Source} {format : WireFormat} {settings : ScanSettings}
    (hformat : format.IsForward) (hsteady : source.NeverFails) (hsteady' : rest.NeverFails)
    {earlier : List Scanner.Call} {before : Run} {c : Scanner.Call} {record : Record} {s : Scanner}
    (hbefore : (Scanner.start source format settings).runChecked earlier = .ok before)
    (hrecord : before.scanner.answerChecked c = .ok (.record record, s))
    (hrest : rest.bytes = source.bytes.drop record.stop) (later : List Scanner.Call) :
    let anew := Scanner.start rest format settings
    (anew.runChecked later).Gives (anew.FitsWords later) fun fresh =>
      (s.runChecked later).Gives (s.FitsWords later) fun late =>
        FurtherOn record.stop s.tally late fresh := by
  intro anew
  refine Scanner.gives_runChecked (Scanner.gives_runChecked ?_)
  obtain rfl := Scanner.run_of_runChecked hbefore
  have hanswer := Scanner.answer_of_answerChecked hrecord
  have hfurther := furtherOn settings hformat hsteady hsteady' earlier later c record
    (congrArg Prod.fst hanswer) hrest
  rwa [hanswer] at hfurther

/-- Two short frames, and the second one alone. -/
theorem goes_on_as_fresh_sample :
    let first := Scanner.start (.ofBytes [9, 0x41, 1, 7, 8, 0x41, 1, 6])
      PlainScan.sampleFormat.format {}
    let anew := Scanner.start (.ofBytes [8, 0x41, 1, 6]) PlainScan.sampleFormat.format {}
    ∃ s late fresh, first.answerChecked .next =
        .ok (.record ⟨[9], 1, 4, [⟨3, ⟨0, [7]⟩, none⟩], false⟩, s) ∧
      s.runChecked [.next, .next] = .ok late ∧ anew.runChecked [.next, .next] = .ok fresh ∧
      fresh.answers = [.record ⟨[8], 1, 4, [⟨3, ⟨0, [6]⟩, none⟩], false⟩, .nothing] ∧
      FurtherOn 4 s.tally late fresh := by
  intro first anew
  have hfirst : first.FitsWords [.next, .next, .next] :=
    fitsWords_of_room (fun _ => by decide) (by decide) _
  have hanew : anew.FitsWords [.next, .next] :=
    fitsWords_of_room (fun _ => by decide) (by decide) _
  obtain ⟨hanswered, hlate⟩ := hfirst.of_cons
  have hrecord : (first.answer .next).1 = .record ⟨[9], 1, 4, [⟨3, ⟨0, [7]⟩, none⟩], false⟩ := by
    decide +kernel
  rw [show first.answer .next = (_, (first.answer .next).2) from Prod.ext hrecord rfl] at hanswered
  -- no byte was called for before, and the first call has handed out its record
  have hgives := goes_on_as_fresh (TaggedFormat.isForward LengthRule.none_isForward)
    (Source.neverFails_ofBytes _) (Source.neverFails_ofBytes [8, 0x41, 1, 6])
    (show first.runChecked [] = .ok ⟨first, [], []⟩ from rfl) hanswered
    (by rw [Source.bytes_ofBytes, Source.bytes_ofBytes]; rfl) [.next, .next]
  obtain ⟨fresh, hfresh⟩ := hgives.total hanew
  obtain ⟨late, hlast⟩ := (hgives.sound fresh hfresh).total hlate
  refine ⟨_, late, fresh, hanswered, hlast, hfresh, ?_,
    (hgives.sound fresh hfresh).sound late hlast⟩
  rw [← Scanner.run_of_runChecked hfresh]
  decide +kernel

/-- A limit of `goes_on_as_fresh`: further on, a machine can give up on a frame that it drops for
good at the start of a source. -/
theorem given_up_further_on :
    let first := Scanner.start (.ofBytes [0x41, 0, 0x21, 0x41, 0, 0x3f]) farFormat.format {}
    let anew := Scanner.start (.ofBytes [0x41, 0, 0x3f]) farFormat.format {}
    ∃ s fresh p, first.answerChecked .next = .ok (.record ⟨[], 0, 3, [⟨2, ⟨0, []⟩, none⟩], false⟩, s) ∧
      s.runChecked [.next] = .error p ∧
      anew.runChecked [.next] = .ok fresh ∧ fresh.answers = [.nothing] := by
  intro first anew
  have hsearch : ({} : ScanSettings).SearchFits farFormat.format.magic := fun _ => by decide
  -- a record, behind which the next frame is dropped too far on; on its own it is not
  have hfirst : (first.run [.next]).sightings =
      [⟨0, .record ⟨[], 0, 3, [⟨2, ⟨0, []⟩, none⟩], false⟩, 3⟩] := by decide +kernel
  have hlater : (first.answer .next).2.sought = [⟨3, .dropped, 2 ^ 64 + 2⟩] := by decide +kernel
  have hanew : (anew.run [.next]).sightings = [⟨0, .dropped, 2 ^ 64 - 1⟩] := by decide +kernel
  have hfits : first.FitsWords [.next] :=
    ⟨hsearch, by rw [KeepsToWords, hfirst]; exact List.forall_mem_singleton.mpr fun h => by cases h⟩
  have hfits' : anew.FitsWords [.next] :=
    ⟨hsearch, by rw [KeepsToWords, hanew]; exact List.forall_mem_singleton.mpr fun _ => by decide⟩
  have hrecord : (first.answer .next).1 = .record ⟨[], 0, 3, [⟨2, ⟨0, []⟩, none⟩], false⟩ := by
    decide +kernel
  have hanswered := hfits.of_cons.1
  rw [show first.answer .next = (_, (first.answer .next).2) from Prod.ext hrecord rfl] at hanswered
  obtain ⟨p, hp⟩ := Scanner.error_of_dropped (s := (first.answer .next).2)
    (fun _ => by decide +kernel) (hlater ▸ List.mem_singleton_self _) rfl (by decide) .next
  exact ⟨_, _, p, hanswered, Scanner.runChecked_cons_of_error hp [], hfits'.runChecked_eq,
    by decide +kernel⟩

end Run

end Granule
