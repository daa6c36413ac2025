import Granule.Proofs.Scan.Words

/-!
# A Run of Pulls Is a Plain Scan

On a source that never fails, the answers to any number of pulls, and where they leave the
scanner, are read off the bytes by the plain scan. A machine gives the same answers wherever it
does not give up.

**Main statements**:
- `PlainScan.Describes.transcribes` : pull after pull, the scanner is as far as the plain scan
- `PlainScan.tells_of_reads` : so is a machine, for all formats at hand
-/

namespace Granule.PlainScan

def after (r : PlainScan) (n : Nat) : State := (fun st => (r.pull st).2)^[n] {}

/-- The answer of a plain scan to one more pull. -/
def told (r : PlainScan) (n : Nat) : Scanner.Answer :=
  match (r.pull (r.after n)).1 with
  | some record => .record record
  | none => .nothing

/-- A run is what the plain scan tells of so many pulls: the answers, the position and the
counters. -/
structure Transcribes (r : PlainScan) (n : Nat) (run : Run) : Prop where
  answers : run.answers = (List.range n).map r.told
  cursor : run.scanner.cursor = (r.after n).cursor
  tally : run.scanner.tally = (r.after n).tally

theorem after_succ (r : PlainScan) (n : Nat) : r.after (n + 1) = (r.pull (r.after n)).2 :=
  Function.iterate_succ_apply' (fun st => (r.pull st).2) n {}

/-- Pull after pull, the scanner is as far as the plain scan. -/
theorem Describes.run_pulls {r : PlainScan} {source : Source} (h : r.Describes source) (n : Nat) :
    let run := (Scanner.start source r.format r.settings).run (.replicate n .next)
    run.scanner = r.scanner source (r.after n) ∧ run.answers = (List.range n).map r.told := by
  intro run
  induction n with
  | zero => exact ⟨rfl, rfl⟩
  | succ n ih =>
    obtain ⟨hscanner, hanswers⟩ := ih
    have hlast := h.answer_next (r.after n)
    simp only [run, List.replicate_succ', Scanner.run_concat, Run.call]
    rw [hscanner, hanswers, hlast, after_succ, List.range_succ, List.map_append]
    exact ⟨rfl, rfl⟩

theorem Describes.transcribes {r : PlainScan} {source : Source} (h : r.Describes source)
    (n : Nat) :
    r.Transcribes n ((Scanner.start source r.format r.settings).run (.replicate n .next)) := by
  obtain ⟨hscanner, hanswers⟩ := h.run_pulls n
  exact ⟨hanswers, congrArg Scanner.cursor hscanner, congrArg Scanner.tally hscanner⟩

/-- **A scan is a plain scan** on a machine as well, for every format that reads bytes; and messages,
tagged frames, their variations and the length rules that come with them all do. The machine answers
all pulls if it has room for what the scan comes to. -/
theorem tells_of_reads :
    (∀ (r : PlainScan) (source : Source), source.NeverFails → source.bytes = r.bytes →
      r.format.ReadsAs r.view → ∀ n,
      let s := Scanner.start source r.format r.settings
      let pulls := List.replicate n Scanner.Call.next
      (s.runChecked pulls).Gives (s.FitsWords pulls) (r.Transcribes n)) ∧
    (∀ (repair : LengthRule) (answer : Bytes → Preamble → Option Nat), repair.ReadsAs answer →
      (Grib1.format repair).ReadsAs (Grib1.view answer)) ∧
    (∀ (t : TaggedFormat) (answer : Bytes → Preamble → Option Nat), t.repair.ReadsAs answer →
      t.format.ReadsAs (t.view answer)) ∧
    (∀ (f : WireFormat) (v : ByteView) (o : Variation), f.ReadsAs v →
      (f.vary o).ReadsAs (v.vary f o)) ∧
    LengthRule.none.ReadsAs (fun _ _ => none) ∧
    (∀ (whenField : Option Nat) (length : Nat), (LengthRule.fixed whenField length).ReadsAs
      fun _ p => if whenField.all (· = p.field) then some length else none) ∧
    Grib1.largeMessageRepair.ReadsAs Grib1.largeLength? := by
  -- one statement on runs, and for each kind of format the view that describes it
  refine ⟨?runs, ?messages, ?tagged, ?varied, ?none, ?fixed, ?large⟩
  case runs =>
    intro r source hsteady hbytes hreads n s pulls
    exact Scanner.gives_runChecked (Describes.transcribes ⟨hsteady, hbytes, hreads⟩ n)
  case messages =>
    intro repair answer hrepair
    exact Grib1.format_readsAs hrepair
  case tagged =>
    intro t answer hrepair
    exact TaggedFormat.format_readsAs hrepair
  case varied =>
    intro f v o hreads
    exact hreads.vary o
  case none => exact LengthRule.none_readsAs
  case fixed => exact LengthRule.fixed_readsAs
  case large => exact Grib1.largeMessageRepair_readsAs

/-- A short frame behind one other byte, and the beginning of another frame. -/
theorem tells_of_reads_sample :
    let bytes : Bytes := [9, 0x41, 1, 7, 0x41]
    let r : PlainScan := ⟨sampleFormat.format, sampleFormat.view fun _ _ => none, {}, bytes⟩
    ∃ run, (Scanner.start (.ofBytes bytes) sampleFormat.format {}).runChecked [.next, .next] =
        .ok run ∧ r.Transcribes 2 run ∧
      run.answers = [.record ⟨[9], 1, 4, [⟨3, ⟨0, [7]⟩, none⟩], false⟩, .nothing] := by
  intro bytes r
  obtain ⟨hruns, -, htagged, -, hnone, -⟩ := tells_of_reads
  have hgives := hruns r (.ofBytes bytes) (Source.neverFails_ofBytes _) (Source.bytes_ofBytes _)
    (htagged sampleFormat _ hnone) 2
  obtain ⟨run, hrun⟩ := hgives.total (Run.fitsWords_of_room (fun _ => by decide) (by decide) _)
  refine ⟨run, hrun, hgives.sound run hrun, ?_⟩
  rw [← Scanner.run_of_runChecked hrun]
  decide +kernel

/-- The limits of `tells_of_reads`: a machine can give up on a frame that the plain scan drops, and on
a search whose blocks are too large for any machine. -/
theorem plain_scan_given_up :
    let r : PlainScan :=
      ⟨Run.farFormat.format, Run.farFormat.view fun _ _ => none, {}, Run.farSource.bytes⟩
    let s : Scanner := .start Run.farSource r.format r.settings
    let t : Scanner := .start Run.farSource r.format { blockSize := 2 ^ 64 - 1 }
    r.told 0 = .nothing ∧ (∃ p, s.runChecked [.next] = .error p) ∧
      ∃ p, t.runChecked [.next] = .error p := by
  intro r s t
  refine ⟨?told, Run.error_far .next [], ?search⟩
  case told =>
    have hdescribes : r.Describes Run.farSource :=
      ⟨Source.neverFails_ofBytes _, rfl, TaggedFormat.format_readsAs LengthRule.none_readsAs⟩
    have hanswers := (hdescribes.transcribes 1).answers
    have hnothing : (s.run [.next]).answers = [.nothing] := by decide +kernel
    exact (List.cons.inj (hanswers.symm.trans hnothing)).1
  case search =>
    obtain ⟨p, hp⟩ := Scanner.error_of_search (s := t) rfl (by decide)
      (fun hfits => absurd (hfits (by decide)) (by decide)) .next
    exact ⟨p, Scanner.runChecked_cons_of_error hp []⟩

end Granule.PlainScan
