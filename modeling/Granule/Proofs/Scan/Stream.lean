import Granule.Proofs.Intern
import Granule.Proofs.Scan.Refinement

/-!
# Clean Streams

A clean stream is one frame after another, each behind a gap that holds no magic
of its own, and nothing else. What stands in the frames may look like anything: a
scan that reads a frame whole moves past all of it at once.

One pull from the end of a frame gives the next frame and ends behind it. Frames in a
row, wherever the row lies, are therefore given one by one; a clean stream is a row
that starts with the stream and is followed by no magic.

**Main statements**:
- `PlainScan.pull_frame` : a pull gives the next frame and moves past it
- `PlainScan.Row.pulls` : pulls from the start of a row give its frames
- `PlainScan.Clean.yields` : a scanner gives the frames of a clean stream, and no more
-/

namespace Granule

/-! ## §1 Packed contents -/

namespace TypedBytes

variable {header : TypedBytes → Bytes}

/-- The data of these contents one after the other, each behind its header. -/
def packWith (header : TypedBytes → Bytes) (contents : List TypedBytes) : Bytes :=
  contents.flatMap fun content => header content ++ content.data

/-- Packed contents that start at `pos`, by the offset of their data. -/
def offsetsFrom (header : TypedBytes → Bytes) : (pos : Nat) → List TypedBytes →
    List (Nat × TypedBytes)
  | _, [] => []
  | pos, content :: rest =>
    let start := pos + (header content).length
    (start, content) :: offsetsFrom header (start + content.data.length) rest

theorem packWith_cons (content : TypedBytes) (rest : List TypedBytes) :
    packWith header (content :: rest) =
      header content ++ (content.data ++ packWith header rest) := by
  simp [packWith]

/-- Contents lie at their offsets wherever they are packed, and inside the packed string. -/
theorem offsetsFrom_facts {bs : Bytes} {pos : Nat} {contents : List TypedBytes}
    (h : bs.HasAt pos (packWith header contents)) :
    ∀ part ∈ offsetsFrom header pos contents, bs.HasAt part.1 part.2.data ∧
      part.1 + part.2.data.length ≤ pos + (packWith header contents).length := by
  -- the header and the data of the first content come before all others
  induction contents generalizing pos with
  | nil =>
    intro part hpart
    cases hpart
  | cons content rest ih =>
    rw [packWith_cons, Bytes.hasAt_append, Bytes.hasAt_append] at h
    obtain ⟨-, hdata, hrest⟩ := h
    have hlen : (packWith header (content :: rest)).length =
        (header content).length + (content.data.length + (packWith header rest).length) := by
      rw [packWith_cons, List.length_append, List.length_append]
    intro part hpart
    rw [offsetsFrom] at hpart
    rcases List.mem_cons.mp hpart with rfl | hpart
    · refine ⟨hdata, ?_⟩
      simp only
      omega
    · obtain ⟨hat, hle⟩ := ih hrest part hpart
      exact ⟨hat, by omega⟩

end TypedBytes

/-! ## §2 Streams -/

/-- A frame of a stream. -/
structure StreamFrame where
  /-- The bytes between the frame before and this one. -/
  gap : Bytes
  bytes : Bytes
  /-- What the frame holds, by offset in the frame. -/
  parts : List (Nat × TypedBytes)

namespace StreamFrame

def spans (f : StreamFrame) : List Span :=
  f.parts.map fun part => ⟨part.2.kind, part.1, part.1 + part.2.data.length⟩

def join (frames : List StreamFrame) : Bytes := frames.flatMap fun f => f.gap ++ f.bytes

/-- A content of recurring kind is among the parts. -/
def Recurring (recurs : Kind → Bool) (frames : List StreamFrame) (content : TypedBytes) : Prop :=
  recurs content.kind = true ∧ ∃ f ∈ frames, content ∈ f.parts.map (·.2)

/-- A part of a record holds this at this offset; where contents of recurring kinds share a
fingerprint, it may hold another one of them. -/
def PartShows (recurs : Kind → Bool) (frames : List StreamFrame) (part : Part)
    (offset : Nat) (content : TypedBytes) : Prop :=
  part.offset = offset ∧
    (part.content = content ∨
      recurs content.kind = true ∧ content.Collides (Recurring recurs frames))

/-- A record shows a frame that starts here. -/
structure Shows (recurs : Kind → Bool) (headerLimit : Nat) (frames : List StreamFrame)
    (f : StreamFrame) (start : Nat) (record : Record) : Prop where
  start_eq : record.start = start
  stop_eq : record.stop = start + f.bytes.length
  header_eq : record.header = f.gap.drop (f.gap.length - headerLimit)
  isRepaired_eq : record.isRepaired = false
  parts : List.Forall₂ (fun part x => PartShows recurs frames part (start + x.1) x.2)
    record.parts f.parts

/-- Where a frame starts that has these before it. -/
def startAfter (before : List StreamFrame) (f : StreamFrame) : Nat :=
  (join before).length + f.gap.length

end StreamFrame

/-- The pulls of a scanner give these frames in order, and nothing after them; only
records are counted. -/
def Scanner.Yields (s : Scanner) (frames : List StreamFrame) : Prop :=
  ∀ n, let sₙ := (fun s : Scanner => s.next.2)^[n] s
    sₙ.tally = { records := min n frames.length } ∧
      match frames[n]? with
      | none => sₙ.next.1 = .ok none
      | some f => ∃ record, sₙ.next.1 = .ok (some record) ∧
          f.Shows s.format.recurs s.settings.headerLimit frames
            (StreamFrame.startAfter (frames.take n) f) record

namespace PlainScan

open StreamFrame

/-- A frame is read as a whole wherever it lies. -/
structure ReadsFrame (r : PlainScan) (f : StreamFrame) : Prop where
  /-- Its magic is the first one from the start of its gap on. -/
  first : (f.gap ++ f.bytes).firstOccurrence r.format.magic 0 = some f.gap.length
  verdict : ∀ start, r.bytes.HasAt start f.bytes →
    r.verdict start = .record (start + f.bytes.length) false f.spans
  parts : ∀ part ∈ f.parts, f.bytes.HasAt part.1 part.2.data

/-- The bytes are these frames, and a last gap without a magic. -/
structure Clean (r : PlainScan) (frames : List StreamFrame) (last : Bytes) : Prop where
  bytes_eq : r.bytes = join frames ++ last
  frame : ∀ f ∈ frames, r.ReadsFrame f
  last : last.firstOccurrence r.format.magic 0 = none

variable {r : PlainScan}

/-! ## §3 Frames -/

/-- The parts of a record show what lies at their offsets, and the table keeps nothing else. -/
theorem parts_show {frames : List StreamFrame} {start : Nat} (parts : List (Nat × TypedBytes))
    (hat : ∀ part ∈ parts, r.bytes.HasAt (start + part.1) part.2.data)
    (hfrom : ∀ part ∈ parts, ∃ f ∈ frames, part.2 ∈ f.parts.map (·.2)) (table : InternTable)
    (htable : table.Holds (Recurring r.format.recurs frames)) :
    let spans := parts.map fun part => ⟨part.2.kind, part.1, part.1 + part.2.data.length⟩
    List.Forall₂ (fun part x => PartShows r.format.recurs frames part (start + x.1) x.2)
        (r.parts start spans table).1 parts ∧
      (r.parts start spans table).2.Holds (Recurring r.format.recurs frames) := by
  induction parts generalizing table with
  | nil => exact ⟨.nil, htable⟩
  | cons part rest ih =>
    obtain ⟨offset, content⟩ := part
    have ih := ih (fun p hp => hat p (List.mem_cons_of_mem _ hp))
      (fun p hp => hfrom p (List.mem_cons_of_mem _ hp))
    have hbytes : r.bytes.between (start + offset) (start + (offset + content.data.length)) =
        content.data := by
      rw [← Nat.add_assoc]
      exact (hat (offset, content) (List.mem_cons_self ..)).between_eq
    simp only [List.map_cons, PlainScan.parts, hbytes]
    by_cases hrecurs : r.format.recurs content.kind = true
    -- a recurring part is what the table has under its fingerprint
    · have hknown : Recurring r.format.recurs frames content :=
        ⟨hrecurs, hfrom (offset, content) (List.mem_cons_self ..)⟩
      obtain ⟨kept, hkept, hsame⟩ := htable.content_intern hknown
      obtain ⟨hrest, hlast⟩ := ih _ (htable.intern_entries hknown)
      simp only [hrecurs, if_true, hkept, Option.getD_some]
      refine ⟨.cons ⟨rfl, ?_⟩ hrest, hlast⟩
      exact hsame.imp_right fun hcollides => ⟨hrecurs, hcollides⟩
    · obtain ⟨hrest, hlast⟩ := ih _ htable
      simp only [hrecurs]
      exact ⟨.cons ⟨rfl, .inl rfl⟩ hrest, hlast⟩

/-- The trailer ends where a frame does that ends in it. -/
theorem endsAt_of_suffix {start : Nat} {frame : Bytes} (hat : r.bytes.HasAt start frame)
    (hne : frame ≠ []) (htrailer : r.format.trailer <:+ frame) :
    r.EndsAt (start + frame.length) := by
  obtain ⟨body, hbody⟩ := htrailer
  have hlen := congrArg List.length hbody
  rw [List.length_append] at hlen
  have hstop : start + frame.length - r.format.trailer.length = start + body.length := by omega
  refine ⟨by omega, hat.length_le hne, ?_⟩
  rw [hstop]
  rw [← hbody] at hat
  exact (Bytes.hasAt_append.mp hat).2

/-- A frame whose length is not repaired is a record, where its end is settled and it is divided. -/
theorem verdict_eq_record {start resume stop : Nat} {p : Preamble} {spans : List Span}
    (hread : r.view.preamble r.bytes start = some ⟨resume, some p⟩)
    (hrepair : r.view.repair r.bytes p = none) (hmin : r.format.minLength ≤ p.declared)
    (hinside : start + p.declared ≤ r.bytes.length)
    (hstop : r.stopOf start p.declared false = some stop)
    (hspans : r.spansOf (r.bytes.between start stop) = some spans) :
    r.verdict start = .record stop false spans := by
  rw [verdict, hread]
  simp only [hrepair, Option.getD_none, Option.isSome_none]
  rw [verdictOf, if_neg (Nat.not_lt.mpr hmin), if_neg (Nat.not_lt.mpr hinside), hstop]
  simp only [hspans]

/-- **An honest frame.** A frame that declares its own length, ends in the trailer and is
divided into its parts is read as a whole, whatever lies around it. -/
theorem readsFrame_of_honest {f : StreamFrame} (hne : f.bytes ≠ [])
    (hfirst : (f.gap ++ f.bytes).firstOccurrence r.format.magic 0 = some f.gap.length)
    (hpreamble : ∀ start, r.bytes.HasAt start f.bytes → ∃ resume p,
      r.view.preamble r.bytes start = some ⟨resume, some p⟩ ∧ r.view.repair r.bytes p = none ∧
        p.declared = f.bytes.length)
    (hmin : r.format.minLength ≤ f.bytes.length) (htrailer : r.format.trailer <:+ f.bytes)
    (hdivide : r.format.divide f.bytes = .ok f.spans)
    (hparts : ∀ part ∈ f.parts, f.bytes.HasAt part.1 part.2.data ∧
      part.1 + part.2.data.length ≤ f.bytes.length) :
    r.ReadsFrame f := by
  have hwithin : ∀ span ∈ f.spans, span.isWithin f.bytes.length = true := by
    intro span hspan
    obtain ⟨part, hpart, rfl⟩ := List.mem_map.mp hspan
    simp only [Span.isWithin, decide_eq_true_eq]
    exact ⟨Nat.le_add_right _ _, (hparts part hpart).2⟩
  have hspans : r.spansOf f.bytes = some f.spans := spansOf_of_divide hdivide hwithin
  refine ⟨hfirst, ?_, fun part hpart => (hparts part hpart).1⟩
  intro start hat
  obtain ⟨resume, p, hread, hrepair, hdeclared⟩ := hpreamble start hat
  have hsize := hat.length_le hne
  -- the verdict is reached without a repair, and without leniency
  refine verdict_eq_record hread hrepair (hdeclared ▸ hmin) (hdeclared ▸ hsize) ?_ ?_
  · rw [hdeclared]
    exact if_pos (endsAt_of_suffix hat hne htrailer)
  · rw [hat.between_eq, hspans]

/-! ## §4 Pulls -/

/-- A header that may start with the gap is the end of the gap. -/
theorem headerOf_gap {start : Nat} {gap : Bytes} (hgap : r.bytes.HasAt start gap) :
    r.headerOf (start + gap.length) start =
      gap.drop (gap.length - r.settings.headerLimit) := by
  have hlen : start + gap.length - start = gap.length := by omega
  have hsub : start + gap.length - min gap.length r.settings.headerLimit =
      start + (gap.length - min gap.length r.settings.headerLimit) := by omega
  rw [headerOf, hlen, hsub, hgap.between_part le_rfl, Bytes.between_last]

variable {pool frames : List StreamFrame} {st : State}

/-- The table keeps contents of these frames only. -/
def State.Keeps (st : State) (recurs : Kind → Bool) (pool : List StreamFrame) : Prop :=
  st.table.Holds (Recurring recurs pool)

/-- Everything that the frames hold is held by those of the pool, too. -/
def Covers (pool frames : List StreamFrame) : Prop :=
  ∀ f ∈ frames, ∀ part ∈ f.parts, ∃ g ∈ pool, part.2 ∈ g.parts.map (·.2)

/-- **The next frame.** A pull that comes to it gives it and moves past it. -/
theorem pull_frame {f : StreamFrame} (hframe : r.ReadsFrame f) (hpool : Covers pool [f])
    (hkeeps : st.Keeps r.format.recurs pool) (hat : r.bytes.HasAt st.cursor (f.gap ++ f.bytes)) :
    (∃ record, (r.pull st).1 = some record ∧
      f.Shows r.format.recurs r.settings.headerLimit pool (st.cursor + f.gap.length) record) ∧
    (r.pull st).2.tally = { st.tally with records := st.tally.records + 1 } ∧
    (r.pull st).2.Keeps r.format.recurs pool ∧
    (r.pull st).2.cursor = st.cursor + (f.gap ++ f.bytes).length := by
  obtain ⟨hgap, hbytes⟩ := Bytes.hasAt_append.mp hat
  have hpull : r.next st st.cursor = _ := next_of_some (hat.firstOccurrence_eq hframe.first)
  rw [hframe.verdict _ hbytes] at hpull
  obtain ⟨hparts, htable⟩ := parts_show (r := r) f.parts
    (fun part hpart => hbytes.trans (hframe.parts part hpart))
    (hpool f (List.mem_singleton_self f)) st.table hkeeps
  rw [pull, hpull]
  refine ⟨⟨_, rfl, rfl, rfl, headerOf_gap hgap, rfl, hparts⟩, rfl, htable, ?_⟩
  rw [List.length_append, ← Nat.add_assoc]
  rfl

/-- Without another magic a pull gives nothing. -/
theorem pull_of_none (h : r.bytes.firstOccurrence r.format.magic st.cursor = none) :
    r.pull st = (none, { st with cursor := r.bytes.length }) := by
  rw [pull, next_of_none h]

/-- Nor does any later pull, and nothing is counted any more. -/
theorem iterate_of_none (h : r.bytes.firstOccurrence r.format.magic st.cursor = none) (n : Nat) :
    ((fun st => (r.pull st).2)^[n] st).tally = st.tally ∧
      (r.pull ((fun st => (r.pull st).2)^[n] st)).1 = none := by
  induction n generalizing st with
  | zero => exact ⟨rfl, congrArg Prod.fst (pull_of_none h)⟩
  | succ n ih =>
    have hend : r.bytes.firstOccurrence r.format.magic r.bytes.length = none := by
      rw [Bytes.firstOccurrence_eq_none_iff]
      intro p hge hp
      omega
    rw [Function.iterate_succ_apply]
    simp only [pull_of_none h]
    exact ih hend

/-! ## §5 Frames in a row -/

/-- Frames lie one behind the other from an offset on, and are read as a whole. -/
structure Row (r : PlainScan) (base : Nat) (frames : List StreamFrame) : Prop where
  hasAt : r.bytes.HasAt base (join frames)
  frame : ∀ f ∈ frames, r.ReadsFrame f

/-- A scan has pulled the first `n` frames of a row, and `tally` is what it had counted before. -/
structure Reached (r : PlainScan) (pool : List StreamFrame) (base : Nat)
    (frames : List StreamFrame) (tally : ScanTally) (n : Nat) (st : State) : Prop where
  tally_eq : st.tally = { tally with records := tally.records + n }
  keeps : st.Keeps r.format.recurs pool
  cursor_eq : st.cursor = base + (join (frames.take n)).length

/-- Before a frame of a row lie the frames before it. -/
theorem Row.hasAt_frame {base n : Nat} {f : StreamFrame} (h : r.Row base frames)
    (hn : frames[n]? = some f) :
    r.bytes.HasAt (base + (join (frames.take n)).length) (f.gap ++ f.bytes) := by
  obtain ⟨hlt, hf⟩ := List.getElem?_eq_some_iff.mp hn
  have hsplit : join frames = join (frames.take n) ++ ((f.gap ++ f.bytes) ++
      join (frames.drop (n + 1))) := by
    conv_lhs => rw [← List.take_append_drop n frames, List.drop_eq_getElem_cons hlt, hf]
    simp [join]
  have hat := h.hasAt
  rw [hsplit] at hat
  exact (Bytes.hasAt_append.mp (Bytes.hasAt_append.mp hat).2).1

theorem join_take_succ {n : Nat} {f : StreamFrame} (hn : frames[n]? = some f) :
    (join (frames.take (n + 1))).length =
      (join (frames.take n)).length + (f.gap ++ f.bytes).length := by
  obtain ⟨hlt, hf⟩ := List.getElem?_eq_some_iff.mp hn
  rw [List.take_succ_eq_append_getElem hlt, hf, join, List.flatMap_append, List.length_append]
  simp [join]

namespace Row

variable {base n : Nat}

/-- One more pull gives one more frame of the row. -/
theorem reached_succ {f : StreamFrame} {tally : ScanTally} (hrow : r.Row base frames)
    (hpool : Covers pool frames) (h : Reached r pool base frames tally n st)
    (hn : frames[n]? = some f) :
    (∃ record, (r.pull st).1 = some record ∧
      f.Shows r.format.recurs r.settings.headerLimit pool
        (base + startAfter (frames.take n) f) record) ∧
    Reached r pool base frames tally (n + 1) (r.pull st).2 := by
  have hmem : f ∈ frames := List.mem_of_getElem? hn
  have hone : Covers pool [f] := by
    intro g hg
    rw [List.mem_singleton.mp hg]
    exact hpool f hmem
  obtain ⟨hshown, htally, hkeeps, hcursor⟩ := pull_frame (hrow.frame f hmem) hone h.keeps
    (h.cursor_eq ▸ hrow.hasAt_frame hn)
  rw [h.cursor_eq, Nat.add_assoc] at hshown
  refine ⟨hshown, ?_, hkeeps, ?_⟩
  · rw [htally, h.tally_eq]
    rfl
  · rw [hcursor, h.cursor_eq, join_take_succ hn, Nat.add_assoc]

/-- After as many pulls as there are frames in the row, all of them have been given. -/
theorem reached (hrow : r.Row base frames) (hpool : Covers pool frames)
    (hkeeps : st.Keeps r.format.recurs pool) (hbase : st.cursor = base) (hn : n ≤ frames.length) :
    Reached r pool base frames st.tally n ((fun st => (r.pull st).2)^[n] st) := by
  induction n with
  | zero => exact ⟨rfl, hkeeps, hbase⟩
  | succ n ih =>
    rw [Function.iterate_succ_apply']
    exact (hrow.reached_succ hpool (ih (Nat.le_of_succ_le hn))
      (List.getElem?_eq_getElem hn)).2

/-- **A row of frames.** Pulls from its start give its frames, and no more if there is no magic
behind it. -/
theorem pulls (hrow : r.Row base frames) (hpool : Covers pool frames)
    (hkeeps : st.Keeps r.format.recurs pool) (hbase : st.cursor = base)
    (hlast : r.bytes.firstOccurrence r.format.magic (base + (join frames).length) = none)
    (n : Nat) :
    ((fun st => (r.pull st).2)^[n] st).tally =
        { st.tally with records := st.tally.records + min n frames.length } ∧
      match frames[n]? with
      | none => (r.pull ((fun st => (r.pull st).2)^[n] st)).1 = none
      | some f => ∃ record, (r.pull ((fun st => (r.pull st).2)^[n] st)).1 = some record ∧
          f.Shows r.format.recurs r.settings.headerLimit pool
            (base + startAfter (frames.take n) f) record := by
  rcases Nat.lt_or_ge n frames.length with hlt | hge
  · have hreached := hrow.reached hpool hkeeps hbase hlt.le
    have hn := List.getElem?_eq_getElem hlt
    rw [hn, min_eq_left hlt.le]
    exact ⟨hreached.tally_eq, (hrow.reached_succ hpool hreached hn).1⟩
  · -- all frames have been given, and the pulls after them give nothing
    obtain ⟨more, rfl⟩ := Nat.exists_eq_add_of_le' hge
    have hreached := hrow.reached hpool hkeeps hbase le_rfl
    rw [← List.take_length (l := frames), ← hreached.cursor_eq] at hlast
    obtain ⟨htally, hnone⟩ := iterate_of_none hlast more
    rw [List.getElem?_eq_none hge, min_eq_right hge, Function.iterate_add_apply]
    exact ⟨htally.trans hreached.tally_eq, hnone⟩

end Row

/-! ## §6 Clean streams -/

/-- **A clean stream.** A scanner gives its frames, and no more. -/
theorem Clean.yields {last : Bytes} {source : Source} (h : r.Clean frames last)
    (hsource : r.Describes source) :
    (Scanner.start source r.format r.settings).Yields frames := by
  intro n
  -- the whole source is one row of frames, and nothing is found behind it
  have hrow : r.Row 0 frames := by
    refine ⟨?_, h.frame⟩
    rw [h.bytes_eq]
    exact List.prefix_append _ _
  have hpool : Covers frames frames := fun f hf part hpart => ⟨f, hf, List.mem_map_of_mem hpart⟩
  have hlast : r.bytes.firstOccurrence r.format.magic (0 + (join frames).length) = none := by
    rw [Nat.zero_add, h.bytes_eq]
    exact Bytes.firstOccurrence_end _ h.last
  have hiterate := hsource.iterate_next n {}
  have hkeeps : State.Keeps {} r.format.recurs frames := InternTable.holds_empty
  have hpulls := hrow.pulls hpool hkeeps rfl hlast n
  have hstart : Scanner.start source r.format r.settings = r.scanner source {} := rfl
  simp only [Nat.zero_add] at hpulls
  generalize (fun st => (r.pull st).2)^[n] {} = st at hiterate hpulls
  simp only [hstart, hiterate, hsource.next_scanner]
  refine ⟨hpulls.1, ?_⟩
  cases hn : frames[n]? with
  | none =>
    rw [hn] at hpulls
    exact congrArg _ hpulls.2
  | some f =>
    rw [hn] at hpulls
    obtain ⟨record, hrecord, hshows⟩ := hpulls.2
    exact ⟨record, congrArg _ hrecord, hshows⟩

end PlainScan

end Granule
