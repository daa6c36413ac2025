import Granule.Proofs.Frame.Tagged

/-!
# Damaged Streams

One frame of a stream has lost its trailer. A scan comes to its magic as if nothing had
happened, drops the frame, and resumes the search inside its bytes. From there on the rest of
the stream is a row of frames again, the first of which lies behind what is left of the
damaged bytes (`StreamFrame.behind`); the pull that drops the frame is the first pull on
that row.

**Main statements**:
- `PlainScan.Damaged.pull_across` : the pull that drops the frame is a pull from where the search resumes
- `PlainScan.Damaged.yields` : a scanner gives all frames but the damaged one
- `TaggedFormat.scan_skips_damaged_frame` : a tagged frame without its trailer is all that is lost
-/

namespace Granule

/-! ## §1 A row behind other bytes -/

namespace StreamFrame

/-- The frame with more bytes before its gap. -/
def behind (lead : Bytes) (f : StreamFrame) : StreamFrame := { f with gap := lead ++ f.gap }

/-- The frames, the first of which has more bytes before its gap. -/
def allBehind (lead : Bytes) : List StreamFrame → List StreamFrame
  | [] => []
  | f :: rest => f.behind lead :: rest

variable {lead : Bytes} {frames : List StreamFrame} {f : StreamFrame} {n : Nat}

theorem join_append (a b : List StreamFrame) : join (a ++ b) = join a ++ join b :=
  List.flatMap_append

theorem join_cons (f : StreamFrame) (rest : List StreamFrame) :
    join (f :: rest) = (f.gap ++ f.bytes) ++ join rest := List.flatMap_cons

theorem getElem?_allBehind (lead : Bytes) (frames : List StreamFrame) (n : Nat) :
    (allBehind lead frames)[n]? = frames[n]?.map fun f => if n = 0 then f.behind lead else f := by
  cases frames with
  | nil => rfl
  | cons g rest =>
    cases n with
    | zero => rfl
    | succ n => simp [allBehind]

theorem length_allBehind (lead : Bytes) (frames : List StreamFrame) :
    (allBehind lead frames).length = frames.length := by
  cases frames <;> rfl

theorem startAfter_middle (before : List StreamFrame) (f : StreamFrame) (after : List StreamFrame)
    (g : StreamFrame) :
    startAfter (before ++ f :: after) g =
      startAfter before f + f.bytes.length + startAfter after g := by
  rw [startAfter, join_append, join_cons]
  simp only [startAfter, List.length_append]
  omega

/-- Every frame of the row starts as much later as there are bytes before the row. -/
theorem startAfter_allBehind (hn : frames[n]? = some f) :
    startAfter ((allBehind lead frames).take n) (if n = 0 then f.behind lead else f) =
      lead.length + startAfter (frames.take n) f := by
  cases frames with
  | nil => cases hn
  | cons g rest =>
    cases n with
    | zero =>
      simp [startAfter, behind, join]
    | succ n =>
      rw [if_neg (Nat.succ_ne_zero n), allBehind, List.take_succ_cons, List.take_succ_cons,
        startAfter, startAfter, join_cons, join_cons]
      simp only [behind, List.length_append]
      omega

end StreamFrame

/-! ## §2 Damaged frames -/

/-- The pulls of a scanner give all of these frames but number `k`, in order, and nothing after
them; that one frame is counted as misframed. The header of the frame behind it starts no earlier
than `lead`, the last bytes of the damaged one. -/
def Scanner.YieldsAllBut (s : Scanner) (frames : List StreamFrame) (k : Nat) (lead : Bytes) :
    Prop :=
  ∀ n, let sₙ := (fun s : Scanner => s.next.2)^[n] s
    -- the number of the frame that comes next
    let m := if n < k then n else n + 1
    sₙ.tally =
        { records := min n (frames.length - 1), misframed := if k < n then 1 else 0 } ∧
      match frames[m]? with
      | none => sₙ.next.1 = .ok none
      | some f => ∃ record, sₙ.next.1 = .ok (some record) ∧
          (if m = k + 1 then f.behind lead else f).Shows s.format.recurs s.settings.headerLimit
            (frames.eraseIdx k) (StreamFrame.startAfter (frames.take m) f) record

namespace PlainScan

open StreamFrame

def resyncOf (f : WireFormat) : Nat := max f.resyncDistance 1

/-- From the first of these bytes on, the next magic is that of the next frame, or there is none. -/
def Resumes (magic lead : Bytes) (after : List StreamFrame) (last : Bytes) : Prop :=
  match after with
  | [] => (lead ++ last).firstOccurrence magic 0 = none
  | f :: _ => (lead ++ f.gap ++ f.bytes).firstOccurrence magic 0 = some (lead ++ f.gap).length

/-- The bytes are those of frames, one of which was damaged, and of a last gap without a magic. -/
structure Damaged (r : PlainScan) (before : List StreamFrame) (f : StreamFrame) (bad : Bytes)
    (after : List StreamFrame) (last : Bytes) : Prop where
  bytes_eq : r.bytes = join before ++ ((f.gap ++ bad) ++ (join after ++ last))
  frame : ∀ g ∈ before ++ after, r.ReadsFrame g
  last_none : last.firstOccurrence r.format.magic 0 = none
  /-- The damaged frame is as long as the frame, and is dropped for its trailer. -/
  length_eq : bad.length = f.bytes.length
  first : (f.gap ++ bad).firstOccurrence r.format.magic 0 = some f.gap.length
  verdict : ∀ start, r.bytes.HasAt start bad → r.verdict start = .dropped .noTrailer false
  resync_le : resyncOf r.format ≤ bad.length
  resumes : Resumes r.format.magic (bad.drop (resyncOf r.format)) after last

/-- A frame without its trailer is dropped, unless something lets it end otherwise. -/
theorem verdict_of_mistrailed {r : PlainScan} {start resume : Nat} {p : Preamble}
    (hread : r.view.preamble r.bytes start = some ⟨resume, some p⟩)
    (hrepair : r.view.repair r.bytes p = none) (hmin : r.format.minLength ≤ p.declared)
    (hinside : start + p.declared ≤ r.bytes.length) (hends : ¬ r.EndsAt (start + p.declared))
    (himplied : r.settings.acceptsImpliedEnd = false)
    (hlenient : r.settings.acceptsNoTrailer = false) :
    r.verdict start = .dropped .noTrailer false := by
  rw [verdict, hread]
  simp only [hrepair, Option.getD_none, Option.isSome_none]
  rw [verdictOf, if_neg (Nat.not_lt.mpr hmin), if_neg (Nat.not_lt.mpr hinside), stopOf,
    if_neg hends, himplied, hlenient]
  rfl

namespace Damaged

variable {r : PlainScan} {before after : List StreamFrame} {f : StreamFrame} {bad last : Bytes}
  {st : State}

/-- The frames before the damaged one are a row. -/
theorem row_before (h : r.Damaged before f bad after last) : r.Row 0 before where
  hasAt := by
    rw [h.bytes_eq]
    exact List.prefix_append _ _
  frame := fun g hg => h.frame g (List.mem_append_left _ hg)

theorem hasAt_bad (h : r.Damaged before f bad after last) :
    r.bytes.HasAt (join before).length (f.gap ++ bad) := by
  rw [h.bytes_eq]
  exact Bytes.hasAt_middle _ _ _

/-- **The damaged frame.** The pull that comes to it is a pull from where the search resumes. -/
theorem pull_across (h : r.Damaged before f bad after last)
    (hcursor : st.cursor = (join before).length) :
    r.pull st = r.pull (r.drop st (startAfter before f) .noTrailer) := by
  have hat := h.hasAt_bad
  have hfirst := hat.firstOccurrence_eq h.first
  rw [← hcursor] at hfirst
  have hpull : r.next st st.cursor = _ := next_of_some hfirst
  rw [hcursor, h.verdict _ (Bytes.hasAt_append.mp hat).2] at hpull
  rw [pull, pull, hcursor, hpull]
  rfl

/-- What is left of the damaged frame lies where the search resumes, with all that follows it. -/
theorem hasAt_lead (h : r.Damaged before f bad after last) :
    r.bytes.drop (r.resyncAt (startAfter before f)) =
      bad.drop (resyncOf r.format) ++ (join after ++ last) := by
  have hbehind : r.resyncAt (startAfter before f) =
      (join before).length + (f.gap.length + resyncOf r.format) := by
    rw [resyncAt, startAfter, Nat.add_assoc]
    rfl
  rw [hbehind, h.bytes_eq, ← List.drop_drop, List.drop_left, ← List.drop_drop, List.append_assoc,
    List.drop_left, List.drop_append_of_le_length h.resync_le]

/-- From where the search resumes, the frames after the damaged one are a row. -/
theorem row_after (h : r.Damaged before f bad after last) :
    r.Row (r.resyncAt (startAfter before f))
      (allBehind (bad.drop (resyncOf r.format)) after) := by
  have hlead := h.hasAt_lead
  have hresumes := h.resumes
  have hframe : ∀ g ∈ after, r.ReadsFrame g := fun g hg => h.frame g (List.mem_append_right _ hg)
  cases after with
  | nil => exact ⟨Bytes.hasAt_nil _ _, fun g hg => nomatch hg⟩
  | cons g rest =>
    obtain ⟨hg, hrest⟩ := List.forall_mem_cons.mp hframe
    refine ⟨?_, List.forall_mem_cons.mpr ⟨⟨hresumes, hg.verdict, hg.parts⟩, hrest⟩⟩
    refine ⟨last, ?_⟩
    rw [hlead, allBehind, join_cons, join_cons]
    simp only [behind, List.append_assoc]

/-- Behind the last frame there is no magic. -/
theorem none_behind (h : r.Damaged before f bad after last) :
    r.bytes.firstOccurrence r.format.magic (r.resyncAt (startAfter before f) +
      (join (allBehind (bad.drop (resyncOf r.format)) after)).length) = none := by
  apply Bytes.firstOccurrence_of_drop
  rw [← List.drop_drop, h.hasAt_lead]
  have hresumes := h.resumes
  cases after with
  | nil => exact hresumes
  | cons g rest =>
    have hjoin : join (allBehind (bad.drop (resyncOf r.format)) (g :: rest)) =
        bad.drop (resyncOf r.format) ++ join (g :: rest) := by
      rw [allBehind, join_cons, join_cons]
      simp only [behind, List.append_assoc]
    rw [hjoin, ← List.append_assoc, List.drop_left]
    exact h.last_none

theorem covers_before : Covers (before ++ after) before :=
  fun g hg _ hpart => ⟨g, List.mem_append_left _ hg, List.mem_map_of_mem hpart⟩

/-- More bytes before a gap do not change what the frame holds. -/
theorem covers_after (lead : Bytes) : Covers (before ++ after) (allBehind lead after) := by
  intro g hg part hpart
  obtain ⟨n, hn⟩ := List.mem_iff_getElem?.mp hg
  rw [getElem?_allBehind] at hn
  obtain ⟨g', hg', rfl⟩ := Option.map_eq_some_iff.mp hn
  refine ⟨g', List.mem_append_right _ (List.mem_of_getElem? hg'), List.mem_map_of_mem ?_⟩
  split at hpart <;> exact hpart

/-- After the frames before the damaged one, a scan stands before its gap. -/
theorem reached_bad (h : r.Damaged before f bad after last) {n : Nat} (hn : n ≤ before.length) :
    Reached r (before ++ after) 0 before {} n ((fun st => (r.pull st).2)^[n] {}) := by
  have hkeeps : State.Keeps {} r.format.recurs (before ++ after) := InternTable.holds_empty
  exact h.row_before.reached covers_before hkeeps rfl hn

/-- States with the same next pull have the same pulls from then on, and later the same states. -/
theorem iterate_of_pull_eq {st' : State} (h : r.pull st = r.pull st') (n : Nat) :
    (0 < n → (fun st => (r.pull st).2)^[n] st = (fun st => (r.pull st).2)^[n] st') ∧
      r.pull ((fun st => (r.pull st).2)^[n] st) = r.pull ((fun st => (r.pull st).2)^[n] st') := by
  cases n with
  | zero => exact ⟨fun hzero => absurd hzero (Nat.lt_irrefl 0), h⟩
  | succ n =>
    have hsame : (fun st => (r.pull st).2)^[n + 1] st = (fun st => (r.pull st).2)^[n + 1] st' := by
      rw [Function.iterate_succ_apply, Function.iterate_succ_apply, h]
    exact ⟨fun _ => hsame, congrArg r.pull hsame⟩

/-- The frames of the row behind the damaged frame start where they did before the damage. -/
theorem start_behind (h : r.Damaged before f bad after last) {n : Nat} {g : StreamFrame}
    (hn : after[n]? = some g) :
    r.resyncAt (startAfter before f) + startAfter
        ((allBehind (bad.drop (resyncOf r.format)) after).take n)
        (if n = 0 then g.behind (bad.drop (resyncOf r.format)) else g) =
      startAfter (before ++ f :: after.take n) g := by
  have hresync : r.resyncAt (startAfter before f) =
    startAfter before f + resyncOf r.format := rfl
  have hle := h.resync_le
  rw [h.length_eq] at hle
  rw [startAfter_allBehind hn, startAfter_middle, List.length_drop, h.length_eq, hresync]
  omega

/-- The first pulls give the frames before the damaged one. -/
theorem pulls_before (h : r.Damaged before f bad after last) {n : Nat} (hn : n < before.length) :
    let stₙ := (fun st => (r.pull st).2)^[n] {}
    stₙ.tally = { records := n } ∧ ∃ record, (r.pull stₙ).1 = some record ∧
      before[n].Shows r.format.recurs r.settings.headerLimit (before ++ after)
        (startAfter (before.take n) before[n]) record := by
  have hreached := h.reached_bad hn.le
  have htally := hreached.tally_eq
  obtain ⟨⟨record, hrecord, hshows⟩, -⟩ :=
    h.row_before.reached_succ covers_before hreached (List.getElem?_eq_getElem hn)
  rw [Nat.zero_add] at htally hshows
  exact ⟨htally, record, hrecord, hshows⟩

/-- Pulls after the frames before the damaged one give the frames behind it. -/
theorem pulls_after (h : r.Damaged before f bad after last) (n : Nat) :
    let stₙ := (fun st => (r.pull st).2)^[before.length + n] {}
    stₙ.tally = { records := before.length + min n after.length,
                  misframed := if 0 < n then 1 else 0 } ∧
      match after[n]? with
      | none => (r.pull stₙ).1 = none
      | some g => ∃ record, (r.pull stₙ).1 = some record ∧
          (if n = 0 then g.behind (bad.drop (resyncOf r.format)) else g).Shows r.format.recurs
            r.settings.headerLimit (before ++ after)
            (startAfter (before ++ f :: after.take n) g) record := by
  have hreached := h.reached_bad le_rfl
  rw [Nat.add_comm, Function.iterate_add_apply]
  generalize (fun st => (r.pull st).2)^[before.length] {} = st at hreached
  have hcursor : st.cursor = (join before).length := by
    rw [hreached.cursor_eq, List.take_length, Nat.zero_add]
  -- the first of the pulls goes across the damaged frame, as does a pull on the row behind it
  obtain ⟨hlater, hsame⟩ := iterate_of_pull_eq (h.pull_across hcursor) n
  have hkeeps : (r.drop st (startAfter before f) .noTrailer).Keeps r.format.recurs
      (before ++ after) := hreached.keeps
  obtain ⟨htally, hgiven⟩ := h.row_after.pulls (covers_after _) hkeeps rfl h.none_behind n
  rw [length_allBehind] at htally
  rw [getElem?_allBehind] at hgiven
  simp only [hsame]
  refine ⟨?tally, ?given⟩
  case tally =>
    rcases Nat.eq_zero_or_pos n with rfl | hpos
    · rw [Function.iterate_zero_apply, hreached.tally_eq]
      simp
    · rw [hlater hpos, htally, if_pos hpos]
      simp [drop, hreached.tally_eq, ScanTally.add]
  case given =>
    cases hn : after[n]? with
    | none =>
      rw [hn] at hgiven
      exact hgiven
    | some g =>
      rw [hn] at hgiven
      obtain ⟨record, hrecord, hshows⟩ := hgiven
      rw [h.start_behind hn] at hshows
      exact ⟨record, hrecord, hshows⟩

/-- All frames but the damaged one are given. -/
theorem yields {source : Source} (h : r.Damaged before f bad after last)
    (hsource : r.Describes source) :
    (Scanner.start source r.format r.settings).YieldsAllBut (before ++ f :: after) before.length
      (bad.drop (resyncOf r.format)) := by
  intro n
  have hiterate := hsource.iterate_next n {}
  have hstart : Scanner.start source r.format r.settings = r.scanner source {} := rfl
  have hothers : (before ++ f :: after).eraseIdx before.length = before ++ after := by
    rw [List.eraseIdx_append_of_length_le le_rfl, Nat.sub_self, List.eraseIdx_cons_zero]
  have hcount : (before ++ f :: after).length - 1 = before.length + after.length := by
    simp
  simp only [hstart, hiterate, hsource.next_scanner, hothers, hcount]
  -- up to the damaged frame the pulls are those of a clean row, and behind it those of another one
  rcases Nat.lt_or_ge n before.length with hlt | hge
  · obtain ⟨htally, record, hrecord, hshows⟩ := h.pulls_before hlt
    have hnot : ¬ before.length < n := Nat.not_lt.mpr hlt.le
    have hne : n ≠ before.length + 1 := (Nat.lt_succ_of_lt hlt).ne
    have hmin : min n (before.length + after.length) = n :=
      min_eq_left (hlt.le.trans (Nat.le_add_right _ _))
    rw [if_pos hlt, if_neg hnot, hmin, List.getElem?_append_left hlt,
      List.getElem?_eq_getElem hlt, List.take_append_of_le_length hlt.le]
    refine ⟨htally, record, congrArg _ hrecord, ?_⟩
    rwa [if_neg hne]
  · obtain ⟨n, rfl⟩ := Nat.exists_eq_add_of_le hge
    obtain ⟨htally, hgiven⟩ := h.pulls_after n
    have hnot : ¬ before.length + n < before.length := Nat.not_lt.mpr hge
    have hindex : (before ++ f :: after)[before.length + n + 1]? = after[n]? := by
      rw [Nat.add_assoc, List.getElem?_append_right (Nat.le_add_right _ _),
        Nat.add_sub_cancel_left, List.getElem?_cons_succ]
    have htake : (before ++ f :: after).take (before.length + n + 1) =
        before ++ f :: after.take n := by
      rw [Nat.add_assoc, List.take_length_add_append, List.take_succ_cons]
    have hfirst : before.length + n + 1 = before.length + 1 ↔ n = 0 := by omega
    have hpast : before.length < before.length + n ↔ 0 < n := by omega
    simp only [if_neg hnot, hindex, htake, hfirst, hpast, Nat.add_min_add_left]
    refine ⟨htally, ?_⟩
    cases hn : after[n]? with
    | none =>
      rw [hn] at hgiven
      exact congrArg _ hgiven
    | some g =>
      rw [hn] at hgiven
      obtain ⟨record, hrecord, hshows⟩ := hgiven
      exact ⟨record, congrArg _ hrecord, hshows⟩

end Damaged

end PlainScan

/-! ## §3 Tagged frames -/

namespace TaggedFormat

open StreamFrame PlainScan

variable {t : TaggedFormat} {gap ending : Bytes} {contents : List TypedBytes}

def stem (t : TaggedFormat) (contents : List TypedBytes) : Bytes :=
  t.magic ++ (Bytes.ofNatBE t.fieldWidth (t.payload contents).length ++ t.payload contents)

theorem frame_eq_stem (t : TaggedFormat) (contents : List TypedBytes) :
    t.frame contents = t.stem contents ++ t.trailer := by
  simp only [frame, stem, List.append_assoc]

theorem length_damaged (contents : List TypedBytes) (hlength : ending.length = t.trailer.length) :
    (t.stem contents ++ ending).length = (t.frame contents).length := by
  rw [frame_eq_stem, List.length_append, List.length_append, hlength]

/-- The magic of a frame is the first one behind its gap, whatever became of the trailer. -/
theorem first_damaged (hmagic : t.magic ≠ []) (h : t.Fits gap contents) (ending : Bytes) :
    (gap ++ (t.stem contents ++ ending)).firstOccurrence t.magic 0 = some gap.length := by
  have hfirst := h.first
  rw [frame_eq_stem, ← List.append_assoc] at hfirst
  rw [← List.append_assoc]
  refine Bytes.firstOccurrence_front _ _ hfirst hmagic ?_
  simp only [stem, List.length_append]
  omega

/-- A frame with another trailer is dropped. -/
theorem verdict_damaged {settings : ScanSettings} {bytes : Bytes} (hmagic : t.magic ≠ [])
    (h : t.Fits gap contents) (himplied : settings.acceptsImpliedEnd = false)
    (hlenient : settings.acceptsNoTrailer = false) (hlength : ending.length = t.trailer.length)
    (hne : ending ≠ t.trailer) {start : Nat}
    (hat : bytes.HasAt start (t.stem contents ++ ending)) :
    (t.plainScan settings bytes).verdict start = .dropped .noTrailer false := by
  obtain ⟨hstem, hending⟩ := Bytes.hasAt_append.mp hat
  have hlen := length_damaged contents hlength
  have hinside : start + (t.frame contents).length ≤ bytes.length := by
    rw [← hlen]
    refine hat.length_le ?_
    simp [stem, hmagic]
  have hfield := (Bytes.hasAt_append.mp (Bytes.hasAt_append.mp hstem).2).1
  refine verdict_of_mistrailed (preamble_of_field settings h hfield) rfl ?min hinside ?ends
    himplied hlenient
  case min =>
    show t.minLength ≤ (t.frame contents).length
    rw [length_frame]
    exact Nat.le_add_left _ _
  case ends =>
    -- where the trailer should be, there are other bytes
    rintro ⟨-, -, htrailer⟩
    have hplace : start + (t.frame contents).length - t.trailer.length =
        start + (t.stem contents).length := by
      rw [frame_eq_stem, List.length_append]
      omega
    refine hne (hending.eq_of_length_eq ?_ hlength)
    rwa [← hplace]

/-- **A damaged trailer.** When the trailer of one frame of a clean stream is replaced, a scan that
is not lenient loses that frame and nothing else, provided that the search resumes inside the
frame and meets no magic from there to the next frame. -/
theorem scan_skips_damaged_frame (t : TaggedFormat) (hmagic : t.magic ≠ [])
    (hrepair : t.repair = LengthRule.none) (settings : ScanSettings)
    (himplied : settings.acceptsImpliedEnd = false) (hlenient : settings.acceptsNoTrailer = false)
    (before after : List (Bytes × List TypedBytes)) (gap : Bytes) (contents : List TypedBytes)
    (last ending : Bytes) (hitems : ∀ x ∈ before ++ (gap, contents) :: after, t.Fits x.1 x.2)
    (hlast : last.firstOccurrence t.magic 0 = none)
    (hlength : ending.length = t.trailer.length) (hne : ending ≠ t.trailer)
    (hskip : t.format.resyncDistance ≤ (t.frame contents).length)
    (hresumes : Resumes t.magic ((t.stem contents ++ ending).drop t.format.resyncDistance)
      (after.map fun x => t.streamFrame x.1 x.2) last)
    (clean damaged : Source) (hsteady : clean.NeverFails ∧ damaged.NeverFails)
    (hclean : clean.bytes =
      join ((before ++ (gap, contents) :: after).map fun x => t.streamFrame x.1 x.2) ++ last)
    (hdamaged : damaged.bytes = join (before.map fun x => t.streamFrame x.1 x.2) ++
      ((gap ++ (t.stem contents ++ ending)) ++
        (join (after.map fun x => t.streamFrame x.1 x.2) ++ last))) :
    (Scanner.start clean t.format settings).Yields
        ((before ++ (gap, contents) :: after).map fun x => t.streamFrame x.1 x.2) ∧
      (Scanner.start damaged t.format settings).YieldsAllBut
        ((before ++ (gap, contents) :: after).map fun x => t.streamFrame x.1 x.2) before.length
        ((t.stem contents ++ ending).drop t.format.resyncDistance) := by
  have hreads := format_readsAs (t := t) (hrepair ▸ LengthRule.none_readsAs)
  have hframe : ∀ bytes, ∀ x ∈ before ++ (gap, contents) :: after,
      (t.plainScan settings bytes).ReadsFrame (t.streamFrame x.1 x.2) :=
    fun _ x hx => readsFrame hmagic (hitems x hx)
  constructor
  · have hrow : (t.plainScan settings clean.bytes).Clean
        ((before ++ (gap, contents) :: after).map fun x => t.streamFrame x.1 x.2) last :=
      ⟨hclean, List.forall_mem_map.mpr (hframe _), hlast⟩
    exact hrow.yields ⟨hsteady.1, rfl, hreads⟩
  · have hfits : t.Fits gap contents := hitems (gap, contents) (by simp)
    -- the distance of a tagged format is not zero
    have hresync : resyncOf t.format = t.format.resyncDistance :=
      max_eq_left (Nat.le_max_left 1 t.resyncDistance)
    have hbad : (t.plainScan settings damaged.bytes).Damaged
        (before.map fun x => t.streamFrame x.1 x.2) (t.streamFrame gap contents)
        (t.stem contents ++ ending) (after.map fun x => t.streamFrame x.1 x.2) last := by
      refine ⟨hdamaged, ?frame, hlast, length_damaged contents hlength,
        first_damaged hmagic hfits ending, ?verdict, ?resync, ?resumes⟩
      case frame =>
        rw [← List.map_append]
        refine List.forall_mem_map.mpr fun x hx => hframe _ x ?_
        rcases List.mem_append.mp hx with hx | hx
        · exact List.mem_append_left _ hx
        · exact List.mem_append_right _ (List.mem_cons_of_mem _ hx)
      case verdict =>
        exact fun start => verdict_damaged hmagic hfits himplied hlenient hlength hne
      case resync =>
        show resyncOf t.format ≤ _
        rwa [hresync, length_damaged contents hlength]
      case resumes =>
        show Resumes t.magic ((t.stem contents ++ ending).drop (resyncOf t.format)) _ _
        rwa [hresync]
    have hyields : (Scanner.start damaged t.format settings).YieldsAllBut _ _
        ((t.stem contents ++ ending).drop (resyncOf t.format)) :=
      hbad.yields ⟨hsteady.2, rfl, hreads⟩
    rw [List.length_map, hresync] at hyields
    rwa [List.map_append, List.map_cons]

/-- Frames `AB`, a length byte, parts, and `Z`; the search resumes behind the payload of a short one. -/
def shortResync : TaggedFormat := { sample with resyncDistance := 8 }

/-- Of three frames, the one in the middle has lost its trailer and holds another magic. -/
theorem scan_skips_damaged_sample :
    (shortResync.magic ≠ [] ∧ shortResync.repair = LengthRule.none ∧
      ∀ x ∈ [([1], []), ([0], [⟨7, [0x41, 0x42]⟩]), ([0x41], [])], shortResync.Fits x.1 x.2) ∧
    ∃ record, (Scanner.start (.ofBytes [1, 0x41, 0x42, 0, 0x5a,
        0, 0x41, 0x42, 5, 7, 0, 2, 0x41, 0x42, 0, 0x41, 0x41, 0x42, 0, 0x5a, 0x41])
        shortResync.format {}).next.2.next.1 = .ok (some record) ∧
      record.header = [0, 0x41] ∧ record.start = 16 ∧ record.stop = 20 := by
  have hitems : ∀ x ∈ [([1], []), ([0], [⟨7, [0x41, 0x42]⟩]), ([0x41], [])],
      shortResync.Fits x.1 x.2 := by
    simp only [List.forall_mem_cons]
    exact ⟨⟨by decide, by decide, by decide, by decide⟩,
      ⟨by decide, by decide, by decide, by decide⟩,
      ⟨by decide, by decide, by decide, by decide⟩, by simp⟩
  refine ⟨⟨by decide, rfl, hitems⟩, ?_⟩
  obtain ⟨-, hdamaged⟩ := scan_skips_damaged_frame shortResync (by decide) rfl {} rfl rfl
    [([1], [])] [([0x41], [])] [0] [⟨7, [0x41, 0x42]⟩] [0x41] [0] hitems (by decide) rfl (by decide)
    (by decide) (show _ = some _ by decide)
    (.ofBytes [1, 0x41, 0x42, 0, 0x5a,
      0, 0x41, 0x42, 5, 7, 0, 2, 0x41, 0x42, 0x5a, 0x41, 0x41, 0x42, 0, 0x5a, 0x41])
    (.ofBytes [1, 0x41, 0x42, 0, 0x5a,
      0, 0x41, 0x42, 5, 7, 0, 2, 0x41, 0x42, 0, 0x41, 0x41, 0x42, 0, 0x5a, 0x41])
    ⟨Source.neverFails_ofBytes _, Source.neverFails_ofBytes _⟩ (by decide) (by decide)
  obtain ⟨-, record, hnext, hshows⟩ := hdamaged 1
  exact ⟨record, hnext, hshows.header_eq, hshows.start_eq, hshows.stop_eq⟩

end TaggedFormat

end Granule
