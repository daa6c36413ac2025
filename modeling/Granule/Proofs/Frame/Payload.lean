import Granule.Proofs.Frame.Tagged

/-!
# Payloads of Tagged Frames

A payload of parts is a string of headers, each followed by as many bytes as it announces. Either
the whole payload is such a string, and the frame is divided into its parts, or what is left behind
some of them is no part: it ends in the middle of a header, or of the data that a header announces.

So payloads that are accepted and the contents that parts can hold are the same thing told twice:
packing the contents of the parts gives the payload, and dividing what was packed gives them back.
The trailer plays no part in this, as a part ends at the end of the payload or before it.

**Main statements**:
- `TaggedFormat.partsFrom_cases` : a payload is a string of parts, or breaks off behind some
- `TaggedFormat.contentsAt_partSpans` : the spans of packed contents hold these contents
- `TaggedFormat.payloads_are_packed_contents` : which frames are divided, and how
-/

namespace Granule

open TypedBytes

/-! ## §1 Where packed contents lie -/

namespace TypedBytes

variable {header : TypedBytes → Bytes}

theorem map_snd_offsetsFrom (header : TypedBytes → Bytes) (pos : Nat) (contents : List TypedBytes) :
    (offsetsFrom header pos contents).map (·.2) = contents := by
  induction contents generalizing pos with
  | nil => rfl
  | cons content rest ih => rw [offsetsFrom, List.map_cons, ih]

/-- Data lie behind their header, and that starts where the packed contents do or later. -/
theorem le_offsetsFrom {pos : Nat} {contents : List TypedBytes} :
    ∀ part ∈ offsetsFrom header pos contents, pos + (header part.2).length ≤ part.1 := by
  induction contents generalizing pos with
  | nil =>
    intro part hpart
    cases hpart
  | cons content rest ih =>
    intro part hpart
    rw [offsetsFrom] at hpart
    rcases List.mem_cons.mp hpart with rfl | hpart
    · exact le_rfl
    · have hle := ih part hpart
      omega

end TypedBytes

namespace TaggedFormat

open BodyDivision

/-- Where the data of contents lie that are packed from `pos` on. -/
def partSpans (pos : Nat) (contents : List TypedBytes) : List Span :=
  (offsetsFrom parts.partHeader pos contents).map fun part =>
    ⟨part.2.kind, part.1, part.1 + part.2.data.length⟩

def contentsAt (frame : Bytes) (spans : List Span) : List TypedBytes :=
  spans.map fun span => ⟨span.kind, frame.between span.start span.stop⟩

variable {frame bs : Bytes} {pos stop : Nat} {contents : List TypedBytes}

theorem length_partHeader (content : TypedBytes) :
    (parts.partHeader content).length = 3 := by
  rw [partHeader, List.length_cons, Bytes.length_ofNatBE]

theorem partSpans_cons (pos : Nat) (content : TypedBytes) (rest : List TypedBytes) :
    partSpans pos (content :: rest) =
      ⟨content.kind, pos + 3, pos + 3 + content.data.length⟩ ::
        partSpans (pos + 3 + content.data.length) rest := by
  rw [partSpans, offsetsFrom, length_partHeader]
  rfl

/-- **Contents come back.** The spans of packed contents hold these contents. -/
theorem contentsAt_partSpans
    (h : frame.HasAt pos (packWith parts.partHeader contents)) :
    contentsAt frame (partSpans pos contents) = contents := by
  have hfacts := offsetsFrom_facts h
  rw [contentsAt, partSpans, List.map_map]
  conv_rhs => rw [← map_snd_offsetsFrom parts.partHeader pos contents]
  refine List.map_congr_left fun part hpart => ?_
  simp only [Function.comp_apply, (hfacts part hpart).1.between_eq]

/-- The spans lie inside the packed contents, each behind the three bytes of a header. -/
theorem partSpans_facts
    (h : frame.HasAt pos (packWith parts.partHeader contents)) :
    ∀ span ∈ partSpans pos contents, pos + 3 ≤ span.start ∧ span.start ≤ span.stop ∧
      span.stop ≤ pos + (packWith parts.partHeader contents).length := by
  intro span hspan
  obtain ⟨part, hpart, rfl⟩ := List.mem_map.mp hspan
  have hstart := le_offsetsFrom part hpart
  rw [length_partHeader] at hstart
  exact ⟨hstart, Nat.le_add_right _ _, (offsetsFrom_facts h part hpart).2⟩

/-! ## §2 What is left behind some parts -/

/-- Bytes at `pos` up to the end of a payload, that are no part and do not start with one. -/
inductive BreaksOff : (pos : Nat) → Bytes → Malformation → Prop
  /-- In the middle of a header. -/
  | header {pos : Nat} {left : Bytes} (hne : left ≠ []) (hshort : left.length < 3) :
      BreaksOff pos left (.partHeader pos)
  /-- In the middle of the data. -/
  | data {pos : Nat} {kind high low : UInt8} {left : Bytes}
      (hshort : left.length < 256 * high.toNat + low.toNat) :
      BreaksOff pos (kind :: high :: low :: left)
        (.partData kind (256 * high.toNat + low.toNat))

/-- Three bytes and as much data as two of them say are a packed content. -/
theorem packWith_cons_take (kind : Kind) {high low : UInt8} {left : Bytes}
    (hlen : 256 * high.toNat + low.toNat ≤ left.length) (rest : List TypedBytes) :
    packWith parts.partHeader
        (⟨kind, left.take (256 * high.toNat + low.toNat)⟩ :: rest) =
      kind :: high :: low :: (left.take (256 * high.toNat + low.toNat) ++
        packWith parts.partHeader rest) := by
  have hread : Bytes.toNatBE [high, low] = 256 * high.toNat + low.toNat := by
    simp only [Bytes.toNatBE, List.reverse_cons, List.reverse_nil, List.nil_append,
      List.singleton_append, Bytes.toNatLE]
    omega
  have hwrite := Bytes.ofNatBE_toNatBE [high, low]
  rw [hread] at hwrite
  rw [packWith_cons, partHeader, List.length_take, min_eq_left hlen]
  exact congrArg (fun field => kind :: (field ++ _)) hwrite

/-- **The parts of a payload.** It is a string of parts, and divided into them, or it breaks off
behind some of them, and that is what the division says. -/
theorem partsFrom_cases (hstop : pos + bs.length = stop) (hand : Array Span) :
    (∃ contents, parts.Admits contents ∧
      bs = packWith parts.partHeader contents ∧
      partsFrom stop pos hand bs = .ok (hand.toList ++ partSpans pos contents)) ∨
    ∃ contents left how, parts.Admits contents ∧
      bs = packWith parts.partHeader contents ++ left ∧
      BreaksOff (pos + (packWith parts.partHeader contents).length) left how ∧
      partsFrom stop pos hand bs = .error (.malformed how) := by
  -- the division takes one part after the other off the front
  fun_induction partsFrom stop pos hand bs with
  | case1 pos hand =>
    exact .inl ⟨[], by simp [Admits], rfl, by simp [partSpans, offsetsFrom]⟩
  | case2 pos hand kind high low rest length start hover =>
    refine .inr ⟨[], kind :: high :: low :: rest, .partData kind length, by simp [Admits], rfl,
      .data ?_, rfl⟩
    simp only [List.length_cons] at hstop
    omega
  | case3 pos hand kind high low rest length start hover ih =>
    simp only [List.length_cons] at hstop
    have hlen : length ≤ rest.length := by omega
    have hhigh := high.toNat_lt
    have hlow := low.toNat_lt
    let content : TypedBytes := ⟨kind, rest.take length⟩
    have htake : content.data.length = length := by
      rw [List.length_take, min_eq_left hlen]
    have hadmits : ∀ {contents}, parts.Admits contents →
        parts.Admits (content :: contents) := fun h =>
      List.forall_mem_cons.mpr ⟨by omega, h⟩
    have hpack := packWith_cons_take kind hlen
    rcases ih (by rw [List.length_drop]; omega) with
      ⟨contents, hall, hrest, hparts⟩ | ⟨contents, left, how, hall, hrest, hbroken, hparts⟩
    · refine .inl ⟨content :: contents, hadmits hall, ?_, ?_⟩
      · rw [hpack, ← hrest, List.take_append_drop]
      · rw [hparts, partSpans_cons, htake, Array.toList_push, List.append_assoc]
        rfl
    · refine .inr ⟨content :: contents, left, how, hadmits hall, ?_, ?_, hparts⟩
      · rw [hpack, List.cons_append, List.cons_append, List.cons_append, List.append_assoc,
          ← hrest, List.take_append_drop]
      · have hlonger : pos + (packWith parts.partHeader (content :: contents)).length =
            start + length + (packWith parts.partHeader contents).length := by
          rw [packWith_cons, List.length_append, List.length_append, length_partHeader, htake]
          omega
        rwa [hlonger]
  | case4 pos hand first left hmore =>
    have hshort : left.length < 2 := by
      rcases left with _ | ⟨high, _ | ⟨low, rest⟩⟩
      · exact Nat.zero_lt_two
      · exact Nat.one_lt_two
      · exact (hmore high low rest rfl).elim
    refine .inr ⟨[], first :: left, .partHeader pos, by simp [Admits], rfl, ?_, rfl⟩
    exact .header (List.cons_ne_nil _ _) (Nat.succ_lt_succ hshort)

/-! ## §3 Division -/

/-- What lies between the length field and the trailer of a frame. -/
def payloadOf (t : TaggedFormat) (frame : Bytes) : Bytes :=
  frame.between t.payloadStart (frame.length - t.trailer.length)

theorem length_payloadOf {t : TaggedFormat} (hsize : t.minLength ≤ frame.length) :
    t.payloadStart + (t.payloadOf frame).length = frame.length - t.trailer.length := by
  rw [minLength] at hsize
  rw [payloadOf, Bytes.length_between _ (Nat.sub_le _ _)]
  omega

/-- A frame whose payload has parts is divided as the payload is. -/
theorem divide_eq_partsFrom {t : TaggedFormat} (hbody : t.body = .parts)
    (hmagic : t.magic <+: frame) (hsize : t.minLength ≤ frame.length) :
    t.divide frame =
      partsFrom (frame.length - t.trailer.length) t.payloadStart #[] (t.payloadOf frame) := by
  have hstarts : t.magic.isPrefixOf frame = true := List.isPrefixOf_iff_prefix.mpr hmagic
  unfold divide
  simp only [if_neg (Nat.not_lt.mpr hsize), hstarts, if_true, hbody]
  rfl

/-- Packed contents are found where they were packed. -/
theorem divide_of_packed {t : TaggedFormat} (hbody : t.body = .parts) (hmagic : t.magic <+: frame)
    (hsize : t.minLength ≤ frame.length) (hadmits : parts.Admits contents)
    (hpacked : t.payloadOf frame = packWith parts.partHeader contents) :
    t.divide frame = .ok (partSpans t.payloadStart contents) := by
  have hlen := length_payloadOf hsize
  rw [hpacked] at hlen
  rw [divide_eq_partsFrom hbody hmagic hsize, hpacked, partsFrom_packWith contents hadmits hlen.le]
  rfl

/-- A frame is divided exactly if its payload is packed from contents that parts can hold. -/
theorem divide_eq_ok_iff {t : TaggedFormat} (hbody : t.body = .parts) (hmagic : t.magic <+: frame)
    (hsize : t.minLength ≤ frame.length) {spans : List Span} :
    t.divide frame = .ok spans ↔ ∃ contents, parts.Admits contents ∧
      t.payloadOf frame = packWith parts.partHeader contents ∧
      spans = partSpans t.payloadStart contents := by
  constructor
  · intro h
    rw [divide_eq_partsFrom hbody hmagic hsize] at h
    rcases partsFrom_cases (length_payloadOf hsize) #[] with
      ⟨contents, hadmits, hpacked, hparts⟩ | ⟨_, _, _, _, _, _, hparts⟩
    · rw [hparts] at h
      cases h
      exact ⟨contents, hadmits, hpacked, rfl⟩
    · rw [hparts] at h
      cases h
  · rintro ⟨contents, hadmits, hpacked, rfl⟩
    exact divide_of_packed hbody hmagic hsize hadmits hpacked

theorem payloadOf_frame {t : TaggedFormat} (hbody : t.body = .parts) (contents : List TypedBytes) :
    t.payloadOf (t.frame contents) = packWith parts.partHeader contents := by
  have hstop : (t.frame contents).length - t.trailer.length =
      t.payloadStart + (t.payload contents).length := by
    rw [length_frame, minLength]
    omega
  rw [payloadOf, hstop, (t.hasAt_payload contents).between_eq, payload, hbody]

/-- **Payloads are packed contents.** Of the frames that are long enough and start with the magic,
those are divided whose payload is packed from contents that parts can hold, into the places where
these lie. They hold these contents again, whatever contents are packed; and what they hold packs to
the payload, whatever frame is divided, and no span reaches out of that. Of any other frame the
division says where its payload breaks off. -/
theorem payloads_are_packed_contents (t : TaggedFormat) (hbody : t.body = .parts) {frame : Bytes}
    (hmagic : t.magic <+: frame) (hsize : t.minLength ≤ frame.length) :
    let payload := t.payloadOf frame
    (∀ spans, t.divide frame = .ok spans ↔ ∃ contents, parts.Admits contents ∧
      payload = packWith parts.partHeader contents ∧ spans = partSpans t.payloadStart contents) ∧
    (∀ contents, parts.Admits contents → payload = packWith parts.partHeader contents →
      ∃ spans, t.divide frame = .ok spans ∧ contentsAt frame spans = contents) ∧
    (∀ spans, t.divide frame = .ok spans → parts.Admits (contentsAt frame spans) ∧
      packWith parts.partHeader (contentsAt frame spans) = payload ∧
      ∀ span ∈ spans, t.payloadStart + 3 ≤ span.start ∧ span.start ≤ span.stop ∧
        span.stop ≤ frame.length - t.trailer.length) ∧
    ((¬ ∃ contents, parts.Admits contents ∧ payload = packWith parts.partHeader contents) →
      ∃ contents left how, parts.Admits contents ∧
        payload = packWith parts.partHeader contents ++ left ∧
        BreaksOff (t.payloadStart + (packWith parts.partHeader contents).length) left how ∧
        t.divide frame = .error (.malformed how)) := by
  intro payload
  have hlen := length_payloadOf hsize
  have hat : frame.HasAt t.payloadStart (t.payloadOf frame) := Bytes.hasAt_between ..
  refine ⟨fun spans => divide_eq_ok_iff hbody hmagic hsize, ?back, ?forth, ?broken⟩
  case back =>
    intro contents hadmits hpacked
    refine ⟨_, divide_of_packed hbody hmagic hsize hadmits hpacked, ?_⟩
    exact contentsAt_partSpans (hpacked ▸ hat)
  case forth =>
    intro spans h
    obtain ⟨contents, hadmits, hpacked, rfl⟩ := (divide_eq_ok_iff hbody hmagic hsize).mp h
    rw [hpacked] at hat
    have hstop : t.payloadStart + (packWith parts.partHeader contents).length =
        frame.length - t.trailer.length := hpacked ▸ hlen
    rw [contentsAt_partSpans hat, ← hstop]
    exact ⟨hadmits, hpacked.symm, partSpans_facts hat⟩
  case broken =>
    intro hnot
    -- the parts are cut off one by one, until the payload ends or the next one breaks off
    rcases partsFrom_cases hlen #[] with
      ⟨contents, hadmits, hpacked, -⟩ | ⟨contents, left, how, hadmits, hleft, hbroken, hparts⟩
    · exact absurd ⟨contents, hadmits, hpacked⟩ hnot
    · refine ⟨contents, left, how, hadmits, hleft, hbroken, ?_⟩
      rw [divide_eq_partsFrom hbody hmagic hsize, hparts]

/-- Two parts, the second one empty; and a part that claims more bytes than the payload has. -/
theorem payloads_are_packed_contents_samples :
    (∃ spans, sample.divide (sample.frame [⟨7, [1, 2]⟩, ⟨8, []⟩]) = .ok spans ∧
      contentsAt (sample.frame [⟨7, [1, 2]⟩, ⟨8, []⟩]) spans = [⟨7, [1, 2]⟩, ⟨8, []⟩]) ∧
    ∃ how, sample.divide [0x41, 0x42, 4, 1, 0, 255, 0, 0x5a] = .error (.malformed how) := by
  constructor
  · have hsize : sample.minLength ≤ (sample.frame [⟨7, [1, 2]⟩, ⟨8, []⟩]).length := by decide
    obtain ⟨-, hback, -⟩ := payloads_are_packed_contents sample rfl (List.prefix_append _ _) hsize
    exact hback _ (by decide) (payloadOf_frame rfl _)
  · obtain ⟨hiff, -, -, hbroken⟩ := payloads_are_packed_contents sample rfl
      (show sample.magic <+: [0x41, 0x42, 4, 1, 0, 255, 0, 0x5a] by decide) (by decide)
    have herror : sample.divide [0x41, 0x42, 4, 1, 0, 255, 0, 0x5a] =
        .error (.malformed (.partData 1 255)) := by decide +kernel
    obtain ⟨-, -, how, -, -, -, hdivide⟩ := hbroken fun ⟨contents, hadmits, hpacked⟩ => by
      have hok := (hiff _).mpr ⟨contents, hadmits, hpacked, rfl⟩
      rw [herror] at hok
      cases hok
    exact ⟨how, hdivide⟩

end TaggedFormat

end Granule
