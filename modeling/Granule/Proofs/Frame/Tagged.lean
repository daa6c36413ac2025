import Granule.Proofs.Scan.Stream

/-!
# Streams of Tagged Frames

A tagged frame is built around its payload, and the payload out of contents. What
is built this way is divided back into the same contents at the same offsets, and
a stream of such frames is scanned back into them.

A payload may hold magics and trailers of its own: its length is what counts.

**Main statements**:
- `TaggedFormat.divide_frame` : a frame is divided into the contents it was built from
- `TaggedFormat.scan_yields_frames` : a scan of a clean stream gives every frame
-/

namespace Granule

open StreamFrame TypedBytes

/-! ## §1 Payloads -/

namespace BodyDivision

def partHeader : BodyDivision → TypedBytes → Bytes
  | .whole, _ => []
  | .parts, content => content.kind :: Bytes.ofNatBE 2 content.data.length

/-- Contents that a payload can hold: a single one, or any number whose lengths fit their
length fields. -/
def Admits : BodyDivision → List TypedBytes → Prop
  | .whole, contents => contents.map (·.kind) = [payloadKind]
  | .parts, contents => ∀ content ∈ contents, content.data.length < 2 ^ 16

instance (d : BodyDivision) (contents : List TypedBytes) : Decidable (d.Admits contents) :=
  match d with
  | .whole => inferInstanceAs (Decidable (contents.map (·.kind) = [payloadKind]))
  | .parts => inferInstanceAs (Decidable (∀ content ∈ contents, content.data.length < 2 ^ 16))

end BodyDivision

namespace TaggedFormat

open BodyDivision

variable {t : TaggedFormat}

theorem partsFrom_cons {stop pos : Nat} {hand : Array Span} {content : TypedBytes} (after : Bytes)
    (hlen : content.data.length < 2 ^ 16) (hstop : pos + 3 + content.data.length ≤ stop) :
    partsFrom stop pos hand
        (BodyDivision.parts.partHeader content ++ (content.data ++ after)) =
      partsFrom stop (pos + 3 + content.data.length)
        (hand.push ⟨content.kind, pos + 3, pos + 3 + content.data.length⟩) after := by
  have hwrite : Bytes.ofNatBE 2 content.data.length =
      [UInt8.ofNat (content.data.length / 256), UInt8.ofNat content.data.length] := rfl
  -- the two bytes of the length read back as the length
  have hread : 256 * (UInt8.ofNat (content.data.length / 256)).toNat +
      (UInt8.ofNat content.data.length).toNat = content.data.length := by
    rw [UInt8.toNat_ofNat', UInt8.toNat_ofNat']
    omega
  rw [partHeader, hwrite]
  simp only [List.cons_append, List.nil_append]
  rw [partsFrom]
  simp only [hread, List.drop_left]
  rw [if_neg (by omega)]

/-- A sequence of parts is divided into them. -/
theorem partsFrom_packWith {stop : Nat} (contents : List TypedBytes) {pos : Nat}
    (hadmits : BodyDivision.parts.Admits contents)
    (hstop : pos + (packWith BodyDivision.parts.partHeader contents).length ≤ stop)
    (hand : Array Span) :
    partsFrom stop pos hand (packWith BodyDivision.parts.partHeader contents) =
      .ok (hand.toList ++ (offsetsFrom BodyDivision.parts.partHeader pos contents).map fun part =>
        ⟨part.2.kind, part.1, part.1 + part.2.data.length⟩) := by
  -- each part is taken off the front, with its span pushed to the hand
  induction contents generalizing pos hand with
  | nil => simp [packWith, partsFrom, offsetsFrom]
  | cons content rest ih =>
    have hheader : (BodyDivision.parts.partHeader content).length = 3 := by
      simp [partHeader]
    have hlen := hadmits content (List.mem_cons_self ..)
    rw [packWith_cons, List.length_append, List.length_append, hheader] at hstop
    rw [packWith_cons, partsFrom_cons _ hlen (by omega),
      ih (fun c hc => hadmits c (List.mem_cons_of_mem _ hc)) (by omega)]
    simp [offsetsFrom, hheader]

/-! ## §2 Frames -/

def payload (t : TaggedFormat) (contents : List TypedBytes) : Bytes :=
  packWith t.body.partHeader contents

def frame (t : TaggedFormat) (contents : List TypedBytes) : Bytes :=
  t.magic ++ (Bytes.ofNatBE t.fieldWidth (t.payload contents).length ++
    (t.payload contents ++ t.trailer))

theorem length_frame (contents : List TypedBytes) :
    (t.frame contents).length = (t.payload contents).length + t.minLength := by
  simp only [frame, List.length_append, Bytes.length_ofNatBE, minLength, payloadStart]
  omega

theorem hasAt_of_frame {bs : Bytes} {start : Nat} {contents : List TypedBytes}
    (h : bs.HasAt start (t.frame contents)) :
    bs.HasAt start t.magic ∧
      bs.HasAt (start + t.magic.length)
        (Bytes.ofNatBE t.fieldWidth (t.payload contents).length) ∧
      bs.HasAt (start + t.payloadStart) (t.payload contents) := by
  obtain ⟨hmagic, hrest⟩ := Bytes.hasAt_append.mp h
  obtain ⟨hfield, hrest⟩ := Bytes.hasAt_append.mp hrest
  obtain ⟨hpayload, -⟩ := Bytes.hasAt_append.mp hrest
  rw [Bytes.length_ofNatBE, Nat.add_assoc] at hpayload
  exact ⟨hmagic, hfield, hpayload⟩

theorem hasAt_payload (t : TaggedFormat) (contents : List TypedBytes) :
    (t.frame contents).HasAt t.payloadStart (t.payload contents) := by
  have hself : (t.frame contents).HasAt 0 (t.frame contents) := List.prefix_rfl
  obtain ⟨-, -, hpayload⟩ := hasAt_of_frame hself
  rwa [Nat.zero_add] at hpayload

/-- A frame of a stream, with the gap before it. -/
def streamFrame (t : TaggedFormat) (gap : Bytes) (contents : List TypedBytes) : StreamFrame where
  gap
  bytes := t.frame contents
  parts := offsetsFrom t.body.partHeader t.payloadStart contents

/-- Contents lie at their offsets in the frame. -/
theorem parts_streamFrame (gap : Bytes) (contents : List TypedBytes) :
    ∀ part ∈ (t.streamFrame gap contents).parts, (t.frame contents).HasAt part.1 part.2.data ∧
      part.1 + part.2.data.length ≤ (t.frame contents).length := by
  intro part hpart
  obtain ⟨hat, hle⟩ := offsetsFrom_facts (t.hasAt_payload contents) part hpart
  have hlen : (t.frame contents).length =
      (packWith t.body.partHeader contents).length + (t.payloadStart + t.trailer.length) :=
    t.length_frame contents
  exact ⟨hat, by omega⟩

/-- **Division.** A frame is divided into the contents it was built from. -/
theorem divide_frame {contents : List TypedBytes} (gap : Bytes) (h : t.body.Admits contents) :
    t.divide (t.frame contents) = .ok (t.streamFrame gap contents).spans := by
  have hsize := t.length_frame contents
  have hstop : (t.frame contents).length - t.trailer.length =
      t.payloadStart + (t.payload contents).length := by
    rw [hsize, minLength]
    omega
  have hprefix : t.magic.isPrefixOf (t.frame contents) = true :=
    List.isPrefixOf_iff_prefix.mpr (List.prefix_append _ _)
  have hbetween := (t.hasAt_payload contents).between_eq
  unfold divide
  have hlong : ¬ (t.frame contents).length < t.minLength := by omega
  simp only [if_neg hlong, hprefix, if_true, hstop, hbetween, spans, streamFrame]
  cases hbody : t.body with
  | whole =>
    -- the payload is the data of its one content
    rw [hbody] at h
    obtain ⟨content, rfl, hkind⟩ := List.map_eq_singleton_iff.mp h
    simp [payload, hbody, offsetsFrom, partHeader, packWith, hkind]
  | parts =>
    rw [hbody] at h
    have hstop : t.payloadStart + (packWith BodyDivision.parts.partHeader contents).length ≤
        t.payloadStart + (packWith BodyDivision.parts.partHeader contents).length := le_rfl
    have hparts := partsFrom_packWith contents h hstop #[]
    simpa [payload, hbody] using hparts

/-! ## §3 Streams -/

/-- A frame and its gap fit the format: the contents can be held, their length can be declared,
and the magic of the frame is the first one. -/
structure Fits (t : TaggedFormat) (gap : Bytes) (contents : List TypedBytes) : Prop where
  admits : t.body.Admits contents
  field : (t.payload contents).length < 256 ^ t.fieldWidth
  /-- Lengths are counted in 64 bits. -/
  size : (t.frame contents).length ≤ maxDeclared
  first : (gap ++ t.frame contents).firstOccurrence t.magic 0 = some gap.length

/-- A scan for tagged frames whose lengths are never repaired. -/
def plainScan (t : TaggedFormat) (settings : ScanSettings) (bytes : Bytes) : PlainScan where
  format := t.format
  view := t.view fun _ _ => none
  settings
  bytes

/-- Where the length field of a frame that fits lies, it declares the length of that frame. -/
theorem preamble_of_field {gap bytes : Bytes} {contents : List TypedBytes}
    (settings : ScanSettings) (h : t.Fits gap contents) {start : Nat}
    (hfield : bytes.HasAt (start + t.magic.length)
      (Bytes.ofNatBE t.fieldWidth (t.payload contents).length)) :
    (t.plainScan settings bytes).view.preamble bytes start =
      some ⟨start + t.magic.length + t.fieldWidth,
        some ⟨start, (t.payload contents).length, (t.frame contents).length⟩⟩ := by
  -- the length is small enough to be counted
  have hdeclared : t.declared (t.payload contents).length = (t.frame contents).length := by
    rw [declared, ← t.length_frame]
    exact Nat.min_eq_left h.size
  show Option.map _ _ = _
  rw [hfield.natAt_eq t.fieldWidth_pos h.field, Option.map_some, hdeclared]

/-- A frame that fits is read as a whole. -/
theorem readsFrame {gap bytes : Bytes} {contents : List TypedBytes} {settings : ScanSettings}
    (hmagic : t.magic ≠ []) (h : t.Fits gap contents) :
    (t.plainScan settings bytes).ReadsFrame (t.streamFrame gap contents) := by
  have hlen := t.length_frame contents
  apply PlainScan.readsFrame_of_honest
  case hne => exact List.append_ne_nil_of_left_ne_nil hmagic _
  case hfirst => exact h.first
  case hpreamble =>
    intro start hat
    obtain ⟨-, hfield, -⟩ := hasAt_of_frame hat
    exact ⟨_, _, preamble_of_field settings h hfield, rfl, rfl⟩
  case hmin =>
    show t.minLength ≤ (t.frame contents).length
    omega
  case htrailer =>
    -- whatever the payload holds, the trailer stands at the end
    rw [streamFrame, frame, ← List.append_assoc, ← List.append_assoc]
    exact List.suffix_append _ _
  case hdivide => exact divide_frame gap h.admits
  case hparts => exact parts_streamFrame gap contents

/-- **Tagged streams.** A scan of frames that fit, each behind its gap, gives every one of them
and nothing else, whatever their payloads look like. -/
theorem scan_yields_frames (t : TaggedFormat) (hmagic : t.magic ≠ [])
    (hrepair : t.repair = LengthRule.none) (settings : ScanSettings)
    (items : List (Bytes × List TypedBytes)) (last : Bytes)
    (hitems : ∀ x ∈ items, t.Fits x.1 x.2)
    (hlast : last.firstOccurrence t.magic 0 = none)
    (source : Source) (hsteady : source.NeverFails)
    (hbytes : source.bytes = join (items.map fun x => t.streamFrame x.1 x.2) ++ last) :
    (Scanner.start source t.format settings).Yields
      (items.map fun x => t.streamFrame x.1 x.2) := by
  have hdescribes : (t.plainScan settings source.bytes).Describes source :=
    ⟨hsteady, rfl, format_readsAs (hrepair ▸ LengthRule.none_readsAs)⟩
  have hclean : (t.plainScan settings source.bytes).Clean
      (items.map fun x => t.streamFrame x.1 x.2) last := by
    refine ⟨hbytes, ?_, hlast⟩
    intro f hf
    obtain ⟨x, hx, rfl⟩ := List.mem_map.mp hf
    exact readsFrame hmagic (hitems x hx)
  exact hclean.yields hdescribes

/-- Frames `AB`, a length byte, parts, and `Z`. -/
def sample : TaggedFormat where
  magic := [0x41, 0x42]
  lengthWidth := 1
  trailer := [0x5a]
  body := .parts

/-- Two frames of which one holds another magic, and half a magic at the end. -/
def sampleItems : List (Bytes × List TypedBytes) := [([0], [⟨7, [0x41, 0x42]⟩]), ([0x41], [])]

theorem scan_yields_sample_frames :
    (sample.magic ≠ [] ∧ sample.repair = LengthRule.none ∧
      ∀ x ∈ sampleItems, sample.Fits x.1 x.2) ∧
    ∃ record, (Scanner.start (.ofBytes [0, 0x41, 0x42, 5, 7, 0, 2, 0x41, 0x42, 0x5a,
        0x41, 0x41, 0x42, 0, 0x5a, 0x41]) sample.format {}).next.1 = .ok (some record) ∧
      record.header = [0] ∧ record.start = 1 ∧ record.stop = 10 := by
  have hitems : ∀ x ∈ sampleItems, sample.Fits x.1 x.2 := by
    intro x hx
    rcases List.mem_cons.mp hx with rfl | hx
    · exact ⟨by decide, by decide, by decide, by decide⟩
    · obtain rfl := List.mem_singleton.mp hx
      exact ⟨by decide, by decide, by decide, by decide⟩
  refine ⟨⟨by decide, rfl, hitems⟩, ?_⟩
  obtain ⟨-, record, hnext, hshows⟩ := scan_yields_frames sample (by decide) rfl {} sampleItems [0x41]
    hitems (by decide) (.ofBytes [0, 0x41, 0x42, 5, 7, 0, 2, 0x41, 0x42, 0x5a,
      0x41, 0x41, 0x42, 0, 0x5a, 0x41]) (Source.neverFails_ofBytes _) (by decide) 0
  exact ⟨record, hnext, hshows.header_eq, hshows.start_eq, hshows.stop_eq⟩

end TaggedFormat

end Granule
