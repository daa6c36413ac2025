import Granule.Frame.Grib1
import Granule.Frame.Tagged
import Granule.Proofs.Source.Steady

/-!
# What Formats Read

A format reads a source at a magic: a preamble, perhaps the fields that a length
repair asks for, perhaps the inner structure of the frame. On a source that never
fails all of this depends on the bytes alone, and a `ByteView` says how.

Where the bytes end too early there is nothing to read, and an answer that was
not found is no answer. Both are `none` in a view, which is why a view reads in
`Option` what the format reads in `Except IoError`.

**Main statements**:
- `Grib1.format_readsAs`, `TaggedFormat.format_readsAs` : the views of the formats
- `WireFormat.ReadsAs.vary` : the view of a varied format
- `Grib1.largeMessageRepair_readsAs` : what the repair of large messages reads
-/

namespace Granule

namespace Bytes

/-- The number in `width` bytes at an offset, most significant first. -/
def natAt? (bs : Bytes) (pos width : Nat) : Option Nat :=
  if pos + width ≤ bs.length then some (bs.between pos (pos + width)).toNatBE else none

def byteAt? (bs : Bytes) (pos : Nat) : Option UInt8 := (bs.natAt? pos 1).map UInt8.ofNat

variable {bs : Bytes} {pos : Nat}

/-- A number that was written is read back. -/
theorem HasAt.natAt_eq {width n : Nat} (h : bs.HasAt pos (ofNatBE width n)) (hw : 0 < width)
    (hn : n < 256 ^ width) : bs.natAt? pos width = some n := by
  have hle := h.length_le (by rw [← List.length_pos_iff, length_ofNatBE]; exact hw)
  have hread := h.between_eq
  rw [length_ofNatBE] at hle hread
  rw [natAt?, if_pos hle, hread, toNatBE_ofNatBE, Nat.mod_eq_of_lt hn]

theorem HasAt.byteAt_eq {b : UInt8} (h : bs.HasAt pos [b]) : bs.byteAt? pos = some b := by
  have hbyte : ofNatBE 1 b.toNat = [b] := by
    simp [ofNatBE, ofNatLE]
  rw [← hbyte] at h
  rw [byteAt?, h.natAt_eq Nat.one_pos b.toNat_lt]
  simp

/-- A number in a part of the bytes is the number there, as far behind the start of the part. -/
theorem HasAt.natAt_of_part {part : Bytes} {offset width n : Nat} (h : bs.HasAt pos part)
    (hw : 0 < width) (hn : part.natAt? offset width = some n) :
    bs.natAt? (pos + offset) width = some n := by
  rw [natAt?, Option.ite_none_right_eq_some] at hn
  obtain ⟨hle, hn⟩ := hn
  have hne : part ≠ [] := List.length_pos_iff.mp (by omega)
  have hsize := h.length_le hne
  rw [natAt?, if_pos (by omega), Nat.add_assoc, h.between_part hle, hn]

theorem HasAt.byteAt_of_part {part : Bytes} {offset : Nat} {b : UInt8} (h : bs.HasAt pos part)
    (hb : part.byteAt? offset = some b) : bs.byteAt? (pos + offset) = some b := by
  obtain ⟨n, hn, rfl⟩ := Option.map_eq_some_iff.mp hb
  rw [byteAt?, h.natAt_of_part Nat.one_pos hn]
  rfl

theorem byteAt_of_lt (h : pos < bs.length) : bs.byteAt? pos = some (bs.getD pos 0) := by
  apply HasAt.byteAt_eq
  rw [HasAt, List.drop_eq_getElem_cons h, List.getD_eq_getElem?_getD, List.getElem?_eq_getElem h,
    Option.getD_some]
  exact List.prefix_append [_] _

end Bytes

/-! ## §1 Views -/

/-- What a format reads off a byte string at a magic; nothing where the bytes end too early. -/
structure ByteView where
  preamble : Bytes → (magicAt : Nat) → Option PreambleReading
  repair : Bytes → Preamble → Option Nat
  impliedEnd : Bytes → (magicAt : Nat) → Option Nat

/-- What a source is asked for has this answer, where the end of the data counts as none. -/
def Answers {α : Type} (x : Except IoError (Option α)) (answer : Option α) : Prop :=
  (noneAtEnd x).map Option.join = .ok answer

/-- On a source that never fails, a rule answers by the bytes alone. -/
def LengthRule.ReadsAs (rule : LengthRule) (answer : Bytes → Preamble → Option Nat) : Prop :=
  ∀ s : Source, s.NeverFails → ∀ p, Answers (rule s p) (answer s.bytes p)

/-- On a source that never fails, a format reads what the view says. -/
structure WireFormat.ReadsAs (f : WireFormat) (v : ByteView) : Prop where
  preamble : ∀ s : Source, s.NeverFails → ∀ p,
    noneAtEnd (f.preamble s p) = .ok (v.preamble s.bytes p)
  repair : f.repair.ReadsAs v.repair
  impliedEnd : ∀ s : Source, s.NeverFails → ∀ p, Answers (f.impliedEnd s p) (v.impliedEnd s.bytes p)

/-! ## §2 Answers -/

theorem noneAtEnd_map {α β : Type} (x : Except IoError α) (g : α → β) :
    noneAtEnd (x.map g) = (noneAtEnd x).map (Option.map g) := by
  cases x with
  | ok a => rfl
  | error e => cases e <;> rfl

theorem noneAtEnd_eq_none_iff {α : Type} {x : Except IoError α} :
    noneAtEnd x = .ok none ↔ x = .error .endOfData := by
  cases x with
  | ok a => simp [noneAtEnd]
  | error e => cases e <;> simp [noneAtEnd]

namespace Answers

variable {α β : Type}

theorem ok (answer : Option α) : Answers (.ok answer) answer := rfl

/-- Without any data there is no answer. -/
theorem endOfData : Answers (.error .endOfData) (none : Option α) := rfl

theorem cases {x : Except IoError (Option α)} {answer : Option α} (h : Answers x answer) :
    x = .ok answer ∨ x = .error .endOfData ∧ answer = none := by
  match x, h with
  | .ok _, h => exact .inl (congrArg _ (Except.ok.inj h))
  | .error .endOfData, h => exact .inr ⟨rfl, (Except.ok.inj h).symm⟩

/-- An answer that was found is what was asked for. -/
theorem eq_ok_some_iff {x : Except IoError (Option α)} {answer : Option α} (h : Answers x answer)
    (a : α) : x = .ok (some a) ↔ answer = some a := by
  rcases h.cases with rfl | ⟨rfl, rfl⟩ <;> simp

/-- An answer that goes on to ask for another. -/
theorem bind {x : Except IoError (Option α)} {answer : Option α}
    {next : Option α → Except IoError (Option β)} {then? : α → Option β} (h : Answers x answer)
    (hnone : Answers (next none) none) (hsome : ∀ a, Answers (next (some a)) (then? a)) :
    Answers (x >>= next) (answer.bind then?) := by
  rcases h.cases with rfl | ⟨rfl, rfl⟩
  -- without an answer to the first there is none to the second
  · cases answer with
    | none => exact hnone
    | some a => exact hsome a
  · exact endOfData

end Answers

namespace Source

variable {s : Source}

theorem readNat_eq_natAt (h : s.NeverFails) (pos : Nat) {width : Nat} (hw : 0 < width) :
    s.readNat pos width = (s.bytes.natAt? pos width).elim (.error .endOfData) .ok := by
  rw [readNat_eq h pos hw, Bytes.natAt?]
  split <;> rfl

theorem readByte_eq_byteAt (h : s.NeverFails) (pos : Nat) :
    Grib1.readByte s pos = (s.bytes.byteAt? pos).elim (.error .endOfData) .ok := by
  rw [Grib1.readByte, readNat_eq_natAt h pos Nat.one_pos, Bytes.byteAt?]
  cases s.bytes.natAt? pos 1 <;> rfl

variable {α : Type}

/-- A number is read, and something is asked for that depends on it. -/
theorem answers_readNat (h : s.NeverFails) (pos : Nat) {width : Nat} (hw : 0 < width)
    {next : Nat → Except IoError (Option α)} {then? : Nat → Option α}
    (hnext : ∀ n, Answers (next n) (then? n)) :
    Answers (s.readNat pos width >>= next) ((s.bytes.natAt? pos width).bind then?) := by
  rw [readNat_eq_natAt h pos hw]
  cases s.bytes.natAt? pos width with
  | none => exact .endOfData
  | some n => exact hnext n

theorem answers_readByte (h : s.NeverFails) (pos : Nat)
    {next : UInt8 → Except IoError (Option α)} {then? : UInt8 → Option α}
    (hnext : ∀ b, Answers (next b) (then? b)) :
    Answers (Grib1.readByte s pos >>= next) ((s.bytes.byteAt? pos).bind then?) := by
  rw [readByte_eq_byteAt h pos]
  cases s.bytes.byteAt? pos with
  | none => exact .endOfData
  | some b => exact hnext b

end Source

/-! ## §3 Length rules -/

namespace LengthRule

theorem none_readsAs : LengthRule.none.ReadsAs fun _ _ => Option.none := fun _ _ _ => rfl

theorem fixed_readsAs (whenField : Option Nat) (length : Nat) :
    (fixed whenField length).ReadsAs fun _ p =>
      if whenField.all (· = p.field) then some length else Option.none :=
  fun _ _ _ => rfl

end LengthRule

namespace Grib1

/-- Where a walk over `count` sections from `pos` on ends. -/
def sectionsEnd? (bs : Bytes) : (count pos : Nat) → Option Nat
  | 0, pos => some pos
  | n + 1, pos =>
    (bs.natAt? pos lengthWidth).bind fun length =>
      if length < lengthWidth then none else sectionsEnd? bs n (pos + length)

def dataStart? (bs : Bytes) (productStart productLength : Nat) (flags : UInt8) : Option Nat :=
  if productLength < Section.minLength .product then none
  else sectionsEnd? bs (Section.announced flags).length (productStart + productLength)

/-- The length of a large message, by the centre in its product definition and the excess in
its data section. -/
def largeLength? (bs : Bytes) (p : Preamble) : Option Nat :=
  if isLarge p.field then do
    let productStart := p.magicAt + indicatorLength
    let productLength ← bs.natAt? productStart lengthWidth
    let centre ← bs.byteAt? (productStart + 4)
    if centre = largeCentre then
      let flags ← bs.byteAt? (productStart + flagsOffset)
      let start ← dataStart? bs productStart productLength flags
      let excess ← bs.natAt? start lengthWidth
      if excess < largeUnit then largeLength p.field excess else none
    else none
  else none

variable {s : Source}

theorem passSections_answers (h : s.NeverFails) (count pos : Nat) :
    Answers (passSections s count pos) (sectionsEnd? s.bytes count pos) := by
  induction count generalizing pos with
  | zero => exact .ok _
  | succ n ih =>
    rw [passSections, sectionsEnd?, Source.readNat_eq_natAt h pos (by decide)]
    cases s.bytes.natAt? pos lengthWidth with
    | none => exact .endOfData
    | some length =>
      simp only [Option.elim_some, Option.bind_some]
      -- a section too short for its own length ends the walk in both
      split
      · exact .ok _
      · exact ih _

theorem dataStart_answers (h : s.NeverFails) (productStart productLength : Nat) (flags : UInt8) :
    Answers (dataStart s productStart productLength flags)
      (dataStart? s.bytes productStart productLength flags) := by
  unfold dataStart dataStart?
  split
  · exact .ok _
  · exact passSections_answers h _ _

theorem largeMessageRepair_readsAs : largeMessageRepair.ReadsAs largeLength? := by
  intro s h p
  unfold largeMessageRepair largeLength?
  cases isLarge p.field with
  | false => exact .ok _
  | true =>
    -- the fields are read in the same order, and each may be the last that decides
    apply Source.answers_readNat h _ (by decide)
    intro productLength
    apply Source.answers_readByte h
    intro centre
    by_cases hcentre : centre = largeCentre
    · simp only [hcentre, ne_eq, not_true_eq_false, if_false, if_true]
      apply Source.answers_readByte h
      intro flags
      refine Answers.bind (dataStart_answers h _ _ _) (Answers.ok _) ?_
      intro start
      apply Source.answers_readNat h _ (by decide)
      intro excess
      by_cases hexcess : largeUnit ≤ excess
      · simp only [hexcess, if_true, Nat.not_lt.mpr hexcess, if_false]
        exact .ok _
      · simp only [hexcess, if_false, Nat.not_le.mp hexcess, if_true]
        exact .ok _
    · simp only [hcentre, ne_eq, not_false_eq_true, if_true, if_false]
      exact .ok _

/-! ## §4 Formats -/

/-- The end of a message by its data section. -/
def impliedEnd? (bs : Bytes) (magicAt : Nat) : Option Nat := do
  let productStart := magicAt + indicatorLength
  let productLength ← bs.natAt? productStart lengthWidth
  let flags ← bs.byteAt? (productStart + flagsOffset)
  let start ← dataStart? bs productStart productLength flags
  let length ← bs.natAt? start lengthWidth
  if length < lengthWidth then none else some (start + length + trailer.length)

/-- What is read of messages, under a rule that answers like this. -/
def view (answer : Bytes → Preamble → Option Nat) : ByteView where
  preamble bs magicAt := do
    let field ← bs.natAt? (magicAt + magic.length) 3
    let found ← bs.byteAt? (magicAt + magic.length + 3)
    return ⟨magicAt + magic.length + 4,
      if found = edition then some ⟨magicAt, field, field⟩ else none⟩
  repair := answer
  impliedEnd := impliedEnd?

theorem impliedEnd_answers (h : s.NeverFails) (magicAt : Nat) :
    Answers (impliedEnd s magicAt) (impliedEnd? s.bytes magicAt) := by
  unfold impliedEnd impliedEnd?
  apply Source.answers_readNat h _ (by decide)
  intro productLength
  apply Source.answers_readByte h
  intro flags
  refine Answers.bind (dataStart_answers h _ _ _) (Answers.ok _) ?_
  intro start
  apply Source.answers_readNat h _ (by decide)
  intro length
  split
  · exact .ok _
  · exact .ok _

theorem format_readsAs {repair : LengthRule} {answer : Bytes → Preamble → Option Nat}
    (hrepair : repair.ReadsAs answer) : (format repair).ReadsAs (view answer) where
  preamble s h magicAt := by
    show noneAtEnd (preamble s magicAt) = _
    unfold preamble view
    simp only [Source.readNat_eq_natAt h _ (show 0 < 3 by decide), Source.readByte_eq_byteAt h]
    cases s.bytes.natAt? (magicAt + magic.length) 3 with
    | none => rfl
    | some field => cases s.bytes.byteAt? (magicAt + magic.length + 3) <;> rfl
  repair := hrepair
  impliedEnd s h magicAt := impliedEnd_answers h magicAt

end Grib1

namespace TaggedFormat

/-- What is read of tagged frames, under a rule that answers like this. -/
def view (t : TaggedFormat) (answer : Bytes → Preamble → Option Nat) : ByteView where
  preamble bs magicAt :=
    (bs.natAt? (magicAt + t.magic.length) t.fieldWidth).map fun field =>
      ⟨magicAt + t.magic.length + t.fieldWidth, some ⟨magicAt, field, t.declared field⟩⟩
  repair := answer
  impliedEnd _ _ := none

theorem fieldWidth_pos (t : TaggedFormat) : 0 < t.fieldWidth := by
  unfold fieldWidth
  omega

theorem format_readsAs {t : TaggedFormat} {answer : Bytes → Preamble → Option Nat}
    (hrepair : t.repair.ReadsAs answer) : t.format.ReadsAs (t.view answer) where
  preamble s h magicAt := by
    show noneAtEnd (t.preamble s magicAt) = _
    unfold preamble view
    simp only [Source.readNat_eq_natAt h _ t.fieldWidth_pos]
    cases s.bytes.natAt? (magicAt + t.magic.length) t.fieldWidth <;> rfl
  repair := hrepair
  impliedEnd _ _ _ := .ok none

end TaggedFormat

/-- What is read of the frames of a varied format. -/
def ByteView.vary (v : ByteView) (f : WireFormat) (o : Variation) : ByteView where
  preamble bs magicAt :=
    if o.allForeign then some ⟨magicAt + f.magic.length, none⟩
    else
      (v.preamble bs magicAt).map fun reading =>
        { reading with preamble := reading.preamble.filter fun p => o.foreignField ≠ some p.field }
  repair := v.repair
  impliedEnd bs magicAt :=
    match o.impliedLength with
    | some length => some (magicAt + length)
    | none => v.impliedEnd bs magicAt

theorem WireFormat.ReadsAs.vary {f : WireFormat} {v : ByteView} (h : f.ReadsAs v)
    (o : Variation) : (f.vary o).ReadsAs (v.vary f o) where
  preamble s hs magicAt := by
    show noneAtEnd (o.preamble f s magicAt) = _
    have hread := h.preamble s hs magicAt
    unfold Variation.preamble ByteView.vary
    cases o.allForeign with
    | true => rfl
    | false =>
      -- what is filtered is the reading, whether or not the bytes were enough
      show noneAtEnd ((f.preamble s magicAt).map _) = _
      rw [noneAtEnd_map, hread]
      rfl
  repair := h.repair
  impliedEnd s hs magicAt := by
    show Answers (o.impliedEnd f s magicAt) _
    unfold Variation.impliedEnd ByteView.vary
    cases o.impliedLength with
    | some length => exact .ok _
    | none => exact h.impliedEnd s hs magicAt

end Granule
