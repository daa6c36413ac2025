import Granule.Proofs.Frame.View

/-!
# Formats That Look Forward

What a format reads at a magic lies at the magic or behind it. So a view of a byte string, asked
from some offset on, reads what it would read of the rest of the string alone, and every offset
that it answers is further on by as much as was left out.

**Main statements**:
- `TaggedFormat.isForward`, `Grib1.isForward` : the formats look forward, with any rule that does
- `Grib1.largeMessageRepair_isForward` : so does the repair of large messages
-/

namespace Granule

namespace Bytes

variable {bs : Bytes} {e : Nat}

theorem natAt?_drop (he : e ≤ bs.length) (pos width : Nat) :
    bs.natAt? (e + pos) width = Bytes.natAt? (bs.drop e) pos width := by
  have hin : e + pos + width ≤ bs.length ↔ pos + width ≤ (bs.drop e).length := by
    rw [List.length_drop]
    omega
  rw [natAt?, natAt?, between_drop, ← Nat.add_assoc]
  simp only [hin]

theorem byteAt?_drop (he : e ≤ bs.length) (pos : Nat) :
    bs.byteAt? (e + pos) = Bytes.byteAt? (bs.drop e) pos := by
  rw [byteAt?, byteAt?, natAt?_drop he]

end Bytes

/-! ## §1 Views -/

/-- The same preamble, `e` bytes further on. -/
def Preamble.behind (e : Nat) (p : Preamble) : Preamble := { p with magicAt := e + p.magicAt }

/-- The same reading, `e` bytes further on. -/
def PreambleReading.behind (e : Nat) (reading : PreambleReading) : PreambleReading :=
  ⟨e + reading.resume, reading.preamble.map (·.behind e)⟩

/-- What a view reads of a string from some offset on, it reads of the rest of the string from there. -/
structure ByteView.Forward (v : ByteView) : Prop where
  preamble : ∀ (bs : Bytes) e, e ≤ bs.length → ∀ start,
    v.preamble bs (e + start) = (v.preamble (bs.drop e) start).map (·.behind e)
  repair : ∀ (bs : Bytes) e, e ≤ bs.length → ∀ p,
    v.repair bs (p.behind e) = v.repair (bs.drop e) p
  impliedEnd : ∀ (bs : Bytes) e, e ≤ bs.length → ∀ start,
    v.impliedEnd bs (e + start) = (v.impliedEnd (bs.drop e) start).map (e + ·)

/-- A rule that reads bytes, and none before the magic. -/
def LengthRule.IsForward (rule : LengthRule) : Prop :=
  ∃ answer, rule.ReadsAs answer ∧ ∀ (bs : Bytes) e, e ≤ bs.length → ∀ p,
    answer bs (p.behind e) = answer (bs.drop e) p

/-- A format that reads bytes, and none before the magic; and its shortest frame has room for a
trailer. -/
structure WireFormat.IsForward (f : WireFormat) : Prop where
  reads : ∃ v, f.ReadsAs v ∧ v.Forward
  trailer : f.trailer.length ≤ f.minLength

/-! ## §2 Length rules -/

namespace LengthRule

theorem none_isForward : LengthRule.none.IsForward := ⟨_, none_readsAs, fun _ _ _ _ => rfl⟩

theorem fixed_isForward (whenField : Option Nat) (length : Nat) :
    (fixed whenField length).IsForward := ⟨_, fixed_readsAs whenField length, fun _ _ _ _ => rfl⟩

end LengthRule

namespace Grib1

variable {bs : Bytes} {e : Nat}

theorem sectionsEnd?_drop (he : e ≤ bs.length) (count pos : Nat) :
    sectionsEnd? bs count (e + pos) = (sectionsEnd? (bs.drop e) count pos).map (e + ·) := by
  induction count generalizing pos with
  | zero => rfl
  | succ n ih =>
    rw [sectionsEnd?, sectionsEnd?, Bytes.natAt?_drop he]
    cases Bytes.natAt? (bs.drop e) pos lengthWidth with
    | none => rfl
    | some length =>
      simp only [Option.bind_some, Nat.add_assoc, ih]
      split <;> rfl

theorem dataStart?_drop (he : e ≤ bs.length) (productStart productLength : Nat) (flags : UInt8) :
    dataStart? bs (e + productStart) productLength flags =
      (dataStart? (bs.drop e) productStart productLength flags).map (e + ·) := by
  unfold dataStart?
  split
  · rfl
  · rw [Nat.add_assoc, sectionsEnd?_drop he]

theorem largeLength?_drop (he : e ≤ bs.length) (p : Preamble) :
    largeLength? bs (p.behind e) = largeLength? (bs.drop e) p := by
  unfold largeLength? Preamble.behind
  simp only [Nat.add_assoc, Bytes.natAt?_drop he, Bytes.byteAt?_drop he, dataStart?_drop he]
  -- the last field is read where the sections before it end
  simp only [Option.bind_eq_bind, Option.bind_map, Function.comp_def, Bytes.natAt?_drop he]

theorem largeMessageRepair_isForward : largeMessageRepair.IsForward :=
  ⟨_, largeMessageRepair_readsAs, fun _ _ he p => largeLength?_drop he p⟩

/-! ## §3 Formats -/

theorem impliedEnd?_drop (he : e ≤ bs.length) (magicAt : Nat) :
    impliedEnd? bs (e + magicAt) = (impliedEnd? (bs.drop e) magicAt).map (e + ·) := by
  unfold impliedEnd?
  simp only [Nat.add_assoc, Bytes.natAt?_drop he, Bytes.byteAt?_drop he, dataStart?_drop he,
    Option.bind_eq_bind, Option.bind_map, Option.map_bind, Function.comp_def,
    apply_ite (Option.map (e + ·)), Option.map_none, Option.map_some]

/-- What is read of messages looks forward, under a rule that does. -/
theorem view_forward {answer : Bytes → Preamble → Option Nat}
    (hanswer : ∀ (bs : Bytes) e, e ≤ bs.length → ∀ p, answer bs (p.behind e) = answer (bs.drop e) p) :
    (view answer).Forward := by
  refine ⟨fun bs e he start => ?_, hanswer, fun _ _ he start => impliedEnd?_drop he start⟩
  simp only [view, Nat.add_assoc, Bytes.natAt?_drop he, Bytes.byteAt?_drop he]
  cases Bytes.natAt? (bs.drop e) (start + magic.length) 3 with
  | none => rfl
  | some field =>
    cases Bytes.byteAt? (bs.drop e) (start + (magic.length + 3)) with
    | none => rfl
    | some found =>
      -- the edition is the same, and so is the field
      by_cases hfound : found = edition
      · simp [hfound, PreambleReading.behind, Preamble.behind]
      · simp [hfound, PreambleReading.behind]

theorem isForward {repair : LengthRule} (h : repair.IsForward) : (format repair).IsForward := by
  obtain ⟨answer, hreads, hanswer⟩ := h
  exact ⟨⟨_, format_readsAs hreads, view_forward hanswer⟩, Nat.le_add_left _ _⟩

end Grib1

theorem TaggedFormat.isForward {t : TaggedFormat} (h : t.repair.IsForward) :
    t.format.IsForward := by
  obtain ⟨answer, hreads, hanswer⟩ := h
  refine ⟨⟨_, format_readsAs hreads, ?_, hanswer, fun _ _ _ _ => rfl⟩, Nat.le_add_left _ _⟩
  intro bs e he start
  simp only [view, Nat.add_assoc, Bytes.natAt?_drop he]
  cases Bytes.natAt? (bs.drop e) (start + t.magic.length) t.fieldWidth with
  | none => rfl
  | some field => simp [PreambleReading.behind, Preamble.behind]

end Granule
