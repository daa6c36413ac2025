import Granule.Frame.Grib1
import Granule.Frame.Tagged
import Granule.Proofs.Source.Steady

/-!
# Failures Are Passed On

A source may fail at any byte that a format asks for, and a scan must not take that for
the end of the data: a frame that runs past the end is dropped, and one that cannot be
read is not. What is asked of a source is said to be relayed (`Source.Relays`) if a
failure always comes out, and anything else is what the source would answer if it never
failed.

Exact reads and searches are relayed. So is whatever asks for one thing after another,
and with it every format at hand.

**Main statements**:
- `Source.relays_readExact`, `Source.FallsShortOf.find_eq` : what the device is asked for
- `Source.Relays.noneAtEnd` : the end of the data may be folded away, as failures are told from it
- `TaggedFormat.relays`, `Grib1.relays`, `WireFormat.Relays.vary` : the formats
-/

namespace Granule

/-! ## §1 Sources that fall short -/

namespace Source

/-- A source over the bytes of one that never fails. It may fail itself, and then it says so: it
does not pretend that the data have ended. -/
structure FallsShortOf (s t : Source) : Prop where
  bytes : s.bytes = t.bytes
  steady : t.NeverFails
  fault : s.fault ≠ .endOfData

/-- What is asked for fails with the source, or has the answer that a source without failures
gives. -/
def Relays {α : Type} (ask : Source → Except IoError α) : Prop :=
  ∀ ⦃s t : Source⦄, s.FallsShortOf t → ask s = .error s.fault ∨ ask s = ask t

variable {s t : Source}

theorem FallsShortOf.size_eq (h : s.FallsShortOf t) : s.size = t.size := by
  rw [← length_bytes, ← length_bytes, h.bytes]

/-- An exact read that does not get all its bytes fails, or would not get them anyway. -/
theorem relays_readExact (pos n : Nat) : Relays fun s => s.readExact pos n := by
  intro s t h
  have hend := s.readableEnd_le_size
  simp only [readExact_eq_readable s, readExact_eq h.steady, ← h.bytes, length_bytes]
  by_cases hin : n = 0 ∨ pos + n ≤ s.readableEnd
  · rw [if_pos hin, if_pos (by omega)]
    exact .inr rfl
  · rw [if_neg hin, failureFrom]
    cases hfails : s.failsAt (max pos s.readableEnd) with
    | true => exact .inl rfl
    | false =>
      -- all the data can be read, and they are too few
      have hall := readableEnd_eq_size hfails (le_max_right _ _)
      rw [if_neg Bool.false_ne_true, if_neg (by omega)]
      exact .inr rfl

/-- A search for the next occurrence fails, or finds what there is to be found. -/
theorem FallsShortOf.find_eq (h : s.FallsShortOf t) (pattern : Bytes) (block : Nat) {pos : Nat}
    (hpos : pos < s.size) :
    s.find pos pattern none block = .error s.fault ∨
      s.find pos pattern none block = t.find pos pattern none block := by
  refine (s.find_cases none block fun _ => hpos).imp And.left fun hfound => ?_
  rw [hfound, Source.find_eq h.steady none block fun _ => h.size_eq ▸ hpos, h.bytes]

/-! ## §2 One question after another -/

namespace Relays

variable {α β : Type} {ask : Source → Except IoError α}

/-- What is not asked of the source at all. -/
theorem const (x : Except IoError α) : Relays fun _ => x := fun _ _ _ => .inr rfl

theorem map (h : Relays ask) (g : α → β) : Relays fun s => (ask s).map g := by
  intro s t hst
  rcases h hst with hask | hask
  · exact .inl (by simp only [hask]; rfl)
  · exact .inr (by simp only [hask])

theorem bind (h : Relays ask) {next : α → Source → Except IoError β}
    (hnext : ∀ a, Relays (next a)) : Relays fun s => ask s >>= fun a => next a s := by
  intro s t hst
  rcases h hst with hask | hask
  · exact .inl (by simp only [hask]; rfl)
  · simp only [hask]
    cases ask t with
    | error e => exact .inr rfl
    | ok a => exact hnext a hst

theorem ite {p : Prop} [Decidable p] {other : Source → Except IoError α} (h : Relays ask)
    (hother : Relays other) : Relays fun s => if p then ask s else other s := by
  by_cases hp : p
  · simpa only [if_pos hp] using h
  · simpa only [if_neg hp] using hother

/-- A failure is not the end of the data, so it is still there where that counts as no answer. -/
theorem noneAtEnd (h : Relays ask) : Relays fun s => Granule.noneAtEnd (ask s) := by
  intro s t hst
  rcases h hst with hask | hask
  · left
    simp only [hask]
    have hfault := hst.fault
    generalize s.fault = e at hfault
    cases e with
    | endOfData => exact absurd rfl hfault
    | _ => rfl
  · exact .inr (by simp only [hask])

end Relays

theorem relays_readNat (pos width : Nat) : Relays fun s => s.readNat pos width :=
  (relays_readExact pos width).map Bytes.toNatBE

end Source

/-! ## §3 Formats that pass failures on -/

/-- A rule asks the source for what it needs. -/
def LengthRule.Relays (rule : LengthRule) : Prop := ∀ p, Source.Relays fun s => rule s p

/-- So do all the functions of a format. -/
structure WireFormat.Relays (f : WireFormat) : Prop where
  preamble : ∀ magicAt, Source.Relays fun s => f.preamble s magicAt
  repair : f.repair.Relays
  impliedEnd : ∀ magicAt, Source.Relays fun s => f.impliedEnd s magicAt

namespace Grib1

open Source (Relays relays_readNat)

theorem relays_readByte (pos : Nat) : Relays fun s => readByte s pos :=
  (relays_readNat pos 1).map UInt8.ofNat

theorem relays_passSections (count pos : Nat) : Relays fun s => passSections s count pos := by
  induction count generalizing pos with
  | zero => exact .const _
  | succ n ih =>
    -- a section is passed by its length, which may end the walk
    have hbind : (fun s => passSections s (n + 1) pos) = fun s =>
        s.readNat pos lengthWidth >>= fun length =>
          if length < lengthWidth then .ok none else passSections s n (pos + length) := by
      funext s
      rw [passSections]
      cases s.readNat pos lengthWidth <;> rfl
    rw [hbind]
    exact (relays_readNat pos lengthWidth).bind fun length => .ite (.const _) (ih (pos + length))

theorem relays_dataStart (productStart productLength : Nat) (flags : UInt8) :
    Relays fun s => dataStart s productStart productLength flags :=
  .ite (.const _) (relays_passSections _ _)

theorem largeMessageRepair_relays : largeMessageRepair.Relays := by
  intro p
  unfold largeMessageRepair
  cases isLarge p.field with
  | false => exact .const _
  | true =>
    refine (relays_readNat _ _).bind fun productLength => ?_
    refine (relays_readByte _).bind fun centre => ?_
    by_cases hcentre : centre = largeCentre
    · simp only [hcentre, ne_eq, not_true_eq_false, if_false]
      refine (relays_readByte _).bind fun flags => ?_
      refine (relays_dataStart _ _ _).bind fun start => ?_
      cases start with
      | none => exact .const _
      | some start => exact (relays_readNat _ _).bind fun _ => .ite (.const _) (.const _)
    · simp only [hcentre, ne_eq, not_false_eq_true, if_true]
      exact .const _

theorem relays_impliedEnd (magicAt : Nat) : Relays fun s => impliedEnd s magicAt := by
  unfold impliedEnd
  refine (relays_readNat _ _).bind fun productLength => ?_
  refine (relays_readByte _).bind fun flags => ?_
  refine (relays_dataStart _ _ _).bind fun start => ?_
  cases start with
  | none => exact .const _
  | some start => exact (relays_readNat _ _).bind fun _ => .ite (.const _) (.const _)

/-- Messages are read by asking the source. -/
theorem relays {repair : LengthRule} (h : repair.Relays) : (format repair).Relays where
  preamble _ := (relays_readNat _ _).bind fun _ => (relays_readByte _).bind fun _ => .const _
  repair := h
  impliedEnd := relays_impliedEnd

end Grib1

/-- Tagged frames are read by asking the source. -/
theorem TaggedFormat.relays {t : TaggedFormat} (h : t.repair.Relays) : t.format.Relays where
  preamble _ := (Source.relays_readNat _ _).map _
  repair := h
  impliedEnd _ := .const _

/-- However a format is varied, it asks the source for what it asked for, or for nothing. -/
theorem WireFormat.Relays.vary {f : WireFormat} (h : f.Relays) (o : Variation) :
    (f.vary o).Relays where
  preamble magicAt := .ite (.const _) ((h.preamble magicAt).map _)
  repair := h.repair
  impliedEnd magicAt := by
    unfold WireFormat.vary Variation.impliedEnd
    cases o.impliedLength with
    | some length => exact .const _
    | none => exact h.impliedEnd magicAt

end Granule
