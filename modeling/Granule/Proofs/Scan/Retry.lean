import Granule.Proofs.Scan.Failure

/-!
# Calls After a Failure

A call that failed can be made again. It comes to the same magic and fails there for the same
reason, because everything that the failing call changed lies behind that magic: a counter is
raised where the cursor moves past what it counts.

One counter is an exception. The answer of a length repair is counted before the frame is read,
so a frame that cannot be read although its length was repaired is counted as repaired by each
call that fails on it.

**Main statements**:
- `Scanner.Stuck.next_eq` : a call at a fault changes nothing but what it counts as repaired
- `Scanner.failure_recounts_repair` : what any number of calls after a failed one have counted
-/

namespace Granule

namespace WireFormat

variable {f : WireFormat}

theorem isRepaired_extent (f : WireFormat) (size : Nat) (p : Preamble) (repair : Option Nat)
    (start : Nat) : (f.extent size p repair start).isRepaired = repair.isSome := by
  simp only [extent]
  split
  · rfl
  · split <;> rfl

/-- A repair that is counted has answered. -/
theorem repair_of_isRepaired {source : Source} {start : Nat} {measured : Measurement}
    (h : f.measure source start = .ok measured) (hrepaired : measured.isRepaired = true) :
    ∃ p length, f.repair source p = .ok (some length) := by
  unfold measure at h
  split at h
  · cases h
  · cases h
    cases hrepaired
  · cases h
    cases hrepaired
  rename_i resume p _
  split at h
  · cases h
  rename_i answer hrepair
  cases h
  rw [isRepaired_extent, Option.isSome_iff_exists] at hrepaired
  obtain ⟨length, hlength⟩ := hrepaired
  rw [Option.join_eq_some_iff.mp hlength] at hrepair
  exact ⟨p, length, noneAtEnd_eq_some_iff.mp hrepair⟩

end WireFormat

namespace Scanner

variable {s u : Scanner} {e : IoError}

/-! ## §1 One more call -/

/-- Counts so many lengths as repaired. -/
def countRepairs (s : Scanner) (count : Nat) : Scanner :=
  { s with tally := { s.tally with repaired := s.tally.repaired + count } }

theorem countRepair_eq (s : Scanner) (repaired : Bool) :
    s.countRepair repaired = s.countRepairs repaired.toNat := by
  cases repaired <;> rfl

/-- What was counted plays no part in what the next magic is, or in whether it is repaired. -/
theorem repairsNext_countRepairs (s : Scanner) (count : Nat) :
    (s.countRepairs count).repairsNext = s.repairsNext := rfl

theorem Stuck.countRepairs (h : s.Stuck e) (count : Nat) : (s.countRepairs count).Stuck e :=
  ⟨h.peeked, h.reads, h.fault.congr rfl rfl rfl rfl⟩

/-- A call at a fault fails, and has counted what a repair answered by then. -/
theorem Stuck.next_eq (h : s.Stuck e) :
    s.next = (.error (.io e), s.countRepairs s.repairsNext.toNat) := by
  have hscan := scanFrom_of_stop (h.fault.step_eq s.cursor)
  rw [countRepair_eq] at hscan
  simp only [next, h.peeked, scan, hscan, mapError_error]

/-! ## §2 Any number of calls -/

/-- So does every further call, at the same fault. -/
theorem Stuck.iterate_next (h : s.Stuck e) (n : Nat) :
    (fun s : Scanner => s.next.2)^[n] s = s.countRepairs (n * s.repairsNext.toNat) := by
  induction n with
  | zero => rw [Function.iterate_zero_apply, Nat.zero_mul]; rfl
  | succ n ih =>
    rw [Function.iterate_succ_apply', ih, (h.countRepairs _).next_eq, repairsNext_countRepairs,
      Nat.succ_mul]
    simp only [Scanner.countRepairs, Nat.add_assoc]

/-- A call that failed has come to a fault. -/
theorem stuck_of_next {failure : ScanFailure} (hsolid : s.format.IsSolid)
    (h : s.next = (.error failure, u)) : ∃ e, failure = .io e ∧ u.Stuck e := by
  cases hpeeked : s.peeked with
  | some record =>
    -- a record that is kept is handed out without a failure
    simp only [next, hpeeked] at h
    cases h
  | none =>
    simp only [next, hpeeked, scan] at h
    rcases hscan : s.scanFrom s.cursor with ⟨e | found, t⟩
    · rw [hscan] at h
      cases h
      exact ⟨e, rfl, stuck_of_scanFrom (.inr hsolid) hpeeked hscan⟩
    · rw [hscan] at h
      cases h

/-- A repair answers at the next magic if the frame there is measured by its answer. -/
theorem repairsNext_eq_true_iff (s : Scanner) :
    s.repairsNext = true ↔ ∃ start measured, s.magic? = some start ∧
      s.format.measure s.source start = .ok measured ∧ measured.isRepaired = true := by
  unfold repairsNext
  rcases s.magic? with _ | start
  · simp
  · rcases hmeasure : s.format.measure s.source start with e | measured <;> simp [hmeasure]

/-- Where no repair ever answers, none does so at the next magic. -/
theorem repairsNext_eq_false (hnone : ∀ p length, s.format.repair s.source p ≠ .ok (some length)) :
    s.repairsNext = false := by
  rw [Bool.eq_false_iff]
  intro hrepairs
  obtain ⟨start, measured, -, hmeasure, hrepaired⟩ := s.repairsNext_eq_true_iff.mp hrepairs
  obtain ⟨p, length, hrepair⟩ := WireFormat.repair_of_isRepaired hmeasure hrepaired
  exact hnone p length hrepair

/-- **Failures are told again, and repairs are counted again.** Once a call for the next record has
failed, each further one fails in the same way, and leaves the position, the table and all counters
but one as the first one left them. What is counted again, once a call, is a repaired length: that
of the frame at the next magic, where a repair has answered for it before its bytes could not be
read. So the counters stay exactly if no repair answers there. All formats at hand are solid, with
every rule for lengths and however they are varied (`TaggedFormat.isSolid_vary`,
`Grib1.isSolid_vary`). -/
theorem failure_recounts_repair {failure : ScanFailure} (hsolid : s.format.IsSolid)
    (hfailed : s.next = (.error failure, u)) :
    (∀ n, let v := (fun v : Scanner => v.next.2)^[n] u
      v.next.1 = .error failure ∧ v.cursor = u.cursor ∧ v.peeked = none ∧ v.table = u.table ∧
        v.tally = { u.tally with repaired := u.tally.repaired + n * u.repairsNext.toNat }) ∧
    ((∀ n, ((fun v : Scanner => v.next.2)^[n] u).tally = u.tally) ↔ u.repairsNext = false) ∧
    (u.repairsNext = true ↔ ∃ start measured, u.magic? = some start ∧
      u.format.measure u.source start = .ok measured ∧ measured.isRepaired = true) ∧
    ((∀ p length, u.format.repair u.source p ≠ .ok (some length)) → u.repairsNext = false) := by
  obtain ⟨e, rfl, hstuck⟩ := stuck_of_next hsolid hfailed
  refine ⟨?calls, ?stay, u.repairsNext_eq_true_iff, repairsNext_eq_false⟩
  case calls =>
    intro n v
    -- after `n` calls nothing but the one counter has moved
    have hv : v = u.countRepairs (n * u.repairsNext.toNat) := hstuck.iterate_next n
    rw [hv, (hstuck.countRepairs _).next_eq]
    exact ⟨rfl, rfl, hstuck.peeked, rfl, rfl⟩
  case stay =>
    simp only [hstuck.iterate_next]
    constructor
    · -- one more call tells
      intro hstay
      have hcount := congrArg ScanTally.repaired (hstay 1)
      rw [Scanner.countRepairs, Nat.one_mul] at hcount
      exact Bool.toNat_eq_zero.mp (Nat.add_eq_left.mp hcount)
    · intro hnone n
      rw [hnone, Bool.toNat_false, Nat.mul_zero]
      rfl

/-- A large message whose trailer cannot be read: its length is counted as repaired by the call that
fails first, and once more by the next one. -/
theorem failure_recounts_repair_sample :
    let source : Source :=
      { data := #[0x47, 0x52, 0x49, 0x42, 0x80, 0, 1, 1, 0, 0, 8, 0, 98, 0, 0, 0, 0, 0, 52] ++
          Array.replicate 49 0 ++ #[0x37, 0x37, 0x37, 0x37]
        failsFrom := some 68 }
    let s := start source Grib1.standard {}
    s.format.IsSolid ∧ s.next.1 = .error (.io source.fault) ∧ s.next.2.tally = { repaired := 1 } ∧
      s.next.2.next.1 = .error (.io source.fault) ∧ s.next.2.next.2.tally = { repaired := 2 } := by
  intro source s
  have hfailed : s.next.1 = .error (.io source.fault) := by decide +kernel
  have hcounted : s.next.2.tally = { repaired := 1 } ∧ s.next.2.repairsNext = true := by
    decide +kernel
  have hsolid : s.format.IsSolid := .inl (List.cons_ne_nil _ _)
  obtain ⟨hcalls, -⟩ := failure_recounts_repair hsolid
    (show s.next = (.error (.io source.fault), s.next.2) from Prod.ext hfailed rfl)
  obtain ⟨-, -, -, -, htally⟩ := hcalls 1
  refine ⟨hsolid, hfailed, hcounted.1, (hcalls 0).1, ?_⟩
  rw [Function.iterate_one, hcounted.1, hcounted.2] at htally
  exact htally

end Scanner

end Granule
