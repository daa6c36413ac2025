import Granule.Proofs.Grid.Scatter

/-!
# Scattering into Storage of Fixed Size

Storage of fixed size takes what fits of a write and refuses the rest, so a scatter
may stop in the middle of a run. What it leaves is still the front of what the whole
scatter would have left in storage that may grow: the selected elements come in
storage order, and all that would have been written after the run that was refused
lies behind the end.

**Main statements**:
- `Bytes.take_lay_of_le` : elements behind an offset leave the bytes before it alone
- `Plan.scatterFrom_of_fixed` : the runs still to come, cut off
- `Plan.scatter_cut_off` : a scatter into fixed storage is one into growing storage, cut off
-/

namespace Granule

/-! ## §1 Elements behind an offset -/

namespace Bytes

variable {bs src : Bytes} {start elemSize stop : Nat} {elems : List Nat}

/-- Elements that lie behind an offset leave the bytes before it alone. -/
theorem take_lay_of_le (hlen : stop ≤ bs.length)
    (hbehind : ∀ e ∈ elems, stop ≤ start + e * elemSize) :
    (lay start elemSize bs elems src).take stop = bs.take stop := by
  induction elems generalizing bs src with
  | nil => rfl
  | cons e rest ih =>
    obtain ⟨he, hrest⟩ := List.forall_mem_cons.mp hbehind
    rw [lay, ih (hlen.trans (Storage.length_le_length_overlay _ _ _)) hrest,
      Storage.take_overlay_of_le _ he hlen]

/-- When elements reach behind an offset, later ones that come in storage order lie behind it. -/
theorem le_of_lt_length_lay (hsize : 0 < elemSize) (hsrc : elems.length * elemSize ≤ src.length)
    (hlen : bs.length ≤ stop) (hpast : stop < (lay start elemSize bs elems src).length)
    {later : Nat} (hlater : ∀ e ∈ elems, e < later) : stop ≤ start + later * elemSize := by
  have hnot := mt (length_lay_le_iff hsize hsrc).mpr (Nat.not_le.mpr hpast)
  obtain ⟨e, he, hend⟩ : ∃ e ∈ elems, stop < start + (e + 1) * elemSize := by
    simpa only [hlen, true_and, not_forall, exists_prop, Nat.not_le] using hnot
  have hplace : (e + 1) * elemSize ≤ later * elemSize :=
    Nat.mul_le_mul_right _ (Nat.succ_le_of_lt (hlater e he))
  omega

end Bytes

/-! ## §2 Runs that are cut off -/

namespace Plan

/-- What becomes of storage of fixed size, and whether it took everything, when `grown` is what it
would be if it could grow. -/
def cutOff (size : Nat) (grown : Bytes) : Option GridError × Storage :=
  (if size < grown.length then some (.io .storageFull) else none, ⟨grown.take size, false⟩)

theorem cutOff_of_le {size : Nat} {grown : Bytes} (h : grown.length ≤ size) :
    cutOff size grown = (none, ⟨grown, false⟩) := by
  rw [cutOff, if_neg (Nat.not_lt.mpr h), List.take_of_length_le h]

theorem cutOff_of_lt {size : Nat} {grown : Bytes} (h : size < grown.length) :
    cutOff size grown = (some (.io .storageFull), ⟨grown.take size, false⟩) := by
  rw [cutOff, if_pos h]

/-- A run is written into storage of fixed size by laying its elements, as far as they fit. -/
theorem writeChunk_of_fixed (p : Plan) (k : Nat) (bs : Bytes) {src : Bytes}
    (hsrc : (k + 1) * p.perChunk * p.elemSize ≤ src.length) :
    writeChunk src ⟨bs, false⟩ (p.chunk k) =
      cutOff bs.length (bs.lay p.dataStart p.elemSize (p.stretch k).elems
        (p.sourceFrom src k)) := by
  obtain ⟨part, hwrite, hoverlay⟩ := p.writeChunk_eq_write k ⟨bs, false⟩ hsrc
  rw [hwrite, Storage.write_of_fixed rfl, hoverlay, cutOff, Storage.size]
  split
  · rename_i hle
    rw [if_neg (Nat.not_lt.mpr hle)]
    rfl
  · rename_i hlt
    rw [if_pos (Nat.lt_of_not_le hlt)]
    rfl

/-- The runs still to come are written into storage of fixed size as into storage that may grow, as
far as they fit. The first run that does not fit is the last one to be written. -/
theorem scatterFrom_of_fixed {src bs : Bytes} {c : PlanCursor} (hstep : c.InStep)
    (hsize : 0 < c.plan.elemSize) (hordered : c.elems.Pairwise (· < ·))
    (hsrc : c.plan.chunkCount * c.plan.perChunk * c.plan.elemSize ≤ src.length) :
    scatterFrom src c ⟨bs, false⟩ = cutOff bs.length (laidFrom src c bs) := by
  rcases scatterFrom_cases hstep hsrc ⟨bs, false⟩ with ⟨hnone, hend⟩ | ⟨hleft, helems, hrun, hnext⟩
  · rw [hend, laidFrom_of_elems_eq_nil hnone, cutOff_of_le le_rfl]
  · have hgiven := length_sourceFrom hrun
    have hsplit := helems ▸ hordered
    obtain ⟨-, hbehind, hbefore⟩ := List.pairwise_append.mp hsplit
    rw [hnext, writeChunk_of_fixed c.plan _ _ hrun, laidFrom_of_elems _ _ helems]
    generalize hlaid : bs.lay c.plan.dataStart c.plan.elemSize
      (c.plan.stretch c.odometer.pulled).elems (c.plan.sourceFrom src c.odometer.pulled) = laid
    rcases Nat.lt_or_ge bs.length laid.length with hpast | hfits
    -- the run does not fit, and all later elements lie behind the end
    · have hlater : ∀ e ∈ c.pass.elems, bs.length ≤ c.plan.dataStart + e * c.plan.elemSize :=
        fun e he => Bytes.le_of_lt_length_lay hsize hgiven le_rfl (hlaid ▸ hpast)
          fun e' he' => hbefore e' he' e he
      have hfront : (laidFrom src c.pass laid).take bs.length = laid.take bs.length :=
        Bytes.take_lay_of_le hpast.le hlater
      have hgrown : bs.length < (laidFrom src c.pass laid).length :=
        hpast.trans_le (Bytes.length_le_length_lay _ _ _ _ _)
      rw [cutOff_of_lt hpast, cutOff_of_lt hgrown, hfront]
    -- the run fits, so the size is what it was
    · have hsame : laid.length = bs.length :=
        le_antisymm hfits (hlaid ▸ Bytes.length_le_length_lay _ _ _ _ _)
      have hrest : scatterFrom src c.pass ⟨laid, false⟩ = _ :=
        scatterFrom_of_fixed hstep.pass hsize hbehind hsrc
      rw [cutOff_of_le hfits, ← hsame]
      exact hrest
termination_by c.left

end Plan

/-! ## §3 Whole scatters -/

/-- **A scatter into storage of fixed size is one into growing storage, cut off.** The same bytes
are left in front of the end; the storage is found full exactly when there would have been more of
them; and no byte outside the selected elements changes, whether the scatter fails or not. A machine
can only give up where a number has no place in a word. -/
theorem Plan.scatter_cut_off (shape : Shape) (selection : Selection) (elemSize dataStart : Nat)
    (hsize : 0 < elemSize) (hfits : selection.Fits shape) :
    (makeChecked shape elemSize selection dataStart).Gives
      (selection.HasRoom shape elemSize dataStart) fun made => ∃ plan, made = .ok plan ∧
        let positions := dataStart + shape.size * elemSize < wordLimit
        ∀ (storage src : Bytes), src.length = selection.size * elemSize →
          ∃ grown, (plan.scatterChecked ⟨storage, true⟩ src).Gives positions
              (· = (none, ⟨grown, true⟩)) ∧
            selection.Stored shape elemSize dataStart storage src grown ∧
            (plan.scatterChecked ⟨storage, false⟩ src).Gives positions
              (· = (if storage.length < grown.length then some (.io .storageFull) else none,
                ⟨grown.take storage.length, false⟩)) ∧
            ∀ pos, (∀ j < selection.size, ∀ i < elemSize,
                pos ≠ dataStart + selection.storageElem shape j * elemSize + i) →
              (grown.take storage.length)[pos]? = storage[pos]? := by
  obtain ⟨plan, hplan⟩ : ∃ plan, Plan.ofSelection shape elemSize selection dataStart = .ok plan :=
    ⟨_, Plan.ofSelection_eq_ok_iff.mpr ⟨hsize, hfits, rfl⟩⟩
  refine (gives_makeChecked hplan).mono fun made hmade => ⟨plan, hmade, ?_⟩
  intro positions storage src hsrc
  have hstored := Selection.stored_lay dataStart hsize hfits storage hsrc
  obtain ⟨hscatter, henough⟩ := scatter_eq_scatterFrom hplan ⟨storage, false⟩ hsrc
  have hordered : (⟨plan, 0⟩ : PlanCursor).elems.Pairwise (· < ·) := by
    rw [PlanCursor.elems_zero, elems_eq hplan]
    exact Selection.pairwise_elems hfits
  have hfixed : scatterFrom src ⟨plan, 0⟩ ⟨storage, false⟩ = _ :=
    scatterFrom_of_fixed (PlanCursor.inStep_zero plan) (by rwa [elemSize_eq hplan]) hordered
      henough
  rw [← hscatter, laidFrom_zero hplan, cutOff] at hfixed
  have hgrows := gives_scatterChecked hplan ⟨storage, true⟩ src
  rw [scatter_eq hplan rfl hsrc] at hgrows
  refine ⟨_, hgrows, hstored, hfixed ▸ gives_scatterChecked hplan ⟨storage, false⟩ src,
    fun pos houtside => ?_⟩
  -- behind the end of the storage there is nothing on either side
  by_cases hpos : pos < storage.length
  · have hreach : pos < (storage.lay dataStart elemSize (selection.elems shape) src).length :=
      hpos.trans_le (Bytes.length_le_length_lay _ _ _ _ _)
    rw [List.getElem?_take_of_lt hpos, hstored.others pos hreach houtside,
      List.getElem?_eq_getElem hpos, Option.getD_some]
  · have hend := Nat.not_lt.mp hpos
    rw [List.getElem?_eq_none hend, List.getElem?_eq_none ((List.length_take_le _ _).trans hend)]

/-- The last two columns of a small array go behind a header of one byte into storage that ends
inside the second row: the front of that row is written, and nothing between the rows. -/
theorem Plan.scatter_cut_off_columns :
    (0 < 2 ∧ (⟨[⟨0, 1, 2⟩, ⟨1, 1, 2⟩]⟩ : Selection).Fits ⟨[2, 3]⟩) ∧
      ∃ plan left, makeChecked ⟨[2, 3]⟩ 2 ⟨[⟨0, 1, 2⟩, ⟨1, 1, 2⟩]⟩ 1 = .ok (.ok plan) ∧
        plan.scatterChecked ⟨List.replicate 12 0, false⟩ [1, 2, 3, 4, 5, 6, 7, 8] =
          .ok (some (.io .storageFull), ⟨left, false⟩) ∧
        left.length = 12 ∧ left[11]? = some 7 ∧ left[8]? = some 0 := by
  have hgives := scatter_cut_off ⟨[2, 3]⟩ ⟨[⟨0, 1, 2⟩, ⟨1, 1, 2⟩]⟩ 2 1 (by decide) (by decide)
  obtain ⟨made, hmade⟩ := hgives.total (by decide)
  obtain ⟨plan, rfl, hwrites⟩ := hgives.sound made hmade
  obtain ⟨grown, -, hstored, hfixed, hothers⟩ := hwrites (List.replicate 12 0)
    [1, 2, 3, 4, 5, 6, 7, 8] (by decide)
  have hlen : grown.length = 13 := hstored.length_eq
  have hbyte : grown[11]? = some 7 := hstored.selected 3 (by decide) 0 (by decide)
  have hbetween := hothers 8 (by decide)
  have hleft := hfixed.eq_ok (by decide)
  rw [hlen] at hleft
  refine ⟨by decide, plan, _, hmade, hleft, ?_, ?_, hbetween⟩
  · simp [hlen]
  · rw [List.getElem?_take_of_lt (by decide), hbyte]

/-- Storage of one byte does not take a byte behind the last position there is, nor refuse it. -/
theorem Plan.cut_off_behind_last_position :
    (0 < 1 ∧ (⟨[⟨1, 1, 1⟩]⟩ : Selection).Fits ⟨[2]⟩) ∧
      ∃ plan, makeChecked ⟨[2]⟩ 1 ⟨[⟨1, 1, 1⟩]⟩ (2 ^ 64 - 1) = .ok (.ok plan) ∧
        plan.totalBytes = 1 ∧ plan.scatterChecked ⟨[0], false⟩ [7] = .error .overflow :=
  ⟨by decide, ⟨1, 2 ^ 64 - 1, 1, 1, [], 1⟩, by decide, by decide,
    scatterChecked_of_error (by decide) (by decide) (by decide)⟩

end Granule
