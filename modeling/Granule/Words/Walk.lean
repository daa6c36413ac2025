import Granule.Tile.Walk
import Granule.Words.Assembly

/-!
# Walks on a Machine

A walk over tiles adds up where a tile ends and where the next one starts, and multiplies its
elements by their size. The numbers come out of headers, which may hold anything: a machine can
give up at the header of a tile that it was only to pass.

**Main statement**: `Tile.Walk.supply_of_supplyChecked` — a walk answers nothing else on a machine.
-/

namespace Granule.Tile

def Header.stopChecked (h : Header) : Checked Nat := .word (h.first.toNat + h.count.toNat)

namespace Walk

def passChecked (r : Walk) (h : Header) : Checked Walk := do
  let offset ← .word (r.offset + h.tileLength)
  return { r with offset }

/-- The decoded elements of the next tile, whose header is `h`. -/
def segmentChecked (r : Walk) (h : Header) : Checked (Except Error Segment) := do
  let _ ← .word (h.count.toNat * r.elemSize)
  return r.segment h

theorem pass_of_passChecked {r next : Walk} {h : Header} (hnext : r.passChecked h = .ok next) :
    r.pass h = next := by
  simp only [passChecked, Checked.bind_eq_ok_iff, Checked.word_eq_ok_iff] at hnext
  obtain ⟨offset, ⟨-, rfl⟩, hnext⟩ := hnext
  exact Except.ok.inj hnext

/-- Walks to the tile that holds a storage element and decodes it. -/
def supplyChecked (r : Walk) (elem : Nat) : Checked (Except Error (Option Segment) × Walk) :=
  match h : r.header with
  | .error e => .ok (.error e, r)
  | .ok none => .ok (.ok none, r)
  | .ok (some tile) =>
    match tile.stopChecked with
    | .error p => .error p
    | .ok stop =>
      if stop ≤ elem then
        match hpass : r.passChecked tile with
        | .error p => .error p
        | .ok next =>
          have := header_le_size h
          have := pass_of_passChecked hpass
          supplyChecked next elem
      else if elem < tile.first.toNat then .ok (.ok none, r)
      else
        match r.segmentChecked tile with
        | .error p => .error p
        | .ok (.error e) => .ok (.error e, r)
        | .ok (.ok s) => (r.passChecked tile).map fun next => (.ok (some s), next)
termination_by r.source.size - r.offset
decreasing_by
  rename r.pass tile = next => hnext
  subst hnext
  simp only [pass, Header.tileLength, Header.size] at this ⊢
  omega

theorem supplyChecked_of_end {r : Walk} {elem : Nat} (h : r.header = .ok none) :
    r.supplyChecked elem = .ok (.ok none, r) := by
  rw [supplyChecked]
  split <;> simp_all

theorem supplyChecked_of_error {r : Walk} {elem : Nat} {e : Error} (h : r.header = .error e) :
    r.supplyChecked elem = .ok (.error e, r) := by
  rw [supplyChecked]
  split <;> simp_all

theorem supplyChecked_of_header {r : Walk} {elem : Nat} {tile : Header}
    (hheader : r.header = .ok (some tile)) :
    r.supplyChecked elem = (do
      let stop ← tile.stopChecked
      if stop ≤ elem then
        let next ← r.passChecked tile
        next.supplyChecked elem
      else if elem < tile.first.toNat then return (.ok none, r)
      else
        match ← r.segmentChecked tile with
        | .error e => return (.error e, r)
        | .ok s =>
          let next ← r.passChecked tile
          return (.ok (some s), next)) := by
  rw [supplyChecked]
  split
  case h_1 e heq => rw [hheader] at heq; cases heq
  case h_2 heq => rw [hheader] at heq; cases heq
  case h_3 tile' heq =>
    obtain rfl : tile = tile' := by rw [hheader] at heq; cases heq; rfl
    split
    case h_1 hstop => rw [hstop]; rfl
    case h_2 stop hstop =>
      rw [hstop, Checked.ok_bind]
      by_cases hends : stop ≤ elem
      · simp only [if_pos hends]
        split
        case h_1 hpass => rw [hpass]; rfl
        case h_2 hpass => rw [hpass]; rfl
      · simp only [if_neg hends]
        split
        · rfl
        · split
          case h_1 hsegment => rw [hsegment]; rfl
          case h_2 hsegment => rw [hsegment]; rfl
          case h_3 hsegment =>
            rw [hsegment, Checked.ok_bind]
            cases r.passChecked tile <;> rfl

theorem stop_of_stopChecked {h : Header} {stop : Nat} (hstop : h.stopChecked = .ok stop) :
    h.stop = stop :=
  (Checked.word_eq_ok_iff.mp hstop).2

theorem segment_of_segmentChecked {r : Walk} {h : Header} {answer : Except Error Segment}
    (hs : r.segmentChecked h = .ok answer) : r.segment h = answer := by
  simp only [segmentChecked, Checked.bind_eq_ok_iff] at hs
  obtain ⟨-, -, hs⟩ := hs
  exact Except.ok.inj hs

/-- A walk answers nothing else on a machine. -/
theorem supply_of_supplyChecked {r : Walk} {elem : Nat}
    {answer : Except Error (Option Segment) × Walk} (h : r.supplyChecked elem = .ok answer) :
    r.supply elem = answer := by
  -- on the turns of the walk: each answers, gives up, or passes a tile
  fun_induction supplyChecked r elem with
  | case1 r e hheader =>
    rw [supply_of_error hheader]
    exact Except.ok.inj h
  | case2 r hheader =>
    rw [supply_of_end hheader]
    exact Except.ok.inj h
  | case3 => cases h
  | case4 => cases h
  | case5 r tile hheader stop hstop hends next hpass ih =>
    rw [supply_of_header hheader, stop_of_stopChecked hstop, if_pos hends,
      pass_of_passChecked hpass]
    exact ih h
  | case6 r tile hheader stop hstop hreaches hstarts =>
    rw [supply_of_header hheader, stop_of_stopChecked hstop, if_neg hreaches, if_pos hstarts]
    exact Except.ok.inj h
  | case7 => cases h
  | case8 r tile hheader stop hstop hreaches hstarts e hsegment =>
    rw [supply_of_header hheader, stop_of_stopChecked hstop, if_neg hreaches, if_neg hstarts,
      segment_of_segmentChecked hsegment]
    exact Except.ok.inj h
  | case9 r tile hheader stop hstop hreaches hstarts s hsegment =>
    rw [supply_of_header hheader, stop_of_stopChecked hstop, if_neg hreaches, if_neg hstarts,
      segment_of_segmentChecked hsegment]
    cases hpass : r.passChecked tile with
    | error p =>
      rw [hpass] at h
      cases h
    | ok next =>
      rw [hpass] at h
      rw [pass_of_passChecked hpass]
      exact Except.ok.inj h

instance : CheckedSupplier Walk where
  supplyChecked r elem :=
    (r.supplyChecked elem).map fun answer => (answer.1.mapError .tile, answer.2)
  supply_of_supplyChecked {r elem answer} h := by
    cases hanswer : r.supplyChecked elem with
    | error p =>
      rw [hanswer] at h
      cases h
    | ok exact =>
      rw [hanswer] at h
      cases Except.ok.inj h
      show ((r.supply elem).1.mapError GridError.tile, (r.supply elem).2) = _
      rw [supply_of_supplyChecked hanswer]

end Walk

end Granule.Tile
