import Granule.Tile.Header
import Granule.Grid.Segment

/-!
# Walking over Tiles

Tiles lie end to end, in storage order. A walk stands at the start of one of
them and supplies the decoded segment for a storage element by going forward: it
passes tiles that end before the element without decoding them, and stays where
it is at a tile that starts after the element, so that a later request still
finds it.

Offsets and sizes are exact numbers here. A machine adds and multiplies them in words, and may
give up at a header: see `Granule.Words.Walk`.

**Main statements**:
- `Tile.Walk.contains_of_supply` : a supplied segment holds the element
- `Tile.Walk.offset_le_supply` : a walk never goes back
-/

namespace Granule

/-- A walk over tiles. -/
structure Tile.Walk where
  source : Source
  /-- Bytes per element. -/
  elemSize : Nat
  /-- Where the next tile starts. -/
  offset : Nat := 0

namespace Tile.Walk

/-- The header of the next tile, or none at the end of the data. -/
def header (r : Tile.Walk) : Except Tile.Error (Option Tile.Header) :=
  match Tile.Header.read r.source r.offset with
  | .ok h => .ok (some h)
  | .error (.io .endOfData) => .ok none
  | .error e => .error e

def pass (r : Tile.Walk) (h : Tile.Header) : Tile.Walk :=
  { r with offset := r.offset + h.tileLength }

/-- The decoded elements of the next tile, whose header is `h`. -/
def segment (r : Tile.Walk) (h : Tile.Header) : Except Tile.Error Segment :=
  let expected := h.count.toNat * r.elemSize
  if h.decodedLength.toNat ≠ expected then
    .error (.wrongSize h.first.toNat expected h.decodedLength.toNat)
  else
    match r.source.readExact (r.offset + Tile.Header.size) h.payloadLength.toNat with
    | .error e => .error (.io e)
    | .ok payload =>
      match h.decode payload with
      | .error e => .error e
      | .ok raw => .ok ⟨h.first.toNat, h.count.toNat, raw⟩

theorem header_le_size {r : Tile.Walk} {h : Tile.Header} (hr : r.header = .ok (some h)) :
    r.offset + Tile.Header.size ≤ r.source.size := by
  unfold header at hr
  split at hr
  · rename_i hread
    exact Tile.Header.read_le_size hread
  · cases hr
  · cases hr

/-- Walks to the tile that holds a storage element and decodes it. -/
def supply (r : Tile.Walk) (elem : Nat) : Except Tile.Error (Option Segment) × Tile.Walk :=
  match h : r.header with
  | .error e => (.error e, r)
  | .ok none => (.ok none, r)
  | .ok (some tile) =>
    -- the header was there to be read, so passing the tile brings the end nearer
    have := header_le_size h
    if tile.stop ≤ elem then supply (r.pass tile) elem
    else if elem < tile.first.toNat then (.ok none, r)
    else
      match r.segment tile with
      | .error e => (.error e, r)
      | .ok s => (.ok (some s), r.pass tile)
termination_by r.source.size - r.offset
decreasing_by
  simp only [pass, Tile.Header.tileLength, Tile.Header.size] at this ⊢
  omega

theorem supply_of_end {r : Tile.Walk} {elem : Nat} (h : r.header = .ok none) : r.supply elem = (.ok none, r) := by
  rw [supply]
  split <;> simp_all

theorem supply_of_error {r : Tile.Walk} {elem : Nat} {e : Tile.Error} (h : r.header = .error e) :
    r.supply elem = (.error e, r) := by
  rw [supply]
  split <;> simp_all

/-- A tile that ends by the element is passed; of any other, the elements are supplied if it holds
the element. -/
theorem supply_of_header {r : Tile.Walk} {elem : Nat} {h : Tile.Header} (hheader : r.header = .ok (some h)) :
    r.supply elem =
      if h.stop ≤ elem then (r.pass h).supply elem
      else if elem < h.first.toNat then (.ok none, r)
      else
        match r.segment h with
        | .error e => (.error e, r)
        | .ok s => (.ok (some s), r.pass h) := by
  rw [supply]
  split
  case h_1 e heq => rw [hheader] at heq; cases heq
  case h_2 heq => rw [hheader] at heq; cases heq
  case h_3 h' heq =>
    obtain rfl : h = h' := by rw [hheader] at heq; cases heq; rfl
    rfl

instance : SegmentSupplier Tile.Walk where
  supply r elem := ((r.supply elem).1.mapError .tile, (r.supply elem).2)

theorem segment_eq {r : Tile.Walk} {h : Tile.Header} {s : Segment} (hs : r.segment h = .ok s) :
    s.first = h.first.toNat ∧ s.count = h.count.toNat ∧
      s.data.length = h.count.toNat * r.elemSize := by
  unfold segment at hs
  simp only at hs
  split at hs
  · cases hs
  · split at hs
    · cases hs
    · split at hs
      · cases hs
      · rename_i hlen _ _ _ _ hraw
        cases hs
        exact ⟨rfl, rfl, by rw [Tile.Header.length_decode hraw]; omega⟩

/-- A supplied segment holds the element. -/
theorem contains_of_supply {r : Tile.Walk} {elem : Nat} {s : Segment}
    (h : (r.supply elem).1 = .ok (some s)) : s.contains elem := by
  fun_induction supply r elem with
  | case1 => cases h
  | case2 => cases h
  | case3 r tile _ _ _ ih => exact ih h
  | case4 => cases h
  | case5 => cases h
  | case6 r tile _ _ hend hfirst s' hs =>
    cases h
    obtain ⟨hf, hn, _⟩ := segment_eq hs
    simp only [Tile.Header.stop] at hend
    simp only [Segment.contains, Segment.stop, hf, hn, decide_eq_true_eq]
    omega

/-- A walk never goes back. -/
theorem offset_le_supply (r : Tile.Walk) (elem : Nat) :
    r.offset ≤ (r.supply elem).2.offset := by
  fun_induction supply r elem with
  | case1 => exact Nat.le_refl _
  | case2 => exact Nat.le_refl _
  | case3 r tile _ _ _ ih => exact Nat.le_trans (by simp [pass]) ih
  | case4 => exact Nat.le_refl _
  | case5 => exact Nat.le_refl _
  | case6 => simp [pass]

end Tile.Walk

end Granule
