import Granule.Proofs.Tile.Requests

/-!
# A Walk Ends, and Only Goes Forward

Where a walk goes is told to it by headers in the data, which may hold anything.
One request takes a walk through a number of turns. In every turn but the last it
passes a tile that ends at or before the element (`Tile.Walk.Passes`); in the last
one it answers (`Tile.Walk.Ends`), and stays where it is unless it answers with the
tile it stands at.

A tile is passed only where its header could be read in full, so each turn leaves at
least a header less of the data ahead, whatever length the header names. That bounds
the number of turns.

The sums that a machine makes of what a header tells may have no place in a word, as a
header may tell anything. It gives up there, even at a tile that it was only to pass.

**Main statements**:
- `Tile.Walk.exists_turns` : a request is a number of turns that pass a tile, and one that answers
- `Tile.Walk.Passes.length_le` : there are no more turns than the data ahead has room for headers
- `Tile.Walk.ends_and_goes_forward` : what any request does after any others, whatever the data
-/

namespace Granule.Tile.Walk

open Checked

variable {r next last : Tile.Walk} {elem : Nat} {passed : List Tile.Header}

/-! ## §1 Turns -/

/-- The turns of a request for an element that do not answer it: tile after tile is passed, each of
which ends at or before the element. -/
inductive Passes (elem : Nat) : Tile.Walk → List Tile.Header → Tile.Walk → Prop where
  | here (r : Tile.Walk) : Passes elem r [] r
  | on {r last : Tile.Walk} {tile : Tile.Header} {passed : List Tile.Header}
      (hread : r.header = .ok (some tile)) (hends : tile.stop ≤ elem)
      (hrest : Passes elem (r.pass tile) passed last) : Passes elem r (tile :: passed) last

/-- The turn that answers a request for an element: with what, and where the walk stands then. -/
inductive Ends (elem : Nat) :
    Tile.Walk → Except Tile.Error (Option Segment) → Tile.Walk → Prop where
  /-- There is no header to be read. -/
  | unreadable {r : Tile.Walk} {e : Tile.Error} (hread : r.header = .error e) :
      Ends elem r (.error e) r
  | atEnd {r : Tile.Walk} (hread : r.header = .ok none) : Ends elem r (.ok none) r
  /-- The next tile starts after the element. -/
  | gap {r : Tile.Walk} {tile : Tile.Header} (hread : r.header = .ok (some tile))
      (hreaches : elem < tile.stop) (hstarts : elem < tile.first.toNat) :
      Ends elem r (.ok none) r
  /-- The next tile holds the element, but does not decode. -/
  | damaged {r : Tile.Walk} {tile : Tile.Header} {e : Tile.Error}
      (hread : r.header = .ok (some tile)) (hreaches : elem < tile.stop)
      (hstarts : tile.first.toNat ≤ elem) (hsegment : r.segment tile = .error e) :
      Ends elem r (.error e) r
  /-- Only a tile that was decoded, and is the answer, is passed. -/
  | supplied {r : Tile.Walk} {tile : Tile.Header} {s : Segment}
      (hread : r.header = .ok (some tile)) (hreaches : elem < tile.stop)
      (hstarts : tile.first.toNat ≤ elem) (hsegment : r.segment tile = .ok s) :
      Ends elem r (.ok (some s)) (r.pass tile)

/-! ## §2 Requests -/

/-- Every request is answered after some turns. -/
theorem exists_turns (r : Tile.Walk) (elem : Nat) :
    ∃ passed last, Passes elem r passed last ∧
      Ends elem last (r.supply elem).1 (r.supply elem).2 := by
  fun_induction supply r elem with
  | case1 r e hread => exact ⟨[], r, .here r, .unreadable hread⟩
  | case2 r hread => exact ⟨[], r, .here r, .atEnd hread⟩
  | case3 r tile hread _ hends ih =>
    obtain ⟨passed, last, hpasses, hlast⟩ := ih
    exact ⟨tile :: passed, last, .on hread hends hpasses, hlast⟩
  | case4 r tile hread _ hreaches hstarts =>
    exact ⟨[], r, .here r, .gap hread (Nat.lt_of_not_le hreaches) hstarts⟩
  | case5 r tile hread _ hreaches hstarts e hsegment =>
    exact ⟨[], r, .here r,
      .damaged hread (Nat.lt_of_not_le hreaches) (Nat.le_of_not_lt hstarts) hsegment⟩
  | case6 r tile hread _ hreaches hstarts s hsegment =>
    exact ⟨[], r, .here r,
      .supplied hread (Nat.lt_of_not_le hreaches) (Nat.le_of_not_lt hstarts) hsegment⟩

/-- There is room in words for what a header tells: where the tile ends, where the next one starts
behind it, and how many bytes its elements need. -/
structure RoomFor (r : Tile.Walk) (tile : Tile.Header) : Prop where
  stop : tile.stop < wordLimit
  next : r.offset + tile.tileLength < wordLimit
  bytes : tile.count.toNat * r.elemSize < wordLimit

/-- There is room for every header that a request for an element comes to. -/
def RoomAhead (elem : Nat) (r : Tile.Walk) : Prop :=
  ∀ passed last tile, Passes elem r passed last → last.header = .ok (some tile) → last.RoomFor tile

/-- On a machine, the turn that answers decides the request. -/
theorem Ends.supplyChecked_eq {answer : Except Tile.Error (Option Segment)}
    (h : Ends elem r answer next) (hroom : RoomAhead elem r) :
    r.supplyChecked elem = .ok (answer, next) := by
  have hhere := fun tile => hroom [] r tile (.here r)
  cases h with
  | unreadable hread => exact supplyChecked_of_error hread
  | atEnd hread => exact supplyChecked_of_end hread
  | @gap tile hread hreaches hstarts =>
    have hstop : tile.stopChecked = .ok tile.stop := word_of_lt (hhere tile hread).stop
    rw [supplyChecked_of_header hread, hstop, ok_bind, if_neg (by omega), if_pos hstarts]
    rfl
  | @damaged tile _ hread hreaches hstarts hsegment =>
    have hstop : tile.stopChecked = .ok tile.stop := word_of_lt (hhere tile hread).stop
    rw [supplyChecked_of_header hread, hstop, ok_bind, if_neg (by omega), if_neg (by omega),
      segmentChecked, word_of_lt (hhere tile hread).bytes, ok_bind, hsegment]
    rfl
  | @supplied tile _ hread hreaches hstarts hsegment =>
    have hstop : tile.stopChecked = .ok tile.stop := word_of_lt (hhere tile hread).stop
    rw [supplyChecked_of_header hread, hstop, ok_bind, if_neg (by omega), if_neg (by omega),
      segmentChecked, word_of_lt (hhere tile hread).bytes, ok_bind, hsegment, passChecked,
      word_of_lt (hhere tile hread).next]
    rfl

/-- On a machine, too, a turn that passes a tile leaves the request to the walk behind that tile. -/
theorem Passes.supplyChecked_eq (h : Passes elem r passed last) (hroom : RoomAhead elem r) :
    r.supplyChecked elem = last.supplyChecked elem ∧ RoomAhead elem last := by
  induction h with
  | here => exact ⟨rfl, hroom⟩
  | @on r last tile passed hread hends _ ih =>
    have hhere := hroom [] r tile (.here r) hread
    have hstop : tile.stopChecked = .ok tile.stop := word_of_lt hhere.stop
    have hpass : r.passChecked tile = .ok (r.pass tile) := by
      rw [passChecked, word_of_lt hhere.next]
      rfl
    rw [supplyChecked_of_header hread, hstop, ok_bind, if_pos hends, hpass, ok_bind]
    exact ih fun passed last next hpasses => hroom (tile :: passed) last next (.on hread hends hpasses)

/-- What a machine answers is the answer, and it gives up only at a header that it has no room
for. -/
theorem gives_supplyChecked (r : Tile.Walk) (elem : Nat) :
    (r.supplyChecked elem).Gives (RoomAhead elem r) (· = r.supply elem) := by
  refine ⟨fun _ hanswer => (supply_of_supplyChecked hanswer).symm, fun hroom => ?_⟩
  obtain ⟨passed, last, hpasses, hends⟩ := exists_turns r elem
  obtain ⟨hsame, hroom⟩ := hpasses.supplyChecked_eq hroom
  exact ⟨_, hsame.trans (hends.supplyChecked_eq hroom)⟩

/-! ## §3 The way forward -/

/-- Every tile that is passed ends at or before the element. -/
theorem Passes.stop_le (h : Passes elem r passed last) : ∀ tile ∈ passed, tile.stop ≤ elem := by
  induction h with
  | here => simp
  | on _ hends _ ih => exact List.forall_mem_cons.mpr ⟨hends, ih⟩

/-- What the turns that pass a tile leave as it was, and how far they go. -/
theorem Passes.facts (h : Passes elem r passed last) :
    last.source = r.source ∧ last.elemSize = r.elemSize ∧
      last.offset = r.offset + (passed.map Tile.Header.tileLength).sum := by
  induction h with
  | here => exact ⟨rfl, rfl, rfl⟩
  | on _ _ _ ih =>
    obtain ⟨hsource, hsize, hoffset⟩ := ih
    refine ⟨hsource, hsize, ?_⟩
    rw [hoffset, List.map_cons, List.sum_cons, ← Nat.add_assoc]
    rfl

/-- Every tile that is passed takes at least a header off the data ahead. -/
theorem Passes.length_le (h : Passes elem r passed last) :
    Tile.Header.size * passed.length ≤ r.source.size - r.offset := by
  induction h with
  | here => exact Nat.zero_le _
  | @on r last tile passed hread _ _ ih =>
    have hinside := header_le_size hread
    have hlong : Tile.Header.size ≤ tile.tileLength := Nat.le_add_right _ _
    have hahead : Tile.Header.size * passed.length ≤
        r.source.size - (r.offset + tile.tileLength) := ih
    rw [List.length_cons, Nat.mul_succ]
    omega

theorem Ends.keeps {answer : Except Tile.Error (Option Segment)} (h : Ends elem r answer next) :
    next.source = r.source ∧ next.elemSize = r.elemSize := by
  cases h <;> exact ⟨rfl, rfl⟩

/-- A request leaves the data and the size of the elements as they were. -/
theorem supply_keeps (r : Tile.Walk) (elem : Nat) :
    (r.supply elem).2.source = r.source ∧ (r.supply elem).2.elemSize = r.elemSize := by
  obtain ⟨passed, last, hpasses, hends⟩ := exists_turns r elem
  obtain ⟨hsource, hsize, -⟩ := hpasses.facts
  rw [← hsource, ← hsize]
  exact hends.keeps

/-- Requests leave the data and the size of the elements as they were, and never go back. -/
theorem after_facts (r : Tile.Walk) (elems : List Nat) :
    let next := SegmentSupplier.after r elems
    next.source = r.source ∧ next.elemSize = r.elemSize ∧ r.offset ≤ next.offset := by
  induction elems using List.reverseRecOn with
  | nil => exact ⟨rfl, rfl, Nat.le_refl _⟩
  | append_singleton elems elem ih =>
    obtain ⟨hsource, hsize, hoffset⟩ := ih
    obtain ⟨hkeepsSource, hkeepsSize⟩ := supply_keeps (SegmentSupplier.after r elems) elem
    rw [SegmentSupplier.after_concat]
    exact ⟨hkeepsSource.trans hsource, hkeepsSize.trans hsize,
      hoffset.trans (offset_le_supply _ elem)⟩

theorem Ends.length_data {s : Segment} (h : Ends elem r (.ok (some s)) next) :
    s.data.length = s.count * r.elemSize := by
  cases h with
  | supplied _ _ _ hsegment =>
    obtain ⟨-, hcount, hlength⟩ := segment_eq hsegment
    rw [hlength, hcount]

/-- The bytes of a supplied segment are as many as its elements need. -/
theorem length_of_supply {s : Segment} (h : (r.supply elem).1 = .ok (some s)) :
    s.data.length = s.count * r.elemSize := by
  obtain ⟨passed, last, hpasses, hends⟩ := exists_turns r elem
  obtain ⟨-, hsize, -⟩ := hpasses.facts
  rw [h] at hends
  rw [hends.length_data, hsize]

/-- What a request for an element does to a walk over data that may hold anything. -/
structure Goes (before : Tile.Walk) (elem : Nat)
    (answer : Except Tile.Error (Option Segment)) (next : Tile.Walk) : Prop where
  /-- Tiles that end at or before the element are passed, and then the request is answered; only a
  tile that was decoded, and is the answer, is passed in that turn. -/
  turns : ∃ passed last, Passes elem before passed last ∧ (∀ tile ∈ passed, tile.stop ≤ elem) ∧
    last.offset = before.offset + (passed.map Tile.Header.tileLength).sum ∧
    Ends elem last answer next
  /-- The walk never goes back. -/
  forward : before.offset ≤ next.offset
  /-- A segment that is the answer holds the element, and exactly the bytes of its elements. -/
  sound : ∀ s, answer = .ok (some s) →
    s.contains elem ∧ s.data.length = s.count * before.elemSize

theorem goes_supply (before : Tile.Walk) (elem : Nat) :
    Goes before elem (before.supply elem).1 (before.supply elem).2 := by
  refine ⟨?turns, offset_le_supply before elem,
    fun s hs => ⟨contains_of_supply hs, length_of_supply hs⟩⟩
  obtain ⟨passed, last, hpasses, hends⟩ := exists_turns before elem
  obtain ⟨-, -, hoffset⟩ := hpasses.facts
  exact ⟨passed, last, hpasses, hpasses.stop_le, hoffset, hends⟩

/-- **A walk ends, and only goes forward**: whatever the data hold, wherever the walk started and
whatever was asked for before, in any order, a request takes no more turns than the data ahead have
room for headers. The tiles it passes end at or before the element, but for one that it decoded and
answers with; it never goes back, and a segment it answers with holds the element and exactly the
bytes of its elements. A machine gives up only at a header whose numbers have no place in words. -/
theorem ends_and_goes_forward (r : Tile.Walk) (asked : List Nat) (elem : Nat) :
    let before := SegmentSupplier.after r asked
    (∀ answered, CheckedSupplier.answersChecked r asked = .ok answered → answered.2 = before) ∧
      before.elemSize = r.elemSize ∧ r.offset ≤ before.offset ∧
      (∀ passed last, Passes elem before passed last →
        Tile.Header.size * passed.length ≤ r.source.size - before.offset) ∧
      (before.supplyChecked elem).Gives (RoomAhead elem before)
        fun answered => Goes before elem answered.1 answered.2 := by
  intro before
  obtain ⟨hsource, hsize, hforward⟩ := after_facts r asked
  refine ⟨?answers, hsize, hforward, ?bounded, ?goes⟩
  case answers =>
    have hgives : (CheckedSupplier.answersChecked r asked).Gives False
        (· = (SegmentSupplier.answers r asked, before)) :=
      CheckedSupplier.gives_answersChecked (fun _ => False) (fun _ _ h => h.elim) id asked
    exact fun answered hanswered => congrArg Prod.snd (hgives.sound _ hanswered)
  case bounded =>
    intro passed last hpasses
    rw [← hsource]
    exact hpasses.length_le
  case goes =>
    refine (gives_supplyChecked before elem).mono fun answered hanswered => ?_
    rw [hanswered]
    exact goes_supply before elem

end Granule.Tile.Walk
