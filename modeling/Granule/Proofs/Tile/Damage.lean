import Granule.Proofs.Grid.Alike
import Granule.Proofs.Tile.Requests

/-!
# Damage Stays in Its Tile

A walk finds its way by the headers of the tiles; it neither decodes nor checks a tile
that it passes. Two files whose headers agree on the elements of every tile, and that
differ only inside damaged tiles, are therefore alike for all other elements.

The two walks need not stand at the same tile, for a request into a damaged tile may
fail in one file, where the walk stays, and succeed in the other, where it goes on.
But then all tiles between the two are damaged or end before whatever is asked for
next (`Tile.Passable`), and a request for an undamaged element brings the walks
together again.

**Main statements**:
- `Tile.Walk.Standing.supply` : a walk over stored tiles, one request
- `Tile.Walk.Astride.supply` : two walks over two such files, one request
- `Tile.Walk.damage_stays_in_its_tile` : sequences of requests, and whole assemblies
-/

namespace Granule

namespace Tile

/-! ## §1 Stored tiles -/

/-- A tile as it is stored: a header, and a payload as long as the header says. Whatever else the
header says need not be true of the payload. -/
structure Stored where
  header : Tile.Header
  payload : Bytes
  length_eq : payload.length = header.payloadLength.toNat

namespace Stored

def write (t : Stored) : Bytes := t.header.write ++ t.payload

def writeAll (tiles : List Stored) : Bytes := tiles.flatMap write

/-- The tile has this element, if its header is right. -/
def Covers (t : Stored) (elem : Nat) : Prop := t.header.first.toNat ≤ elem ∧ elem < t.header.stop

instance (t : Stored) (elem : Nat) : Decidable (t.Covers elem) :=
  inferInstanceAs (Decidable (_ ∧ _))

/-- The decoded elements, or what is wrong with the tile. -/
def segment (t : Stored) (elemSize : Nat) : Except Tile.Error Segment :=
  let expected := t.header.count.toNat * elemSize
  if t.header.decodedLength.toNat ≠ expected then
    .error (.wrongSize t.header.first.toNat expected t.header.decodedLength.toNat)
  else
    match t.header.decode t.payload with
    | .error e => .error e
    | .ok raw => .ok ⟨t.header.first.toNat, t.header.count.toNat, raw⟩

/-- What a walk over these tiles answers to a request, and the tiles it then leaves ahead. -/
def ask (elemSize elem : Nat) : List Stored → Except Tile.Error (Option Segment) × List Stored
  | [] => (.ok none, [])
  | t :: rest =>
    if t.header.stop ≤ elem then ask elemSize elem rest
    else if elem < t.header.first.toNat then (.ok none, t :: rest)
    else
      match t.segment elemSize with
      | .error e => (.error e, t :: rest)
      | .ok s => (.ok (some s), rest)

variable {elemSize elem : Nat}

/-- Tiles that end by the element are passed. -/
theorem ask_append {passed : List Stored} (h : ∀ t ∈ passed, t.header.stop ≤ elem)
    (rest : List Stored) : ask elemSize elem (passed ++ rest) = ask elemSize elem rest := by
  induction passed with
  | nil => rfl
  | cons t passed ih =>
    obtain ⟨ht, hpassed⟩ := List.forall_mem_cons.mp h
    rw [List.cons_append, ask, if_pos ht, ih hpassed]

/-- A request passes only tiles that end by the element or have it. -/
theorem exists_passed (elemSize elem : Nat) (tiles : List Stored) :
    ∃ passed, tiles = passed ++ (ask elemSize elem tiles).2 ∧
      ∀ t ∈ passed, t.header.stop ≤ elem ∨ t.Covers elem := by
  induction tiles with
  | nil => exact ⟨[], rfl, by simp⟩
  | cons t rest ih =>
    rw [ask]
    split_ifs with hstop hfirst
    · obtain ⟨passed, hsplit, hpassed⟩ := ih
      exact ⟨t :: passed, congrArg (t :: ·) hsplit, List.forall_mem_cons.mpr ⟨.inl hstop, hpassed⟩⟩
    · exact ⟨[], rfl, by simp⟩
    · split
      · exact ⟨[], rfl, by simp⟩
      · exact ⟨[t], rfl, by simpa using .inr ⟨Nat.not_lt.mp hfirst, Nat.not_le.mp hstop⟩⟩

end Stored

namespace Walk

/-- A walk stands right before these stored tiles. -/
structure Standing (elemSize : Nat) (tiles : List Stored) (r : Tile.Walk) : Prop where
  steady : r.source.NeverFails
  elemSize_eq : r.elemSize = elemSize
  left : r.source.bytes.drop r.offset = Stored.writeAll tiles

/-- **One request.** A walk answers from the tiles that it stands before, whatever comes of it. -/
theorem Standing.supply {elemSize : Nat} {tiles : List Stored} {r : Tile.Walk}
    (h : Standing elemSize tiles r) (elem : Nat) :
    (r.supply elem).1 = (Stored.ask elemSize elem tiles).1 ∧
      Standing elemSize (Stored.ask elemSize elem tiles).2 (r.supply elem).2 := by
  induction tiles generalizing r with
  | nil =>
    rw [supply_of_end (header_of_end h.steady h.left)]
    exact ⟨rfl, h⟩
  | cons t rest ih =>
    have hparts : Stored.writeAll (t :: rest) =
        t.header.write ++ t.payload ++ Stored.writeAll rest := rfl
    obtain ⟨hheader, hread, hbehind⟩ := read_of_left h.steady t.length_eq (h.left.trans hparts)
    have hsegment : r.segment t.header = t.segment elemSize := by
      rw [← h.elemSize_eq, Walk.segment, Stored.segment]
      cases hdecode : t.header.decode t.payload <;> simp only [hread, hdecode]
    have hpassed : Standing elemSize rest (r.pass t.header) := ⟨h.steady, h.elemSize_eq, hbehind⟩
    rw [supply_of_header hheader, hsegment, Stored.ask]
    split_ifs with hstop hfirst
    · exact ih hpassed
    · exact ⟨rfl, h⟩
    · cases t.segment elemSize with
      | error e => exact ⟨rfl, h⟩
      | ok s => exact ⟨rfl, hpassed⟩

/-- A request that failed leaves the walk where it fails in the same way again. -/
theorem supply_supply {r : Tile.Walk} {elem : Nat} {e : Tile.Error}
    (h : (r.supply elem).1 = .error e) : (r.supply elem).2.supply elem = r.supply elem := by
  fun_induction supply r elem with
  | case1 r e' hheader => exact supply_of_error hheader
  | case2 => cases h
  | case3 r tile _ _ _ ih => exact ih h
  | case4 => cases h
  | case5 r tile hheader _ hstop hfirst e' hsegment =>
    rw [supply_of_header hheader, if_neg hstop, if_neg hfirst, hsegment]
  | case6 => cases h

end Walk

/-! ## §2 Two files -/

section Twins

variable {damaged : Set Nat} {elemSize elem : Nat}

/-- A tile in two files, where these elements are damaged: both headers name the same elements, and
the tile is the same in both files unless all of its elements are damaged. -/
structure Twins (damaged : Set Nat) (t : Stored × Stored) : Prop where
  first_eq : t.2.header.first = t.1.header.first
  count_eq : t.2.header.count = t.1.header.count
  same : ∀ e ∉ damaged, t.1.Covers e → t.2 = t.1
  whole : ∀ e ∈ damaged, t.1.Covers e → ∀ other, t.1.Covers other → other ∈ damaged

theorem Twins.stop_eq {t : Stored × Stored} (h : Twins damaged t) :
    t.2.header.stop = t.1.header.stop := by
  rw [Header.stop, Header.stop, h.first_eq, h.count_eq]

theorem Twins.covers_iff {t : Stored × Stored} (h : Twins damaged t) :
    t.2.Covers elem ↔ t.1.Covers elem := by
  rw [Stored.Covers, Stored.Covers, h.first_eq, h.stop_eq]

/-- Whatever undamaged element is asked for from here on, the tile ends by it. -/
def Passable (damaged : Set Nat) (elem : Nat) (t : Stored × Stored) : Prop :=
  ∀ next ≥ elem, next ∉ damaged → t.1.header.stop ≤ next

/-- Once a damaged element was asked for, a tile that ends by it or has it may be passed. -/
theorem Twins.passable {t : Stored × Stored} (h : Twins damaged t) (helem : elem ∈ damaged)
    (hpassed : t.1.header.stop ≤ elem ∨ t.1.Covers elem) : Passable damaged elem t := by
  intro next hnext hundamaged
  rcases hpassed with hstop | hcovers
  · exact hstop.trans hnext
  · refine Nat.le_of_not_lt fun hlt => hundamaged ?_
    exact h.whole elem helem hcovers next ⟨hcovers.1.trans hnext, hlt⟩

/-- Of two walks, one may have passed more tiles; those are passable. -/
def Near (damaged : Set Nat) (elem : Nat) (left right : List (Stored × Stored)) : Prop :=
  ∃ gap, (∀ t ∈ gap, Passable damaged elem t) ∧ (left = gap ++ right ∨ right = gap ++ left)

theorem Near.symm {left right : List (Stored × Stored)} (h : Near damaged elem left right) :
    Near damaged elem right left := by
  obtain ⟨gap, hgap, hsides⟩ := h
  exact ⟨gap, hgap, hsides.symm⟩

theorem Near.later {left right : List (Stored × Stored)} (h : Near damaged elem left right)
    {next : Nat} (hle : elem ≤ next) : Near damaged next left right := by
  obtain ⟨gap, hgap, hsides⟩ := h
  exact ⟨gap, fun t ht other hother => hgap t ht other (hle.trans hother), hsides⟩

/-- Passing further passable tiles keeps the walks near. -/
theorem Near.pass {passed left right : List (Stored × Stored)}
    (h : Near damaged elem (passed ++ left) right)
    (hpassed : ∀ t ∈ passed, Passable damaged elem t) : Near damaged elem left right := by
  induction passed with
  | nil => exact h
  | cons t passed ih =>
    obtain ⟨ht, hpassed⟩ := List.forall_mem_cons.mp hpassed
    refine ih ?_ hpassed
    obtain ⟨gap, hgap, hleft | hright⟩ := h
    · cases gap with
      -- the walks stood at the same tile, and this one has passed it now
      | nil => exact ⟨[t], by simpa using ht, .inr (by simpa using hleft.symm)⟩
      | cons u gap =>
        obtain ⟨-, hgap⟩ := List.forall_mem_cons.mp hgap
        exact ⟨gap, hgap, .inl (List.cons.inj hleft).2⟩
    · refine ⟨gap ++ [t], fun u hu => ?_, .inr (by simpa using hright)⟩
      rcases List.mem_append.mp hu with hu | hu
      · exact hgap u hu
      · rwa [List.mem_singleton.mp hu]

/-- A request for an undamaged element is answered alike from the same tiles of both files, which
leaves the same tiles. -/
theorem ask_twins (elemSize : Nat) (helem : elem ∉ damaged) {tiles : List (Stored × Stored)}
    (htwins : ∀ t ∈ tiles, Twins damaged t) :
    (Stored.ask elemSize elem (tiles.map Prod.fst)).1 =
        (Stored.ask elemSize elem (tiles.map Prod.snd)).1 ∧
      ∃ rest : List (Stored × Stored), (∀ t ∈ rest, Twins damaged t) ∧
        (Stored.ask elemSize elem (tiles.map Prod.fst)).2 = rest.map Prod.fst ∧
        (Stored.ask elemSize elem (tiles.map Prod.snd)).2 = rest.map Prod.snd := by
  induction tiles with
  | nil => exact ⟨rfl, [], by simp, rfl, rfl⟩
  | cons t rest ih =>
    obtain ⟨ht, hrest⟩ := List.forall_mem_cons.mp htwins
    rw [List.map_cons, List.map_cons, Stored.ask, Stored.ask, ht.stop_eq, ht.first_eq]
    split_ifs with hstop hfirst
    · exact ih hrest
    · exact ⟨rfl, t :: rest, htwins, rfl, rfl⟩
    · -- the tile has the element, so it is the same in both files
      rw [ht.same elem helem ⟨Nat.not_lt.mp hfirst, Nat.not_le.mp hstop⟩]
      cases t.1.segment elemSize with
      | error e =>
        have hsame : t.2 = t.1 := ht.same elem helem ⟨Nat.not_lt.mp hfirst, Nat.not_le.mp hstop⟩
        refine ⟨rfl, t :: rest, htwins, rfl, ?_⟩
        rw [List.map_cons, hsame]
      | ok s => exact ⟨rfl, rest, hrest, rfl, rfl⟩

/-- A request for a damaged element passes only tiles that are passable then. -/
theorem exists_rest_of_ask (elemSize : Nat) (helem : elem ∈ damaged)
    (side : Stored × Stored → Stored) {tiles : List (Stored × Stored)}
    (htwins : ∀ t ∈ tiles, Twins damaged t)
    (hstop : ∀ t ∈ tiles, (side t).header.stop = t.1.header.stop)
    (hcovers : ∀ t ∈ tiles, (side t).Covers elem → t.1.Covers elem) :
    ∃ passed rest, tiles = passed ++ rest ∧ (∀ t ∈ passed, Passable damaged elem t) ∧
      (Stored.ask elemSize elem (tiles.map side)).2 = rest.map side := by
  obtain ⟨passed, hsplit, hpassed⟩ := Stored.exists_passed elemSize elem (tiles.map side)
  obtain ⟨passed', rest, rfl, rfl, hrest⟩ := List.map_eq_append_iff.mp hsplit
  refine ⟨passed', rest, rfl, fun t ht => ?_, hrest.symm⟩
  have hmem := List.mem_append_left rest ht
  refine (htwins t hmem).passable helem ?_
  rw [← hstop t hmem]
  exact (hpassed (side t) (List.mem_map_of_mem ht)).imp_right (hcovers t hmem)

end Twins

/-! ## §3 Two walks -/

namespace Walk

variable {damaged : Set Nat} {elemSize elem : Nat} {left right : Tile.Walk}

/-- Two walks, one over each file, that stand near each other. -/
structure Astride (damaged : Set Nat) (elemSize elem : Nat) (left right : Tile.Walk) : Prop where
  near : ∃ ahead ahead' : List (Stored × Stored),
    (∀ t ∈ ahead, Twins damaged t) ∧ (∀ t ∈ ahead', Twins damaged t) ∧
      Near damaged elem ahead ahead' ∧ Standing elemSize (ahead.map Prod.fst) left ∧
      Standing elemSize (ahead'.map Prod.snd) right

theorem Astride.later (h : Astride damaged elemSize elem left right) {next : Nat}
    (hle : elem ≤ next) : Astride damaged elemSize next left right := by
  obtain ⟨ahead, ahead', htwins, htwins', hnear, hleft, hright⟩ := h.near
  exact ⟨ahead, ahead', htwins, htwins', hnear.later hle, hleft, hright⟩

/-- **A request for an undamaged element** is answered alike, and brings the walks together. -/
theorem Astride.supply_undamaged (h : Astride damaged elemSize elem left right)
    (helem : elem ∉ damaged) :
    (left.supply elem).1 = (right.supply elem).1 ∧
      Astride damaged elemSize elem (left.supply elem).2 (right.supply elem).2 := by
  obtain ⟨ahead, ahead', htwins, htwins', ⟨gap, hgap, hsides⟩, hleft, hright⟩ := h.near
  -- both walks pass the gap, and then ask the same tiles
  obtain ⟨tiles, htiles, hask, hask'⟩ : ∃ tiles : List (Stored × Stored), (∀ t ∈ tiles, Twins damaged t) ∧
      Stored.ask elemSize elem (ahead.map Prod.fst) =
        Stored.ask elemSize elem (tiles.map Prod.fst) ∧
      Stored.ask elemSize elem (ahead'.map Prod.snd) =
        Stored.ask elemSize elem (tiles.map Prod.snd) := by
    rcases hsides with rfl | rfl
    · refine ⟨ahead', htwins', ?_, rfl⟩
      rw [List.map_append]
      refine Stored.ask_append (List.forall_mem_map.mpr fun t ht => ?_) _
      exact hgap t ht elem le_rfl helem
    · refine ⟨ahead, htwins, rfl, ?_⟩
      rw [List.map_append]
      refine Stored.ask_append (List.forall_mem_map.mpr fun t ht => ?_) _
      rw [(htwins' t (List.mem_append_left _ ht)).stop_eq]
      exact hgap t ht elem le_rfl helem
  obtain ⟨hanswer, rest, hrest, hleftRest, hrightRest⟩ := ask_twins elemSize helem htiles
  obtain ⟨hleftAnswer, hleftAfter⟩ := hleft.supply elem
  obtain ⟨hrightAnswer, hrightAfter⟩ := hright.supply elem
  rw [hask, hleftRest] at hleftAfter
  rw [hask', hrightRest] at hrightAfter
  refine ⟨?_, rest, rest, hrest, hrest, ⟨[], by simp, .inl rfl⟩, hleftAfter, hrightAfter⟩
  rw [hleftAnswer, hrightAnswer, hask, hask', hanswer]

/-- A request for a damaged element may be answered differently, but keeps the walks near. -/
theorem Astride.supply_damaged (h : Astride damaged elemSize elem left right)
    (helem : elem ∈ damaged) :
    Astride damaged elemSize elem (left.supply elem).2 (right.supply elem).2 := by
  obtain ⟨ahead, ahead', htwins, htwins', hnear, hleft, hright⟩ := h.near
  obtain ⟨passed, rest, rfl, hpassed, hrest⟩ := exists_rest_of_ask elemSize helem
    Prod.fst htwins (fun _ _ => rfl) fun _ _ => id
  obtain ⟨passed', rest', rfl, hpassed', hrest'⟩ := exists_rest_of_ask elemSize helem
    Prod.snd htwins' (fun t ht => (htwins' t ht).stop_eq)
    fun t ht => (htwins' t ht).covers_iff.mp
  have hleftAfter := (hleft.supply elem).2
  have hrightAfter := (hright.supply elem).2
  rw [hrest] at hleftAfter
  rw [hrest'] at hrightAfter
  exact ⟨rest, rest', fun t ht => htwins t (List.mem_append_right _ ht),
    fun t ht => htwins' t (List.mem_append_right _ ht),
    ((hnear.pass hpassed).symm.pass hpassed').symm, hleftAfter, hrightAfter⟩

/-- **One request** keeps the walks near. -/
theorem Astride.supply (h : Astride damaged elemSize elem left right) :
    Astride damaged elemSize elem (left.supply elem).2 (right.supply elem).2 := by
  by_cases helem : elem ∈ damaged
  · exact h.supply_damaged helem
  · exact (h.supply_undamaged helem).2

/-- **A sequence of requests.** The answers for undamaged elements are alike, whatever was asked
for in between. -/
theorem Astride.answers_eq {requests : List Nat} (h : Astride damaged elemSize elem left right)
    (hordered : (elem :: requests).Pairwise (· ≤ ·)) {k : Nat} {asked : Nat}
    (hk : requests[k]? = some asked) (hundamaged : asked ∉ damaged) :
    (SegmentSupplier.answers left requests)[k]? =
      (SegmentSupplier.answers right requests)[k]? := by
  induction requests generalizing left right elem k with
  | nil => cases hk
  | cons next requests ih =>
    obtain ⟨hfirst, hrest⟩ := List.pairwise_cons.mp hordered
    have hnext := h.later (hfirst next List.mem_cons_self)
    cases k with
    | zero =>
      obtain rfl : next = asked := Option.some.inj hk
      exact congrArg (fun answer => some (answer.mapError GridError.tile))
        (hnext.supply_undamaged hundamaged).1
    | succ k => exact ih hnext.supply hrest hk

/-- Walks that stand near each other are alike for the undamaged elements. -/
theorem alike_undamaged (damaged : Set Nat) (elemSize : Nat) :
    SegmentSupplier.Alike damagedᶜ (Astride damaged elemSize) where
  later := fun h hle => h.later hle
  supply := by
    intro left right elem h helem
    obtain ⟨hanswer, hafter⟩ := h.supply_undamaged helem
    exact ⟨congrArg (·.mapError GridError.tile) hanswer, hafter⟩

end Walk

/-! ## §4 Damaged tiles -/

namespace Stored

def elemsOf (file : List Stored) (numbers : Set Nat) : Set Nat :=
  {elem | ∃ i ∈ numbers, ∃ t, file[i]? = some t ∧ t.Covers elem}

/-- Two files whose tiles hold the same elements, in the order they are stored, and which differ
only inside the tiles with these numbers. The payloads of a damaged tile need not even be of one
length. -/
structure DifferOnlyIn (numbers : Set Nat) (left right : List Stored) : Prop where
  agree : List.Forall₂
    (fun a b => b.header.first = a.header.first ∧ b.header.count = a.header.count) left right
  same : ∀ i ∉ numbers, right[i]? = left[i]?
  disjoint : left.Pairwise fun a b => ∀ elem, a.Covers elem → ¬ b.Covers elem

/-- Tiles that end before the next one begins are disjoint. -/
theorem disjoint_of_ordered {file : List Stored}
    (h : file.Pairwise fun a b => a.header.stop ≤ b.header.first.toNat) :
    file.Pairwise fun a b => ∀ elem, a.Covers elem → ¬ b.Covers elem := by
  refine h.imp fun {a b} hle elem ha hb => ?_
  exact absurd (ha.2.trans_le hle) (Nat.not_lt.mpr hb.1)

/-- In disjoint tiles, an element is in one tile only. -/
theorem eq_of_covers {file : List Stored}
    (h : file.Pairwise fun a b => ∀ elem, a.Covers elem → ¬ b.Covers elem) {i j elem : Nat}
    {a b : Stored} (ha : file[i]? = some a) (hb : file[j]? = some b) (hacovers : a.Covers elem)
    (hbcovers : b.Covers elem) : i = j := by
  obtain ⟨hi, rfl⟩ := List.getElem?_eq_some_iff.mp ha
  obtain ⟨hj, rfl⟩ := List.getElem?_eq_some_iff.mp hb
  rw [List.pairwise_iff_getElem] at h
  rcases Nat.lt_trichotomy i j with hlt | heq | hlt
  · exact absurd hbcovers (h i j hi hj hlt elem hacovers)
  · exact heq
  · exact absurd hacovers (h j i hj hi hlt elem hbcovers)

/-- Tile by tile, two such files are the same, or all elements of the tile are damaged. -/
theorem DifferOnlyIn.twins {numbers : Set Nat} {left right : List Stored}
    (h : DifferOnlyIn numbers left right) :
    ∀ t ∈ left.zip right, Twins (elemsOf left numbers) t := by
  rintro ⟨a, b⟩ hmem
  obtain ⟨i, hi⟩ := List.mem_iff_getElem?.mp hmem
  obtain ⟨ha, hb⟩ := List.getElem?_zip_eq_some.mp hi
  obtain ⟨hfirst, hcount⟩ := (List.forall₂_iff_zip.mp h.agree).2 hmem
  refine ⟨hfirst, hcount, fun elem hout hcovers => ?same, ?whole⟩
  case same =>
    have hnot : i ∉ numbers := fun hin => hout ⟨i, hin, a, ha, hcovers⟩
    have hsame := h.same i hnot
    rw [ha, hb] at hsame
    exact Option.some.inj hsame
  case whole =>
    rintro elem ⟨j, hj, t, ht, htcovers⟩ hcovers other hother
    rw [eq_of_covers h.disjoint ht ha htcovers hcovers] at hj
    exact ⟨i, hj, a, ha, hother⟩

end Stored

/-- **Damage stays in its tile.** Of two files that differ only inside damaged tiles, the answers to
requests in order are alike for all elements outside of these tiles, whichever requests hit a
damaged tile before; the assembly of a selection without such elements gives the same result; and
a request that failed fails again when it is repeated at once. -/
theorem Walk.damage_stays_in_its_tile (left right : List Stored) (numbers : Set Nat)
    (elemSize : Nat) (source source' : Source) (offset offset' : Nat)
    (hdiffer : Stored.DifferOnlyIn numbers left right) (hsteady : source.NeverFails)
    (hbytes : source.bytes.drop offset = Stored.writeAll left) (hsteady' : source'.NeverFails)
    (hbytes' : source'.bytes.drop offset' = Stored.writeAll right) :
    let walk : Tile.Walk := { source, elemSize, offset }
    let walk' : Tile.Walk := { source := source', elemSize, offset := offset' }
    let damaged := Stored.elemsOf left numbers
    (∀ requests : List Nat, requests.Pairwise (· ≤ ·) → ∀ k elem : Nat,
        requests[k]? = some elem → elem ∉ damaged →
        (SegmentSupplier.answers walk requests)[k]? =
          (SegmentSupplier.answers walk' requests)[k]?) ∧
      (∀ (shape : Shape) (width : Nat) (selection : Selection),
        (∀ elem ∈ selection.elems shape, elem ∉ damaged) →
        (Assembly.start shape width selection walk).bind Assembly.run =
          (Assembly.start shape width selection walk').bind Assembly.run) ∧
      ∀ (r : Tile.Walk) (elem : Nat) (e : GridError), (SegmentSupplier.supply r elem).1 = .error e →
        SegmentSupplier.supply (SegmentSupplier.supply r elem).2 elem =
          SegmentSupplier.supply r elem := by
  intro walk walk' damaged
  have hlength := hdiffer.agree.length_eq
  -- both walks start in front of tiles that are pairwise twins
  have hstart : Astride damaged elemSize 0 walk walk' := by
    refine ⟨left.zip right, left.zip right, hdiffer.twins, hdiffer.twins,
      ⟨[], by simp, .inl rfl⟩, ?_, ?_⟩
    · rw [List.map_fst_zip hlength.le]
      exact ⟨hsteady, rfl, hbytes⟩
    · rw [List.map_snd_zip hlength.ge]
      exact ⟨hsteady', rfl, hbytes'⟩
  refine ⟨?requests, ?assembly, ?again⟩
  case requests =>
    intro requests hordered k elem hk helem
    have hfromZero : (0 :: requests).Pairwise (· ≤ ·) :=
      List.pairwise_cons.mpr ⟨fun _ _ => Nat.zero_le _, hordered⟩
    exact hstart.answers_eq hfromZero hk helem
  case assembly =>
    intro shape width selection hselected
    exact Assembly.run_of_alike (alike_undamaged damaged elemSize) hstart hselected
  case again =>
    intro r elem e hfails
    -- a walk that failed stays where it was
    cases hanswer : (r.supply elem).1 with
    | error e' =>
      exact congrArg (fun result => (result.1.mapError GridError.tile, result.2))
        (supply_supply hanswer)
    | ok supplied =>
      have hok : (SegmentSupplier.supply r elem).1 = .ok supplied :=
        congrArg (·.mapError GridError.tile) hanswer
      rw [hok] at hfails
      cases hfails

/-- Two tiles, and the first of them with a byte of its payload changed. -/
def Stored.samples : List Stored × List Stored :=
  let first : Stored := ⟨.ofPayload 0 2 .none 2 [5, 6], [5, 6], rfl⟩
  let damaged : Stored := ⟨.ofPayload 0 2 .none 2 [5, 6], [5, 9], rfl⟩
  let second : Stored := ⟨.ofPayload 2 1 .none 1 [7], [7], rfl⟩
  ([first, second], [damaged, second])

theorem Stored.differOnlyIn_samples : DifferOnlyIn {0} samples.1 samples.2 where
  agree := by decide
  same := by
    rintro (_ | i) hi
    · exact absurd rfl hi
    · rfl
  disjoint := disjoint_of_ordered (by decide)

/-- The element behind the damaged tile, after a request that fails in the second file only. -/
theorem Walk.damage_stays_in_its_tile_samples :
    (Stored.DifferOnlyIn {0} Stored.samples.1 Stored.samples.2 ∧
      (Source.ofBytes (Stored.writeAll Stored.samples.1)).NeverFails ∧
      (Source.ofBytes (Stored.writeAll Stored.samples.1)).bytes.drop 0 =
        Stored.writeAll Stored.samples.1 ∧
      (Source.ofBytes (Stored.writeAll Stored.samples.2)).NeverFails ∧
      (Source.ofBytes (Stored.writeAll Stored.samples.2)).bytes.drop 0 =
        Stored.writeAll Stored.samples.2) ∧
      let walk : Tile.Walk := ⟨.ofBytes (Stored.writeAll Stored.samples.1), 1, 0⟩
      let walk' : Tile.Walk := ⟨.ofBytes (Stored.writeAll Stored.samples.2), 1, 0⟩
      (walk.supply 0).1 = .ok (some ⟨0, 2, [5, 6]⟩) ∧
        (walk'.supply 0).1 = .error (.wrongChecksum 0) ∧
        (SegmentSupplier.answers walk [0, 2])[1]? = (SegmentSupplier.answers walk' [0, 2])[1]? ∧
        (Assembly.start ⟨[3]⟩ 1 ⟨[⟨2, 1, 1⟩]⟩ walk).bind Assembly.run =
          (Assembly.start ⟨[3]⟩ 1 ⟨[⟨2, 1, 1⟩]⟩ walk').bind Assembly.run := by
  have hundamaged : 2 ∉ Stored.elemsOf Stored.samples.1 {0} := by
    rintro ⟨i, rfl, t, ht, hcovers⟩
    cases ht
    revert hcovers
    decide
  obtain ⟨hrequests, hassembly, -⟩ := damage_stays_in_its_tile Stored.samples.1 Stored.samples.2 {0}
    1 (.ofBytes (Stored.writeAll Stored.samples.1)) (.ofBytes (Stored.writeAll Stored.samples.2)) 0 0
    Stored.differOnlyIn_samples rfl rfl rfl rfl
  have hselected : ∀ elem ∈ (⟨[⟨2, 1, 1⟩]⟩ : Selection).elems ⟨[3]⟩,
      elem ∉ Stored.elemsOf Stored.samples.1 {0} := by
    have helems : (⟨[⟨2, 1, 1⟩]⟩ : Selection).elems ⟨[3]⟩ = [2] := by decide
    rw [helems]
    exact List.forall_mem_singleton.mpr hundamaged
  have hstanding : Standing 1 Stored.samples.1 ⟨.ofBytes (Stored.writeAll Stored.samples.1), 1, 0⟩ :=
    ⟨rfl, rfl, rfl⟩
  have hstanding' : Standing 1 Stored.samples.2 ⟨.ofBytes (Stored.writeAll Stored.samples.2), 1, 0⟩ :=
    ⟨rfl, rfl, rfl⟩
  refine ⟨⟨Stored.differOnlyIn_samples, rfl, rfl, rfl, rfl⟩, ?_, ?_,
    hrequests [0, 2] (by decide) 1 2 rfl hundamaged, hassembly _ _ _ hselected⟩
  · exact (hstanding.supply 0).1.trans (by decide +kernel)
  · exact (hstanding'.supply 0).1.trans (by decide +kernel)

end Tile

end Granule
