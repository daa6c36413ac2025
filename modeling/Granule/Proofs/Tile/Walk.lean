import Granule.Proofs.Grid.Agreement
import Granule.Proofs.Tile.Header
import Granule.Words.Walk

/-!
# Tiles Read Back

Tiles are written one behind the other, each as its header and its payload. A walk
over them keeps, as an invariant (`Tile.Walk.Ahead`), that the data from where it
stands are the tiles that are left, and that the tiles it has passed end at or
before the element asked for.

A walk gives a tile up once it has supplied it. What is asked for next is then
either held by that tile or lies behind it, because tiles come in storage order;
an assembly, which keeps the segment that it serves from, never needs the tile
again.

**Main statements**:
- `Tile.Walk.Before.supply_cases` : what a walk does with the tiles that are left
- `Tile.Walk.Ahead.supply_cases` : a walk supplies the tile that holds the element, if one does
- `Assembly.tiles_read_back` : tiles are assembled into what a copy out of the storage gives
-/

namespace Granule

open Checked

/-! ## §1 Tiles -/

/-- A tile to be written: its elements, their bytes, and the payload they are stored as. -/
structure Tile where
  first : UInt64
  count : UInt32
  filter : Filter
  raw : Bytes
  payload : Bytes
deriving DecidableEq, Repr

namespace Tile

def header (t : Tile) : Tile.Header :=
  .ofPayload t.first t.count t.filter (UInt32.ofNat t.raw.length) t.payload

def write (t : Tile) : Bytes := t.header.write ++ t.payload

def writeAll (tiles : List Tile) : Bytes := tiles.flatMap write

def segment (t : Tile) : Segment := ⟨t.first.toNat, t.count.toNat, t.raw⟩

/-- The lengths of a tile fit its header, and its payload decodes to the bytes of its elements. -/
structure Intact (t : Tile) (elemSize : Nat) : Prop where
  raw_length : t.raw.length = t.count.toNat * elemSize
  raw_lt : t.raw.length < 2 ^ 32
  payload_lt : t.payload.length < 2 ^ 32
  decodes : t.filter.decode t.payload t.raw.length = .ok t.raw

variable {t : Tile} {elemSize : Nat}

/-- Without a filter, the payload is the bytes of the elements. -/
theorem Intact.of_plain (hfilter : t.filter = .none) (hpayload : t.payload = t.raw)
    (hlength : t.raw.length = t.count.toNat * elemSize) (hlt : t.raw.length < 2 ^ 32) :
    t.Intact elemSize where
  raw_length := hlength
  raw_lt := hlt
  payload_lt := hpayload ▸ hlt
  decodes := by rw [hfilter, hpayload, Filter.decode_none]

theorem Intact.decodedLength_eq (h : t.Intact elemSize) :
    t.header.decodedLength.toNat = t.raw.length := UInt32.toNat_ofNat_of_lt' h.raw_lt

theorem Intact.payloadLength_eq (h : t.Intact elemSize) :
    t.header.payloadLength.toNat = t.payload.length := UInt32.toNat_ofNat_of_lt' h.payload_lt

/-! ## §2 Walks -/

namespace Walk

variable {r : Tile.Walk} {tiles rest : List Tile} {elem : Nat}

/-- At the end of the data there is no tile. -/
theorem header_of_end (hsteady : r.source.NeverFails) (hend : r.source.bytes.drop r.offset = []) :
    r.header = .ok none := by
  have hread : r.source.readExact r.offset 4 = .error .endOfData := by
    have hlen := List.drop_eq_nil_iff.mp hend
    rw [Source.readExact_eq hsteady, if_neg (by omega)]
  have herror : Tile.Header.read r.source r.offset = .error (.io .endOfData) := by
    rw [Tile.Header.read, hread]
    rfl
  rw [header, herror]

/-- Where a header and its payload come next, they are read, and what is behind them comes after. -/
theorem read_of_left (hsteady : r.source.NeverFails) {h : Tile.Header} {payload behind : Bytes}
    (hlen : payload.length = h.payloadLength.toNat)
    (hleft : r.source.bytes.drop r.offset = h.write ++ payload ++ behind) :
    r.header = .ok (some h) ∧
      r.source.readExact (r.offset + Header.size) h.payloadLength.toNat = .ok payload ∧
      r.source.bytes.drop (r.pass h).offset = behind := by
  have hat : r.source.bytes.HasAt r.offset (h.write ++ (payload ++ behind)) := by
    rw [Bytes.HasAt, hleft, List.append_assoc]
  obtain ⟨hheader, hrest⟩ := Bytes.hasAt_append.mp hat
  obtain ⟨hpayload, -⟩ := Bytes.hasAt_append.mp hrest
  rw [Header.length_write] at hpayload
  have hpassed : (r.pass h).offset = r.offset + (h.write ++ payload).length := by
    rw [pass, Header.tileLength, List.length_append, Header.length_write, hlen]
  refine ⟨?_, Source.readExact_of_hasAt hsteady hpayload hlen, ?_⟩
  · rw [Walk.header, Header.read_of_hasAt hsteady hheader]
  · rw [hpassed, ← List.drop_drop, hleft, List.drop_left]

/-- Where tiles are left, the first of them lies right ahead, and the others behind it. -/
theorem ahead_cons (hsteady : r.source.NeverFails) (hsize : r.elemSize = elemSize)
    (ht : t.Intact elemSize) (hleft : r.source.bytes.drop r.offset = writeAll (t :: rest)) :
    r.header = .ok (some t.header) ∧ r.segment t.header = .ok t.segment ∧
      r.source.bytes.drop (r.pass t.header).offset = writeAll rest := by
  have hparts : writeAll (t :: rest) = t.header.write ++ t.payload ++ writeAll rest := by
    rw [writeAll, List.flatMap_cons, write]
    rfl
  obtain ⟨hheader, hread, hbehind⟩ :=
    read_of_left hsteady ht.payloadLength_eq.symm (hleft.trans hparts)
  refine ⟨hheader, ?_, hbehind⟩
  have hexpected : ¬ t.header.decodedLength.toNat ≠ t.header.count.toNat * r.elemSize := by
    rw [ht.decodedLength_eq, ht.raw_length, hsize]
    exact fun h => h rfl
  have hdecode : t.header.decode t.payload = .ok t.raw :=
    Header.decode_ofPayload ht.raw_lt ht.decodes
  simp only [Walk.segment, if_neg hexpected, hread, hdecode]
  rfl

/-! What a walk does with the tile right ahead. -/

theorem supply_of_passed {h : Tile.Header} (hheader : r.header = .ok (some h))
    (hstop : h.stop ≤ elem) : r.supply elem = (r.pass h).supply elem := by
  rw [supply_of_header hheader, if_pos hstop]

theorem supply_of_gap {h : Tile.Header} (hheader : r.header = .ok (some h))
    (hstop : ¬ h.stop ≤ elem) (hfirst : elem < h.first.toNat) : r.supply elem = (.ok none, r) := by
  rw [supply_of_header hheader, if_neg hstop, if_pos hfirst]

theorem supply_of_segment {h : Tile.Header} {s : Segment} (hheader : r.header = .ok (some h))
    (hstop : ¬ h.stop ≤ elem) (hfirst : ¬ elem < h.first.toNat) (hs : r.segment h = .ok s) :
    r.supply elem = (.ok (some s), r.pass h) := by
  rw [supply_of_header hheader, if_neg hstop, if_neg hfirst, hs]

/-- A walk stands right before these tiles. -/
structure Before (elemSize : Nat) (rest : List Tile) (r : Tile.Walk) : Prop where
  steady : r.source.NeverFails
  elemSize_eq : r.elemSize = elemSize
  left : r.source.bytes.drop r.offset = writeAll rest

/-- **One question to the tiles that are left.** Those that end at or before the element are passed;
then the first of the others holds the element, and is passed too, or none of them does. -/
theorem Before.supply_cases (hordered : rest.Pairwise (·.segment.first ≤ ·.segment.first))
    (hintact : ∀ t ∈ rest, t.Intact elemSize) (h : Before elemSize rest r) (elem : Nat) :
    ∃ passed left after, rest = passed ++ left ∧ (∀ t ∈ passed, t.segment.stop ≤ elem) ∧
      ((r.supply elem = (.ok none, after) ∧ Before elemSize left after ∧
          ∀ t ∈ left, ¬ t.segment.contains elem) ∨
        ∃ t behind, left = t :: behind ∧ r.supply elem = (.ok (some t.segment), after) ∧
          Before elemSize behind after ∧ t.segment.contains elem) := by
  -- the walk goes over the tiles that are left, and so does the induction
  induction rest generalizing r with
  | nil =>
    refine ⟨[], [], r, rfl, by simp, .inl ⟨?_, h, by simp⟩⟩
    exact supply_of_end (header_of_end h.steady h.left)
  | cons t rest ih =>
    obtain ⟨hfirsts, hordered'⟩ := List.pairwise_cons.mp hordered
    obtain ⟨ht, hintact'⟩ := List.forall_mem_cons.mp hintact
    obtain ⟨hheader, hsegment, hrest⟩ := ahead_cons h.steady h.elemSize_eq ht h.left
    have hbehind : Before elemSize rest (r.pass t.header) := ⟨h.steady, h.elemSize_eq, hrest⟩
    by_cases hstop : t.segment.stop ≤ elem
    · rw [supply_of_passed hheader hstop]
      obtain ⟨passed, left, after, hsplit, hpassed, hcases⟩ := ih hordered' hintact' hbehind
      exact ⟨t :: passed, left, after, by rw [hsplit, List.cons_append],
        List.forall_mem_cons.mpr ⟨hstop, hpassed⟩, hcases⟩
    · by_cases hfirst : elem < t.segment.first
      · -- the tiles behind this one start no earlier
        refine ⟨[], t :: rest, r, rfl, by simp, .inl ⟨?_, h, ?_⟩⟩
        · exact supply_of_gap hheader hstop hfirst
        · intro u hu hcontains
          have hle := (Segment.contains_iff.mp hcontains).1
          rcases List.mem_cons.mp hu with rfl | hu
          · omega
          · have := hfirsts u hu
            omega
      · refine ⟨[], t :: rest, r.pass t.header, rfl, by simp, .inr ⟨t, rest, rfl, ?_, hbehind, ?_⟩⟩
        · exact supply_of_segment hheader hstop hfirst hsegment
        · exact Segment.contains_iff.mpr ⟨Nat.not_lt.mp hfirst, Nat.not_le.mp hstop⟩

/-- Where a walk over tiles stands when it is asked for an element. -/
structure Ahead (tiles : List Tile) (elemSize elem : Nat) (r : Tile.Walk) : Prop where
  /-- The tiles that were passed are of no use any more, and the others are still to come. -/
  split : ∃ past rest, tiles = past ++ rest ∧ (∀ t ∈ past, t.segment.stop ≤ elem) ∧
    Before elemSize rest r

/-- Before the first tile, any element may be asked for. -/
theorem ahead_start {source : Source} {offset : Nat} (hsteady : source.NeverFails)
    (hbytes : source.bytes.drop offset = writeAll tiles) (elem : Nat) :
    Ahead tiles elemSize elem { source, elemSize, offset } where
  split := ⟨[], tiles, rfl, by simp, hsteady, rfl, hbytes⟩

theorem Ahead.later (h : Ahead tiles elemSize elem r) {next : Nat} (hle : elem ≤ next) :
    Ahead tiles elemSize next r := by
  obtain ⟨past, rest, htiles, hpast, hbefore⟩ := h.split
  exact ⟨past, rest, htiles, fun t ht => (hpast t ht).trans hle, hbefore⟩

/-- A tile that ends at or before an element does not hold it. -/
theorem not_contains_of_stop_le (h : t.segment.stop ≤ elem) : ¬ t.segment.contains elem := by
  intro hcontains
  have hlt := (Segment.contains_iff.mp hcontains).2
  omega

/-- **One question.** A walk over tiles in storage order supplies a tile that holds the element, and
then fits whatever comes behind that tile; or no tile holds the element. -/
theorem Ahead.supply_cases (hordered : tiles.Pairwise (·.segment.first ≤ ·.segment.first))
    (hintact : ∀ t ∈ tiles, t.Intact elemSize) (h : Ahead tiles elemSize elem r) :
    (∃ after, r.supply elem = (.ok none, after) ∧ Ahead tiles elemSize elem after ∧
        ∀ t ∈ tiles, ¬ t.segment.contains elem) ∨
      ∃ t ∈ tiles, ∃ after, r.supply elem = (.ok (some t.segment), after) ∧
        t.segment.contains elem ∧
        ∀ next ≥ elem, ¬ t.segment.contains next → Ahead tiles elemSize next after := by
  obtain ⟨past, rest, rfl, hpast, hbefore⟩ := h.split
  obtain ⟨passed, left, after, rfl, hpassed, hcases⟩ := hbefore.supply_cases
    (List.pairwise_append.mp hordered).2.1 (fun t ht => hintact t (List.mem_append_right past ht))
    elem
  -- what was passed before ends in front of the element as well, since elements only grow
  have hgone : ∀ t ∈ past ++ passed, t.segment.stop ≤ elem := by
    intro t ht
    rcases List.mem_append.mp ht with ht | ht
    · exact hpast t ht
    · exact hpassed t ht
  rw [← List.append_assoc] at hordered ⊢
  rcases hcases with ⟨hsupply, hafter, hnone⟩ | ⟨t, behind, rfl, hsupply, hafter, hcontains⟩
  · refine .inl ⟨after, hsupply, ⟨past ++ passed, left, rfl, hgone, hafter⟩, ?_⟩
    intro t ht
    rcases List.mem_append.mp ht with ht | ht
    · exact not_contains_of_stop_le (hgone t ht)
    · exact hnone t ht
  · refine .inr ⟨t, by simp, after, hsupply, hcontains, ?_⟩
    intro next hle hout
    have hstop : t.segment.stop ≤ next := by
      refine Nat.le_of_not_lt fun hlt => hout ?_
      exact Segment.contains_iff.mpr ⟨(Segment.contains_iff.mp hcontains).1.trans hle, hlt⟩
    refine ⟨past ++ passed ++ [t], behind, by simp, ?_, hafter⟩
    intro u hu
    rcases List.mem_append.mp hu with hu | hu
    · exact (hgone u hu).trans hle
    · rwa [List.mem_singleton.mp hu]

/-- A walk knows the decoded tiles that lie ahead of it. -/
theorem knows (hordered : tiles.Pairwise (·.segment.first ≤ ·.segment.first))
    (hintact : ∀ t ∈ tiles, t.Intact elemSize) :
    SegmentSupplier.Knows (tiles.map Tile.segment) (Ahead tiles elemSize) where
  later := fun h => h.later
  supply := by
    intro r elem h
    have hsupply : SegmentSupplier.supply r elem =
        ((r.supply elem).1.mapError GridError.tile, (r.supply elem).2) := rfl
    rcases h.supply_cases hordered hintact with
      ⟨after, heq, hahead, hnone⟩ | ⟨t, ht, after, heq, hcontains, hbehind⟩
    · refine ⟨none, after, by rw [hsupply, heq]; rfl, fun _ hle _ => hahead.later hle, by simp, ?_⟩
      rintro ⟨s, hs, hcontains⟩
      obtain ⟨t, ht, rfl⟩ := List.mem_map.mp hs
      exact absurd hcontains (hnone t ht)
    · refine ⟨some t.segment, after, by rw [hsupply, heq]; rfl, ?_, ?_, ?_⟩
      · intro next hle hout
        exact hbehind next hle (hout t.segment rfl)
      · rintro _ ⟨⟩
        exact List.mem_map_of_mem ht
      · exact fun _ => ⟨t.segment, rfl, hcontains⟩

/-! On a machine, a walk over intact tiles gives up only where one of them has no room in words. -/

/-- A walk answers from the tiles that are left, and then stands before some of them. -/
theorem Before.exists_supplyChecked (hintact : ∀ t ∈ rest, t.Intact elemSize)
    (hroom : ∀ t ∈ rest, t.segment.HasRoom elemSize) (hsource : r.source.size < wordLimit)
    (h : Before elemSize rest r) (elem : Nat) :
    ∃ answer after left, r.supplyChecked elem = .ok (answer, after) ∧
      left ⊆ rest ∧ Before elemSize left after ∧ after.source = r.source ∧
      ∀ s, answer = .ok (some s) → ∃ t ∈ rest, t.segment = s := by
  -- on the tiles that are left: each is passed, or decides the answer
  induction rest generalizing r with
  | nil =>
    refine ⟨.ok none, r, [], ?_, List.nil_subset _, h, rfl, nofun⟩
    exact supplyChecked_of_end (header_of_end h.steady h.left)
  | cons t rest ih =>
    obtain ⟨ht, hintact'⟩ := List.forall_mem_cons.mp hintact
    obtain ⟨htRoom, hroom'⟩ := List.forall_mem_cons.mp hroom
    obtain ⟨hheader, hsegment, hrest⟩ := ahead_cons h.steady h.elemSize_eq ht h.left
    have hbehind : Before elemSize rest (r.pass t.header) := ⟨h.steady, h.elemSize_eq, hrest⟩
    have hstop : t.header.stopChecked = .ok t.segment.stop := word_of_lt htRoom.stop
    have hpass : r.passChecked t.header = .ok (r.pass t.header) := by
      -- the tile lies in the source, so its end has a word
      have hlength := congrArg List.length h.left
      rw [List.length_drop, Source.length_bytes, writeAll, List.flatMap_cons, List.length_append,
        write, List.length_append, Header.length_write] at hlength
      have hpayload := ht.payloadLength_eq
      have hinside : r.offset + t.header.tileLength < wordLimit := by
        have hread := header_le_size hheader
        rw [Header.tileLength]
        omega
      rw [passChecked, word_of_lt hinside]
      rfl
    have hcounted : r.segmentChecked t.header = .ok (.ok t.segment) := by
      rw [segmentChecked, h.elemSize_eq, hsegment]
      exact congrArg (· >>= _) (word_of_lt htRoom.bytes)
    rw [supplyChecked_of_header hheader, hstop, ok_bind]
    split
    · rw [hpass, ok_bind]
      obtain ⟨answer, after, left, hanswer, hsubset, hbefore, hsource', hfrom⟩ :=
        ih (r := r.pass t.header) hintact' hroom' hsource hbehind
      refine ⟨answer, after, left, hanswer, List.subset_cons_of_subset t hsubset, hbefore,
        hsource', fun s hs => ?_⟩
      obtain ⟨u, hu, hsame⟩ := hfrom s hs
      exact ⟨u, List.mem_cons_of_mem t hu, hsame⟩
    · split
      · exact ⟨.ok none, r, t :: rest, rfl, List.Subset.refl _, h, rfl, nofun⟩
      · simp only [hcounted, hpass, ok_bind]
        refine ⟨.ok (some t.segment), r.pass t.header, rest, rfl, List.subset_cons_self t rest,
          hbehind, rfl, fun s hs => ⟨t, List.mem_cons_self, ?_⟩⟩
        exact Option.some.inj (Except.ok.inj hs)

theorem hasRoom (hintact : ∀ t ∈ tiles, t.Intact elemSize)
    (hroom : ∀ t ∈ tiles, t.segment.HasRoom elemSize) (hsource : r.source.size < wordLimit)
    (h : Before elemSize tiles r) : CheckedSupplier.HasRoom elemSize r := by
  refine .of_invariant (fun r => r.source.size < wordLimit ∧
    ∃ left ⊆ tiles, Before elemSize left r) ?_ ⟨hsource, tiles, List.Subset.refl _, h⟩
  rintro r elem ⟨hsource, left, hleft, hbefore⟩
  obtain ⟨answer, after, left', hanswer, hsubset, hafter, hsame, hfrom⟩ :=
    hbefore.exists_supplyChecked (fun t ht => hintact t (hleft ht))
      (fun t ht => hroom t (hleft ht)) hsource elem
  have hsupply : CheckedSupplier.supplyChecked r elem = .ok (answer.mapError .tile, after) := by
    show (r.supplyChecked elem).map _ = _
    rw [hanswer]
    rfl
  refine ⟨_, hsupply, ⟨hsame ▸ hsource, left', List.Subset.trans hsubset hleft, hafter⟩, fun s hs => ?_⟩
  cases answer with
  | error e => cases hs
  | ok supplied =>
    obtain ⟨t, ht, rfl⟩ := hfrom s (congrArg Except.ok (Except.ok.inj hs))
    exact hroom t (hleft ht)

end Walk

end Tile

/-! ## §3 Assembly -/

/-- **Tiles read back**: tiles in storage order, written one behind the other and decoding to bytes
of a storage, are assembled into what a copy out of the storage gives, provided that each selected
element lies in one of them; otherwise the least one that does not is reported. A machine can only
give up where a number of the plan, or a position in the data, has no place in a word, or a buffer
would be too large. -/
theorem Assembly.tiles_read_back (shape : Shape) (selection : Selection) (elemSize : Nat)
    (storage : Bytes) (tiles : List Tile) (source : Source) (offset : Nat) (hsize : 0 < elemSize)
    (hfits : selection.Fits shape)
    (hordered : tiles.Pairwise (·.segment.first ≤ ·.segment.first))
    (hintact : ∀ t ∈ tiles, t.Intact elemSize)
    (hholds : ∀ t ∈ tiles, t.segment.Holds elemSize storage) (hsteady : source.NeverFails)
    (hbytes : source.bytes.drop offset = Tile.writeAll tiles) :
    ∃ plan a, (Plan.makeChecked shape elemSize selection 0).Gives
        (selection.HasRoom shape elemSize 0) (· = .ok plan) ∧
      (startChecked shape elemSize selection ({ source, elemSize, offset } : Tile.Walk)).Gives
        (selection.HasRoom shape elemSize 0) (· = .ok a) ∧
      a.Agrees plan storage (selection.elems shape) (tiles.map Tile.segment)
        (shape.size * elemSize < wordLimit ∧ selection.size * elemSize < bufferLimit ∧
          storage.length < wordLimit ∧ source.size < wordLimit) := by
  have hsegments : ∀ s ∈ tiles.map Tile.segment, s.Holds elemSize storage := by
    intro s hs
    obtain ⟨t, ht, rfl⟩ := List.mem_map.mp hs
    exact hholds t ht
  refine agrees_of_inside (Tile.Walk.knows hordered hintact)
    (Tile.Walk.ahead_start hsteady hbytes 0) hsize hfits ?inside hsegments
    fun ⟨hshape, hbuffer, hstorage, hsource⟩ => ⟨⟨hshape, ?room⟩, hbuffer⟩
  case inside =>
    -- an element of a tile lies inside the storage, as the bytes of the tile are taken from there
    intro hheld e he
    obtain ⟨s, hs, hcontains⟩ := hheld e he
    exact (hsegments s hs).inside hsize hcontains
  case room =>
    refine Tile.Walk.hasRoom hintact (fun t ht => ?_) hsource ⟨hsteady, rfl, hbytes⟩
    exact (hholds t ht).hasRoom hsize hstorage t.first.toNat_lt

/-- Three elements as they are, an empty tile, a gap, and two elements as literals of an LZ4 block. -/
def Tile.samples : List Tile :=
  [⟨0, 3, .none, [0, 1, 2, 3, 4, 5], [0, 1, 2, 3, 4, 5]⟩, ⟨3, 0, .none, [], []⟩,
    ⟨4, 2, .lz4, [8, 9, 10, 11], [0x40, 8, 9, 10, 11]⟩]

theorem Tile.intact_of_mem_samples : ∀ t ∈ samples, t.Intact 2 := by
  simp only [samples, List.forall_mem_cons]
  refine ⟨.of_plain rfl rfl rfl (by decide), .of_plain rfl rfl rfl (by decide), ?_, by simp⟩
  exact ⟨rfl, by decide, by decide, by decide +kernel⟩

/-- The last two columns of a small array, from tiles that begin behind other bytes. -/
theorem Assembly.tiles_read_back_columns :
    (0 < 2 ∧ (⟨[⟨0, 1, 2⟩, ⟨1, 1, 2⟩]⟩ : Selection).Fits ⟨[2, 3]⟩ ∧
      Tile.samples.Pairwise (·.segment.first ≤ ·.segment.first) ∧
      (∀ t ∈ Tile.samples, t.Intact 2) ∧
      (∀ t ∈ Tile.samples, t.segment.Holds 2 [0, 1, 2, 3, 4, 5, 6, 7, 8, 9, 10, 11]) ∧
      (Source.ofBytes ([7, 7, 7] ++ Tile.writeAll Tile.samples)).NeverFails ∧
      (Source.ofBytes ([7, 7, 7] ++ Tile.writeAll Tile.samples)).bytes.drop 3 =
        Tile.writeAll Tile.samples) ∧
      ∃ plan a, Plan.makeChecked ⟨[2, 3]⟩ 2 ⟨[⟨0, 1, 2⟩, ⟨1, 1, 2⟩]⟩ 0 = .ok (.ok plan) ∧
        startChecked ⟨[2, 3]⟩ 2 ⟨[⟨0, 1, 2⟩, ⟨1, 1, 2⟩]⟩
          (⟨.ofBytes ([7, 7, 7] ++ Tile.writeAll Tile.samples), 2, 3⟩ : Tile.Walk) = .ok (.ok a) ∧
        ∃ bytes, a.runChecked = .ok (.ok bytes) ∧
          plan.copyChecked [0, 1, 2, 3, 4, 5, 6, 7, 8, 9, 10, 11] = .ok (.ok bytes) := by
  have hordered : Tile.samples.Pairwise (·.segment.first ≤ ·.segment.first) := by decide
  have hholds : ∀ t ∈ Tile.samples,
      t.segment.Holds 2 [0, 1, 2, 3, 4, 5, 6, 7, 8, 9, 10, 11] := by decide
  have hbytes : ([7, 7, 7] ++ Tile.writeAll Tile.samples).drop 3 = Tile.writeAll Tile.samples :=
    List.drop_left' rfl
  obtain ⟨plan, a, hplan, hstart, hagrees⟩ := tiles_read_back ⟨[2, 3]⟩
    ⟨[⟨0, 1, 2⟩, ⟨1, 1, 2⟩]⟩ 2 _ _ (.ofBytes ([7, 7, 7] ++ Tile.writeAll Tile.samples)) 3
    (by decide) (by decide) hordered Tile.intact_of_mem_samples hholds rfl hbytes
  obtain ⟨bytes, hcopy, hrun⟩ := hagrees.copies (by decide)
  have hwide : (⟨[2, 3]⟩ : Shape).size * 2 < wordLimit ∧
      (⟨[⟨0, 1, 2⟩, ⟨1, 1, 2⟩]⟩ : Selection).size * 2 < bufferLimit ∧
      ([0, 1, 2, 3, 4, 5, 6, 7, 8, 9, 10, 11] : Bytes).length < wordLimit ∧
      (Source.ofBytes ([7, 7, 7] ++ Tile.writeAll Tile.samples)).size < wordLimit := by
    decide
  exact ⟨⟨by decide, by decide, hordered, Tile.intact_of_mem_samples, hholds, rfl, hbytes⟩, plan, a,
    hplan.eq_ok (by decide), hstart.eq_ok (by decide), bytes, hrun.eq_ok hwide, hcopy.eq_ok hwide⟩

end Granule
