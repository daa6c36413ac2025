import Granule.Proofs.Tile.Header

/-!
# The Bytes of a Tile Header

A header is thirty-two bytes long, and three of them tell nothing. A byte string
starts with a header when it is as long, starts with the letters of a tile and
names a filter that is known; what is read from it is written as the same bytes,
but for those three, which are written as zeros.

Of several reasons to refuse a byte string the first one met counts: the letters
come before the sixteen bytes that name the filter, and those before the sizes.

**Main statements**:
- `Tile.Header.read_eq` : what is read, or why nothing is, by the bytes alone
- `Tile.Header.write_ofFields` : the fields of a byte string are written as its front
- `Tile.Header.read_inverts_write` : reading and writing are inverse
-/

namespace Granule.Tile.Header

/-! ## §1 Stretches and their numbers -/

/-- A number in a stretch lies as far behind the start of the stretch. -/
theorem numberAt_between (bs : Bytes) {start stop offset width : Nat}
    (h : start + offset + width ≤ stop) :
    numberAt (bs.between start stop) offset width = numberAt bs (start + offset) width := by
  rw [numberAt, Bytes.between, List.drop_take, List.drop_drop, List.take_take,
    Nat.min_eq_left (by omega)]
  rfl

theorem numberAt_lt {bs : Bytes} {start width : Nat} (h : start + width ≤ bs.length) :
    numberAt bs start width < 256 ^ width := by
  have hlt := Bytes.toNatLE_lt ((bs.drop start).take width)
  rwa [List.length_take, List.length_drop, Nat.min_eq_left (by omega)] at hlt

/-- A number is written as the bytes that it was read from. -/
theorem ofNatLE_numberAt {bs : Bytes} {start width : Nat} (h : start + width ≤ bs.length) :
    Bytes.ofNatLE width (numberAt bs start width) = bs.between start (start + width) := by
  have hlen := Bytes.length_between start h
  have hback := Bytes.ofNatLE_toNatLE (bs.between start (start + width))
  rw [Nat.add_sub_cancel_left] at hlen
  rw [hlen, Bytes.between, Nat.add_sub_cancel_left] at hback
  rw [numberAt, hback, Bytes.between, Nat.add_sub_cancel_left]

/-! ## §2 Why a byte string is refused -/

/-- Why a byte string does not start with a header, if it does not. The first reason counts. -/
def refusal (b : Bytes) : Option Tile.Error :=
  if b.length < 4 then some (.io .endOfData)
  else if b.take 4 ≠ magic then some (.notATile (UInt32.ofNat (Bytes.toNatLE (b.take 4))))
  else if b.length < 20 then some (.io .endOfData)
  else if 4 < (b.getD 16 0).toNat then some (.filter (.unknown (b.getD 16 0)))
  else if b.length < size then some (.io .endOfData)
  else none

/-- The fields in the first thirty-two bytes. -/
def ofFields (b : Bytes) : Tile.Header where
  first := UInt64.ofNat (numberAt b 4 8)
  count := UInt32.ofNat (numberAt b 12 4)
  filter := (Filter.ofId? (b.getD 16 0)).getD .none
  decodedLength := UInt32.ofNat (numberAt b 20 4)
  payloadLength := UInt32.ofNat (numberAt b 24 4)
  checksum := UInt32.ofNat (numberAt b 28 4)

/-- **Reading by the bytes alone.** A source that never fails gives the fields of the bytes at the
position, or the first reason to refuse them. -/
theorem read_eq {source : Source} (hsteady : source.NeverFails) (pos : Nat) :
    read source pos =
      match refusal (source.bytes.drop pos) with
      | some e => .error e
      | none => .ok (ofFields (source.bytes.drop pos)) := by
  have hletters := Source.readExact_rest hsteady pos 0 (n := 4) (by decide)
  have hrun := Source.readExact_rest hsteady pos 4 (n := 16) (by decide)
  have hsizes := Source.readExact_rest hsteady pos 20 (n := 12) (by decide)
  generalize source.bytes.drop pos = b at hletters hrun hsizes ⊢
  have hfront : Bytes.between b 0 4 = b.take 4 := rfl
  have hid : (Bytes.between b 4 20).getD 12 0 = b.getD 16 0 := by
    rw [Bytes.between, List.getD_eq_getElem?_getD, List.getElem?_take_of_lt (by decide),
      List.getElem?_drop, ← List.getD_eq_getElem?_getD]
  have hrunNumber : ∀ offset width, 4 + offset + width ≤ 20 →
      numberAt (Bytes.between b 4 20) offset width = numberAt b (4 + offset) width :=
    fun _ _ => numberAt_between b
  have hsizesNumber : ∀ offset width, 20 + offset + width ≤ 32 →
      numberAt (Bytes.between b 20 32) offset width = numberAt b (20 + offset) width :=
    fun _ _ => numberAt_between b
  simp only [Nat.reduceAdd, Nat.add_zero] at hletters hrun hsizes
  rw [refusal, show size = 32 from rfl]
  simp only [read, hletters, hrun, hsizes, bind, Except.bind, pure, Except.pure]
  -- the reader and the refusal make the same tests, in the same order
  by_cases hfour : b.length < 4
  · simp only [if_pos hfour, if_neg (Nat.not_le.mpr hfour), mapError_error]
  simp only [if_neg hfour, if_pos (Nat.not_lt.mp hfour), mapError_ok, hfront]
  by_cases hmagic : b.take 4 = magic
  case neg => simp only [if_pos hmagic, throw, throwThe, MonadExceptOf.throw]
  simp only [hmagic, ne_eq, not_true_eq_false, if_false]
  by_cases htwenty : b.length < 20
  · simp only [if_pos htwenty, if_neg (Nat.not_le.mpr htwenty), mapError_error]
  simp only [if_neg htwenty, if_pos (Nat.not_lt.mp htwenty), mapError_ok, hid]
  have hknown := Filter.ofId?_eq_none_iff (b.getD 16 0)
  cases hfilter : Filter.ofId? (b.getD 16 0) with
  | none => simp only [if_pos (hknown.mp hfilter), throw, throwThe, MonadExceptOf.throw]
  | some filter =>
    have hsmall : ¬ 4 < (b.getD 16 0).toNat := by
      intro hlarge
      rw [hknown.mpr hlarge] at hfilter
      cases hfilter
    simp only [if_neg hsmall]
    by_cases hlong : b.length < 32
    · simp only [if_pos hlong, if_neg (Nat.not_le.mpr hlong), mapError_error]
    · simp only [if_neg hlong, if_pos (Nat.not_lt.mp hlong), mapError_ok, ofFields, hfilter,
        Option.getD_some, hrunNumber, hsizesNumber, Nat.reduceAdd, Nat.reduceLeDiff]

/-! ## §3 What is written back -/

/-- Nothing speaks against a byte string that is long enough, starts with the letters and names a
filter that is known. -/
theorem refusal_eq_none_iff (b : Bytes) :
    refusal b = none ↔ size ≤ b.length ∧ magic <+: b ∧ (b.getD 16 0).toNat ≤ 4 := by
  have hletters : magic <+: b ↔ b.take 4 = magic := List.prefix_iff_eq_take.trans eq_comm
  rw [refusal, hletters, show size = 32 from rfl]
  constructor
  · intro h
    split_ifs at h with hfour hmagic htwenty hfilter hlong
    exact ⟨Nat.not_lt.mp hlong, not_not.mp hmagic, Nat.not_lt.mp hfilter⟩
  · rintro ⟨hlong, hmagic, hfilter⟩
    rw [if_neg (by omega), if_neg (not_not.mpr hmagic), if_neg (by omega),
      if_neg (Nat.not_lt.mpr hfilter), if_neg (by omega)]

/-- The first thirty-two bytes, with zeros for those that tell nothing. -/
def cleared (b : Bytes) : Bytes := b.take 17 ++ [0, 0, 0] ++ b.between 20 32

/-- A filter that is known is written as the byte that names it. -/
theorem id_ofFields {b : Bytes} (hsmall : (b.getD 16 0).toNat ≤ 4) :
    (ofFields b).filter.id = b.getD 16 0 := by
  show ((Filter.ofId? (b.getD 16 0)).getD .none).id = b.getD 16 0
  cases hknown : Filter.ofId? (b.getD 16 0) with
  | none => exact absurd ((Filter.ofId?_eq_none_iff _).mp hknown) (Nat.not_lt.mpr hsmall)
  | some filter => exact Filter.id_of_ofId? hknown

/-- **Writing what was read.** The fields of a byte string are written as its front. -/
theorem write_ofFields {b : Bytes} (h : refusal b = none) : (ofFields b).write = cleared b := by
  obtain ⟨hlong, hmagic, hsmall⟩ := (refusal_eq_none_iff b).mp h
  rw [show size = 32 from rfl] at hlong
  -- every number fits the word that it is kept in
  have hword : ∀ start, start + 4 ≤ b.length →
      Bytes.ofNatLE 4 (UInt32.ofNat (numberAt b start 4)).toNat = b.between start (start + 4) := by
    intro start hstart
    rw [UInt32.toNat_ofNat_of_lt' (numberAt_lt hstart), ofNatLE_numberAt hstart]
  have hfirst : Bytes.ofNatLE 8 (UInt64.ofNat (numberAt b 4 8)).toNat = b.between 4 12 := by
    have hstart : 4 + 8 ≤ b.length := by omega
    rw [UInt64.toNat_ofNat_of_lt' (numberAt_lt hstart), ofNatLE_numberAt hstart]
  have hfilter := id_ofFields hsmall
  have hid : b.between 16 17 = [b.getD 16 0] := by
    have hlt : 16 < b.length := by omega
    rw [Bytes.between, List.drop_eq_getElem_cons hlt, ← List.getElem_eq_getD (h := hlt)]
    rfl
  -- the stretches between the fields are the front of the string
  have hletters : magic = b.between 0 4 := List.prefix_iff_eq_take.mp hmagic
  have hfront : magic ++ b.between 4 12 ++ b.between 12 16 ++ b.between 16 17 = b.take 17 := by
    rw [hletters, Bytes.between_append_between b (by decide) (by decide),
      Bytes.between_append_between b (by decide) (by decide),
      Bytes.between_append_between b (by decide) (by decide)]
    rfl
  have hback : b.between 20 24 ++ b.between 24 28 ++ b.between 28 32 = b.between 20 32 := by
    rw [Bytes.between_append_between b (by decide) (by decide),
      Bytes.between_append_between b (by decide) (by decide)]
  have hzeros : [b.getD 16 0, 0, 0, 0] = b.between 16 17 ++ [0, 0, 0] := by
    rw [hid, List.singleton_append]
  rw [cleared, ← hfront, ← hback, write, hfilter]
  simp only [ofFields, hfirst, hword 12 (by omega), hword 20 (by omega), hword 24 (by omega),
    hword 28 (by omega), hzeros, List.append_assoc]

/-! ## §4 Reading and writing -/

/-- What reading at the start of a byte string has to do with writing. -/
structure Inverts (b : Bytes) (answer : Except Tile.Error Tile.Header) : Prop where
  /-- A header that was written is read back, whatever comes behind it. -/
  written : ∀ (h : Tile.Header) (after : Bytes), b = h.write ++ after → answer = .ok h
  /-- A header is read exactly where the string is long enough, has the letters and a known filter.
  -/
  accepted_iff : (∃ h, answer = .ok h) ↔
    size ≤ b.length ∧ magic <+: b ∧ (b.getD 16 0).toNat ≤ 4
  /-- It is written as the bytes that it was read from, with zeros for those that tell nothing. -/
  rewritten : ∀ h, answer = .ok h → h.write = cleared b
  /-- Everything else is refused, for the first reason that there is. -/
  refused_iff : ∀ e, answer = .error e ↔ refusal b = some e

/-- **Reading and writing are inverse.** In a source that never fails, a header takes thirty-two
bytes, what was written is read back, and what is read is written as it stood, but for the bytes
that tell nothing; every other byte string is refused for the first reason that there is. -/
theorem read_inverts_write {source : Source} (hsteady : source.NeverFails) (pos : Nat) :
    (∀ h : Tile.Header, h.write.length = 32) ∧
      Inverts (source.bytes.drop pos) (read source pos) := by
  have hread := read_eq hsteady pos
  -- a header is read exactly where nothing refuses it
  have hrefused : ∀ e, read source pos = .error e ↔ refusal (source.bytes.drop pos) = some e := by
    intro e
    rw [hread]
    cases refusal (source.bytes.drop pos) <;> simp
  have haccepted : ∀ h, read source pos = .ok h ↔
      refusal (source.bytes.drop pos) = none ∧ ofFields (source.bytes.drop pos) = h := by
    intro h
    rw [hread]
    cases refusal (source.bytes.drop pos) <;> simp
  refine ⟨length_write, ?written, ?accepted, ?rewritten, hrefused⟩
  case written =>
    intro h after hbytes
    exact read_of_hasAt hsteady ⟨after, hbytes.symm⟩
  case accepted =>
    rw [← refusal_eq_none_iff]
    constructor
    · rintro ⟨h, hh⟩
      exact ((haccepted h).mp hh).1
    · intro hnone
      exact ⟨_, (haccepted _).mpr ⟨hnone, rfl⟩⟩
  case rewritten =>
    intro h hh
    obtain ⟨hnone, rfl⟩ := (haccepted h).mp hh
    exact write_ofFields hnone

/-- A header behind one byte, with something in the bytes that tell nothing, from a device that
hands over one byte at a time; behind its first letter there is no tile, and too little is left of
its end. -/
theorem read_inverts_write_sample :
    let source : Source :=
      { data := #[9, 0x54, 0x49, 0x4c, 0x45, 1, 0, 0, 0, 0, 0, 0, 0x80, 2, 0, 0, 0, 4, 7, 8, 9,
          16, 0, 0, 0, 3, 0, 0, 0, 1, 2, 3, 0xff]
        burst := fun _ => 0
        stalls := fun _ => 2 }
    source.NeverFails ∧
      (∃ h, read source 1 = .ok h ∧ h.write =
        [0x54, 0x49, 0x4c, 0x45, 1, 0, 0, 0, 0, 0, 0, 0x80, 2, 0, 0, 0, 4, 0, 0, 0,
          16, 0, 0, 0, 3, 0, 0, 0, 1, 2, 3, 0xff]) ∧
      read source 2 = .error (.notATile 0x01454c49) ∧ read source 30 = .error (.io .endOfData) := by
  intro source
  have hsteady : source.NeverFails := rfl
  obtain ⟨-, htile⟩ := read_inverts_write hsteady 1
  obtain ⟨-, hletters⟩ := read_inverts_write hsteady 2
  obtain ⟨-, hend⟩ := read_inverts_write hsteady 30
  obtain ⟨h, hread⟩ := htile.accepted_iff.mpr (by decide +kernel)
  refine ⟨hsteady, ⟨h, hread, htile.rewritten h hread⟩, ?_, ?_⟩
  · exact (hletters.refused_iff _).mpr (by decide +kernel)
  · exact (hend.refused_iff _).mpr (by decide +kernel)

end Granule.Tile.Header
