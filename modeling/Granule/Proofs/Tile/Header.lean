import Granule.Proofs.Source.Steady
import Granule.Tile.Header

/-!
# Tile Headers Read Back

A header that was written is read back as it was, wherever it lies in a source
that never fails. A payload that decodes also decodes under the header that was
made for it, because the checksum was taken of this very payload.

**Main statements**:
- `Tile.Header.read_of_hasAt` : a written header is read back
- `Tile.Header.decode_ofPayload` : a header fits the payload that it was made for
-/

namespace Granule.Tile.Header

/-! ## §1 Numbers in headers -/

/-- A number that was written behind some bytes is read behind them. -/
theorem numberAt_append (before after : Bytes) {start width n : Nat}
    (hstart : before.length = start) (hn : n < 256 ^ width) :
    numberAt (before ++ (Bytes.ofNatLE width n ++ after)) start width = n := by
  have hdrop : (before ++ (Bytes.ofNatLE width n ++ after)).drop start =
      Bytes.ofNatLE width n ++ after := by
    rw [← hstart, List.drop_left]
  have htake : (Bytes.ofNatLE width n ++ after).take width = Bytes.ofNatLE width n :=
    List.take_left' (Bytes.length_ofNatLE width n)
  rw [numberAt, hdrop, htake, Bytes.toNatLE_ofNatLE, Nat.mod_eq_of_lt hn]

/-! ## §2 Headers -/

/-- The sixteen bytes behind the letters: the elements, and the filter among zeros. -/
def run (h : Tile.Header) : Bytes :=
  Bytes.ofNatLE 8 h.first.toNat ++ (Bytes.ofNatLE 4 h.count.toNat ++ [h.filter.id, 0, 0, 0])

def sizes (h : Tile.Header) : Bytes :=
  Bytes.ofNatLE 4 h.decodedLength.toNat ++
    (Bytes.ofNatLE 4 h.payloadLength.toNat ++ Bytes.ofNatLE 4 h.checksum.toNat)

theorem write_eq (h : Tile.Header) : h.write = magic ++ (h.run ++ h.sizes) := by
  simp only [write, run, sizes, List.append_assoc]

/-- **Reading back.** A header that was written is read where it lies. -/
theorem read_of_hasAt {source : Source} (hsteady : source.NeverFails) {pos : Nat}
    {h : Tile.Header} (hat : source.bytes.HasAt pos h.write) : read source pos = .ok h := by
  rw [write_eq, Bytes.hasAt_append, Bytes.hasAt_append] at hat
  obtain ⟨hmagic, hrun, hsizes⟩ := hat
  have hlenRun : h.run.length = 16 := by simp [run]
  have hlenSizes : h.sizes.length = 12 := by simp [sizes]
  have hletters : source.readExact pos 4 = .ok magic := Source.readExact_of_hasAt hsteady hmagic rfl
  have hmiddle : source.readExact (pos + 4) 16 = .ok h.run :=
    Source.readExact_of_hasAt hsteady hrun hlenRun
  have hlast : source.readExact (pos + 20) 12 = .ok h.sizes := by
    rw [hlenRun] at hsizes
    exact Source.readExact_of_hasAt hsteady hsizes hlenSizes
  have hfilter : h.run.getD 12 0 = h.filter.id := by
    simp [run, Bytes.ofNatLE]
  -- every number fits the bytes that it was written to
  have hfirst : numberAt h.run 0 8 = h.first.toNat :=
    numberAt_append [] _ rfl h.first.toNat_lt
  have hcount : numberAt h.run 8 4 = h.count.toNat :=
    numberAt_append _ _ (Bytes.length_ofNatLE _ _) h.count.toNat_lt
  have hdecoded : numberAt h.sizes 0 4 = h.decodedLength.toNat :=
    numberAt_append [] _ rfl h.decodedLength.toNat_lt
  have hpayload : numberAt h.sizes 4 4 = h.payloadLength.toNat :=
    numberAt_append _ _ (Bytes.length_ofNatLE _ _) h.payloadLength.toNat_lt
  have hchecksum : numberAt h.sizes 8 4 = h.checksum.toNat := by
    have hparts : h.sizes = (Bytes.ofNatLE 4 h.decodedLength.toNat ++
        Bytes.ofNatLE 4 h.payloadLength.toNat) ++ (Bytes.ofNatLE 4 h.checksum.toNat ++ []) := by
      simp only [sizes, List.append_assoc, List.append_nil]
    rw [hparts]
    exact numberAt_append _ _ (by simp) h.checksum.toNat_lt
  simp only [read, hletters, hmiddle, mapError_ok, bind, Except.bind, pure, Except.pure,
    ne_eq, not_true_eq_false, if_false, hfilter, Filter.ofId?_id, hlast, hfirst, hcount, hdecoded,
    hpayload, hchecksum, UInt64.ofNat_toNat, UInt32.ofNat_toNat]

/-! ## §3 Payloads -/

/-- A header fits the payload that it was made for. -/
theorem decode_ofPayload {first : UInt64} {count : UInt32} {filter : Filter} {payload raw : Bytes}
    (hlen : raw.length < 2 ^ 32) (hraw : filter.decode payload raw.length = .ok raw) :
    (ofPayload first count filter (UInt32.ofNat raw.length) payload).decode payload = .ok raw := by
  have hlength : (UInt32.ofNat raw.length).toNat = raw.length := UInt32.toNat_ofNat_of_lt' hlen
  have hsame : ¬ Crc32.ofBytes payload ≠ Crc32.ofBytes payload := fun h => h rfl
  rw [decode, ofPayload, if_neg hsame]
  simp only [hlength, hraw, if_true]

end Granule.Tile.Header
