/-!
# Payload Filters

The compression methods that a stored payload may have gone through, each with
the number that names it on disk. Numbers are permanent: none is ever reused.

**Main statements**:
- `Filter.ofId?_id` : a filter is found under its own number
- `Filter.id_of_ofId?` : and a number that is found belongs to the filter found
-/

namespace Granule

/-! ## §1 Filters and their numbers -/

/-- How a payload was compressed. -/
inductive Filter where
  /-- Not at all. -/
  | none
  /-- As Zstandard frames. -/
  | zstd
  /-- As one raw LZ4 block. -/
  | lz4
  /-- As a Brotli stream. -/
  | brotli
  /-- As an LZMA stream with its own header. -/
  | lzma
deriving DecidableEq, Repr

namespace Filter

/-- The number of a filter on disk. -/
def id : Filter → UInt8
  | .none => 0
  | .zstd => 1
  | .lz4 => 2
  | .brotli => 3
  | .lzma => 4

/-- The filter of a number on disk, if the number is known. -/
def ofId? (id : UInt8) : Option Filter :=
  match id.toNat with
  | 0 => some .none
  | 1 => some .zstd
  | 2 => some .lz4
  | 3 => some .brotli
  | 4 => some .lzma
  | _ => Option.none

/-- The name of a filter. -/
def name : Filter → String
  | .none => "none"
  | .zstd => "zstd"
  | .lz4 => "lz4"
  | .brotli => "brotli"
  | .lzma => "lzma"

/-- A filter is found under its own number. -/
theorem ofId?_id (f : Filter) : ofId? f.id = some f := by
  cases f <;> rfl

/-- A number that is found belongs to the filter that was found. -/
theorem id_of_ofId? {n : UInt8} {f : Filter} (h : ofId? n = some f) : f.id = n := by
  unfold ofId? at h
  apply UInt8.toNat_inj.mp
  split at h <;> cases h <;> simp [id, *]

/-- No filter has a number above four. -/
theorem ofId?_eq_none_iff (id : UInt8) : ofId? id = Option.none ↔ 4 < id.toNat := by
  unfold ofId?
  split
  case h_6 => simp_all; omega
  all_goals simp_all

end Filter

/-! ## §2 Failures -/

/-- Why a payload does not decode. -/
inductive CodecFault where
  /-- The payload ends before its data does. -/
  | truncated
  /-- A part of the payload breaks the rules of its format. -/
  | malformed (part : String)
  /-- The payload decodes to more bytes than there may be. -/
  | tooLong (limit : Nat)
  /-- A checksum inside the payload does not fit the decoded bytes. -/
  | checksum
deriving DecidableEq, Repr

/-- The text of a decoding fault. -/
def CodecFault.message : CodecFault → String
  | .truncated => "truncated input"
  | .malformed part => s!"malformed {part}"
  | .tooLong limit => s!"output exceeds {limit} bytes"
  | .checksum => "content checksum mismatch"

/-- Why a filter could not be applied. -/
inductive FilterFault where
  /-- The payload does not decode. -/
  | decode (filter : Filter) (fault : CodecFault)
  /-- No filter has this number. -/
  | unknown (id : UInt8)
deriving DecidableEq, Repr

def FilterFault.message : FilterFault → String
  | .decode filter fault => s!"{filter.name} decode error: {fault.message}"
  | .unknown id => s!"Unknown filter id {id.toNat}"

end Granule
