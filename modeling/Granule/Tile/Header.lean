import Granule.Source
import Granule.Codec
import Granule.Digest.Crc32

/-!
# Tile Headers

A tile is a run of consecutive storage elements that is compressed as one unit:
a header of thirty-two bytes, then the payload. Header numbers are stored least
significant byte first.

| offset | bytes | holds |
|--------|-------|-------|
| 0  | 4 | the letters `TILE` |
| 4  | 8 | the first storage element |
| 12 | 4 | the number of elements |
| 16 | 1 | the number of the filter |
| 17 | 3 | zeros, which readers pass over |
| 20 | 4 | the decoded length |
| 24 | 4 | the payload length |
| 28 | 4 | the CRC-32 of the payload |

Where a tile stops is an exact number here; `Granule.Words.Walk` adds it up in a word.

**Main statements**:
- `Tile.Header.length_write` : a written header has thirty-two bytes
- `Tile.Header.read_le_size` : a header that was read lies inside the data
- `Tile.Header.length_decode` : a decoded payload has the length its header names
-/

namespace Granule

/-! ## §1 Failures -/

/-- Why a tile could not be read. -/
inductive Tile.Error where
  /-- The first four bytes are not those of a tile. -/
  | notATile (found : UInt32)
  /-- The payload is not the one that the checksum was taken of. -/
  | wrongChecksum (first : Nat)
  /-- The tile does not decode to the length it should have. -/
  | wrongSize (first expected actual : Nat)
  /-- The filter is unknown or refuses the payload. -/
  | filter (e : FilterFault)
  /-- The bytes could not be read. -/
  | io (e : IoError)
deriving DecidableEq, Repr

/-- The text of a tile failure. -/
def Tile.Error.message : Tile.Error → String
  | .notATile found =>
    s!"Invalid tile magic 0x{Bytes.toHex (Bytes.ofNatBE 4 found.toNat)}"
  | .wrongChecksum first => s!"Tile at element {first}: payload checksum mismatch"
  | .wrongSize first expected actual =>
    s!"Tile at element {first} decoded to {actual} bytes, expected {expected}"
  | .filter e => "Filter error: " ++ e.message
  | .io e => "IO error: " ++ e.message

/-! ## §2 Headers -/

/-- What the header of a tile says. -/
structure Tile.Header where
  /-- The first storage element. -/
  first : UInt64
  /-- How many elements there are. -/
  count : UInt32
  /-- How the payload was compressed. -/
  filter : Filter
  /-- The number of bytes that the payload decodes to. -/
  decodedLength : UInt32
  /-- The number of bytes of the payload. -/
  payloadLength : UInt32
  /-- The checksum of the payload. -/
  checksum : UInt32
deriving DecidableEq, Repr

namespace Tile.Header

def magic : Bytes := [0x54, 0x49, 0x4c, 0x45]

def size : Nat := 32

def stop (h : Tile.Header) : Nat := h.first.toNat + h.count.toNat

/-- The number of bytes from the start of a tile to the start of the next one. -/
def tileLength (h : Tile.Header) : Nat := size + h.payloadLength.toNat

/-- The header of a payload. -/
def ofPayload (first : UInt64) (count : UInt32) (filter : Filter) (decodedLength : UInt32)
    (payload : Bytes) : Tile.Header where
  first
  count
  filter
  decodedLength
  payloadLength := UInt32.ofNat payload.length
  checksum := Crc32.ofBytes payload

/-! ## §3 Writing -/

/-- The bytes of a header. -/
def write (h : Tile.Header) : Bytes :=
  magic
  ++ Bytes.ofNatLE 8 h.first.toNat
  ++ Bytes.ofNatLE 4 h.count.toNat
  ++ [h.filter.id, 0, 0, 0]
  ++ Bytes.ofNatLE 4 h.decodedLength.toNat
  ++ Bytes.ofNatLE 4 h.payloadLength.toNat
  ++ Bytes.ofNatLE 4 h.checksum.toNat

/-- A written header has thirty-two bytes. -/
theorem length_write (h : Tile.Header) : h.write.length = size := by
  simp [write, size, magic]

/-! ## §4 Reading -/

/-- The number in the `width` bytes from offset `start` on, least significant first. -/
def numberAt (bs : Bytes) (start width : Nat) : Nat :=
  Bytes.toNatLE ((bs.drop start).take width)

/-- The header in the bytes from offset `pos` on. The letters are checked before
the next sixteen bytes are read, and the filter before the last twelve are. -/
def read (source : Source) (pos : Nat) : Except Tile.Error Tile.Header := do
  let letters ← (source.readExact pos 4).mapError .io
  if letters ≠ magic then
    throw (.notATile (UInt32.ofNat letters.toNatLE))
  let run ← (source.readExact (pos + 4) 16).mapError .io
  let filterId := run.getD 12 0
  match Filter.ofId? filterId with
  | none => throw (.filter (.unknown filterId))
  | some filter =>
    let sizes ← (source.readExact (pos + 20) 12).mapError .io
    return {
      first := UInt64.ofNat (numberAt run 0 8)
      count := UInt32.ofNat (numberAt run 8 4)
      filter
      decodedLength := UInt32.ofNat (numberAt sizes 0 4)
      payloadLength := UInt32.ofNat (numberAt sizes 4 4)
      checksum := UInt32.ofNat (numberAt sizes 8 4) }

/-- A header that was read lies inside the data. -/
theorem read_le_size {source : Source} {pos : Nat} {h : Tile.Header}
    (hread : read source pos = .ok h) : pos + size ≤ source.size := by
  simp only [read, bind, Except.bind, pure, Except.pure] at hread
  cases hsizes : source.readExact (pos + 20) 12 with
  | ok sizes =>
    have := Source.readExact_le_size hsizes (by decide)
    simp only [size]
    omega
  | error e =>
    simp only [hsizes, mapError_error, throw, throwThe, MonadExceptOf.throw] at hread
    split at hread
    · cases hread
    · split at hread
      · cases hread
      · split at hread
        · cases hread
        · split at hread <;> cases hread

/-! ## §5 Decoding -/

/-- Checks a payload against its header and decodes it. -/
def decode (h : Tile.Header) (payload : Bytes) : Except Tile.Error Bytes :=
  if Crc32.ofBytes payload ≠ h.checksum then .error (.wrongChecksum h.first.toNat)
  else
    match h.filter.decode payload h.decodedLength.toNat with
    | .error e => .error (.filter e)
    | .ok raw =>
      if raw.length = h.decodedLength.toNat then .ok raw
      else .error (.wrongSize h.first.toNat h.decodedLength.toNat raw.length)

/-- A decoded payload has the length that its header names. -/
theorem length_decode {h : Tile.Header} {payload raw : Bytes}
    (hraw : h.decode payload = .ok raw) : raw.length = h.decodedLength.toNat := by
  unfold decode at hraw
  split at hraw
  · cases hraw
  · split at hraw
    · cases hraw
    · split at hraw
      · cases hraw; assumption
      · cases hraw

end Tile.Header

end Granule
