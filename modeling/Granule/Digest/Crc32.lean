import Granule.Bytes

/-!
# CRC-32

The cyclic redundancy check of the reflected polynomial `0xEDB88320`, with all
bits set at the start and complemented at the end.
-/

namespace Granule.Crc32

/-- The polynomial, least significant term first. -/
def polynomial : UInt32 := 0xEDB88320

def step (crc : UInt32) : UInt32 :=
  if crc &&& 1 = 1 then (crc >>> 1) ^^^ polynomial else crc >>> 1

def feedByte (crc : UInt32) (b : UInt8) : UInt32 :=
  Nat.repeat step 8 (crc ^^^ b.toUInt32)

def feed (crc : UInt32) (bs : Bytes) : UInt32 := bs.foldl feedByte crc

def ofBytes (bs : Bytes) : UInt32 := ~~~feed 0xFFFFFFFF bs

end Granule.Crc32
