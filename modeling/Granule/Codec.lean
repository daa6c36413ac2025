import Granule.Codec.Brotli
import Granule.Codec.Lz4
import Granule.Codec.Lzma
import Granule.Codec.Zstd.Frame

/-!
# Decoding Payloads

Every filter decodes a payload, or says why it does not decode. A filter that
needs a bound on its output takes the length that is expected; whether the
length is met is for the caller to check.

**Main statement**: `Filter.decode_none` — without a filter the payload is what
it decodes to.
-/

namespace Granule.Filter

/-- What a payload decodes to. -/
def run (f : Filter) (payload : Bytes) (expected : Nat) : Except CodecFault Bytes :=
  match f with
  | .none => .ok payload
  | .zstd => Zstd.decode payload
  | .lz4 => Lz4.decode payload expected
  | .brotli => Brotli.decode payload
  | .lzma => Lzma.decode payload

/-- Decodes a payload of which `expected` decoded bytes are expected. -/
def decode (f : Filter) (payload : Bytes) (expected : Nat) : Except FilterFault Bytes :=
  match f.run payload expected with
  | .ok decoded => .ok decoded
  | .error fault => .error (.decode f fault)

/-- Without a filter the payload is what it decodes to. -/
theorem decode_none (payload : Bytes) (expected : Nat) :
    Filter.none.decode payload expected = .ok payload := rfl

end Granule.Filter
