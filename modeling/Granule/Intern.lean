import Granule.Digest.Blake3

/-!
# Interned Byte Strings

A typed byte string that recurs in many records is kept once. The table is
searched by a fingerprint, the BLAKE3 digest of the kind followed by the bytes,
and an entry is never replaced or removed: its place in the table names it for
good.

**Main statements**:
- `InternTable.find?_intern` : what was interned is found under its fingerprint
- `InternTable.entries_intern` : interning only ever adds an entry at the end
-/

namespace Granule

/-! ## §1 Typed byte strings and fingerprints -/

/-- Tells the parts of a record apart; each format gives kinds a meaning of its own. -/
abbrev Kind := UInt8

/-- A typed byte string. -/
structure TypedBytes where
  kind : Kind
  data : Bytes
deriving DecidableEq, Repr

/-- A digest that stands for a typed byte string. -/
abbrev Fingerprint := Bytes

namespace TypedBytes

/-- The one byte string that stands for kind and bytes. -/
def canonical (s : TypedBytes) : Bytes := s.kind :: s.data

def fingerprint (s : TypedBytes) : Fingerprint := Blake3.digest s.canonical

/-- Different typed byte strings have different canonical byte strings. -/
theorem canonical_inj {s t : TypedBytes} (h : s.canonical = t.canonical) : s = t := by
  cases s
  cases t
  simp only [canonical, List.cons.injEq] at h
  simp [h]

end TypedBytes

/-- The short text of a fingerprint: its first eight bytes. -/
def Fingerprint.label (key : Fingerprint) : String :=
  "DedupKey(" ++ Bytes.toHex (key.take 8) ++ ")"

/-! ## §2 The table -/

/-- A typed byte string with its fingerprint. -/
structure InternEntry where
  key : Fingerprint
  content : TypedBytes
deriving DecidableEq, Repr

/-- The distinct typed byte strings seen so far, in the order in which they came. -/
structure InternTable where
  entries : Array InternEntry := #[]
  /-- How often a typed byte string was already there. -/
  hits : Nat := 0
  /-- How often it was new. -/
  misses : Nat := 0
deriving DecidableEq, Repr

namespace InternTable

/-- The table before anything is interned. -/
def empty : InternTable := {}

def size (t : InternTable) : Nat := t.entries.size

def find? (t : InternTable) (key : Fingerprint) : Option Nat :=
  t.entries.findIdx? (·.key == key)

def content? (t : InternTable) (place : Nat) : Option TypedBytes :=
  (t.entries[place]?).map (·.content)

def add (t : InternTable) (key : Fingerprint) (s : TypedBytes) : InternTable :=
  { t with entries := t.entries.push ⟨key, s⟩, misses := t.misses + 1 }

/-- The place of the entry with the same fingerprint, which is added if it is new. -/
def intern (t : InternTable) (s : TypedBytes) : Nat × InternTable :=
  match t.find? s.fingerprint with
  | some place => (place, { t with hits := t.hits + 1 })
  | none => (t.size, t.add s.fingerprint s)

/-- Interning leaves the table alone or adds one entry at its end. -/
theorem entries_intern (t : InternTable) (s : TypedBytes) :
    (t.intern s).2.entries = t.entries ∨
      (t.intern s).2.entries = t.entries.push ⟨s.fingerprint, s⟩ := by
  unfold intern
  split
  · exact .inl rfl
  · exact .inr rfl

/-- What was interned is found under its fingerprint, at the place it was given. -/
theorem find?_intern (t : InternTable) (s : TypedBytes) :
    (t.intern s).2.find? s.fingerprint = some (t.intern s).1 := by
  unfold intern
  split
  · rename_i place h
    exact h
  · rename_i h
    have hnone : t.entries.findIdx? (·.key == s.fingerprint) = none := h
    simp [find?, add, size, Array.findIdx?_push, hnone]

/-- A place that was found stays the place of its fingerprint. -/
theorem find?_intern_of_find? {t : InternTable} {key : Fingerprint} {place : Nat}
    (s : TypedBytes) (h : t.find? key = some place) :
    (t.intern s).2.find? key = some place := by
  have hsome : t.entries.findIdx? (·.key == key) = some place := h
  rcases entries_intern t s with he | he
  · simp [find?, he, hsome]
  · simp [find?, he, Array.findIdx?_push, hsome]

end InternTable

end Granule
