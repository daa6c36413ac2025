import Granule.Bytes

/-!
# Byte Sources

A source is a finite string of bytes that is read at offsets. A read may hand
over fewer bytes than were asked for, may be interrupted a number of times
first, and fails when it starts at or after a given offset. Reads carry their
offset, so a source has no position of its own.

**Main statements**:
- `Source.count_eq` : interruptions do not change what a read hands over
- `Source.read_le_size` : the bytes handed over lie inside the data
- `Source.length_readExact` : an exact read has exactly the length asked for
- `Source.readExact_le_size` : and lies inside the data
-/

namespace Granule

/-! ## §1 Failures -/

/-- Why an input or output operation failed. -/
inductive IoError where
  /-- The data ended before all bytes that were asked for. -/
  | endOfData
  /-- A stretch of storage starts at byte `pos` and runs past the last of `size` bytes. -/
  | pastStorage (pos size : Nat)
  /-- Storage of fixed size cannot take more bytes. -/
  | storageFull
  /-- There is no such file. -/
  | notFound
  /-- The device refused the read, with a text of its own. -/
  | refused (reason : String)
deriving DecidableEq, Repr

/-- The text of an input or output failure. -/
def IoError.message : IoError → String
  | .endOfData => "the data ends before the bytes asked for"
  | .pastStorage pos size => s!"chunk at byte {pos} runs past storage of {size} bytes"
  | .storageFull => "the storage is full"
  | .notFound => "there is no such file"
  | .refused reason => reason

@[simp] theorem mapError_ok {α ε ε' : Type} (f : ε → ε') (a : α) :
    (Except.ok a).mapError f = .ok a := rfl

@[simp] theorem mapError_error {α ε ε' : Type} (f : ε → ε') (e : ε) :
    (Except.error e : Except ε α).mapError f = .error (f e) := rfl

/-- The end of the data counts as no answer; every other failure stays one. -/
def noneAtEnd {α : Type} : Except IoError α → Except IoError (Option α)
  | .ok a => .ok (some a)
  | .error .endOfData => .ok none
  | .error e => .error e

theorem noneAtEnd_eq_some_iff {α : Type} {r : Except IoError α} {a : α} :
    noneAtEnd r = .ok (some a) ↔ r = .ok a := by
  cases r with
  | ok _ => simp [noneAtEnd]
  | error e => cases e <;> simp [noneAtEnd]

/-! ## §2 Sources -/

/-- Bytes to be read at offsets, with all that a device may do between. -/
structure Source where
  /-- The bytes. -/
  data : Array UInt8
  /-- A read of at least one byte that starts here or later fails. -/
  failsFrom : Option Nat := none
  /-- What such a read reports. -/
  fault : IoError := .refused "read refused"
  /-- How many bytes after the first a read at an offset may hand over. -/
  burst : Nat → Nat := fun _ => data.size
  /-- How often a read at an offset is interrupted before it answers. -/
  stalls : Nat → Nat := fun _ => 0

namespace Source

/-- A source that never fails and hands over all it is asked for. -/
def ofBytes (bs : Bytes) : Source where
  data := bs.toArray

def bytes (s : Source) : Bytes := s.data.toList

def size (s : Source) : Nat := s.data.size

/-- A read of at least one byte at this offset fails. -/
def failsAt (s : Source) (pos : Nat) : Bool :=
  match s.failsFrom with
  | none => false
  | some f => f ≤ pos

/-- Where readable bytes end: at the first failing offset or at the end of the data. -/
def readableEnd (s : Source) : Nat :=
  match s.failsFrom with
  | none => s.size
  | some f => min f s.size

/-! ## §3 One read -/

/-- What one call of the device answers. -/
inductive Answer where
  | interrupted
  /-- So many of the bytes asked for, from the first one on. -/
  | bytes (count : Nat)
  | failed (e : IoError)

/-- The answer to the call number `call`, for at most `want` bytes at `pos`. -/
def answer (s : Source) (pos want call : Nat) : Answer :=
  if call < s.stalls pos then .interrupted
  else if want = 0 then .bytes 0
  else if s.failsAt pos then .failed s.fault
  else .bytes (min want (min (s.burst pos + 1) (s.readableEnd - pos)))

/-- Calls the device again until it is no longer interrupted. -/
def countFrom (s : Source) (pos want call : Nat) : Except IoError Nat :=
  match h : s.answer pos want call with
  | .interrupted => countFrom s pos want (call + 1)
  | .bytes count => .ok count
  | .failed e => .error e
termination_by s.stalls pos - call
decreasing_by
  unfold answer at h
  split at h
  · omega
  · split at h
    · cases h
    · split at h <;> cases h

/-- How many bytes a read hands over: at most `want`, and none only at the end of the data. -/
def count (s : Source) (pos want : Nat) : Except IoError Nat :=
  s.countFrom pos want 0

/-- The bytes from offset `pos` on, `count` of them or as many as there are. -/
def part (s : Source) (pos count : Nat) : Bytes :=
  (s.data.extract pos (pos + count)).toList

/-- At most `want` bytes from offset `pos` on; no bytes at all mean the end of the data. -/
def read (s : Source) (pos want : Nat) : Except IoError Bytes :=
  (s.count pos want).map (s.part pos)

private theorem countFrom_eq (s : Source) (pos want call : Nat) :
    s.countFrom pos want call =
      if want = 0 then .ok 0
      else if s.failsAt pos then .error s.fault
      else .ok (min want (min (s.burst pos + 1) (s.readableEnd - pos))) := by
  fun_induction countFrom s pos want call with
  | case1 call h ih => exact ih
  | case2 call count h =>
    unfold answer at h
    split at h
    · cases h
    · split at h
      · cases h; simp_all
      · split at h
        · cases h
        · cases h; simp_all
  | case3 call e h =>
    unfold answer at h
    split at h
    · cases h
    · split at h
      · cases h
      · split at h
        · cases h; simp_all
        · cases h

/-- How often the device is interrupted does not change what it hands over. -/
theorem count_eq (s : Source) (pos want : Nat) :
    s.count pos want =
      if want = 0 then .ok 0
      else if s.failsAt pos then .error s.fault
      else .ok (min want (min (s.burst pos + 1) (s.readableEnd - pos))) :=
  s.countFrom_eq pos want 0

/-- A read hands over no more than it was asked for, and only bytes of the data. -/
theorem count_facts {s : Source} {pos want count : Nat} (h : s.count pos want = .ok count) :
    count ≤ want ∧ (0 < count → pos + count ≤ s.size) := by
  rw [count_eq] at h
  split at h
  · cases h
    omega
  · split at h
    · cases h
    · cases h
      have hend : s.readableEnd ≤ s.size := by
        unfold readableEnd
        split <;> omega
      omega

theorem length_part {s : Source} {pos count : Nat} (h : pos + count ≤ s.size) :
    (s.part pos count).length = count := by
  simp only [part, Array.length_toList, Array.size_extract, size] at h ⊢
  omega

theorem length_read_le {s : Source} {pos want : Nat} {bs : Bytes}
    (h : s.read pos want = .ok bs) : bs.length ≤ want := by
  unfold read at h
  cases hcount : s.count pos want with
  | error e => simp [hcount, Except.map] at h
  | ok count =>
    simp only [hcount, Except.map, Except.ok.injEq] at h
    subst h
    have := (count_facts hcount).1
    simp only [part, Array.length_toList, Array.size_extract]
    omega

/-- A read that hands over bytes took them from inside the data. -/
theorem read_le_size {s : Source} {pos want : Nat} {bs : Bytes}
    (h : s.read pos want = .ok bs) (hne : bs ≠ []) : pos + bs.length ≤ s.size := by
  unfold read at h
  cases hcount : s.count pos want with
  | error e => simp [hcount, Except.map] at h
  | ok count =>
    simp only [hcount, Except.map, Except.ok.injEq] at h
    subst h
    have hlen : 0 < (s.part pos count).length := List.length_pos_iff.mpr hne
    simp only [part, Array.length_toList, Array.size_extract, size] at hlen ⊢
    omega

/-! ## §4 Exact reads -/

/-- Appends exactly `n` bytes from offset `pos` on to those in hand. -/
def readExactFrom (s : Source) (pos n : Nat) (hand : Array UInt8) : Except IoError Bytes :=
  if n = 0 then .ok hand.toList
  else
    match s.read pos n with
    | .error e => .error e
    | .ok [] => .error .endOfData
    | .ok (b :: bs) =>
      readExactFrom s (pos + (bs.length + 1)) (n - (bs.length + 1)) (hand ++ (b :: bs))
termination_by n

def readExact (s : Source) (pos n : Nat) : Except IoError Bytes :=
  s.readExactFrom pos n #[]

/-- The big-endian number in the `width` bytes from offset `pos` on. -/
def readNat (s : Source) (pos width : Nat) : Except IoError Nat :=
  (s.readExact pos width).map Bytes.toNatBE

private theorem readExactFrom_facts (s : Source) (pos n : Nat) (hand : Array UInt8)
    {bs : Bytes} (h : s.readExactFrom pos n hand = .ok bs) :
    bs.length = hand.size + n ∧ (0 < n → pos + n ≤ s.size) := by
  fun_induction readExactFrom s pos n hand with
  | case1 pos hand => cases h; simp
  | case2 => cases h
  | case3 => cases h
  | case4 pos n hand hn b tail hread ih =>
    have hlen := length_read_le hread
    have hin := read_le_size hread (by simp)
    have hrec := ih h
    simp only [List.length_cons] at hlen hin
    simp only [← Array.length_toList, Array.toList_appendList, List.length_append,
      List.length_cons] at hrec ⊢
    refine ⟨by omega, fun _ => ?_⟩
    -- the last read may already have handed over all that was left to read
    by_cases hrest : n - (tail.length + 1) = 0
    · omega
    · have := hrec.2 (by omega)
      omega

theorem length_readExact {s : Source} {pos n : Nat} {bs : Bytes}
    (h : s.readExact pos n = .ok bs) : bs.length = n := by
  simpa using (readExactFrom_facts s pos n #[] h).1

theorem readExact_le_size {s : Source} {pos n : Nat} {bs : Bytes}
    (h : s.readExact pos n = .ok bs) (hn : 0 < n) : pos + n ≤ s.size :=
  (readExactFrom_facts s pos n #[] h).2 hn

end Source

end Granule
