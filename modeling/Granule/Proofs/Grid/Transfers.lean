import Granule.Proofs.Grid.Words
import Granule.Proofs.Source.Reads
import Granule.Words.Transfer

/-!
# Transfers on a Machine Are Transfers

A machine carries out a plan in a buffer that is as large as the selection. The bytes of a chunk
are put behind those of the chunks before it, as the chunks follow each other in the destination;
so the buffer ends up with what is collected from the chunks in their order. What is scattered is
cut out of the bytes in hand at the same places.

No chunk leaves the buffer. A machine can only give up where a position, or a place in the buffer,
has no place in a word, or where the buffer is too large.

**Main statements**:
- `PlanCursor.gives_foldChecked` : a fold over chunks on a machine, and the fold that it is
- `Plan.gives_gatherChecked`, `Plan.gives_copyChecked` : what is gathered and copied on a machine
- `Plan.gives_scatterChecked` : and what is scattered
-/

namespace Granule

open Checked

/-- Two results are the same failure, or are related. -/
def Corresponds {ε α β : Type} (R : α → β → Prop) : Except ε α → Except ε β → Prop
  | .ok a, .ok b => R a b
  | .error e, .error e' => e = e'
  | _, _ => False

variable {shape : Shape} {selection : Selection} {elemSize dataStart : Nat} {p : Plan}
  {wide : Prop}

/-! ## §1 Folds -/

namespace PlanCursor

variable {β γ ε : Type}

theorem foldChecked_eq (f : β → Chunk → Checked (Except ε β)) (c : PlanCursor) (acc : β) :
    c.foldChecked f acc = (do
      match ← c.nextChecked with
      | none => return .ok acc
      | some (chunk, rest) =>
        match ← f acc chunk with
        | .ok next => rest.foldChecked f next
        | .error e => return .error e) := by
  rw [foldChecked]
  split
  case h_1 hnext => rw [hnext]; rfl
  case h_2 hnext => rw [hnext]; rfl
  case h_3 chunk rest hnext =>
    simp only [hnext, ok_bind]
    split
    case h_1 hf => rw [hf]; rfl
    case h_2 hf => rw [hf]; rfl
    case h_3 hf => rw [hf]; rfl

theorem fold_of_none {f : β → Chunk → Except ε β} {c : PlanCursor} (h : c.next = none) (acc : β) :
    c.fold f acc = .ok acc := by
  rw [fold]
  split
  · rfl
  · simp_all

theorem fold_of_next {f : β → Chunk → Except ε β} {c rest : PlanCursor} {chunk : Chunk}
    (h : c.next = some (chunk, rest)) (acc : β) :
    c.fold f acc =
      match f acc chunk with
      | .ok next => rest.fold f next
      | .error e => .error e := by
  rw [fold]
  split
  · simp_all
  · rename_i heq
    rw [h] at heq
    cases heq
    rfl

/-- **One chunk after another.** Where what is done with each chunk on a machine corresponds to what
a fold does with it, what is done with all of them does, too. -/
theorem gives_foldChecked {R : Nat → β → γ → Prop} {f : β → Chunk → Checked (Except ε β)}
    {g : γ → Chunk → Except ε γ} {c : PlanCursor}
    (hplan : Plan.ofSelection shape elemSize selection dataStart = .ok c.plan) (h : c.InStep)
    (hwide : wide → dataStart + shape.size * elemSize < wordLimit)
    (hf : ∀ k < c.plan.chunkCount, ∀ acc hand, R k acc hand →
      (f acc (c.plan.chunk k)).Gives wide
        (Corresponds (R (k + 1)) · (g hand (c.plan.chunk k))))
    {acc : β} {hand : γ} (hacc : R c.odometer.pulled acc hand) :
    (c.foldChecked f acc).Gives wide
      (Corresponds (R (c.odometer.pulled + c.left)) · (c.fold g hand)) := by
  rw [foldChecked_eq]
  refine .bind ((gives_nextChecked hplan h).of_wide hwide) fun pulled hpulled => ?_
  subst hpulled
  -- the chunks still to come get fewer with each one that is done
  rcases h.next_cases with ⟨hnone, -⟩ | ⟨hmore, hnext, -⟩
  · have hleft : c.left = 0 := by
      rw [next_eq h] at hnone
      split at hnone
      · cases hnone
      · rename_i hend
        have hend : c.hasNext = false := by simpa using hend
        exact Nat.sub_eq_zero_of_le (Nat.not_lt.mp (of_decide_eq_false hend))
    rw [hnone, fold_of_none hnone, hleft]
    exact .ok hacc
  · rw [hnext, fold_of_next hnext]
    have hleft := left_next hnext
    refine .bind (hf _ hmore acc hand hacc) fun done hdone => ?_
    cases hg : g hand (c.plan.chunk c.odometer.pulled) with
    | error e =>
      cases done with
      | ok next => rw [hg] at hdone; cases hdone
      | error e' => rw [hg] at hdone; exact .ok hdone
    | ok handed =>
      cases done with
      | error e' => rw [hg] at hdone; cases hdone
      | ok next =>
        rw [hg] at hdone
        have hrest := gives_foldChecked (c := c.pass) hplan h.pass hwide hf hdone
        have hend : c.pass.odometer.pulled + c.pass.left = c.odometer.pulled + c.left := by
          show c.odometer.pulled + 1 + c.pass.left = _
          omega
        rwa [hend] at hrest
termination_by c.left

end PlanCursor

/-! ## §2 Gathering -/

namespace Plan

/-- What a machine makes of a selection that fits is its plan. -/
theorem gives_makeChecked (hplan : ofSelection shape elemSize selection dataStart = .ok p) :
    (makeChecked shape elemSize selection dataStart).Gives
      (selection.HasRoom shape elemSize dataStart) (· = .ok p) :=
  .bind (gives_ofSelectionChecked hplan) fun made hmade => .ok (by rw [hmade]; rfl)

/-- The bytes of the first `k` chunks stand in front of a buffer, and the rest of it is empty. -/
def FilledUpTo (p : Plan) (k : Nat) (dest hand : Array UInt8) : Prop :=
  hand.size = (p.chunk k).destOffset ∧
    dest.toList = hand.toList ++
      List.replicate (p.chunkCount * p.perChunk * p.elemSize - (p.chunk k).destOffset) 0

/-- A chunk starts where the chunk before it ends. -/
theorem destOffset_succ (p : Plan) (k : Nat) :
    (p.chunk (k + 1)).destOffset = (p.chunk k).destOffset + (p.chunk k).byteCount := by
  show (k + 1) * p.perChunk * p.elemSize = k * p.perChunk * p.elemSize + p.perChunk * p.elemSize
  rw [Nat.succ_mul, Nat.add_mul]

/-- The bytes of a chunk are put behind those of the chunks before it. -/
theorem gives_fillChunk {fetchChecked : (pos count : Nat) → Checked (Except IoError Bytes)}
    {fetch : (pos count : Nat) → Except IoError Bytes}
    (hplan : ofSelection shape elemSize selection dataStart = .ok p)
    (hwide : wide → selection.size * elemSize < wordLimit)
    (hlength : ∀ pos count part, fetch pos count = .ok part → part.length = count)
    {k : Nat} (hk : k < p.chunkCount)
    (hfetch : (fetchChecked (p.bytePos k) (p.chunk k).byteCount).Gives wide
      (· = fetch (p.bytePos k) (p.chunk k).byteCount))
    {dest hand : Array UInt8} (h : p.FilledUpTo k dest hand) :
    (fillChunk fetchChecked dest (p.chunk k)).Gives wide
      (Corresponds (p.FilledUpTo (k + 1)) · (appendChunk fetch hand (p.chunk k))) := by
  obtain ⟨hhand, hdest⟩ := h
  have hstop := Chunk.destOffset_add_byteCount_le hplan hk
  have htotal : p.chunkCount * p.perChunk * p.elemSize = selection.size * elemSize := by
    rw [chunkCount_mul_perChunk hplan, elemSize_eq hplan]
  rw [htotal] at hdest
  simp only [fillChunk, appendChunk, storedPos_chunk]
  refine .bind (.word fun hw => ?_) fun count hcount => ?_
  · have := hwide hw
    rw [Chunk.byteCount] at hstop
    omega
  replace hcount : count = (p.chunk k).byteCount := hcount
  subst hcount
  refine .bind hfetch fun fetched hfetched => ?_
  subst hfetched
  cases hpart : fetch (p.bytePos k) (p.chunk k).byteCount with
  | error e => exact .ok rfl
  | ok part =>
    have hlen := hlength _ _ _ hpart
    refine .bind ((Chunk.gives_destChecked hplan hk).of_wide hwide) fun place hplace => ?_
    subst hplace
    -- the chunk starts where what is in hand ends
    have hroom : part.length ≤ selection.size * elemSize - (p.chunk k).destOffset := by omega
    obtain ⟨filled, hput, hfilled⟩ := Bytes.putChecked_append hdest hroom
    rw [Array.length_toList, hhand, hlen] at hput
    rw [hput, ok_bind]
    refine .ok ⟨?_, ?_⟩
    · rw [← Array.length_toList, Array.toList_appendList, List.length_append, Array.length_toList,
        hhand, hlen, destOffset_succ]
    · rw [hfilled, Array.toList_appendList, hlen, htotal, destOffset_succ, Nat.sub_add_eq]

/-- What a machine fills a buffer with is what is collected from the chunks. -/
theorem gives_fillChecked {fetchChecked : (pos count : Nat) → Checked (Except IoError Bytes)}
    {fetch : (pos count : Nat) → Except IoError Bytes}
    (hplan : ofSelection shape elemSize selection dataStart = .ok p)
    (hwide : wide → dataStart + shape.size * elemSize < wordLimit ∧
      selection.size * elemSize < bufferLimit)
    (hlength : ∀ pos count part, fetch pos count = .ok part → part.length = count)
    (hfetch : ∀ k < p.chunkCount,
      (fetchChecked (p.bytePos k) (p.chunk k).byteCount).Gives wide
        (· = fetch (p.bytePos k) (p.chunk k).byteCount)) :
    (p.fillChecked fetchChecked).Gives wide (· = p.collect fetch) := by
  have htotal : p.total * p.elemSize = selection.size * elemSize := totalBytes_eq hplan
  have hword : wide → selection.size * elemSize < wordLimit := fun hw =>
    Nat.lt_trans (hwide hw).2 (by decide)
  -- before the first chunk nothing is in hand
  have hstart : p.FilledUpTo 0 (Array.replicate (p.total * p.elemSize) 0) #[] := by
    have hzero : (p.chunk 0).destOffset = 0 := by
      show 0 * p.perChunk * p.elemSize = 0
      rw [Nat.zero_mul, Nat.zero_mul]
    refine ⟨hzero.symm, ?_⟩
    rw [hzero, Nat.sub_zero, htotal, chunkCount_mul_perChunk hplan, elemSize_eq hplan,
      Array.toList_replicate]
    rfl
  refine .bind (.word fun hw => htotal ▸ hword hw) fun size hsize => ?_
  subst hsize
  refine .bind (.buffer fun hw => htotal ▸ (hwide hw).2) fun _ _ => ?_
  refine .bind (PlanCursor.gives_foldChecked (c := ⟨p, 0⟩) hplan (PlanCursor.inStep_zero p)
    (fun hw => (hwide hw).1)
    (fun k hk dest hand => gives_fillChunk hplan hword hlength hk (hfetch k hk)) hstart)
    fun filled hfilled => .ok ?_
  show filled.map Array.toList = (PlanCursor.fold (appendChunk fetch) ⟨p, 0⟩ #[]).map Array.toList
  cases hfold : PlanCursor.fold (appendChunk fetch) ⟨p, 0⟩ #[] with
  | error e =>
    cases filled with
    | ok dest => rw [hfold] at hfilled; cases hfilled
    | error e' => rw [hfold] at hfilled; exact congrArg Except.error hfilled
  | ok hand =>
    cases filled with
    | error e' => rw [hfold] at hfilled; cases hfilled
    | ok dest =>
      rw [hfold] at hfilled
      obtain ⟨hhand, hdest⟩ := hfilled
      -- after the last chunk nothing of the buffer is left
      have hend : (p.chunk (0 + PlanCursor.left ⟨p, 0⟩)).destOffset =
          p.chunkCount * p.perChunk * p.elemSize := by
        rw [Nat.zero_add]
        rfl
      rw [show (PlanCursor.odometer ⟨p, 0⟩).pulled = 0 from rfl, hend, Nat.sub_self,
        List.replicate_zero, List.append_nil] at hdest
      exact congrArg Except.ok hdest

/-- The end of a chunk is a place in front of the end of the array. -/
theorem bytePos_add_byteCount_le
    (hplan : ofSelection shape elemSize selection dataStart = .ok p) {k : Nat}
    (hk : k < p.chunkCount) :
    p.bytePos k + (p.chunk k).byteCount ≤ dataStart + shape.size * elemSize := by
  rw [bytePos_add_byteCount, dataStart_eq hplan, elemSize_eq hplan]
  exact Nat.add_le_add_left (Nat.mul_le_mul_right _ (elemOf_add_perChunk_le_size hplan hk)) _

/-- What is gathered on a machine is what is gathered. -/
theorem gives_gatherChecked (hplan : ofSelection shape elemSize selection dataStart = .ok p)
    (source : Source) :
    (p.gatherChecked source).Gives
      (dataStart + shape.size * elemSize < wordLimit ∧ selection.size * elemSize < bufferLimit)
      (· = p.gather source) := by
  refine gives_fillChecked hplan id (fun pos count part hpart => ?_) fun k _ => .ok rfl
  obtain ⟨hin, rfl⟩ := Source.facts_of_readExact hpart
  have hend := source.readableEnd_le_size
  rw [Bytes.between, List.length_take, List.length_drop, Source.length_bytes]
  omega

/-- What is copied on a machine is what is copied. -/
theorem gives_copyChecked (hplan : ofSelection shape elemSize selection dataStart = .ok p)
    (storage : Bytes) :
    (p.copyChecked storage).Gives
      (dataStart + shape.size * elemSize < wordLimit ∧ selection.size * elemSize < bufferLimit)
      (· = p.copy storage) := by
  refine gives_fillChecked hplan id (fun pos count part hpart => ?_) fun k hk => ?_
  · split at hpart
    · rename_i hslice
      cases hpart
      exact Bytes.length_of_slice? hslice
    · cases hpart
  · have hend := bytePos_add_byteCount_le hplan hk
    exact .bind (.word fun hw => by omega) fun _ _ => .ok rfl

/-- Where the first chunk cannot be pulled, nothing is gathered. -/
theorem fillChecked_of_error {fetchChecked : (pos count : Nat) → Checked (Except IoError Bytes)}
    {failure : Panic} (hsize : p.total * p.elemSize < bufferLimit)
    (h : PlanCursor.nextChecked ⟨p, 0⟩ = .error failure) :
    p.fillChecked fetchChecked = .error failure := by
  have hword : p.total * p.elemSize < wordLimit := hsize.trans (by decide)
  rw [fillChecked, word_of_lt hword, ok_bind, buffer_of_lt hsize, ok_bind,
    PlanCursor.foldChecked_eq, h]
  rfl

/-! ## §3 Scattering -/

theorem scatterFromChecked_eq (src : Bytes) (c : PlanCursor) (storage : Storage) :
    scatterFromChecked src c storage = (do
      match ← c.nextChecked with
      | none => return (none, storage)
      | some (chunk, rest) =>
        match ← writeChunkChecked src storage chunk with
        | (none, written) => scatterFromChecked src rest written
        | (some e, written) => return (some e, written)) := by
  rw [scatterFromChecked]
  split
  case h_1 hnext => rw [hnext]; rfl
  case h_2 hnext => rw [hnext]; rfl
  case h_3 chunk rest hnext =>
    simp only [hnext, ok_bind]
    split
    case h_1 hwrite => rw [hwrite]; rfl
    case h_2 hwrite => rw [hwrite]; rfl
    case h_3 hwrite => rw [hwrite]; rfl

/-- A machine writes a chunk as it is. -/
theorem gives_writeChunkChecked (hplan : ofSelection shape elemSize selection dataStart = .ok p)
    {src : Bytes} (hsrc : src.length = selection.size * elemSize) (storage : Storage) {k : Nat}
    (hk : k < p.chunkCount) :
    (writeChunkChecked src storage (p.chunk k)).Gives (selection.size * elemSize < wordLimit)
      (· = writeChunk src storage (p.chunk k)) := by
  have hstop := Chunk.destOffset_add_byteCount_le hplan hk
  simp only [writeChunkChecked, writeChunk, storedPos_chunk]
  refine .bind (Chunk.gives_destChecked hplan hk) fun place hplace => ?_
  subst hplace
  rw [if_neg (by omega)]
  split
  case h_1 hwrite =>
    rw [hwrite]
    exact .ok rfl
  case h_2 hwrite =>
    rw [hwrite]
    exact .ok rfl

theorem scatterFrom_of_none {src : Bytes} {c : PlanCursor} {storage : Storage}
    (h : c.next = none) : scatterFrom src c storage = (none, storage) := by
  rw [scatterFrom]
  split
  · rfl
  · simp_all

theorem scatterFrom_of_next {src : Bytes} {c rest : PlanCursor} {chunk : Chunk}
    {storage : Storage} (h : c.next = some (chunk, rest)) :
    scatterFrom src c storage =
      match writeChunk src storage chunk with
      | (none, written) => scatterFrom src rest written
      | (some e, written) => (some e, written) := by
  rw [scatterFrom]
  split
  · simp_all
  · rename_i heq
    rw [h] at heq
    cases heq
    rfl

/-- A machine writes the chunks still to come as they are. -/
theorem gives_scatterFromChecked {c : PlanCursor}
    (hplan : ofSelection shape elemSize selection dataStart = .ok c.plan) (h : c.InStep)
    {src : Bytes} (hsrc : src.length = selection.size * elemSize) (storage : Storage) :
    (scatterFromChecked src c storage).Gives (dataStart + shape.size * elemSize < wordLimit)
      (· = scatterFrom src c storage) := by
  have hsize := Nat.mul_le_mul_right elemSize (Selection.size_le_size (fits_of_ofSelection hplan))
  rw [scatterFromChecked_eq]
  refine .bind (PlanCursor.gives_nextChecked hplan h) fun pulled hpulled => ?_
  subst hpulled
  -- the chunks still to come get fewer with each one that is written
  rcases h.next_cases with ⟨hnone, -⟩ | ⟨hmore, hnext, -⟩
  · rw [hnone, scatterFrom_of_none hnone]
    exact .ok rfl
  · have hleft := PlanCursor.left_next hnext
    rw [hnext, scatterFrom_of_next hnext]
    refine .bind ((gives_writeChunkChecked hplan hsrc storage hmore).of_wide fun hw => by omega)
      fun written hwritten => ?_
    subst hwritten
    rcases writeChunk src storage (c.plan.chunk c.odometer.pulled) with ⟨_ | e, written⟩
    · exact gives_scatterFromChecked (c := c.pass) hplan h.pass hsrc written
    · exact .ok rfl
termination_by c.left

/-- What is scattered on a machine is what is scattered. -/
theorem gives_scatterChecked (hplan : ofSelection shape elemSize selection dataStart = .ok p)
    (storage : Storage) (src : Bytes) :
    (p.scatterChecked storage src).Gives (dataStart + shape.size * elemSize < wordLimit)
      (· = p.scatter storage src) := by
  have hsize := Nat.mul_le_mul_right elemSize (Selection.size_le_size (fits_of_ofSelection hplan))
  have htotal : p.total * p.elemSize = selection.size * elemSize := totalBytes_eq hplan
  refine .bind (.word fun hw => by omega) fun size hsize => ?_
  subst hsize
  rw [scatter, totalBytes]
  split
  · rename_i hsrc
    exact gives_scatterFromChecked (c := ⟨p, 0⟩) hplan (PlanCursor.inStep_zero p)
      (hsrc.trans htotal) storage
  · exact .ok rfl

/-- Bytes of a wrong number are refused before anything is pulled or written. -/
theorem gives_scatterChecked_of_length
    (hplan : ofSelection shape elemSize selection dataStart = .ok p) (storage : Storage)
    {src : Bytes} (hsrc : src.length ≠ selection.size * elemSize) :
    (p.scatterChecked storage src).Gives (selection.size * elemSize < wordLimit)
      (· = (some (.invalid (.sourceLength src.length (selection.size * elemSize))), storage)) := by
  have htotal : p.total * p.elemSize = selection.size * elemSize := totalBytes_eq hplan
  rw [← htotal] at hsrc ⊢
  refine .bind (.word id) fun size hsize => ?_
  subst hsize
  rw [if_neg hsrc]
  exact .ok rfl

/-- Where the first chunk cannot be pulled, nothing is scattered. -/
theorem scatterChecked_of_error {storage : Storage} {src : Bytes} {failure : Panic}
    (hsize : p.total * p.elemSize < wordLimit) (hsrc : src.length = p.total * p.elemSize)
    (h : PlanCursor.nextChecked ⟨p, 0⟩ = .error failure) :
    p.scatterChecked storage src = .error failure := by
  rw [scatterChecked, word_of_lt hsize, ok_bind, if_pos hsrc, scatterFromChecked_eq, h]
  rfl

end Plan

end Granule
