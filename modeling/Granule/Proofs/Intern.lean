import Granule.Intern
import Mathlib.Data.List.Dedup

/-!
# What an Intern Table Holds

A table is asked by fingerprint and answers with content, so what it answers is
only as good as the fingerprints are. What can be said without trusting them: a
table fed from some contents holds nothing else, each under its own fingerprint; and
as no fingerprint is there twice, what was got from it is told apart by places as well
as by contents, and is all that it has.

**Main statements**:
- `InternTable.Holds.content_intern` : what is interned comes back as itself, unless another
  content that was fed in has the same fingerprint
- `InternTable.Keyed.content_intern` : or another one that the table has
- `InternTable.Fed.intern` : the table stands to what was got from it as it did
- `InternTable.Fed.size_eq` : it has one entry for each content that was got
-/

namespace Granule

/-! ## §1 Contents under their fingerprints -/

/-- Another of these contents has the same fingerprint. -/
def TypedBytes.Collides (known : TypedBytes → Prop) (content : TypedBytes) : Prop :=
  ∃ other, known other ∧ other ≠ content ∧ other.fingerprint = content.fingerprint

namespace InternTable

/-- Every entry is one of these contents, under its own fingerprint. -/
def Holds (known : TypedBytes → Prop) (t : InternTable) : Prop :=
  ∀ e ∈ t.entries, e.key = e.content.fingerprint ∧ known e.content

variable {known : TypedBytes → Prop} {t : InternTable}

theorem holds_empty : empty.Holds known := by
  intro e he
  cases Array.not_mem_empty e he

namespace Holds

theorem intern_entries (h : t.Holds known) {content : TypedBytes} (hknown : known content) :
    (t.intern content).2.Holds known := by
  intro e he
  -- the entries are those of before, and perhaps the new one
  rcases entries_intern t content with heq | heq
  · rw [heq] at he
    exact h e he
  · rw [heq, Array.mem_push] at he
    rcases he with he | rfl
    · exact h e he
    · exact ⟨rfl, hknown⟩

/-- What is found under a fingerprint has that fingerprint. -/
theorem content_of_find (h : t.Holds known) {key : Fingerprint} {place : Nat}
    (hfind : t.find? key = some place) :
    ∃ content, t.content? place = some content ∧ content.fingerprint = key ∧ known content := by
  obtain ⟨hlt, hkey, -⟩ := Array.findIdx?_eq_some_iff_getElem.mp hfind
  obtain ⟨hown, hknown⟩ := h _ (Array.getElem_mem hlt)
  refine ⟨t.entries[place].content, ?_, ?_, hknown⟩
  · rw [content?, Array.getElem?_eq_getElem hlt, Option.map_some]
  · rw [← hown]
    exact eq_of_beq hkey

/-- **Interned content.** It is the content that was handed in, unless another one that was fed
in has the same fingerprint. -/
theorem content_intern (h : t.Holds known) {content : TypedBytes} (hknown : known content) :
    ∃ kept, (t.intern content).2.content? (t.intern content).1 = some kept ∧
      (kept = content ∨ content.Collides known) := by
  obtain ⟨kept, hkept, hkey, hfrom⟩ :=
    (h.intern_entries hknown).content_of_find (find?_intern t content)
  refine ⟨kept, hkept, ?_⟩
  by_cases hsame : kept = content
  · exact .inl hsame
  · exact .inr ⟨kept, hfrom, hsame, hkey⟩

end Holds

/-- The table has this content. -/
def Has (t : InternTable) (content : TypedBytes) : Prop := ∃ e ∈ t.entries, e.content = content

/-- Every entry is kept under the fingerprint of its content. -/
def Keyed (t : InternTable) : Prop := t.Holds t.Has

/-- What the first table has, the second one has. -/
def Grows (t t' : InternTable) : Prop := ∀ e ∈ t.entries, e ∈ t'.entries

variable {t' t'' : InternTable} {content : TypedBytes}

theorem keyed_empty : empty.Keyed := holds_empty

theorem Grows.refl (t : InternTable) : t.Grows t := fun _ he => he

theorem Grows.trans (h : t.Grows t') (h' : t'.Grows t'') : t.Grows t'' :=
  fun e he => h' e (h e he)

theorem Grows.collides (h : t.Grows t') (hcollides : content.Collides t.Has) :
    content.Collides t'.Has := by
  obtain ⟨other, ⟨e, he, rfl⟩, hne, hsame⟩ := hcollides
  exact ⟨e.content, ⟨e, h e he, rfl⟩, hne, hsame⟩

theorem grows_intern (t : InternTable) (content : TypedBytes) : t.Grows (t.intern content).2 := by
  intro e he
  rcases entries_intern t content with heq | heq
  · exact heq ▸ he
  · rw [heq, Array.mem_push]
    exact .inl he

namespace Keyed

theorem intern (h : t.Keyed) (content : TypedBytes) : (t.intern content).2.Keyed := by
  intro e he
  refine ⟨?_, e, he, rfl⟩
  rcases entries_intern t content with heq | heq
  · exact (h e (heq ▸ he)).1
  · rw [heq, Array.mem_push] at he
    rcases he with he | rfl
    · exact (h e he).1
    · rfl

/-- What is got for content that was interned has its fingerprint. -/
theorem fingerprint_intern (h : t.Keyed) (content : TypedBytes) :
    ∃ kept, (t.intern content).2.content? (t.intern content).1 = some kept ∧
      kept.fingerprint = content.fingerprint := by
  obtain ⟨kept, hkept, hkey, -⟩ := (h.intern content).content_of_find (find?_intern t content)
  exact ⟨kept, hkept, hkey⟩

/-- Interned content is kept, unless the table has another one with the same fingerprint. -/
theorem content_intern (h : t.Keyed) (content : TypedBytes) :
    ∃ kept, (t.intern content).2.content? (t.intern content).1 = some kept ∧
      (kept = content ∨ content.Collides (t.intern content).2.Has) := by
  obtain ⟨kept, hkept, hkey, hhas⟩ := (h.intern content).content_of_find (find?_intern t content)
  refine ⟨kept, hkept, ?_⟩
  by_cases hsame : kept = content
  · exact .inl hsame
  · exact .inr ⟨kept, hhas, hsame, hkey⟩

end Keyed

/-! ## §2 What was got from a table -/

/-- How a table stands to what was got from it: each place that it gave, with what it has there. Each
answer was counted, as a hit or as a miss. -/
structure Fed (known : TypedBytes → Prop) (t : InternTable) (got : List (Nat × TypedBytes)) :
    Prop where
  holds : t.Holds known
  /-- No fingerprint is there twice. -/
  distinct : (t.entries.toList.map (·.key)).Nodup
  counted : t.hits + t.misses = got.length
  misses_eq : t.misses = t.size
  mem_iff : ∀ place content, (place, content) ∈ got ↔ t.content? place = some content

theorem content?_eq (t : InternTable) (place : Nat) :
    t.content? place = (t.entries.toList.map (·.content))[place]? := by
  rw [content?, List.getElem?_map, Array.getElem?_toList]

theorem content?_add (t : InternTable) (key : Fingerprint) (content : TypedBytes) (place : Nat) :
    (t.add key content).content? place =
      if place = t.size then some content else t.content? place := by
  rw [content?, add, size, Array.getElem?_push]
  split <;> rfl

namespace Fed

variable {known : TypedBytes → Prop} {t : InternTable} {got : List (Nat × TypedBytes)}
  {content other : TypedBytes} {place place' : Nat}

theorem empty : InternTable.empty.Fed known [] where
  holds := holds_empty
  distinct := .nil
  counted := rfl
  misses_eq := rfl
  mem_iff place content := by simp [content?, InternTable.empty]

/-- What is there already is got from its place once more. -/
theorem hit (h : t.Fed known got) (hfind : t.find? content.fingerprint = some place) :
    ∃ kept, t.content? place = some kept ∧
      ({ t with hits := t.hits + 1 } : InternTable).Fed known (got ++ [(place, kept)]) := by
  obtain ⟨kept, hkept, -, -⟩ := h.holds.content_of_find hfind
  refine ⟨kept, hkept, h.holds, h.distinct, ?_, h.misses_eq, ?_⟩
  · have hcounted := h.counted
    simp only [List.length_append, List.length_singleton]
    omega
  · -- the place is one that the table has given before
    intro other content
    rw [List.mem_append, h.mem_iff, List.mem_singleton, Prod.mk.injEq]
    constructor
    · rintro (hold | ⟨rfl, rfl⟩)
      · exact hold
      · exact hkept
    · exact .inl

/-- What is new gets a place of its own. -/
theorem miss (h : t.Fed known got) (hknown : known content)
    (hfind : t.find? content.fingerprint = none) :
    (t.add content.fingerprint content).Fed known (got ++ [(t.size, content)]) := by
  -- the fingerprint is new, so the entry is one of its own
  have hnew : ∀ e ∈ t.entries, e.key ≠ content.fingerprint := fun e he =>
    ne_of_beq_false (Array.findIdx?_eq_none_iff.mp hfind e he)
  refine ⟨?holds, ?distinct, ?counted, ?misses, ?mem⟩
  case holds =>
    have hadd := h.holds.intern_entries hknown
    rwa [InternTable.intern, hfind] at hadd
  case distinct =>
    simp only [add, Array.toList_push, List.map_append, List.map_singleton]
    refine List.nodup_append.mpr ⟨h.distinct, List.nodup_singleton _, ?_⟩
    intro key hkey last hlast
    obtain ⟨e, he, rfl⟩ := List.mem_map.mp hkey
    rw [List.mem_singleton.mp hlast]
    exact hnew e (Array.mem_toList_iff.mp he)
  case counted =>
    have hcounted := h.counted
    simp only [add, List.length_append, List.length_singleton]
    omega
  case misses => simp only [add, size, Array.size_push, h.misses_eq]
  case mem =>
    intro place other
    rw [content?_add, List.mem_append, h.mem_iff, List.mem_singleton, Prod.mk.injEq]
    by_cases hlast : place = t.size
    · -- nothing was got from behind the last entry before
      have hnone : t.content? place = none := by
        rw [hlast, content?, size, Array.getElem?_eq_none (Nat.le_refl _), Option.map_none]
      simp [hlast, hlast ▸ hnone, eq_comm]
    · simp [hlast]

/-- Interning gives a place, which is one more that was got. -/
theorem intern (h : t.Fed known got) (hknown : known content) :
    ∃ kept, (t.intern content).2.content? (t.intern content).1 = some kept ∧
      (t.intern content).2.Fed known (got ++ [((t.intern content).1, kept)]) := by
  unfold InternTable.intern
  split
  · rename_i place hfind
    exact h.hit hfind
  · rename_i hfind
    exact ⟨content, by rw [content?_add, if_pos rfl], h.miss hknown hfind⟩

/-- Only what was fed in is got from it. -/
theorem known_of_mem (h : t.Fed known got) (hmem : (place, content) ∈ got) : known content := by
  obtain ⟨e, he, rfl⟩ := Option.map_eq_some_iff.mp ((h.mem_iff place content).mp hmem)
  exact (h.holds e (Array.mem_of_getElem? he)).2

/-- The contents that it has are distinct, because their fingerprints are. -/
theorem nodup_contents (h : t.Fed known got) : (t.entries.toList.map (·.content)).Nodup := by
  refine List.Nodup.of_map TypedBytes.fingerprint ?_
  rw [List.map_map, List.map_congr_left fun e he => ?_]
  · exact h.distinct
  · exact (h.holds e (Array.mem_toList_iff.mp he)).1.symm

theorem mem_contents_iff (h : t.Fed known got) :
    content ∈ t.entries.toList.map (·.content) ↔ content ∈ got.map (·.2) := by
  rw [List.mem_iff_getElem?, List.mem_map]
  simp only [← content?_eq, ← h.mem_iff]
  constructor
  · rintro ⟨place, hmem⟩
    exact ⟨_, hmem, rfl⟩
  · rintro ⟨⟨place, content⟩, hmem, rfl⟩
    exact ⟨place, hmem⟩

/-- One place for one content, and one content in one place. -/
theorem place_eq_iff (h : t.Fed known got) (hmem : (place, content) ∈ got)
    (hmem' : (place', other) ∈ got) : place = place' ↔ content = other := by
  rw [h.mem_iff] at hmem hmem'
  constructor
  · rintro rfl
    exact Option.some.inj (hmem.symm.trans hmem')
  · rintro rfl
    rw [content?_eq] at hmem hmem'
    obtain ⟨hlt, -⟩ := List.getElem?_eq_some_iff.mp hmem
    exact (List.getElem?_inj hlt h.nodup_contents).mp (hmem.trans hmem'.symm)

/-- There is one entry for each content that was got. -/
theorem size_eq (h : t.Fed known got) : t.size = (got.map (·.2)).dedup.length := by
  have hperm : (t.entries.toList.map (·.content)).Perm (got.map (·.2)).dedup :=
    (List.perm_ext_iff_of_nodup h.nodup_contents (List.nodup_dedup _)).mpr fun content => by
      rw [List.mem_dedup, h.mem_contents_iff]
  rw [← hperm.length_eq, List.length_map, Array.length_toList, size]

end Fed

end InternTable

end Granule
