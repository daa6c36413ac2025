import Granule.Proofs.Intern

/-!
# The History of an Intern Table

A table is handed contents and asked for fingerprints, in any order. Asking leaves it alone; what is
handed in is kept if its fingerprint is new, at the next place, and stays there. So what a call is
told follows from the contents that were handed in before it: the place of a fingerprint is the one
that was made when it first came, and before that it has none.

A fingerprint is made from a kind and bytes, in a form that no other kind and bytes share. If no two
of the forms that occur have one digest, places stand for contents.

**Main statements**:
- `InternTable.find?_run_eq_none_iff` : a fingerprint is found from its first content on
- `InternTable.entries_run` : entries are never replaced or removed
- `InternTable.size_after` : there is one entry for each fingerprint
- `InternTable.canonical_over_history` : what the calls of any history are told
-/

namespace Granule

namespace InternTable

/-! ## §1 Calls -/

/-- A call to a table. -/
inductive Call where
  /-- Hands in a content. -/
  | intern (content : TypedBytes)
  /-- Asks for the entry with this fingerprint. -/
  | get (key : Fingerprint)

def Call.content? : Call → Option TypedBytes
  | .intern content => some content
  | .get _ => none

def handedIn (calls : List Call) : List TypedBytes := calls.filterMap Call.content?

def fingerprints (calls : List Call) : List Fingerprint := (handedIn calls).map (·.fingerprint)

/-- The place that a call is told, and the table after it. -/
def call (t : InternTable) : Call → Option Nat × InternTable
  | .intern content => (some (t.intern content).1, (t.intern content).2)
  | .get key => (t.find? key, t)

def run (t : InternTable) (calls : List Call) : InternTable :=
  calls.foldl (fun t c => (t.call c).2) t

theorem run_cons (t : InternTable) (c : Call) (calls : List Call) :
    t.run (c :: calls) = (t.call c).2.run calls := rfl

theorem run_append (t : InternTable) (calls more : List Call) :
    t.run (calls ++ more) = (t.run calls).run more := List.foldl_append

theorem handedIn_append (calls more : List Call) :
    handedIn (calls ++ more) = handedIn calls ++ handedIn more := List.filterMap_append

theorem mem_handedIn (earlier later : List Call) (content : TypedBytes) :
    content ∈ handedIn (earlier ++ .intern content :: later) := by
  rw [handedIn_append]
  exact List.mem_append_right _ (List.mem_cons_self ..)

variable {t : InternTable} {key key' : Fingerprint} {place : Nat} {content : TypedBytes}

/-! ## §2 What calls leave alone -/

/-- The entries stay where they are, and more come behind them. -/
theorem entries_run (t : InternTable) (calls : List Call) :
    t.entries.toList <+: (t.run calls).entries.toList := by
  induction calls generalizing t with
  | nil => exact List.prefix_rfl
  | cons c rest ih =>
    refine List.IsPrefix.trans ?_ (ih _)
    cases c with
    | get key => exact List.prefix_rfl
    | intern content =>
      rcases entries_intern t content with heq | heq
      · exact heq ▸ List.prefix_rfl
      · simp only [call, heq, Array.toList_push]
        exact List.prefix_append _ _

theorem content?_run (calls : List Call) (h : t.content? place = some content) :
    (t.run calls).content? place = some content := by
  obtain ⟨more, hmore⟩ := t.entries_run calls
  rw [content?_eq] at h ⊢
  obtain ⟨hlt, -⟩ := List.getElem?_eq_some_iff.mp h
  rw [← hmore, List.map_append, List.getElem?_append_left hlt, h]

/-- A place that was found stays the place of its fingerprint. -/
theorem find?_run_of_find? (calls : List Call) (h : t.find? key = some place) :
    (t.run calls).find? key = some place := by
  induction calls generalizing t with
  | nil => exact h
  | cons c rest ih =>
    cases c with
    | get key => exact ih h
    | intern content => exact ih (find?_intern_of_find? content h)

/-! ## §3 Fingerprints -/

theorem find?_eq_none_iff : t.find? key = none ↔ key ∉ t.entries.toList.map (·.key) := by
  rw [find?, Array.findIdx?_eq_none_iff]
  constructor
  · intro hnone hmem
    obtain ⟨e, he, rfl⟩ := List.mem_map.mp hmem
    exact ne_of_beq_false (hnone e (Array.mem_toList_iff.mp he)) rfl
  · intro hnot e he
    exact beq_false_of_ne fun hkey =>
      hnot (List.mem_map.mpr ⟨e, Array.mem_toList_iff.mpr he, hkey⟩)

theorem key_eq_of_find? (h : t.find? key = some place) (h' : t.find? key' = some place) :
    key = key' := by
  obtain ⟨_, hkey, -⟩ := Array.findIdx?_eq_some_iff_getElem.mp h
  obtain ⟨_, hkey', -⟩ := Array.findIdx?_eq_some_iff_getElem.mp h'
  exact (eq_of_beq hkey).symm.trans (eq_of_beq hkey')

theorem find?_intern_eq_none_iff (t : InternTable) (content : TypedBytes) (key : Fingerprint) :
    (t.intern content).2.find? key = none ↔ t.find? key = none ∧ key ≠ content.fingerprint := by
  constructor
  · intro h
    refine ⟨?_, ?_⟩
    · by_contra hsome
      obtain ⟨place, hplace⟩ := Option.ne_none_iff_exists'.mp hsome
      rw [find?_intern_of_find? content hplace] at h
      cases h
    · rintro rfl
      rw [find?_intern] at h
      cases h
  · rintro ⟨hnone, hne⟩
    rw [find?_eq_none_iff] at hnone ⊢
    rcases entries_intern t content with heq | heq
    · rwa [heq]
    · rw [heq, Array.toList_push, List.map_append, List.mem_append, not_or]
      exact ⟨hnone, List.mem_singleton.not.mpr hne⟩

/-- **A fingerprint is found** from the first content that has it on. -/
theorem find?_run_eq_none_iff (t : InternTable) (calls : List Call) (key : Fingerprint) :
    (t.run calls).find? key = none ↔ t.find? key = none ∧ key ∉ fingerprints calls := by
  induction calls generalizing t with
  | nil => simp [run, fingerprints, handedIn]
  | cons c rest ih =>
    rw [run_cons, ih]
    cases c with
    | get key => rfl
    | intern content =>
      have hfingerprints : fingerprints (.intern content :: rest) =
          content.fingerprint :: fingerprints rest := rfl
      rw [hfingerprints, List.mem_cons, not_or, call, find?_intern_eq_none_iff, and_assoc]

/-! ## §4 Histories -/

/-- What is got from a table in the course of calls is one place for each content handed in. -/
theorem Fed.run {known : TypedBytes → Prop} {got : List (Nat × TypedBytes)} (h : t.Fed known got)
    (calls : List Call) (hknown : ∀ content ∈ handedIn calls, known content) :
    ∃ more, more.length = (handedIn calls).length ∧ (t.run calls).Fed known (got ++ more) := by
  induction calls generalizing t got with
  | nil => exact ⟨[], rfl, by rwa [List.append_nil]⟩
  | cons c rest ih =>
    cases c with
    | get key => exact ih h hknown
    | intern content =>
      obtain ⟨hfirst, hrest⟩ := List.forall_mem_cons.mp hknown
      obtain ⟨kept, -, hfed⟩ := h.intern hfirst
      obtain ⟨more, hlen, hmore⟩ := ih hfed hrest
      rw [List.append_assoc] at hmore
      exact ⟨_, congrArg (· + 1) hlen, hmore⟩

def after (calls : List Call) : InternTable := empty.run calls

theorem after_append (calls more : List Call) :
    after (calls ++ more) = (after calls).run more := run_append ..

theorem exists_fed (calls : List Call) :
    ∃ got, got.length = (handedIn calls).length ∧
      (after calls).Fed (· ∈ handedIn calls) got :=
  Fed.empty.run calls fun _ h => h

theorem find?_after_eq_none_iff (calls : List Call) (key : Fingerprint) :
    (after calls).find? key = none ↔ key ∉ fingerprints calls := by
  rw [after, find?_run_eq_none_iff]
  exact and_iff_right (find?_eq_none_iff.mpr List.not_mem_nil)

/-- **One entry** for each fingerprint. -/
theorem size_after (calls : List Call) :
    (after calls).size = (fingerprints calls).dedup.length := by
  obtain ⟨got, -, hfed⟩ := exists_fed calls
  have hperm : ((after calls).entries.toList.map (·.key)).Perm (fingerprints calls).dedup :=
    (List.perm_ext_iff_of_nodup hfed.distinct (List.nodup_dedup _)).mpr fun key => by
      rw [List.mem_dedup, ← not_iff_not, ← find?_eq_none_iff, find?_after_eq_none_iff]
  rw [← hperm.length_eq, List.length_map, Array.length_toList, size]

def told (calls : List Call) (c : Call) : Option Nat := ((after calls).call c).1

/-- The place that a content is told is that of its fingerprint from then on. -/
theorem exists_told (earlier later : List Call) (content : TypedBytes) :
    ∃ place, told earlier (.intern content) = some place ∧
      (after (earlier ++ .intern content :: later)).find? content.fingerprint = some place := by
  refine ⟨_, rfl, ?_⟩
  rw [after_append]
  exact find?_run_of_find? later (find?_intern (after earlier) content)

/-- What is found under a fingerprint is told to all contents that have it. -/
theorem told_of_find? {calls : List Call} (h : (after calls).find? key = some place)
    (hkey : content.fingerprint = key) : told calls (.intern content) = some place := by
  obtain ⟨place', htold, hfind⟩ := exists_told calls [] content
  have hstays := find?_run_of_find? [.intern content] h
  rw [after_append, hkey, hstays] at hfind
  rw [htold, hfind]

/-- **The first content** with its fingerprint gets the next place, and stays there. -/
theorem first_told (earlier later : List Call)
    (hnew : content.fingerprint ∉ fingerprints earlier) :
    told earlier (.intern content) = some (after earlier).size ∧
      (after (earlier ++ .intern content :: later)).content? (after earlier).size =
        some content := by
  have hnone := (find?_after_eq_none_iff earlier _).mpr hnew
  have hadded : (after earlier).intern content =
      ((after earlier).size, (after earlier).add content.fingerprint content) := by
    rw [intern, hnone]
  have hcontent : ((after earlier).intern content).2.content? (after earlier).size =
      some content := by
    rw [hadded, content?_add, if_pos rfl]
  rw [told, call, hadded, after_append]
  exact ⟨rfl, content?_run later hcontent⟩

/-- Contents were told one place exactly if they have one fingerprint. -/
theorem told_eq_iff {earlier earlier' later later' : List Call} {other : TypedBytes}
    (h : earlier ++ .intern content :: later = earlier' ++ .intern other :: later') :
    told earlier (.intern content) = told earlier' (.intern other) ↔
      content.fingerprint = other.fingerprint := by
  obtain ⟨place, htold, hfind⟩ := exists_told earlier later content
  obtain ⟨place', htold', hfind'⟩ := exists_told earlier' later' other
  rw [← h] at hfind'
  rw [htold, htold', Option.some.injEq]
  constructor
  · rintro rfl
    exact key_eq_of_find? hfind hfind'
  · intro hkey
    rw [hkey] at hfind
    exact Option.some.inj (hfind.symm.trans hfind')

/-! ## §5 Fingerprints as good as contents -/

/-- No two of the forms that stand for these contents have one digest. -/
def DigestsApart (contents : List TypedBytes) : Prop :=
  ∀ a ∈ contents, ∀ b ∈ contents,
    Blake3.digest a.canonical = Blake3.digest b.canonical → a.canonical = b.canonical

instance (contents : List TypedBytes) : Decidable (DigestsApart contents) :=
  inferInstanceAs (Decidable (∀ a ∈ contents, ∀ b ∈ contents, _ → _))

namespace DigestsApart

variable {contents : List TypedBytes} {calls : List Call}

theorem fingerprint_eq_iff (h : DigestsApart contents) {a b : TypedBytes} (ha : a ∈ contents)
    (hb : b ∈ contents) : a.fingerprint = b.fingerprint ↔ a = b := by
  refine ⟨fun hsame => ?_, fun hsame => by rw [hsame]⟩
  unfold TypedBytes.fingerprint at hsame
  exact TypedBytes.canonical_inj (h a ha b hb hsame)

theorem mono {fewer : List TypedBytes} (h : DigestsApart contents)
    (hsub : ∀ content ∈ fewer, content ∈ contents) : DigestsApart fewer :=
  fun a ha b hb => h a (hsub a ha) b (hsub b hb)

/-- Where fingerprints stand for contents, a content is found under its own. -/
theorem content_of_find (h : DigestsApart (handedIn calls)) (hcontent : content ∈ handedIn calls)
    (hfind : (after calls).find? content.fingerprint = some place) :
    (after calls).content? place = some content := by
  obtain ⟨got, -, hfed⟩ := exists_fed calls
  obtain ⟨kept, hkept, hkey, hknown⟩ := hfed.holds.content_of_find hfind
  rw [hkept, (h.fingerprint_eq_iff hknown hcontent).mp hkey]

/-- So the place that a content is told has it, at once and from then on. -/
theorem exists_told_content {earlier later : List Call}
    (h : DigestsApart (handedIn (earlier ++ .intern content :: later))) :
    ∃ place, told earlier (.intern content) = some place ∧
      (after (earlier ++ [.intern content])).content? place = some content ∧
      (after (earlier ++ .intern content :: later)).content? place = some content := by
  obtain ⟨place, htold, hfind⟩ := exists_told earlier [] content
  rw [List.append_cons, handedIn_append] at h
  have hapart := h.mono fun _ hother => List.mem_append_left _ hother
  have hcontent := hapart.content_of_find (mem_handedIn earlier [] content) hfind
  refine ⟨place, htold, hcontent, ?_⟩
  rw [List.append_cons, after_append]
  exact content?_run later hcontent

end DigestsApart

/-- **A table is canonical over any history.** Every content handed in is counted once, as a hit or
as a miss, and there are as many entries as misses, and as fingerprints. The first content with its
fingerprint makes an entry of its own; its place is what every later call with this fingerprint is
told, and before that none is; and no entry is ever replaced or removed. If fingerprints are as
good as the forms they are made from, then what was handed in is what the place that was told has,
and the place is told to no other content. -/
theorem canonical_over_history (calls : List Call) :
    let t := after calls
    (t.hits + t.misses = (handedIn calls).length ∧ t.size = t.misses ∧
      t.misses = (fingerprints calls).dedup.length) ∧
    (∀ key, told calls (.get key) = none ↔ key ∉ fingerprints calls) ∧
    (∀ earlier content later, calls = earlier ++ .intern content :: later →
      content.fingerprint ∉ fingerprints earlier →
      let place := (after earlier).size
      told earlier (.intern content) = some place ∧
        told calls (.get content.fingerprint) = some place ∧
        (∀ other : TypedBytes, other.fingerprint = content.fingerprint →
          told calls (.intern other) = some place) ∧
        t.content? place = some content) ∧
    (∀ later, t.entries.toList <+: (after (calls ++ later)).entries.toList) ∧
    (DigestsApart (handedIn calls) →
      ∀ earlier content later, calls = earlier ++ .intern content :: later →
        (∃ place, told earlier (.intern content) = some place ∧
          (after (earlier ++ [.intern content])).content? place = some content ∧
          t.content? place = some content) ∧
        ∀ earlier' other later', calls = earlier' ++ .intern other :: later' →
          (told earlier (.intern content) = told earlier' (.intern other) ↔
            content.kind = other.kind ∧ content.data = other.data)) := by
  intro t
  refine ⟨?counted, find?_after_eq_none_iff calls, ?first, ?kept, ?apart⟩
  case counted =>
    obtain ⟨got, hlen, hfed⟩ := exists_fed calls
    exact ⟨hlen ▸ hfed.counted, hfed.misses_eq.symm, hfed.misses_eq.trans (size_after calls)⟩
  case first =>
    rintro earlier content later rfl hnew place
    obtain ⟨htold, hcontent⟩ := first_told earlier later hnew
    obtain ⟨place', htold', hfind⟩ := exists_told earlier later content
    rw [htold, Option.some.injEq] at htold'
    rw [← htold'] at hfind
    exact ⟨htold, hfind, fun other hkey => told_of_find? hfind hkey, hcontent⟩
  case kept =>
    intro later
    rw [after_append]
    exact t.entries_run later
  case apart =>
    rintro hapart earlier content later rfl
    refine ⟨hapart.exists_told_content, fun earlier' other later' h => ?_⟩
    have hmem := mem_handedIn earlier later content
    have hmem' := mem_handedIn earlier' later' other
    rw [← h] at hmem'
    -- the place tells the fingerprint, and the fingerprint the content
    rw [told_eq_iff h, hapart.fingerprint_eq_iff hmem hmem', TypedBytes.mk.injEq]

/-- The same bytes under two kinds, and under the first one again. -/
def sampleCalls : List Call :=
  [.intern ⟨1, [7]⟩, .get [], .intern ⟨2, [7]⟩, .intern ⟨1, [7]⟩]

theorem canonical_over_history_sample :
    DigestsApart (handedIn sampleCalls) ∧
      told [] (.intern ⟨1, [7]⟩) = some 0 ∧ told sampleCalls (.intern ⟨1, [7]⟩) = some 0 ∧
      (after sampleCalls).content? 0 = some ⟨1, [7]⟩ ∧
      told (sampleCalls.take 2) (.intern ⟨2, [7]⟩) ≠ told [] (.intern ⟨1, [7]⟩) := by
  have hapart : DigestsApart (handedIn sampleCalls) := by decide +kernel
  obtain ⟨-, -, hfirst, -, hcanonical⟩ := canonical_over_history sampleCalls
  obtain ⟨htold, -, hlater, hcontent⟩ := hfirst [] ⟨1, [7]⟩ _ rfl List.not_mem_nil
  obtain ⟨-, hplaces⟩ := hcanonical hapart (sampleCalls.take 2) ⟨2, [7]⟩ _ rfl
  refine ⟨hapart, htold, hlater _ rfl, hcontent, fun hsame => ?_⟩
  obtain ⟨hkind, -⟩ := (hplaces [] ⟨1, [7]⟩ _ rfl).mp hsame
  exact absurd hkind (by decide)

end InternTable

end Granule
