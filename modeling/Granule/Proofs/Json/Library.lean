import Granule.Json.Library
import Granule.Proofs.Json.Reading

/-!
# What a Library for JSON Records Does

What is relied on of a library is said one step at a time, with texts told by the grammar and
not by any reader: an object is written with its members, the members of an object are read in
their order, one more member is passed over or kept, and a field left out has its value for
absence. From these steps it follows what is read from a whole text in which some of the
declared fields are given, once each.

**Main statements**:
- `Json.Library.Lawful.values?_eq` : the fields that a text gives are read, and the others are
  as declared for absence
- `Json.Library.plain_lawful` : the plain library does what is relied on
-/

namespace Granule.Json

/-! ## §1 What is relied on -/

/-- A member of an object as it is taken: with its name, and with its value where the text of that is
the one of a number in a word or of a truth value. -/
structure IsTakenAs (written : List Char × List Char) (read : List Char × Value) : Prop where
  name_eq : read.1 = written.1
  value_eq : ∀ (kind : FieldKind) (value : Value), kind.takes value = true →
    written.2 = value.render.toList → read.2 = value

/-- What is relied on of a library, and of the code that it generates for fields. -/
structure Library.Lawful (lib : Library) : Prop where
  /-- A record is written as the text of an object with its values, in their order. -/
  writes : ∀ members : List (String × Value),
    (∀ m ∈ members, m.1.toList.all isPlain = true ∧ ∃ kind : FieldKind, kind.takes m.2 = true) →
      OuterObject (members.map fun m => (m.1.toList, m.2.render.toList)) (lib.write members).toList
  /-- The members of an object are read in their order. -/
  reads : ∀ (members : List (List Char × List Char)) (text : String),
    OuterObject members text.toList → ∃ read, lib.read text = some (.object read) ∧
      List.Forall₂ IsTakenAs members read
  /-- A member that has the name of no field is passed over. -/
  passes : ∀ (fields : List FieldDecl) (slots : Slots) (name : List Char) (value : Value),
    (∀ f ∈ fields, name ≠ f.name.toList) → lib.keep fields slots (name, value) = some slots
  /-- A value of its kind is kept for a field that is not known yet. -/
  keeps : ∀ (fields : List FieldDecl) (slots : Slots) (f : FieldDecl) (value : Value),
    (fields.map (·.name)).Nodup → f ∈ fields → slots f.name = none → f.kind.takes value = true →
      lib.keep fields slots (f.name.toList, value) = some (slots.fill f.name value)
  /-- Fields that are not known have their values for absence. -/
  completes : ∀ (fields : List FieldDecl) (slots : Slots) (values : List Value),
    fields.mapM (fun f => (slots f.name).or f.absent) = some values →
      lib.complete fields slots = some values

/-! ## §2 Texts that give fields -/

/-- Members that give values to fields, in the order of the list, with any members between them
that have the names of no fields. -/
inductive Gives (fields : List FieldDecl) : List (String × Value) → List Char → Prop
  | field {name : String} {value : Value} {cs : List Char} :
      Named name.toList value.render.toList cs → Gives fields [(name, value)] cs
  | fields {name : String} {value : Value} {given : List (String × Value)} {cs more : List Char} :
      Named name.toList value.render.toList cs → Gives fields given more →
      Gives fields ((name, value) :: given) (cs ++ ',' :: more)
  | other {name value cs : List Char} : (∀ f ∈ fields, name ≠ f.name.toList) →
      Text .value value → Named name value cs → Gives fields [] cs
  | others {name value cs more : List Char} {given : List (String × Value)} :
      (∀ f ∈ fields, name ≠ f.name.toList) → Text .value value → Named name value cs →
      Gives fields given more → Gives fields given (cs ++ ',' :: more)

/-- The text of an object that gives values to fields. -/
inductive GivesObject (fields : List FieldDecl) : List (String × Value) → List Char → Prop
  | empty {cs text : List Char} : Blanks cs → Item ('\x7b' :: (cs ++ ['\x7d'])) text →
      GivesObject fields [] text
  | members {given : List (String × Value)} {cs text : List Char} : Gives fields given cs →
      Item ('\x7b' :: (cs ++ ['\x7d'])) text → GivesObject fields given text

/-- Values that fields take are given to them, to each field once. -/
structure Suits (fields : List FieldDecl) (given : List (String × Value)) : Prop where
  nodup : (given.map (·.1)).Nodup
  takes : ∀ m ∈ given, ∃ f ∈ fields, f.name = m.1 ∧ f.kind.takes m.2 = true

/-- The text of a value that some field takes is JSON text. -/
theorem FieldKind.text_of_takes {kind : FieldKind} {value : Value} (h : kind.takes value = true) :
    Text .value value.render.toList := by
  match kind, value with
  | .natural, .natural n =>
    have hnumber : Json.Number ([] ++ (Nat.toDigits 10 n ++ ([] ++ []))) :=
      .mk List.mem_cons_self (Whole.toDigits n) .none .none
    simpa [Value.render] using Text.number hnumber
  | .boolean, .boolean true => exact .word (by decide)
  | .boolean, .boolean false => exact .word (by decide)

/-! ## §3 Slots -/

namespace Slots

@[simp] theorem fill_self (slots : Slots) (name : String) (value : Value) :
    slots.fill name value name = some value := if_pos rfl

theorem fill_of_ne {name other : String} (h : other ≠ name) (slots : Slots) (value : Value) :
    slots.fill name value other = slots other := if_neg h

def fillAll (slots : Slots) (given : List (String × Value)) : Slots :=
  given.foldl (fun slots m => slots.fill m.1 m.2) slots

theorem fillAll_of_not_mem {given : List (String × Value)} {name : String} (slots : Slots)
    (h : name ∉ given.map (·.1)) : slots.fillAll given name = slots name := by
  induction given generalizing slots with
  | nil => rfl
  | cons m given ih =>
    simp only [List.map_cons, List.mem_cons, not_or] at h
    exact (ih _ h.2).trans (fill_of_ne h.1 _ _)

/-- A value that is given once is found. -/
theorem fillAll_of_mem {given : List (String × Value)} {name : String} {value : Value}
    (slots : Slots) (hnodup : (given.map (·.1)).Nodup) (h : (name, value) ∈ given) :
    slots.fillAll given name = some value := by
  induction given generalizing slots with
  | nil => cases h
  | cons m given ih =>
    simp only [List.map_cons, List.nodup_cons] at hnodup
    cases h with
    | head => exact (fillAll_of_not_mem _ hnodup.1).trans (fill_self _ _ _)
    | tail _ h => exact ih _ hnodup.2 h

end Slots

/-! ## §4 Reading -/

namespace Library.Lawful

variable {lib : Library} {fields : List FieldDecl} {given : List (String × Value)}

/-- A member that gives a value to a field is kept with this value. -/
private theorem keep_eq (hlib : lib.Lawful) (hfields : (fields.map (·.name)).Nodup)
    {name : String} {value : Value} {read : List Char × Value} {slots : Slots}
    (htakes : ∃ f ∈ fields, f.name = name ∧ f.kind.takes value = true) (hnone : slots name = none)
    (hread : IsTakenAs (name.toList, value.render.toList) read) :
    lib.keep fields slots read = some (slots.fill name value) := by
  obtain ⟨f, hf, rfl, htakes⟩ := htakes
  obtain ⟨key, found⟩ := read
  obtain rfl : key = f.name.toList := hread.name_eq
  obtain rfl : found = value := hread.value_eq f.kind value htakes rfl
  exact hlib.keeps fields slots f found hfields hf hnone htakes

/-- Of the members of a text that gives fields, the values that are given are kept. -/
private theorem foldlM_keep_eq (hlib : lib.Lawful) (hfields : (fields.map (·.name)).Nodup)
    {cs : List Char} (h : Gives fields given cs) (hsuits : Suits fields given) :
    ∃ members, Outer members cs ∧ ∀ read, List.Forall₂ IsTakenAs members read →
      ∀ slots : Slots, (∀ m ∈ given, slots m.1 = none) →
        read.foldlM (lib.keep fields) slots = some (slots.fillAll given) := by
  -- on the members: those of fields fill their slots, and the others leave all slots alone
  induction h with
  | @field name value cs hnamed =>
    obtain ⟨f, hf, hname, htakes⟩ := hsuits.takes _ List.mem_cons_self
    refine ⟨_, .one (FieldKind.text_of_takes htakes) hnamed, fun read hread slots hslots => ?_⟩
    cases hread with
    | cons hfirst hrest =>
      cases hrest
      simp [hlib.keep_eq hfields ⟨f, hf, hname, htakes⟩ (hslots _ List.mem_cons_self) hfirst,
        Slots.fillAll]
  | @fields name value given cs more hnamed _ ih =>
    obtain ⟨f, hf, hname, htakes⟩ := hsuits.takes _ List.mem_cons_self
    have hnodup : name ∉ given.map (·.1) ∧ (given.map (·.1)).Nodup :=
      List.nodup_cons.mp hsuits.nodup
    obtain ⟨members, houter, hkept⟩ :=
      ih ⟨hnodup.2, fun m hm => hsuits.takes m (List.mem_cons_of_mem _ hm)⟩
    refine ⟨_, .more (FieldKind.text_of_takes htakes) hnamed houter,
      fun read hread slots hslots => ?_⟩
    cases hread with
    | cons hfirst hrest =>
      have hslots' : ∀ m ∈ given, slots.fill name value m.1 = none := fun m hm => by
        have hne : m.1 ≠ name := fun heq => hnodup.1 (heq ▸ List.mem_map_of_mem hm)
        rw [Slots.fill_of_ne hne]
        exact hslots m (List.mem_cons_of_mem _ hm)
      rw [List.foldlM_cons,
        hlib.keep_eq hfields ⟨f, hf, hname, htakes⟩ (hslots _ List.mem_cons_self) hfirst]
      exact hkept _ hrest _ hslots'
  | other hother htext hnamed =>
    refine ⟨_, .one htext hnamed, fun read hread slots _ => ?_⟩
    cases hread with
    | @cons _ r _ _ hfirst hrest =>
      cases hrest
      simp [hlib.passes fields slots r.1 r.2 (hfirst.name_eq ▸ hother), Slots.fillAll]
  | others hother htext hnamed _ ih =>
    obtain ⟨members, houter, hkept⟩ := ih hsuits
    refine ⟨_, .more htext hnamed houter, fun read hread slots hslots => ?_⟩
    cases hread with
    | @cons _ r _ _ hfirst hrest =>
      rw [List.foldlM_cons, hlib.passes fields slots r.1 r.2 (hfirst.name_eq ▸ hother)]
      exact hkept _ hrest slots hslots

/-- From a text that gives fields, the values given are read, and the other fields have their
values for absence. -/
theorem values?_eq (hlib : lib.Lawful) (hfields : (fields.map (·.name)).Nodup) {text : String}
    (h : GivesObject fields given text.toList) (hsuits : Suits fields given) {values : List Value}
    (hvalues : fields.mapM (fun f => (Slots.empty.fillAll given f.name).or f.absent) =
      some values) : lib.values? fields text = some values := by
  cases h with
  | empty hblanks hitem =>
    obtain ⟨read, hread, hall⟩ := hlib.reads _ _ (.empty hblanks hitem)
    cases hall
    simp only [values?, hread]
    exact hlib.completes _ _ _ hvalues
  | members hgives hitem =>
    obtain ⟨members, houter, hkept⟩ := hlib.foldlM_keep_eq hfields hgives hsuits
    obtain ⟨read, hread, hall⟩ := hlib.reads _ _ (.members houter hitem)
    simp only [values?, hread, Option.bind_eq_bind, Option.bind_some,
      hkept read hall Slots.empty fun _ _ => rfl]
    exact hlib.completes _ _ _ hvalues

end Library.Lawful

/-! ## §5 The plain library -/

/-- Members that are written one after the other are those of an object. -/
private theorem outer_intercalate {first : String × Value} {rest : List (String × Value)}
    (h : ∀ m ∈ first :: rest, m.1.toList.all isPlain = true ∧ ∃ kind : FieldKind,
      kind.takes m.2 = true) :
    Outer ((first :: rest).map fun m => (m.1.toList, m.2.render.toList))
      (",".intercalate ((first :: rest).map fun m => Document.renderMember m.1 m.2)).toList := by
  induction rest generalizing first with
  | nil =>
    obtain ⟨hplain, kind, htakes⟩ := h first List.mem_cons_self
    simpa using Outer.one (FieldKind.text_of_takes htakes) (Named.renderMember first.2 hplain)
  | cons second rest ih =>
    obtain ⟨⟨hplain, kind, htakes⟩, hrest⟩ := List.forall_mem_cons.mp h
    simpa [String.intercalate_cons_cons] using Outer.more (FieldKind.text_of_takes htakes)
      (Named.renderMember first.2 hplain) (ih hrest)

/-- What is written is the text of an object. -/
private theorem outerObject_renderObject {members : List (String × Value)}
    (h : ∀ m ∈ members, m.1.toList.all isPlain = true ∧ ∃ kind : FieldKind,
      kind.takes m.2 = true) :
    OuterObject (members.map fun m => (m.1.toList, m.2.render.toList))
      (Document.renderObject members).toList := by
  have hobject : (Document.renderObject members).toList = [] ++ (('\x7b' ::
      ((",".intercalate (members.map fun m => Document.renderMember m.1 m.2)).toList ++
        ['\x7d'])) ++ []) := by
    simp [Document.renderObject]
  rw [hobject]
  cases members with
  | nil => exact .empty .nil (.mk .nil .nil)
  | cons first rest => exact .members (outer_intercalate h) (.mk .nil .nil)

/-- A field is found by its name. -/
private theorem find?_name_eq {fields : List FieldDecl} {f : FieldDecl}
    (hfields : (fields.map (·.name)).Nodup) (hf : f ∈ fields) :
    fields.find? (·.name.toList = f.name.toList) = some f := by
  induction fields with
  | nil => cases hf
  | cons g fields ih =>
    simp only [List.map_cons, List.nodup_cons] at hfields
    cases hf with
    | head => simp
    | tail _ hf =>
      have hne : g.name.toList ≠ f.name.toList := fun heq =>
        hfields.1 (String.toList_injective heq ▸ List.mem_map_of_mem hf)
      simpa [hne] using ih hfields.2 hf

/-- The plain library does what is relied on. -/
theorem Library.plain_lawful : Library.plain.Lawful where
  writes _ h := outerObject_renderObject h
  reads members text h := by
    obtain ⟨read, hall, hread⟩ := h.parse?_eq
    exact ⟨read, hread, hall.imp fun _ _ hr => ⟨hr.1, fun _ value _ heq => hr.2 value heq⟩⟩
  passes fields slots name value hother := by
    have hnone : fields.find? (·.name.toList = name) = none :=
      List.find?_eq_none.mpr fun f hf heq => hother f hf (of_decide_eq_true heq).symm
    simp [plain, keepMember, hnone]
  keeps fields slots f value hfields hf hnone htakes := by
    simp [plain, keepMember, find?_name_eq hfields hf, hnone, htakes]
  completes _ _ _ h := h

end Granule.Json
