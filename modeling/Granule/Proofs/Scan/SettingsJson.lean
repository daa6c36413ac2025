import Granule.Proofs.Json.Library
import Granule.Scan.Json
import Mathlib.Data.List.Nodup

/-!
# Scan Settings Survive JSON

Settings that are written as JSON and read back are the same settings. More than
that, the text may be anyone's: fields come in any order, some of them are left
out, blanks stand wherever JSON lets them, and other members with values of any kind
stand in between. What is read then agrees with the settings that were meant on
each field the text gives, and with the usual settings on the others. Any library will do that
takes the steps that are relied on.

**Main statement**: `ScanSettings.survives_json` — settings are read back from every text that
is written for some of their fields.
-/

namespace Granule

open Json

namespace ScanSettings

/-! ## §1 Fields -/

/-- A field of scan settings. -/
inductive Field where
  | lookWindow
  | headerLimit
  | blockSize
  | acceptsImpliedEnd
  | acceptsNoTrailer
deriving DecidableEq, Repr

namespace Field

/-- The name of a field in JSON. -/
def name : Field → String
  | lookWindow => "sniff_window"
  | headerLimit => "max_header_len"
  | blockSize => "search_block"
  | acceptsImpliedEnd => "allow_inner_length"
  | acceptsNoTrailer => "allow_missing_trailer"

/-- The value of a field in JSON. -/
def value (o : ScanSettings) : Field → Value
  | lookWindow => .natural o.lookWindow
  | headerLimit => .natural o.headerLimit
  | blockSize => .natural o.blockSize
  | acceptsImpliedEnd => .boolean o.acceptsImpliedEnd
  | acceptsNoTrailer => .boolean o.acceptsNoTrailer

def kind : Field → FieldKind
  | lookWindow | headerLimit | blockSize => .natural
  | acceptsImpliedEnd | acceptsNoTrailer => .boolean

def all : List Field :=
  [lookWindow, headerLimit, blockSize, acceptsImpliedEnd, acceptsNoTrailer]

theorem mem_all (f : Field) : f ∈ all := by
  cases f <;> decide

theorem name_injective : Function.Injective name := by
  intro f g h
  cases f <;> cases g <;> first | rfl | exact absurd h (by decide)

theorem isPlain_name (f : Field) : f.name.toList.all isPlain = true := by
  cases f <;> decide

def decl (f : Field) : FieldDecl := ⟨f.name, f.kind, some (f.value {})⟩

theorem fieldDecls_eq : fieldDecls = all.map decl := rfl

theorem values_eq (o : ScanSettings) : o.values = all.map (value o) := rfl

theorem nodup_names : (fieldDecls.map (·.name)).Nodup := by decide

end Field

/-- The settings agree with some on given fields, and with the usual ones on the others. -/
def AgreesOn (read o : ScanSettings) (fields : List Field) : Prop :=
  ∀ f : Field, f.value read = f.value (if f ∈ fields then o else {})

/-- Settings are determined by their fields. -/
theorem eq_of_value {o read : ScanSettings} (h : ∀ f : Field, f.value read = f.value o) :
    read = o := by
  have hvalues : read.values = o.values := by
    rw [Field.values_eq, Field.values_eq]
    exact List.map_congr_left fun f _ => h f
  exact Option.some.inj (by rw [← ofValues?_values read, hvalues, ofValues?_values])

/-- Settings with whole numbers that have a place in a word. -/
structure InWords (o : ScanSettings) : Prop where
  lookWindow_lt : o.lookWindow < 2 ^ 64
  headerLimit_lt : o.headerLimit < 2 ^ 64
  blockSize_lt : o.blockSize < 2 ^ 64

/-- In words, the values of settings are of the kinds that are declared. -/
theorem InWords.takes {o : ScanSettings} (h : o.InWords) (f : Field) :
    f.kind.takes (f.value o) = true := by
  cases f with
  | lookWindow => exact decide_eq_true (Nat.le_pred_of_lt h.lookWindow_lt)
  | headerLimit => exact decide_eq_true (Nat.le_pred_of_lt h.headerLimit_lt)
  | blockSize => exact decide_eq_true (Nat.le_pred_of_lt h.blockSize_lt)
  | acceptsImpliedEnd => rfl
  | acceptsNoTrailer => rfl

/-! ## §2 Reading -/

section Reading

variable {lib : Library} {o : ScanSettings} {fields : List Field} {text : String}

def given (o : ScanSettings) (fields : List Field) : List (String × Value) :=
  fields.map fun f => (f.name, f.value o)

theorem names_given (o : ScanSettings) (fields : List Field) :
    (o.given fields).map (·.1) = fields.map Field.name := by
  simp [given, Function.comp_def]

theorem nodup_names_given (o : ScanSettings) (honce : fields.Nodup) :
    ((o.given fields).map (·.1)).Nodup := by
  rw [names_given]
  exact honce.map Field.name_injective

/-- The values of fields suit them, if no field is given twice. -/
theorem suits_given (hwords : o.InWords) (honce : fields.Nodup) :
    Suits fieldDecls (o.given fields) where
  nodup := nodup_names_given o honce
  takes m hm := by
    obtain ⟨f, -, rfl⟩ := List.mem_map.mp hm
    refine ⟨f.decl, ?_, rfl, hwords.takes f⟩
    rw [Field.fieldDecls_eq]
    exact List.mem_map_of_mem f.mem_all

/-- A field that is given is known by its value, and no other is. -/
theorem fillAll_given (o : ScanSettings) (honce : fields.Nodup) (f : Field) :
    Slots.empty.fillAll (o.given fields) f.name =
      if f ∈ fields then some (f.value o) else none := by
  split
  case isTrue hmem =>
    exact Slots.fillAll_of_mem _ (nodup_names_given o honce)
      (List.mem_map_of_mem (f := fun f => (f.name, f.value o)) hmem)
  case isFalse hmem =>
    refine Slots.fillAll_of_not_mem _ fun hname => hmem ?_
    rw [names_given] at hname
    obtain ⟨g, hg, heq⟩ := List.mem_map.mp hname
    exact Field.name_injective heq ▸ hg

/-- The settings on some fields, and the usual ones on the others. -/
def keep (o : ScanSettings) (fields : List Field) : ScanSettings :=
  let usual : ScanSettings := {}
  { lookWindow := if .lookWindow ∈ fields then o.lookWindow else usual.lookWindow
    headerLimit := if .headerLimit ∈ fields then o.headerLimit else usual.headerLimit
    blockSize := if .blockSize ∈ fields then o.blockSize else usual.blockSize
    acceptsImpliedEnd :=
      if .acceptsImpliedEnd ∈ fields then o.acceptsImpliedEnd else usual.acceptsImpliedEnd
    acceptsNoTrailer :=
      if .acceptsNoTrailer ∈ fields then o.acceptsNoTrailer else usual.acceptsNoTrailer }

theorem agreesOn_keep (o : ScanSettings) (fields : List Field) :
    (o.keep fields).AgreesOn o fields := by
  intro f
  cases f <;> simp only [Field.value, keep] <;> split <;> rfl

/-- Where a text gives some fields, these are read, and the others are as usual. -/
theorem ofJson?_eq (hlib : lib.Lawful) (hwords : o.InWords) (honce : fields.Nodup)
    (h : GivesObject fieldDecls (o.given fields) text.toList) :
    ofJson? lib text = some (o.keep fields) := by
  have hvalue : ∀ f : Field, (Slots.empty.fillAll (o.given fields) f.decl.name).or f.decl.absent =
      some (f.value (o.keep fields)) := fun f => by
    rw [Field.decl, fillAll_given o honce, agreesOn_keep o fields f]
    split <;> rfl
  have hvalues : fieldDecls.mapM (fun f =>
      (Slots.empty.fillAll (o.given fields) f.name).or f.absent) =
        some (o.keep fields).values := by
    rw [Field.fieldDecls_eq, Field.values_eq]
    simp [Field.all, hvalue]
  rw [ofJson?, hlib.values?_eq Field.nodup_names h (suits_given hwords honce) hvalues]
  exact ofValues?_values _

end Reading

/-! ## §3 Writing -/

/-- Members of an object that are written for fields give these. -/
theorem gives_given {o : ScanSettings} {fields : List Field}
    {members : List (List Char × List Char)} {cs : List Char} (h : Outer members cs)
    (hmembers : (o.given fields).map (fun m => (m.1.toList, m.2.render.toList)) = members) :
    Gives fieldDecls (o.given fields) cs := by
  induction h generalizing fields with
  | one _ hnamed =>
    match fields, hmembers with
    | [f], heq =>
      cases heq
      exact .field hnamed
  | more _ hnamed _ ih =>
    match fields, hmembers with
    | f :: fields, heq =>
      cases heq
      exact .fields hnamed (ih rfl)

/-- What is written gives all fields. -/
theorem givesObject_toJson {lib : Library} (hlib : lib.Lawful) {o : ScanSettings}
    (hwords : o.InWords) :
    GivesObject fieldDecls (o.given Field.all) (o.toJson lib).toList := by
  have hwritten := hlib.writes (o.given Field.all) fun m hm => by
    obtain ⟨f, -, rfl⟩ := List.mem_map.mp hm
    exact ⟨f.isPlain_name, f.kind, hwords.takes f⟩
  cases hwritten with
  | members houter hitem => exact .members (gives_given houter rfl) hitem

/-- Settings are read back from the text that is written for them, and from every text that gives
some of their fields, once each: the fields that it gives are read, and the others are as usual. -/
theorem survives_json (lib : Library) (hlib : lib.Lawful) (o : ScanSettings) (hwords : o.InWords) :
    ofJson? lib (o.toJson lib) = some o ∧
      ∀ (fields : List Field) (text : String), fields.Nodup →
        GivesObject fieldDecls (o.given fields) text.toList →
          ∃ read, ofJson? lib text = some read ∧ read.AgreesOn o fields := by
  refine ⟨?_, fun fields text honce h =>
    ⟨_, ofJson?_eq hlib hwords honce h, agreesOn_keep o fields⟩⟩
  -- what is written gives all fields, so none is left to the usual settings
  rw [ofJson?_eq hlib hwords (by decide) (givesObject_toJson hlib hwords)]
  refine congrArg some (eq_of_value fun f => ?_)
  rw [agreesOn_keep o Field.all f, if_pos f.mem_all]

/-- One field behind a member of another name, which holds an array. -/
theorem survives_json_one_field :
    Library.plain.Lawful ∧ InWords { lookWindow := 2 ^ 64 - 1, headerLimit := 8 } ∧
      ∃ read, ofJson? .plain "\x7b \"x\" : [-1 ],\"max_header_len\":8\x7d" = some read ∧
        Field.value read .lookWindow = .natural 16000 ∧
        Field.value read .headerLimit = .natural 8 := by
  have hwords : InWords { lookWindow := 2 ^ 64 - 1, headerLimit := 8 } :=
    ⟨by decide, by decide, by decide⟩
  have hone : Blanks [' '] := by simp [Blanks]
  have hnumber : Json.Number ['-', '1'] :=
    .mk (List.mem_cons_of_mem _ List.mem_cons_self) (Whole.toDigits 1) .none .none
  have harray : Text .value ['[', '-', '1', ' ', ']'] :=
    .array (.item (.number hnumber) (.mk .nil hone))
  have hother : Named ['x'] ['[', '-', '1', ' ', ']']
      [' ', '"', 'x', '"', ' ', ':', ' ', '[', '-', '1', ' ', ']'] :=
    ⟨_, .of_scalars _, .mk hone (.of_plain (by decide)) hone hone .nil⟩
  have hfield : Named Field.headerLimit.name.toList ['8'] "\"max_header_len\":8".toList :=
    .renderMember (.natural 8) (by decide)
  have hgives : GivesObject fieldDecls
      (given { lookWindow := 2 ^ 64 - 1, headerLimit := 8 } [.headerLimit])
      "\x7b \"x\" : [-1 ],\"max_header_len\":8\x7d".toList :=
    .members (.others (by decide) harray hother (.field hfield)) (.mk .nil .nil)
  obtain ⟨read, hread, hvalue⟩ :=
    (survives_json .plain Library.plain_lawful _ hwords).2 _ _ (by decide) hgives
  exact ⟨Library.plain_lawful, hwords, read, hread, hvalue .lookWindow, hvalue .headerLimit⟩

end ScanSettings

end Granule
