import Granule.Proofs.Json.Grammar
import Mathlib.Data.List.Forall2

/-!
# Reading What the Grammar Derives

Whatever the grammar derives is read. A nested value is passed over token by token,
with the open brackets at hand, and the walk comes out behind the last token of the
value. So does the reader of the outermost level, which in addition keeps whole
numbers and truth values: the members of an object come out in the order in
which they are written.

**Main statements**:
- `Json.Text.walks` : every part of JSON text is walked over
- `Json.OuterObject.parse?_eq` : an object is read as its members
-/

namespace Granule.Json

/-! ## §1 Stretches of text -/

/-- Text that is read as tokens, in front of anything that does not go on with a number. -/
def IsRead (cs : List Char) (ts : List Token) : Prop :=
  ∀ rest, Ends rest → Lexes (cs ++ rest) ts rest

theorem Item.isRead {value cs : List Char} {ts : List Token} (h : Item value cs)
    (hvalue : IsRead value ts) : IsRead cs ts := by
  obtain @⟨a, b, ha, hb⟩ := h
  intro rest hrest
  simp only [List.append_assoc]
  have hbehind := (hvalue _ (hrest.blanks hb)).trans (Lexes.blanks hb rest)
  simpa using (Lexes.blanks ha _).trans hbehind

theorem Member.isRead {name : List Nat} {value cs : List Char} {ts : List Token}
    (h : Member name value cs) (hvalue : IsRead value ts) :
    IsRead cs (.text name :: .colon :: ts) := by
  obtain @⟨a, key, b, c, d, ha, hkey, hb, hc, hd⟩ := h
  intro rest hrest
  simp only [List.append_assoc, List.cons_append]
  have hbehind := (hvalue _ (hrest.blanks hd)).trans (Lexes.blanks hd rest)
  have hcolon : Lexes (':' :: (c ++ (value ++ (d ++ rest)))) (.colon :: ts) rest :=
    Lexes.cons rfl rfl (by simpa using (Lexes.blanks hc _).trans hbehind)
  have hname := (Lexes.quoted hkey _).trans ((Lexes.blanks hb _).trans hcolon)
  simpa using (Lexes.blanks ha _).trans hname

/-- Brackets around text. -/
theorem IsRead.enclose {cs : List Char} {ts : List Token} {first last : Char}
    {opening closing : Token} (h : IsRead cs ts) (hfirst : isBlank first = false)
    (hlast : isBlank last = false) (hopening : ∀ rest, readToken first rest = some (opening, rest))
    (hclosing : ∀ rest, readToken last rest = some (closing, rest))
    (hends : continuesNumber last = false) :
    IsRead (first :: (cs ++ [last])) (opening :: (ts ++ [closing])) := by
  intro rest _
  simp only [List.append_assoc, List.cons_append, List.nil_append]
  exact Lexes.cons hfirst (hopening _)
    ((h _ (Ends.cons hends rest)).trans (Lexes.token hlast (hclosing rest)))

/-- Text, a comma and more text. -/
theorem IsRead.comma {cs more : List Char} {ts us : List Token} (h : IsRead cs ts)
    (hmore : IsRead more us) : IsRead (cs ++ ',' :: more) (ts ++ .comma :: us) := by
  intro rest hrest
  simp only [List.append_assoc, List.cons_append]
  exact (h _ (Ends.cons rfl _)).trans (Lexes.cons rfl rfl (hmore rest hrest))

theorem Blanks.isRead {cs : List Char} (h : Blanks cs) : IsRead cs [] :=
  fun rest _ => Lexes.blanks h rest

/-! ## §2 Nested values -/

/-- The place behind a closing bracket: outside all brackets, the tokens that follow are left. -/
def leave (outer : List Bracket) (more : List Token) : Option (List Token) :=
  if outer.isEmpty then some more else skip ⟨outer, .separator⟩ more

/-- A token after which a bracket is still open is passed. -/
private theorem skip_inside {n : Nesting} {t : Token} {b : Bracket} {bs : List Bracket}
    {e : Expectation} (h : n.advance t = some ⟨b :: bs, e⟩) (more : List Token) :
    skip n (t :: more) = skip ⟨b :: bs, e⟩ more := by
  rw [skip, h]
  rfl

/-- A token that closes a bracket is passed, and the walk ends if it was the last one open. -/
private theorem skip_closing {n : Nesting} {t : Token} {outer : List Bracket}
    (h : n.advance t = some ⟨outer, .separator⟩) (more : List Token) :
    skip n (t :: more) = leave outer more := by
  rw [skip, h]
  rfl

/-- The tokens of a part of a text are walked over, wherever it may stand. -/
def Walks : Part → List Token → Prop
  | .value, ts =>
    (∀ inner outer more, ∀ e ∈ [Expectation.value, .firstValue],
      skip ⟨inner :: outer, e⟩ (ts ++ more) = skip ⟨inner :: outer, .separator⟩ more) ∧
    ∃ value, ∀ more, readValue (ts ++ more) = some (value, more)
  | .items, ts => ∀ outer more, ∀ e ∈ [Expectation.value, .firstValue],
      skip ⟨.bracket :: outer, e⟩ (ts ++ .closeBracket :: more) = leave outer more
  | .members, ts => ∀ outer more, ∀ e ∈ [Expectation.key, .firstKey],
      skip ⟨.brace :: outer, e⟩ (ts ++ .closeBrace :: more) = leave outer more

namespace Walks

variable {ts us : List Token} {e : Expectation}

/-- Where a value may come next, a token that starts one is passed. -/
private theorem advance_eq {n next : Nesting} {t : Token} (h : n.enter t = some next)
    (he : n.expects ∈ [Expectation.value, .firstValue]) : n.advance t = some next := by
  obtain ⟨brackets, e⟩ := n
  simp only [List.mem_cons, List.not_mem_nil, or_false] at he
  rcases he with rfl | rfl
  · exact h
  · -- the end of an array does not start a value
    cases t <;> first | exact h | cases h

/-- A value of a single token. -/
theorem scalar {t : Token} {value : Value}
    (henter : ∀ n : Nesting, n.enter t = some ⟨n.brackets, .separator⟩)
    (hread : ∀ more, readValue (t :: more) = some (value, more)) : Walks .value [t] := by
  refine ⟨fun inner outer more e he => ?_, value, hread⟩
  have hadvance : (Nesting.mk (inner :: outer) e).advance t =
      some ⟨inner :: outer, .separator⟩ := advance_eq (henter _) he
  exact skip_inside hadvance more

/-- A value in brackets or braces. -/
private theorem enclosed {opening closing : Token} {kind : Bracket} {first : Expectation}
    (henter : ∀ n : Nesting, n.enter opening = some ⟨kind :: n.brackets, first⟩)
    (hread : ∀ rest, readValue (opening :: rest) =
      (skip ⟨[kind], first⟩ rest).map (.other, ·))
    (h : ∀ outer more, skip ⟨kind :: outer, first⟩ (ts ++ closing :: more) = leave outer more) :
    Walks .value (opening :: (ts ++ [closing])) := by
  refine ⟨fun inner outer more e he => ?_, .other, fun more => ?_⟩
  · have hadvance : (Nesting.mk (inner :: outer) e).advance opening =
        some ⟨kind :: inner :: outer, first⟩ := advance_eq (henter _) he
    rw [List.cons_append, List.append_assoc, skip_inside hadvance]
    exact h (inner :: outer) more
  · simp [hread, h, leave]

theorem array (h : ∀ outer more,
      skip ⟨.bracket :: outer, .firstValue⟩ (ts ++ .closeBracket :: more) = leave outer more) :
    Walks .value (.openBracket :: (ts ++ [.closeBracket])) :=
  enclosed (fun _ => rfl) (fun _ => rfl) h

theorem object (h : ∀ outer more,
      skip ⟨.brace :: outer, .firstKey⟩ (ts ++ .closeBrace :: more) = leave outer more) :
    Walks .value (.openBrace :: (ts ++ [.closeBrace])) :=
  enclosed (fun _ => rfl) (fun _ => rfl) h

theorem item (h : Walks .value ts) : Walks .items ts := by
  intro outer more e he
  rw [h.1 .bracket outer _ e he]
  exact skip_closing rfl more

theorem items (h : Walks .value ts) (hmore : Walks .items us) :
    Walks .items (ts ++ .comma :: us) := by
  intro outer more e he
  rw [List.append_assoc, h.1 .bracket outer _ e he]
  exact (skip_inside rfl _).trans (hmore outer more .value (by simp))

/-- A key and its colon are walked over. -/
private theorem skip_key (he : e ∈ [Expectation.key, .firstKey]) (name : List Nat)
    (outer : List Bracket) (more : List Token) :
    skip ⟨.brace :: outer, e⟩ (.text name :: .colon :: more) =
      skip ⟨.brace :: outer, .value⟩ more := by
  have hkey : (Nesting.mk (.brace :: outer) e).advance (.text name) =
      some ⟨.brace :: outer, .colon⟩ := by
    simp only [List.mem_cons, List.not_mem_nil, or_false] at he
    rcases he with rfl | rfl <;> rfl
  exact (skip_inside hkey _).trans (skip_inside rfl _)

theorem member (h : Walks .value ts) (name : List Nat) :
    Walks .members (.text name :: .colon :: ts) := by
  intro outer more e he
  rw [List.cons_append, List.cons_append, skip_key he, h.1 .brace outer _ .value (by simp)]
  exact skip_closing rfl more

theorem members (h : Walks .value ts) (name : List Nat) (hmore : Walks .members us) :
    Walks .members (.text name :: .colon :: ts ++ .comma :: us) := by
  intro outer more e he
  rw [List.append_assoc, List.cons_append, List.cons_append, skip_key he,
    h.1 .brace outer _ .value (by simp)]
  exact (skip_inside rfl _).trans (hmore outer more .key (by simp))

end Walks

/-- Every part of JSON text is read as tokens that are walked over. -/
theorem Text.walks {part : Part} {cs : List Char} (h : Text part cs) :
    ∃ ts, IsRead cs ts ∧ Walks part ts := by
  -- on the derivation: the tokens of a part are those of its pieces, and a walk passes them in turn
  induction h with
  | @text units cs hwritten =>
    refine ⟨[.text units], fun rest _ => ?_, Walks.scalar (fun _ => rfl) fun _ => rfl⟩
    simpa using Lexes.quoted hwritten rest
  | number hnumber =>
    obtain ⟨t, rfl | ⟨n, rfl⟩, hread⟩ := hnumber.lexes
    · exact ⟨_, hread, Walks.scalar (fun _ => rfl) fun _ => rfl⟩
    · exact ⟨_, hread, Walks.scalar (fun _ => rfl) fun _ => rfl⟩
  | word hword =>
    simp only [List.mem_cons, List.not_mem_nil, or_false] at hword
    rcases hword with rfl | rfl | rfl
    · exact ⟨[.boolean true], fun rest _ => Lexes.token rfl rfl,
        Walks.scalar (fun _ => rfl) fun _ => rfl⟩
    · exact ⟨[.boolean false], fun rest _ => Lexes.token rfl rfl,
        Walks.scalar (fun _ => rfl) fun _ => rfl⟩
    · exact ⟨[.null], fun rest _ => Lexes.token rfl rfl,
        Walks.scalar (fun _ => rfl) fun _ => rfl⟩
  | emptyArray hblanks =>
    refine ⟨_, hblanks.isRead.enclose rfl rfl (fun _ => rfl) (fun _ => rfl) rfl, Walks.array ?_⟩
    intro outer more
    exact skip_closing rfl more
  | array _ ih =>
    obtain ⟨ts, hread, hwalks⟩ := ih
    exact ⟨_, hread.enclose rfl rfl (fun _ => rfl) (fun _ => rfl) rfl,
      Walks.array fun outer more => hwalks outer more .firstValue (by simp)⟩
  | emptyObject hblanks =>
    refine ⟨_, hblanks.isRead.enclose rfl rfl (fun _ => rfl) (fun _ => rfl) rfl, Walks.object ?_⟩
    intro outer more
    exact skip_closing rfl more
  | object _ ih =>
    obtain ⟨ts, hread, hwalks⟩ := ih
    exact ⟨_, hread.enclose rfl rfl (fun _ => rfl) (fun _ => rfl) rfl,
      Walks.object fun outer more => hwalks outer more .firstKey (by simp)⟩
  | item _ hitem ih =>
    obtain ⟨ts, hread, hwalks⟩ := ih
    exact ⟨ts, hitem.isRead hread, hwalks.item⟩
  | items _ hitem _ ih ihmore =>
    obtain ⟨ts, hread, hwalks⟩ := ih
    obtain ⟨us, hreadmore, hwalksmore⟩ := ihmore
    exact ⟨_, (hitem.isRead hread).comma hreadmore, hwalks.items hwalksmore⟩
  | @member name value cs _ hmember ih =>
    obtain ⟨ts, hread, hwalks⟩ := ih
    exact ⟨_, hmember.isRead hread, hwalks.member name⟩
  | @members name value cs more _ hmember _ ih ihmore =>
    obtain ⟨ts, hread, hwalks⟩ := ih
    obtain ⟨us, hreadmore, hwalksmore⟩ := ihmore
    exact ⟨_, (hmember.isRead hread).comma hreadmore, hwalks.members name hwalksmore⟩

/-! ## §3 The outermost level -/

/-- Text that is read as a value of the outermost level. -/
def ReadsAs (cs : List Char) (value : Value) : Prop :=
  ∃ ts, IsRead cs ts ∧ ∀ more, readValue (ts ++ more) = some (value, more)

/-- Any value is read, and something is kept of it. -/
theorem Text.readsAs {cs : List Char} (h : Text .value cs) : ∃ value, ReadsAs cs value := by
  obtain ⟨ts, hread, -, value, hvalue⟩ := h.walks
  exact ⟨value, ts, hread, hvalue⟩

/-- A value is read from the text that is written for it. -/
theorem Value.readsAs_render (value : Value) : ReadsAs value.render.toList value := by
  cases value with
  | natural n =>
    refine ⟨[.natural n], fun rest hrest => ?_, fun _ => rfl⟩
    have hlexes := (Whole.toDigits n).lexes .none .none hrest
    rw [digitsValue_toDigits] at hlexes
    simpa [Value.render] using hlexes
  | boolean b =>
    cases b with
    | true => exact ⟨[.boolean true], fun rest _ => Lexes.token rfl rfl, fun _ => rfl⟩
    | false => exact ⟨[.boolean false], fun rest _ => Lexes.token rfl rfl, fun _ => rfl⟩
  | other => exact ⟨[.null], fun rest _ => Lexes.token rfl rfl, fun _ => rfl⟩

/-- A text is read as one value only. -/
theorem ReadsAs.unique {cs : List Char} {v w : Value} (hv : ReadsAs cs v) (hw : ReadsAs cs w) :
    v = w := by
  obtain ⟨ts, htokens, hvalue⟩ := hv
  obtain ⟨us, htokens', hvalue'⟩ := hw
  have hts := htokens [] .nil #[]
  have hus := htokens' [] .nil #[]
  have heq : ts = us := by simpa [tokensFrom] using hts.symm.trans hus
  subst heq
  simpa using (hvalue []).symm.trans (hvalue' [])

/-- Any value is read, and a value that is written as the text is read as itself. -/
theorem Text.readsAs_of_render {cs : List Char} (h : Text .value cs) :
    ∃ value, ReadsAs cs value ∧ ∀ known : Value, cs = known.render.toList → value = known := by
  obtain ⟨value, hreads⟩ := h.readsAs
  exact ⟨value, hreads, fun known heq => hreads.unique (heq ▸ known.readsAs_render)⟩

/-- A member is written without blanks, and its name needs no escapes. -/
theorem Named.renderMember {name : String} (value : Value)
    (hplain : name.toList.all isPlain = true) :
    Named name.toList value.render.toList (Document.renderMember name value).toList := by
  have hmember : Member _ value.render.toList _ :=
    .mk .nil (Written.of_plain hplain) .nil .nil .nil
  refine ⟨_, Joined.of_scalars _, ?_⟩
  simpa [Document.renderMember] using hmember

/-- A member is read with its name. Of its value, what was written for it is read back. -/
def IsReadAs (member : List Char × List Char) (read : List Char × Value) : Prop :=
  read.1 = member.1 ∧ ∀ known : Value, member.2 = known.render.toList → read.2 = known

section Members

variable {units : List Nat} {name : List Char} {value : Value} {ts more : List Token}

private theorem readMembers_last (hjoin : joinUnits units = some name)
    (hvalue : readValue ts = some (value, [.closeBrace])) (hand : Array (List Char × Value)) :
    readMembers hand (.text units :: .colon :: ts) = some (hand.toList ++ [(name, value)]) := by
  rw [readMembers, hjoin]
  simp only
  split
  · rename_i heq
    rw [hvalue] at heq
    cases heq
  · rename_i heq
    rw [hvalue] at heq
    cases heq
    exact congrArg some Array.toList_push
  · rename_i hlast
    exact absurd hvalue (hlast value)

private theorem readMembers_more (hjoin : joinUnits units = some name)
    (hvalue : readValue ts = some (value, .comma :: more)) (hand : Array (List Char × Value)) :
    readMembers hand (.text units :: .colon :: ts) =
      readMembers (hand.push (name, value)) more := by
  rw [readMembers, hjoin]
  simp only
  split
  · rename_i heq
    rw [hvalue] at heq
    cases heq
    rfl
  · rename_i heq
    rw [hvalue] at heq
    cases heq
  · rename_i hmore _
    exact absurd hvalue (hmore value more)

end Members

/-- The members come out in the order in which they are written. -/
theorem Outer.readMembers_eq {members : List (List Char × List Char)} {cs : List Char}
    (h : Outer members cs) : ∃ read, List.Forall₂ IsReadAs members read ∧
      ∃ name ts, IsRead cs (.text name :: ts) ∧ ∀ hand : Array (List Char × Value),
        readMembers hand (.text name :: (ts ++ [.closeBrace])) = some (hand.toList ++ read) := by
  -- on the members: the last one is closed by the brace, the others by a comma
  induction h with
  | @one key source cs htext hnamed =>
    obtain ⟨value, ⟨ts, hread, hvalue⟩, hknown⟩ := htext.readsAs_of_render
    obtain ⟨units, hjoined, hmember⟩ := hnamed
    refine ⟨[(key, value)], .cons ⟨rfl, hknown⟩ .nil, units, _, hmember.isRead hread,
      fun hand => ?_⟩
    exact readMembers_last hjoined.joinUnits_eq (hvalue _) hand
  | @more key source cs _ _ htext hnamed _ ih =>
    obtain ⟨value, ⟨ts, hread, hvalue⟩, hknown⟩ := htext.readsAs_of_render
    obtain ⟨units, hjoined, hmember⟩ := hnamed
    obtain ⟨read, hall, name, us, hreadmore, hmore⟩ := ih
    refine ⟨(key, value) :: read, .cons ⟨rfl, hknown⟩ hall, units,
      .colon :: (ts ++ .comma :: .text name :: us),
      (hmember.isRead hread).comma hreadmore, fun hand => ?_⟩
    simp only [List.cons_append, List.append_assoc]
    rw [readMembers_more hjoined.joinUnits_eq (hvalue _), hmore]
    simp

/-- Text that is read to its end. -/
theorem IsRead.tokens_eq {text : String} {ts : List Token} (h : IsRead text.toList ts) :
    tokens text = some ts := by
  have hread := h [] Ends.nil #[]
  rw [List.append_nil] at hread
  rw [tokens, hread, tokensFrom]
  simp

/-- An object is read as its members. -/
theorem OuterObject.parse?_eq {members : List (List Char × List Char)} {text : String}
    (h : OuterObject members text.toList) : ∃ read, List.Forall₂ IsReadAs members read ∧
      Document.parse? text = some (.object read) := by
  cases h with
  | empty hblanks hitem =>
    have hread := hitem.isRead
      (hblanks.isRead.enclose rfl rfl (fun _ => rfl) (fun _ => rfl) rfl)
    refine ⟨[], .nil, ?_⟩
    rw [Document.parse?, hread.tokens_eq]
    rfl
  | members houter hitem =>
    obtain ⟨read, hall, name, ts, hbody, hmembers⟩ := houter.readMembers_eq
    have hread := hitem.isRead (hbody.enclose rfl rfl (fun _ => rfl) (fun _ => rfl) rfl)
    have hread' := hmembers #[]
    refine ⟨read, hall, ?_⟩
    rw [Document.parse?, hread.tokens_eq]
    simp only [List.cons_append, Option.bind_eq_bind, Option.bind_some, Document.ofTokens?, hread']
    simp

end Granule.Json
