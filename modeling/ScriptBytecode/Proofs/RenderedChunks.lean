import Mathlib.Data.List.DropRight
import ScriptBytecode.Proofs.JsonDepth
import ScriptBytecode.Proofs.JsonLayout
import ScriptBytecode.Proofs.ReadableNumbers

/-!
# Texts of syntax trees

A text renders a chunk if it spells an object whose `body` renders the statements, with any other keys beside it
(`Chunk.RenderedBy`). Every chunk has such texts if each of its numbers is what some text of a number is read as. Each of
them is read as the chunk as long as the brackets around and inside the body do not exceed the limit, and is refused
otherwise; what stands under the other keys of the outermost object is skipped, and its brackets do not count.
-/

namespace ScriptBytecode

open Json

/-! ## Reading the outermost object -/

namespace Chunk

/-- A text renders a chunk: blanks around an object that gives the body once. What the object spells under its other keys
may be any JSON value. -/
structure RenderedBy (chunk : Chunk) (members : List (String × Json)) (body : Json) (text : String) : Prop where
  spelled : ∃ brackets before inside behind, AllBlank before ∧ Spells brackets (.object members) inside ∧
    AllBlank behind ∧ text = String.ofList (before ++ (inside ++ behind))
  given : valuesAt "body" members = [body]
  renders : Renders (.statements chunk.body) body

end Chunk

theorem readValue_skipBlanks (mode : Mode) (brackets : Nat) (text : List Char) :
    readValue mode brackets (skipBlanks text) = readValue mode brackets text := by
  have htwice : skipBlanks (skipBlanks text) = skipBlanks text := List.dropWhile_idempotent ..
  unfold readValue
  rw [htwice]

/-- A list of values is read as one value. -/
theorem readList_readValue (brackets : Nat) : readList (readValue .kept) brackets = readValue .kept brackets := by
  funext text
  rw [← readValue_skipBlanks]
  cases hskip : skipBlanks text with
  | nil => simp only [readList, hskip]
  | cons c rest =>
      by_cases hc : c = '['
      · subst hc
        have hblank : skipBlanks ('[' :: rest) = '[' :: rest := skipBlanks_cons (by decide) rest
        cases brackets <;> simp [readList, readValue, hskip, hblank]
      · simp only [readList, hskip]
        split
        · rename_i heq
          exact absurd (List.cons.inj heq).1 hc
        · rfl

theorem memberReader_body (brackets : Nat) :
    memberReader [("body", readList (readValue .kept))] brackets "body" = readValue .kept brackets := by
  simp [memberReader, readList_readValue]

theorem memberReader_other {name : String} (h : name ≠ "body") (brackets : Nat) :
    memberReader [("body", readList (readValue .kept))] brackets name = skipValue := by
  have hne : (name == "body") = false := by simpa using h
  simp [memberReader, List.lookup_cons, hne]

/-- What reading makes of a member of the outermost object: the key stays, and so does the value of the body. -/
def SameField (pair result : String × Json) : Prop :=
  result.1 = pair.1 ∧ (pair.1 = "body" → result.2 = pair.2)

theorem valuesAt_body_of_forall₂ {members results : List (String × Json)} (h : List.Forall₂ SameField members results) :
    valuesAt "body" results = valuesAt "body" members := by
  induction h with
  | nil => rfl
  | @cons pair result members results hfirst _ ih =>
      obtain ⟨name, json⟩ := pair
      obtain ⟨key, value⟩ := result
      obtain ⟨rfl, hvalue⟩ := hfirst
      rw [valuesAt_cons, valuesAt_cons, ih]
      split
      · rename_i hbody
        rw [show value = json from hvalue hbody]
      · rfl

namespace Chunk

variable {chunk : Chunk} {members : List (String × Json)} {body : Json} {text : String}

/-- The members stand in the text behind a bracket. -/
theorem RenderedBy.exists_parts (h : chunk.RenderedBy members body text) :
    ∃ brackets before parts behind, AllBlank before ∧ Bracketed (SpellsMember (Spells brackets)) '\x7d' members parts ∧
      AllBlank behind ∧ text = String.ofList (before ++ ('\x7b' :: parts ++ behind)) := by
  obtain ⟨brackets, before, inside, behind, hbefore, hinside, hbehind, rfl⟩ := h.spelled
  obtain ⟨inner, rfl, haround⟩ := hinside.around_of_depth_pos (by simp [Json.depth])
  cases haround with
  | @object _ parts hparts => exact ⟨inner, before, parts, behind, hbefore, hparts, hbehind, rfl⟩

theorem RenderedBy.eq_body (h : chunk.RenderedBy members body text) {pair : String × Json} (hmem : pair ∈ members)
    (hname : pair.1 = "body") : pair.2 = body := by
  have hbody : pair.2 ∈ valuesAt "body" members := mem_valuesAt.mpr (hname ▸ hmem)
  rwa [h.given, List.mem_singleton] at hbody

theorem RenderedBy.body_mem (h : chunk.RenderedBy members body text) : ("body", body) ∈ members :=
  mem_valuesAt.mp (h.given ▸ List.mem_singleton_self body)

/-- A text with few brackets around and inside the body is read, with the body as it was. -/
theorem RenderedBy.readDocument_eq (h : chunk.RenderedBy members body text) (hdepth : body.depth < bracketLimit) :
    ∃ results, List.Forall₂ SameField members results ∧ readDocument reader text = .ok (.object results) := by
  obtain ⟨brackets, before, parts, behind, hbefore, hparts, hbehind, rfl⟩ := h.exists_parts
  obtain ⟨limit, hlimit⟩ : ∃ limit, bracketLimit = limit + 1 := ⟨126, rfl⟩
  have hmember : ∀ pair ∈ members, ∀ text, Spells brackets pair.2 text →
      ReadsAs (memberReader [("body", readList (readValue .kept))] limit pair.1)
        (fun value => SameField pair (pair.1, value)) text := by
    intro pair hmem text hspelled
    by_cases hname : pair.1 = "body"
    · have hspells := hspelled.of_depth_le (show pair.2.depth ≤ limit by rw [h.eq_body hmem hname]; omega)
      rw [hname, memberReader_body]
      exact (readsAs_readValue .kept hspells).mono fun value hvalue => ⟨hname.symm, fun _ => hvalue rfl⟩
    · rw [memberReader_other hname]
      exact (passes_skipValue hspelled).mono fun value _ => ⟨rfl, fun hbody => absurd hbody hname⟩
  have hread := readsAs_readRecord hmember hparts
  rw [← hlimit] at hread
  obtain ⟨json, ⟨results, hresults, rfl⟩, hdocument⟩ := readDocument_of_readsAs hread hbefore hbehind
  exact ⟨results, hresults, hdocument⟩

/-- A text with too many brackets around and inside the body is malformed. -/
theorem RenderedBy.readDocument_refused (h : chunk.RenderedBy members body text) (hdepth : bracketLimit ≤ body.depth) :
    readDocument reader text = .error .malformed := by
  obtain ⟨brackets, before, parts, behind, hbefore, hparts, hbehind, rfl⟩ := h.exists_parts
  obtain ⟨limit, hlimit⟩ : ∃ limit, bracketLimit = limit + 1 := ⟨126, rfl⟩
  have hdeep : limit < body.depth := by omega
  have hpasses : ∀ pair ∈ members, ¬ pair.1 = "body" → ∀ text, Spells brackets pair.2 text →
      Passes (memberReader [("body", readList (readValue .kept))] limit pair.1) text := by
    intro pair _ hname text hspelled
    rw [memberReader_other hname]
    exact passes_skipValue hspelled
  have hrefuses : ∀ pair ∈ members, pair.1 = "body" → ∀ text, Spells brackets pair.2 text →
      Refuses (memberReader [("body", readList (readValue .kept))] limit pair.1) text := by
    intro pair hmem hname text hspelled
    rw [hname, memberReader_body]
    exact refuses_readValue hspelled (h.eq_body hmem hname ▸ hdeep)
  have hrefused := refuses_readRecord hpasses hrefuses ⟨("body", body), h.body_mem, rfl⟩ hparts
  rw [← hlimit] at hrefused
  exact readDocument_of_refuses hrefused hbefore hbehind

end Chunk

/-! ## The statements of the body -/

/-- A statement of the body has its kind by name, as it must. -/
theorem Renders.decodeStatement_eq {statement : Statement} {json : Json} (h : Renders (.statement statement) json) :
    decodeStatement json = .ok statement := by
  have hvalue : decodeValue .statement json = .ok (.statement statement) := h.decodeValue_eq
  cases h with
  | @record _ _ _ members isRecord tagged given inside =>
      cases isRecord
      have htag : tag? (.object members) = some (.string statement.kind.name) := lookup_of_valuesAt (tagged _ rfl)
      simp [decodeStatement, htag, hvalue, bind, Except.bind, pure, Except.pure]
  | list isList _ _ => cases isList

theorem mapM_decodeStatement {statements : List Statement} {items : List Json}
    (hlength : statements.length = items.length)
    (h : ∀ pair ∈ (statements.map FieldValue.statement).zip items, Renders pair.1 pair.2) :
    items.mapM decodeStatement = .ok statements := by
  induction items generalizing statements with
  | nil =>
      obtain rfl := List.length_eq_zero_iff.mp hlength
      rfl
  | cons json items ih =>
      cases statements with
      | nil => exact absurd hlength (by simp)
      | cons statement statements =>
          rw [List.map_cons, List.zip_cons_cons, List.forall_mem_cons] at h
          have hfirst : decodeStatement json = .ok statement := h.1.decodeStatement_eq
          simp [List.mapM_cons, hfirst, ih (Nat.succ.inj hlength) h.2, bind, Except.bind, pure, Except.pure]

/-- The statements are decoded from a rendering of them. -/
theorem Renders.toListOf_eq {statements : List Statement} {body : Json} (h : Renders (.statements statements) body) :
    body.toListOf decodeStatement = .ok statements := by
  cases h with
  | record isRecord _ _ _ => cases isRecord
  | list isList sameLength inside =>
      cases isList
      exact mapM_decodeStatement (by simpa using sameLength) inside

namespace Chunk

theorem filterMap_typeOf?_fields (members : List (String × Json)) :
    (members.filterMap fun member => (Field.typeOf? fields member.1).map fun read => (member.1, read member.2)) =
      (valuesAt "body" members).map fun json => ("body", json.toListOf decodeStatement) := by
  induction members with
  | nil => rfl
  | cons member members ih =>
      obtain ⟨name, json⟩ := member
      rw [valuesAt_cons, List.filterMap_cons, ih]
      by_cases hname : name = "body"
      · subst hname
        simp [Field.typeOf?, fields]
      · have hne : ¬ "body" = name := fun heq => hname heq.symm
        simp [Field.typeOf?, fields, hname, hne]

theorem ofJson_eq {chunk : Chunk} {members : List (String × Json)} {body : Json}
    (hbody : valuesAt "body" members = [body]) (h : Renders (.statements chunk.body) body) :
    ofJson (.object members) = .ok chunk := by
  have hrecord : (Json.object members).toRecord fields = .ok [("body", chunk.body)] := by
    rw [toRecord, filterMap_typeOf?_fields, hbody, List.map_singleton, h.toListOf_eq]
    rfl
  simp [ofJson, hrecord, Record.require, Record.find?, bind, Except.bind, pure, Except.pure]

/-- Every number in a chunk is what some text of a number is read as. -/
def HasReadableNumbers (chunk : Chunk) : Prop :=
  (FieldValue.statements chunk.body).HasReadableNumbers

/-- A chunk with readable numbers has texts that render it. -/
theorem exists_renderedBy {chunk : Chunk} (h : chunk.HasReadableNumbers) :
    ∃ members body text, chunk.RenderedBy members body text := by
  obtain ⟨body, hrenders, hbody⟩ := hasText_of_readable h (Nat.le_refl _)
  have hmember : ∀ member ∈ [("body", body)], ∃ text, Spells (sizeOf (FieldValue.statements chunk.body)) member.2 text :=
    List.forall_mem_singleton.mpr hbody
  obtain ⟨inside, hinside⟩ := exists_spells_object hmember
  refine ⟨[("body", body)], body, String.ofList ([] ++ (inside ++ [])), ?_, by simp [valuesAt], hrenders⟩
  exact ⟨_, [], inside, [], allBlank_nil, hinside, allBlank_nil, rfl⟩

theorem RenderedBy.hasReadableNumbers {chunk : Chunk} {members : List (String × Json)} {body : Json} {text : String}
    (h : chunk.RenderedBy members body text) : chunk.HasReadableNumbers := by
  intro number hcontains
  obtain ⟨brackets, before, inside, behind, -, hspells, -, -⟩ := h.spelled
  obtain ⟨inner, hinner⟩ := hspells.exists_member
  obtain ⟨part, hpart⟩ := hinner _ h.body_mem
  exact hcontains.exists_readsNumber h.renders hpart

/-- A chunk has renderings exactly if its numbers are readable, and each of them is read as that chunk exactly if the
brackets around and inside the body are no more than 127 at once. Those of the whole text are at least as many. -/
theorem parse_of_renderedBy (chunk : Chunk) :
    (chunk.HasReadableNumbers ↔ ∃ members body text, chunk.RenderedBy members body text) ∧
      ∀ members body text, chunk.RenderedBy members body text →
        body.depth + 1 ≤ (Json.object members).depth ∧
          (body.depth + 1 ≤ 127 → parse text = .ok chunk) ∧
            (127 < body.depth + 1 → parse text = .error (.text .malformed)) := by
  refine ⟨⟨exists_renderedBy, fun ⟨_, _, _, h⟩ => h.hasReadableNumbers⟩, fun members body text h => ⟨?_, ?_, ?_⟩⟩
  · rw [Json.depth, Nat.add_le_add_iff_right]
    exact depthOfMembers_le_iff.mp (Nat.le_refl _) _ h.body_mem
  · intro hdepth
    obtain ⟨results, hresults, hread⟩ := h.readDocument_eq hdepth
    have hbody := (valuesAt_body_of_forall₂ hresults).trans h.given
    simp [parse, hread, ofJson_eq hbody h.renders]
  · intro hdepth
    simp [parse, h.readDocument_refused (Nat.le_of_lt_succ hdepth)]

/-- A loop with a number for its condition, and inside it a statement that knows its place. -/
def locatedBreak : Chunk :=
  ⟨[.whileLoop (.number ⟨0x3fe0000000000000⟩ none) [.breakLoop (some ⟨⟨2, 4⟩, ⟨2, 9⟩⟩)] none]⟩

def locatedBreakPlace : Json :=
  .object [("end", .object [("column", .number (.natural 9)), ("line", .number (.natural 2))]),
    ("start", .object [("line", .number (.natural 2)), ("column", .number (.natural 4))])]

def locatedBreakCondition : Json :=
  .object [("raw", .string "0.5"), ("value", .number (.real ⟨0x3fe0000000000000⟩)), ("type", .string "NumericLiteral")]

/-- The body of that chunk with all tags behind the fields, the fields in another order, and keys among them that are no
fields. -/
def locatedBreakBody : Json :=
  .array [.object
    [("body", .array [.object [("loc", locatedBreakPlace), ("range", .array []), ("type", .string "BreakStatement")]]),
      ("condition", locatedBreakCondition), ("type", .string "WhileStatement")]]

theorem renders_locatedBreakPlace :
    Renders (.location (some ⟨⟨2, 4⟩, ⟨2, 9⟩⟩)) locatedBreakPlace := by
  have hposition : ∀ {line column : UInt32} {members : List (String × Json)},
      valuesAt "line" members = [.number (.natural line.toNat)] →
      valuesAt "column" members = [.number (.natural column.toNat)] →
      Renders (.position ⟨line, column⟩) (.object members) := by
    intro line column members hline hcolumn
    refine .record (.position _) (fun _ htag => by cases htag) ?_ ?_
    · simp [Position.entries, Entry.required, Entry.GivenBy, hline, hcolumn]
    · simp [Position.entries, Entry.required, hline, hcolumn, Renders.count]
  refine .record (.location _) (fun _ htag => by cases htag) ?_ ?_
  · simp [Location.entries, Entry.required, Entry.GivenBy, valuesAt]
  · simp only [Location.entries, Entry.required, valuesAt, List.forall_mem_cons, List.not_mem_nil, false_implies,
      implies_true, and_true]
    simp [hposition, valuesAt]

theorem renders_locatedBreakCondition :
    Renders (.expression (.number ⟨0x3fe0000000000000⟩ none)) locatedBreakCondition := by
  have hvalue : Renders (.number ⟨0x3fe0000000000000⟩) (.number (.real ⟨0x3fe0000000000000⟩)) := .number (.real _)
  refine .record (.expression _) ?_ ?_ ?_
  · rintro name ⟨⟩
    rfl
  · simp [Expression.entries, Entry.required, Entry.location, Entry.GivenBy, valuesAt]
  · simpa [Expression.entries, Entry.required, Entry.location, valuesAt] using hvalue

theorem renders_locatedBreakBody : Renders (.statements locatedBreak.body) locatedBreakBody := by
  have hbreak : Renders (.statement (.breakLoop (some ⟨⟨2, 4⟩, ⟨2, 9⟩⟩)))
      (.object [("loc", locatedBreakPlace), ("range", .array []), ("type", .string "BreakStatement")]) := by
    refine .record (.statement _) ?_ ?_ ?_
    · rintro name ⟨⟩
      rfl
    · simp [Statement.entries, Entry.GivenBy, Entry.location, valuesAt]
    · simpa [Statement.entries, Entry.location, valuesAt] using renders_locatedBreakPlace
  have hinner : Renders (.statements [.breakLoop (some ⟨⟨2, 4⟩, ⟨2, 9⟩⟩)])
      (.array [.object [("loc", locatedBreakPlace), ("range", .array []), ("type", .string "BreakStatement")]]) :=
    .list (.statements _) rfl (List.forall_mem_singleton.mpr hbreak)
  refine .list (.statements _) rfl (List.forall_mem_singleton.mpr (.record (.statement _) ?_ ?_ ?_))
  · rintro name ⟨⟩
    rfl
  · simp [Statement.entries, Entry.required, Entry.GivenBy, Entry.location, valuesAt]
  · simpa [Statement.entries, Entry.required, Entry.location, valuesAt] using ⟨renders_locatedBreakCondition, hinner⟩

theorem readsBack_half : readsBack ⟨0x3fe0000000000000⟩ = true := by
  decide +kernel

theorem writable_locatedBreak : Writable 8 (.object [("comments", .null), ("body", locatedBreakBody)]) := by
  have hposition : ∀ {first second : String} {a b : Nat}, a < 2 ^ 64 → b < 2 ^ 64 →
      Writable 2 (.object [(first, .number (.natural a)), (second, .number (.natural b))]) := by
    intro first second a b ha hb
    exact .object (List.forall_mem_cons.mpr ⟨.number ha, List.forall_mem_singleton.mpr (.number hb)⟩)
  have hplace : Writable 3 locatedBreakPlace := by
    refine .object (List.forall_mem_cons.mpr ⟨?_, List.forall_mem_singleton.mpr ?_⟩)
    · exact hposition (by decide) (by decide)
    · exact hposition (by decide) (by decide)
  have hempty : Writable 3 (.array []) := .array fun item hmem => absurd hmem List.not_mem_nil
  have hinner : Writable 5
      (.array [.object [("loc", locatedBreakPlace), ("range", .array []), ("type", .string "BreakStatement")]]) :=
    .array (List.forall_mem_singleton.mpr (.object (List.forall_mem_cons.mpr
      ⟨hplace, List.forall_mem_cons.mpr ⟨hempty, List.forall_mem_singleton.mpr .string⟩⟩)))
  have hcondition : Writable 5 locatedBreakCondition :=
    .object (List.forall_mem_cons.mpr
      ⟨.string, List.forall_mem_cons.mpr ⟨.number readsBack_half, List.forall_mem_singleton.mpr .string⟩⟩)
  have hbody : Writable 7 locatedBreakBody :=
    .array (List.forall_mem_singleton.mpr (.object (List.forall_mem_cons.mpr
      ⟨hinner, List.forall_mem_cons.mpr ⟨hcondition, List.forall_mem_singleton.mpr .string⟩⟩)))
  exact .object (List.forall_mem_cons.mpr ⟨.null, List.forall_mem_singleton.mpr hbody⟩)

/-- The text is spread over lines, and the outermost object has another key before its body. -/
theorem parse_of_renderedBy_locatedBreak :
    locatedBreak.HasReadableNumbers ∧
      ∃ text, locatedBreak.RenderedBy [("comments", .null), ("body", locatedBreakBody)] locatedBreakBody text ∧
        parse text = .ok locatedBreak := by
  obtain ⟨hreadable, hparse⟩ := parse_of_renderedBy locatedBreak
  have hspells := spells_indented writable_locatedBreak 0
  have hrendered : locatedBreak.RenderedBy [("comments", .null), ("body", locatedBreakBody)] locatedBreakBody _ :=
    ⟨⟨8, [], _, [], allBlank_nil, hspells, allBlank_nil, rfl⟩, by simp [valuesAt], renders_locatedBreakBody⟩
  have hdepth : locatedBreakBody.depth + 1 ≤ 127 := by
    simp [locatedBreakBody, locatedBreakCondition, locatedBreakPlace, Json.depth, depthOfItems, depthOfMembers]
  exact ⟨hreadable.mpr ⟨_, _, _, hrendered⟩, _, hrendered, (hparse _ _ _ hrendered).2.1 hdepth⟩

end Chunk
end ScriptBytecode
