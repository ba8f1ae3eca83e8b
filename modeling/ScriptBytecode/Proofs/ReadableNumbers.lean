import ScriptBytecode.Proofs.JsonDepth
import ScriptBytecode.Proofs.JsonLayout
import ScriptBytecode.Proofs.TreeRendering

/-!
# Numbers of syntax trees in texts

A part of a tree can be rendered as a document, and the document be spelled as a text, exactly if each number in the part
is what some text of a number is read as (`FieldValue.HasReadableNumbers`). A text is built along the records and lists of
the part (`hasText_of_readable`), and in a text that is given each number is found where its record or list has it
(`FieldValue.Contains.exists_readsNumber`).
-/

namespace ScriptBytecode

open Json

/-! ## Texts of parts with readable numbers -/

namespace FieldValue

/-- The numbers in a part of a tree. -/
inductive Contains (number : Binary64) : FieldValue → Prop
  | here : Contains number (.number number)
  | entry {value : FieldValue} {kind : RecordKind} {entries : List Entry} {entry : Entry}
      (isRecord : value.IsRecord kind entries) (member : entry ∈ entries) (inside : Contains number entry.content) :
      Contains number value
  | item {value part : FieldValue} {values : List FieldValue} (isList : value.IsList values) (member : part ∈ values)
      (inside : Contains number part) : Contains number value

/-- Every number in a part of a tree is what some text of a number is read as. -/
def HasReadableNumbers (value : FieldValue) : Prop :=
  ∀ number, value.Contains number → ∃ read text, ReadsNumber read text ∧ read.toBinary64 = number

/-- The entries of a value are smaller than the value. -/
theorem IsRecord.sizeOf_lt {value : FieldValue} {kind : RecordKind} {entries : List Entry}
    (h : value.IsRecord kind entries) : ∀ entry ∈ entries, sizeOf entry.content < sizeOf value := by
  cases h with
  | position value =>
      cases value
      simp [Position.entries, Entry.required]
      omega
  | location value =>
      cases value
      simp [Location.entries, Entry.required]
      omega
  | identifier value =>
      cases value
      simp [Identifier.entries, Entry.required, Entry.location]
      omega
  | expression value =>
      cases value with
      | identifier name =>
          cases name
          simp [Expression.entries, Identifier.entries, Entry.required, Entry.location]
          omega
      | _ => simp [Expression.entries, Entry.required, Entry.location, Entry.indexer] <;> omega
  | tableField value => cases value <;> simp [TableField.entries, Entry.required] <;> omega
  | statement value =>
      cases value <;> simp [Statement.entries, Entry.required, Entry.location, Entry.initialValues] <;> omega
  | clause value => cases value <;> simp [Clause.entries, Entry.required, Entry.location] <;> omega

theorem IsList.sizeOf_lt {value : FieldValue} {values : List FieldValue} (h : value.IsList values) :
    ∀ part ∈ values, sizeOf part < sizeOf value := by
  cases h <;> simpa using fun _ => List.sizeOf_lt_of_mem

end FieldValue

/-- An object with the parts of a record and its tag. -/
def renderingMembers (kind : RecordKind) (entries : List Entry) (render : Entry → Json) : List (String × Json) :=
  kind.tag?.toList.map (fun name => ("type", .string name)) ++ entries.map fun entry => (entry.name, render entry)

theorem valuesAt_renderingMembers {kind : RecordKind} {entries : List Entry} {render : Entry → Json}
    (hnodup : ("type" :: entries.map (·.name)).Nodup) {entry : Entry} (hmem : entry ∈ entries) :
    valuesAt entry.name (renderingMembers kind entries render) = [render entry] := by
  obtain ⟨htag, hnames⟩ := List.nodup_cons.mp hnodup
  have hne : ¬ "type" = entry.name := fun heq => htag (heq ▸ List.mem_map_of_mem hmem)
  rw [renderingMembers, valuesAt_append]
  have htags : valuesAt entry.name (kind.tag?.toList.map fun name => ("type", Json.string name)) = [] := by
    simp [valuesAt, List.filter_map, Function.comp_def, hne]
  have hentries : valuesAt entry.name (entries.map fun entry => (entry.name, render entry)) = [render entry] := by
    simp [valuesAt, List.filter_map, Function.comp_def, filter_of_nodup hnames hmem]
  rw [htags, hentries, List.nil_append]

theorem valuesAt_type_renderingMembers {kind : RecordKind} {entries : List Entry} {render : Entry → Json}
    (hnodup : ("type" :: entries.map (·.name)).Nodup) {name : String} (htag : kind.tag? = some name) :
    valuesAt "type" (renderingMembers kind entries render) = [.string name] := by
  have hnone : valuesAt "type" (entries.map fun entry => (entry.name, render entry)) = [] := by
    rw [List.eq_nil_iff_forall_not_mem]
    intro json hmem
    obtain ⟨entry, hentry, heq⟩ := List.mem_map.mp (mem_valuesAt.mp hmem)
    obtain ⟨hname, -⟩ := Prod.mk.inj heq
    exact (List.nodup_cons.mp hnodup).1 (List.mem_map.mpr ⟨entry, hentry, hname⟩)
  rw [renderingMembers, valuesAt_append, hnone, htag]
  simp [valuesAt]

theorem exists_forall_mem {α β : Type} [Inhabited β] {values : List α} {fits : α → β → Prop}
    (h : ∀ value ∈ values, ∃ result, fits value result) :
    ∃ choose : α → β, ∀ value ∈ values, fits value (choose value) := by
  have hall : ∀ value, ∃ result, value ∈ values → fits value result := by
    intro value
    by_cases hmem : value ∈ values
    · obtain ⟨result, hresult⟩ := h value hmem
      exact ⟨result, fun _ => hresult⟩
    · exact ⟨default, fun hvalue => absurd hvalue hmem⟩
  exact Classical.skolem.mp hall

instance : Inhabited Json :=
  ⟨.null⟩

/-- There is a text for an array if there is one for each of its items. -/
theorem exists_spells_array {bound : Nat} {items : List Json} (h : ∀ item ∈ items, ∃ text, Spells bound item text) :
    ∃ text, Spells (bound + 1) (.array items) text := by
  obtain ⟨write, hwrite⟩ := exists_forall_mem h
  obtain ⟨text, -, hinside⟩ := exists_bracketed_enclosed '[' ']' allBlank_nil allBlank_nil hwrite
  exact ⟨_, Or.inr (.array hinside)⟩

/-- There is a text for an object if there is one for the value of each of its members. -/
theorem exists_spells_object {bound : Nat} {members : List (String × Json)}
    (h : ∀ member ∈ members, ∃ text, Spells bound member.2 text) : ∃ text, Spells (bound + 1) (.object members) text := by
  have hmembers : ∀ member ∈ members, ∃ text, SpellsMember (Spells bound) member text := by
    intro member hmem
    obtain ⟨text, htext⟩ := h member hmem
    exact ⟨_, .intro (spellsString_writeString member.1) allBlank_nil allBlank_nil htext⟩
  obtain ⟨write, hwrite⟩ := exists_forall_mem hmembers
  obtain ⟨text, -, hinside⟩ := exists_bracketed_enclosed '\x7b' '\x7d' allBlank_nil allBlank_nil hwrite
  exact ⟨_, Or.inr (.object hinside)⟩

theorem exists_spells_string (bound : Nat) (value : String) : ∃ text, Spells bound (.string value) text :=
  ⟨_, .of_leaf (.string (spellsString_writeString value))⟩

/-- A part of a tree has a rendering with a text of its own. -/
def HasText (bound : Nat) (value : FieldValue) : Prop :=
  ∃ json, Renders value json ∧ ∃ text, Spells bound json text

/-- A record has a rendering if its parts do. -/
theorem FieldValue.IsRecord.hasText {value : FieldValue} {kind : RecordKind} {entries : List Entry} {bound : Nat}
    (h : value.IsRecord kind entries) (hinside : ∀ entry ∈ entries, HasText bound entry.content) :
    HasText (bound + 1) value := by
  obtain ⟨render, hrender⟩ := exists_forall_mem hinside
  refine ⟨.object (renderingMembers kind entries render), .record h ?_ ?_ ?_, exists_spells_object ?_⟩
  · intro name htag
    exact valuesAt_type_renderingMembers h.nodup_names htag
  · intro entry hmem
    exact Or.inl ⟨render entry, valuesAt_renderingMembers h.nodup_names hmem⟩
  · intro entry hmem json hjson
    rw [valuesAt_renderingMembers h.nodup_names hmem, List.mem_singleton] at hjson
    rw [hjson]
    exact (hrender entry hmem).1
  · intro member hmem
    rcases List.mem_append.mp hmem with htag | hentry
    · obtain ⟨name, -, rfl⟩ := List.mem_map.mp htag
      exact exists_spells_string bound name
    · obtain ⟨entry, hpart, rfl⟩ := List.mem_map.mp hentry
      exact (hrender entry hpart).2

/-- A list has a rendering if its items do. -/
theorem FieldValue.IsList.hasText {value : FieldValue} {values : List FieldValue} {bound : Nat}
    (h : value.IsList values) (hinside : ∀ part ∈ values, HasText bound part) : HasText (bound + 1) value := by
  obtain ⟨render, hrender⟩ := exists_forall_mem hinside
  have hzip : values.zip (values.map render) = values.map fun part => (part, render part) := by
    rw [List.zip, List.zipWith_map_right, List.zipWith_self]
  refine ⟨.array (values.map render), .list h (List.length_map ..).symm ?_, exists_spells_array ?_⟩
  · intro pair hmem
    rw [hzip] at hmem
    obtain ⟨part, hpart, rfl⟩ := List.mem_map.mp hmem
    exact (hrender part hpart).1
  · intro item hmem
    obtain ⟨part, hpart, rfl⟩ := List.mem_map.mp hmem
    exact (hrender part hpart).2

/-- Every part of a tree with readable numbers has a rendering with a text. -/
theorem hasText_of_readable {value : FieldValue} (h : value.HasReadableNumbers) {bound : Nat}
    (hbound : sizeOf value ≤ bound) : HasText bound value := by
  induction bound generalizing value with
  | zero => cases value <;> simp at hbound
  | succ bound ih =>
      have hrecord : ∀ {kind entries}, value.IsRecord kind entries → HasText (bound + 1) value := by
        intro kind entries isRecord
        apply isRecord.hasText
        intro entry hmem
        have hsize := isRecord.sizeOf_lt entry hmem
        exact ih (fun number inside => h number (.entry isRecord hmem inside)) (by omega)
      have hlist : ∀ {values}, value.IsList values → HasText (bound + 1) value := by
        intro values isList
        apply isList.hasText
        intro part hmem
        have hsize := isList.sizeOf_lt part hmem
        exact ih (fun number inside => h number (.item isList hmem inside)) (by omega)
      cases value with
      | count value =>
          have hword : IsWritableNumber (.natural value.toNat) := Nat.lt_trans value.toNat_lt (by decide)
          exact ⟨_, .count value, _, .of_leaf (.number (readsNumber_writeNumber hword))⟩
      | position value => exact hrecord (.position value)
      | location value =>
          cases value with
          | none => exact ⟨_, .nowhere, _, .of_leaf .null⟩
          | some value => exact hrecord (.location value)
      | text value => exact ⟨_, .text value, exists_spells_string _ _⟩
      | number value =>
          obtain ⟨read, text, hreads, rfl⟩ := h value .here
          exact ⟨_, .number read, text, .of_leaf (.number hreads)⟩
      | boolean value => exact ⟨_, .boolean value, _, .of_leaf .bool⟩
      | operator value => exact ⟨_, .operator value, exists_spells_string _ _⟩
      | indexer value => exact ⟨_, .indexer value, exists_spells_string _ _⟩
      | identifier value => exact hrecord (.identifier value)
      | expression value => exact hrecord (.expression value)
      | tableField value => exact hrecord (.tableField value)
      | statement value => exact hrecord (.statement value)
      | clause value => exact hrecord (.clause value)
      | identifiers values => exact hlist (.identifiers values)
      | expressions values => exact hlist (.expressions values)
      | tableFields values => exact hlist (.tableFields values)
      | statements values => exact hlist (.statements values)
      | clauses values => exact hlist (.clauses values)

/-! ## Numbers of parts that have a text -/

theorem Json.Spells.readsNumber {brackets : Nat} {read : JsonNumber} {text : List Char}
    (h : Spells brackets (.number read) text) : ReadsNumber read text := by
  have hleaf : SpellsLeaf (.number read) text := by
    cases brackets with
    | zero => exact h
    | succ brackets =>
        rcases h with hleaf | haround
        · exact hleaf
        · cases haround
  cases hleaf with
  | number reads => exact reads

theorem Json.Spells.exists_item {brackets : Nat} {items : List Json} {text : List Char}
    (h : Spells brackets (.array items) text) : ∃ inner, ∀ item ∈ items, ∃ part, Spells inner item part := by
  obtain ⟨inner, -, haround⟩ := h.around_of_depth_pos (by simp [Json.depth])
  cases haround with
  | array inside =>
      refine ⟨inner, fun item hmem => ?_⟩
      obtain ⟨part, hpart, -⟩ := inside.exists_spelled item hmem
      exact ⟨part, hpart⟩

theorem Json.Spells.exists_member {brackets : Nat} {members : List (String × Json)} {text : List Char}
    (h : Spells brackets (.object members) text) : ∃ inner, ∀ member ∈ members, ∃ part, Spells inner member.2 part := by
  obtain ⟨inner, -, haround⟩ := h.around_of_depth_pos (by simp [Json.depth])
  cases haround with
  | object inside =>
      refine ⟨inner, fun member hmem => ?_⟩
      obtain ⟨whole, hwhole, -⟩ := inside.exists_spelled member hmem
      obtain ⟨part, hpart, -⟩ := hwhole.exists_spelled
      exact ⟨part, hpart⟩

namespace FieldValue

theorem IsRecord.unique {value : FieldValue} {kind other : RecordKind} {entries others : List Entry}
    (h : value.IsRecord kind entries) (h' : value.IsRecord other others) : others = entries := by
  cases h <;> cases h' <;> rfl

theorem IsList.unique {value : FieldValue} {values others : List FieldValue} (h : value.IsList values)
    (h' : value.IsList others) : others = values := by
  cases h <;> cases h' <;> rfl

/-- The members of the object that renders a record. -/
theorem IsRecord.exists_members {value : FieldValue} {kind : RecordKind} {entries : List Entry} {json : Json}
    (h : value.IsRecord kind entries) (hrenders : Renders value json) :
    ∃ members, json = .object members ∧ ∀ entry ∈ entries,
      entry.GivenBy members ∧ ∀ part ∈ valuesAt entry.name members, Renders entry.content part := by
  cases hrenders with
  | @record _ _ _ members isRecord _ given inside =>
      obtain rfl := h.unique isRecord
      exact ⟨members, rfl, fun entry hmem => ⟨given entry hmem, inside entry hmem⟩⟩
  | list isList => cases h <;> cases isList
  | _ => cases h

theorem IsList.exists_items {value : FieldValue} {values : List FieldValue} {json : Json} (h : value.IsList values)
    (hrenders : Renders value json) :
    ∃ items, json = .array items ∧ values.length = items.length ∧ ∀ pair ∈ values.zip items, Renders pair.1 pair.2 := by
  cases hrenders with
  | record isRecord => cases h <;> cases isRecord
  | @list _ _ items isList sameLength inside =>
      obtain rfl := h.unique isList
      exact ⟨items, rfl, sameLength, inside⟩
  | _ => cases h

end FieldValue

namespace Entry

/-- What is left out is an empty location, a dot or an empty list. -/
def IsEmptyByDefault (entry : Entry) : Prop :=
  entry.isDefault = true →
    entry.content = .location none ∨ entry.content = .indexer .dot ∨ entry.content = .expressions []

theorem isEmptyByDefault_required (name : String) (content : FieldValue) :
    (required name content).IsEmptyByDefault :=
  fun hdefault => absurd hdefault Bool.false_ne_true

theorem isEmptyByDefault_location (place : Option Location) : (location place).IsEmptyByDefault :=
  fun hdefault => .inl (congrArg FieldValue.location (Option.isNone_iff_eq_none.mp hdefault))

theorem isEmptyByDefault_indexer (symbol : Indexer) : (indexer symbol).IsEmptyByDefault :=
  fun hdefault => .inr (.inl (congrArg FieldValue.indexer (of_decide_eq_true hdefault)))

theorem isEmptyByDefault_initialValues (values : List Expression) : (initialValues values).IsEmptyByDefault :=
  fun hdefault => .inr (.inr (congrArg FieldValue.expressions (List.isEmpty_iff.mp hdefault)))

end Entry

namespace FieldValue

theorem IsRecord.isEmptyByDefault {value : FieldValue} {kind : RecordKind} {entries : List Entry}
    (h : value.IsRecord kind entries) : ∀ entry ∈ entries, entry.IsEmptyByDefault := by
  cases h with
  | position value => simp [Position.entries, Entry.isEmptyByDefault_required]
  | location value => simp [Location.entries, Entry.isEmptyByDefault_required]
  | identifier value =>
      simp [Identifier.entries, Entry.isEmptyByDefault_required, Entry.isEmptyByDefault_location]
  | expression value =>
      cases value <;> simp [Expression.entries, Identifier.entries, Entry.isEmptyByDefault_required,
        Entry.isEmptyByDefault_location, Entry.isEmptyByDefault_indexer]
  | tableField value => cases value <;> simp [TableField.entries, Entry.isEmptyByDefault_required]
  | statement value =>
      cases value <;> simp [Statement.entries, Entry.isEmptyByDefault_required, Entry.isEmptyByDefault_location,
        Entry.isEmptyByDefault_initialValues]
  | clause value =>
      cases value <;> simp [Clause.entries, Entry.isEmptyByDefault_required, Entry.isEmptyByDefault_location]

/-- What may be left out has no numbers. -/
theorem IsRecord.not_contains_of_isDefault {value : FieldValue} {kind : RecordKind} {entries : List Entry}
    (h : value.IsRecord kind entries) {entry : Entry} (hmem : entry ∈ entries) (hdefault : entry.isDefault = true)
    (number : Binary64) : ¬ entry.content.Contains number := by
  intro hcontains
  rcases h.isEmptyByDefault entry hmem hdefault with hcontent | hcontent | hcontent <;> rw [hcontent] at hcontains
  · cases hcontains with
    | entry isRecord => cases isRecord
    | item isList => cases isList
  · cases hcontains with
    | entry isRecord => cases isRecord
    | item isList => cases isList
  · cases hcontains with
    | entry isRecord => cases isRecord
    | item isList member =>
        cases isList
        exact absurd member List.not_mem_nil

/-- A number of a part that has a text is read from a part of this text. -/
theorem Contains.exists_readsNumber {number : Binary64} {value : FieldValue} (h : value.Contains number)
    {json : Json} (hrenders : Renders value json) {brackets : Nat} {text : List Char} (hspells : Spells brackets json text) :
    ∃ read part, ReadsNumber read part ∧ read.toBinary64 = number := by
  induction h generalizing json brackets text with
  | here =>
      cases hrenders with
      | number read => exact ⟨read, text, hspells.readsNumber, rfl⟩
      | record isRecord => cases isRecord
      | list isList => cases isList
  | @entry value kind entries entry isRecord member _ ih =>
      obtain ⟨members, rfl, hparts⟩ := isRecord.exists_members hrenders
      obtain ⟨inner, hinner⟩ := hspells.exists_member
      obtain ⟨hgiven, hrendered⟩ := hparts entry member
      rcases hgiven with ⟨part, hpart⟩ | ⟨hdefault, -⟩
      · have hmem : part ∈ valuesAt entry.name members := hpart ▸ List.mem_singleton_self part
        obtain ⟨spelled, hspelled⟩ := hinner _ (mem_valuesAt.mp hmem)
        exact ih (hrendered part hmem) hspelled
      · rename_i hinside
        exact absurd hinside (isRecord.not_contains_of_isDefault member hdefault number)
  | @item value part values isList member _ ih =>
      obtain ⟨items, rfl, hlength, hparts⟩ := isList.exists_items hrenders
      obtain ⟨inner, hinner⟩ := hspells.exists_item
      obtain ⟨place, hplace, rfl⟩ := List.mem_iff_getElem.mp member
      have hzip : place < (values.zip items).length := by
        rw [List.length_zip]
        omega
      have hpair : (values[place], items[place]) ∈ values.zip items := List.getElem_zip ▸ List.getElem_mem hzip
      obtain ⟨spelled, hspelled⟩ := hinner _ (List.getElem_mem (hlength ▸ hplace))
      exact ih (hparts _ hpair) hspelled

end FieldValue

end ScriptBytecode
