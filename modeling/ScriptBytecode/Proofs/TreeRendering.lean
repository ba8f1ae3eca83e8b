import Mathlib.Data.List.Nodup
import ScriptBytecode.Tree.Document

/-!
# Renderings of syntax trees

`Renders value json` says that a JSON value gives a part of a syntax tree the way the parser writes it. It does not
mention the decoder. A node is an object with its kind under `type` and its parts under their names, which the `entries`
of the node list; keys may come in any order, a part that is what leaving it out means may be left out, and every other
key may hold anything.

The decoder takes every rendering back to the part of the tree (`Renders.decodeValue_eq`): the members of an object that
are fields become a record that holds the entries of the node (`Record.Holds`), and the node is built from such a record.
-/

namespace ScriptBytecode

/-! ## The parts of a node -/

/-- A part of a record with its name in documents, and whether leaving it out means the same. -/
structure Entry where
  name : String
  content : FieldValue
  isDefault : Bool

namespace Entry

def required (name : String) (content : FieldValue) : Entry :=
  ⟨name, content, false⟩

def location (location : Option Location) : Entry :=
  ⟨"loc", .location location, location.isNone⟩

def indexer (indexer : Indexer) : Entry :=
  ⟨"indexer", .indexer indexer, decide (indexer = .dot)⟩

def initialValues (values : List Expression) : Entry :=
  ⟨"init", .expressions values, values.isEmpty⟩

end Entry

def Position.entries (position : Position) : List Entry :=
  [.required "line" (.count position.line), .required "column" (.count position.column)]

def Location.entries (location : Location) : List Entry :=
  [.required "start" (.position location.start), .required "end" (.position location.stop)]

def Identifier.entries (identifier : Identifier) : List Entry :=
  [.required "name" (.text identifier.name), .location identifier.location]

def Expression.entries : Expression → List Entry
  | .identifier name => name.entries
  | .number value location => [.required "value" (.number value), .location location]
  | .string value location => [.required "value" (.text value), .location location]
  | .boolean value location => [.required "value" (.boolean value), .location location]
  | .nil location => [.location location]
  | .binary operator left right location =>
      [.required "operator" (.operator operator), .required "left" (.expression left),
        .required "right" (.expression right), .location location]
  | .call callee arguments location =>
      [.required "base" (.expression callee), .required "arguments" (.expressions arguments), .location location]
  | .stringCall callee argument location =>
      [.required "base" (.expression callee), .required "argument" (.expression argument), .location location]
  | .tableCall callee argument location =>
      [.required "base" (.expression callee), .required "arguments" (.expression argument), .location location]
  | .table fields location => [.required "fields" (.tableFields fields), .location location]
  | .member indexer name base location =>
      [.indexer indexer, .required "identifier" (.identifier name), .required "base" (.expression base),
        .location location]
  | .unsupported _ location => [.location location]

def TableField.kind : TableField → TableFieldKind
  | .keyed .. => .keyed
  | .named .. => .named
  | .positional .. => .positional

def TableField.entries : TableField → List Entry
  | .keyed key value => [.required "key" (.expression key), .required "value" (.expression value)]
  | .named key value => [.required "key" (.identifier key), .required "value" (.expression value)]
  | .positional value => [.required "value" (.expression value)]

/-- A declaration may leave out its values, an assignment may not. -/
def Statement.entries : Statement → List Entry
  | .declare names values location =>
      [.required "variables" (.identifiers names), .initialValues values, .location location]
  | .assign targets values location =>
      [.required "variables" (.expressions targets), .required "init" (.expressions values), .location location]
  | .call expression location => [.required "expression" (.expression expression), .location location]
  | .conditional clauses location => [.required "clauses" (.clauses clauses), .location location]
  | .whileLoop condition body location =>
      [.required "condition" (.expression condition), .required "body" (.statements body), .location location]
  | .breakLoop location => [.location location]
  | .unsupported _ location => [.location location]

def Clause.kind : Clause → ClauseKind
  | .guarded opening .. => .guarded opening
  | .otherwise .. => .otherwise

def Clause.entries : Clause → List Entry
  | .guarded _ condition body location =>
      [.required "condition" (.expression condition), .required "body" (.statements body), .location location]
  | .otherwise body location => [.required "body" (.statements body), .location location]

namespace FieldValue

/-- The values that are written as objects, with their kinds and parts. -/
inductive IsRecord : FieldValue → RecordKind → List Entry → Prop
  | position (value : Position) : IsRecord (.position value) .position value.entries
  | location (value : Location) : IsRecord (.location (some value)) .location value.entries
  | identifier (value : Identifier) : IsRecord (.identifier value) .identifier value.entries
  | expression (value : Expression) : IsRecord (.expression value) (.expression value.kind) value.entries
  | tableField (value : TableField) : IsRecord (.tableField value) (.tableField value.kind) value.entries
  | statement (value : Statement) : IsRecord (.statement value) (.statement value.kind) value.entries
  | clause (value : Clause) : IsRecord (.clause value) (.clause value.kind) value.entries

/-- The values that are written as arrays, with their items. -/
inductive IsList : FieldValue → List FieldValue → Prop
  | identifiers (values : List Identifier) : IsList (.identifiers values) (values.map .identifier)
  | expressions (values : List Expression) : IsList (.expressions values) (values.map .expression)
  | tableFields (values : List TableField) : IsList (.tableFields values) (values.map .tableField)
  | statements (values : List Statement) : IsList (.statements values) (values.map .statement)
  | clauses (values : List Clause) : IsList (.clauses values) (values.map .clause)

end FieldValue

/-- The name under which the records of a kind are tagged; positions, locations and names are not. -/
def RecordKind.tag? : RecordKind → Option String
  | .position | .location | .identifier => none
  | .expression kind => some kind.name
  | .tableField kind => some kind.name
  | .statement kind => some kind.name
  | .clause kind => some kind.name

/-! ## Renderings -/

/-- What the members of an object have under a key. -/
def Json.valuesAt (name : String) (members : List (String × Json)) : List Json :=
  (members.filter fun member => member.1 == name).map (·.2)

/-- An object gives a part once, or leaves it out where that means the same. -/
def Entry.GivenBy (entry : Entry) (members : List (String × Json)) : Prop :=
  (∃ json, Json.valuesAt entry.name members = [json]) ∨
    entry.isDefault = true ∧ Json.valuesAt entry.name members = []

/-- A JSON value gives a part of a tree as the parser writes it. -/
inductive Renders : FieldValue → Json → Prop
  | count (value : UInt32) : Renders (.count value) (.number (.natural value.toNat))
  | nowhere : Renders (.location none) .null
  | text (value : String) : Renders (.text value) (.string value)
  | number (value : JsonNumber) : Renders (.number value.toBinary64) (.number value)
  | boolean (value : Bool) : Renders (.boolean value) (.bool value)
  | operator (value : BinaryOperator) : Renders (.operator value) (.string value.symbol)
  | indexer (value : Indexer) : Renders (.indexer value) (.string value.symbol)
  | record {value : FieldValue} {kind : RecordKind} {entries : List Entry} {members : List (String × Json)}
      (isRecord : value.IsRecord kind entries)
      (tagged : ∀ name ∈ kind.tag?, Json.valuesAt "type" members = [.string name])
      (given : ∀ entry ∈ entries, entry.GivenBy members)
      (inside : ∀ entry ∈ entries, ∀ json ∈ Json.valuesAt entry.name members, Renders entry.content json) :
      Renders value (.object members)
  | list {value : FieldValue} {values : List FieldValue} {items : List Json} (isList : value.IsList values)
      (sameLength : values.length = items.length) (inside : ∀ pair ∈ values.zip items, Renders pair.1 pair.2) :
      Renders value (.array items)

/-! ## Building nodes -/

/-- A record has a part, or lacks it where that means the same. -/
def Record.Holds (record : Record FieldValue) (entry : Entry) : Prop :=
  record.find? entry.name = some entry.content ∨ entry.isDefault = true ∧ record.find? entry.name = none

namespace Record.Holds

variable {record : Record FieldValue}

theorem requireAs_eq {name : String} {content : FieldValue} {α : Type} {form : FieldValue → Option α} {value : α}
    (h : record.Holds (.required name content)) (hform : form content = some value) :
    record.requireAs name form = .ok value := by
  rcases h with hfind | ⟨hdefault, -⟩
  · have hcontent : record.require name = .ok content := by
      unfold Record.require
      rw [show record.find? name = some content from hfind]
    simp only [Record.requireAs, hcontent, bind, Except.bind, hform, pure, Except.pure]
  · exact absurd hdefault Bool.false_ne_true

theorem location_eq {location : Option Location} (h : record.Holds (.location location)) :
    record.location = location := by
  unfold Record.location
  rcases h with hfind | ⟨hdefault, hfind⟩
  · rw [show record.find? "loc" = some (.location location) from hfind]
  · rw [show record.find? "loc" = none from hfind, Option.isNone_iff_eq_none.mp hdefault]

theorem indexer_eq {indexer : Indexer} (h : record.Holds (.indexer indexer)) : record.indexer = indexer := by
  unfold Record.indexer
  rcases h with hfind | ⟨hdefault, hfind⟩
  · rw [show record.find? "indexer" = some (.indexer indexer) from hfind]
  · rw [show record.find? "indexer" = none from hfind, of_decide_eq_true hdefault]

theorem initialValues_eq {values : List Expression} (h : record.Holds (.initialValues values)) :
    record.initialValues = values := by
  unfold Record.initialValues
  rcases h with hfind | ⟨hdefault, hfind⟩
  · rw [show record.find? "init" = some (.expressions values) from hfind]
  · rw [show record.find? "init" = none from hfind, List.isEmpty_iff.mp hdefault]

end Record.Holds

section Build

variable {record : Record FieldValue}

theorem Expression.build_eq {expression : Expression} (h : ∀ entry ∈ expression.entries, record.Holds entry) :
    expression.kind.build record = .ok expression := by
  cases expression with
  | identifier name =>
      simp only [entries, Identifier.entries, List.forall_mem_cons] at h
      obtain ⟨hname, hlocation, -⟩ := h
      have hname : record.text "name" = .ok name.name := hname.requireAs_eq rfl
      simp [kind, ExpressionKind.build, hname, hlocation.location_eq, bind, Except.bind, pure, Except.pure]
  | number value location =>
      simp only [entries, List.forall_mem_cons] at h
      obtain ⟨hvalue, hlocation, -⟩ := h
      have hvalue : record.number "value" = .ok value := hvalue.requireAs_eq rfl
      simp [kind, ExpressionKind.build, hvalue, hlocation.location_eq, bind, Except.bind, pure, Except.pure]
  | string value location =>
      simp only [entries, List.forall_mem_cons] at h
      obtain ⟨hvalue, hlocation, -⟩ := h
      have hvalue : record.text "value" = .ok value := hvalue.requireAs_eq rfl
      simp [kind, ExpressionKind.build, hvalue, hlocation.location_eq, bind, Except.bind, pure, Except.pure]
  | boolean value location =>
      simp only [entries, List.forall_mem_cons] at h
      obtain ⟨hvalue, hlocation, -⟩ := h
      have hvalue : record.boolean "value" = .ok value := hvalue.requireAs_eq rfl
      simp [kind, ExpressionKind.build, hvalue, hlocation.location_eq, bind, Except.bind, pure, Except.pure]
  | nil location =>
      simp only [entries, List.forall_mem_cons] at h
      obtain ⟨hlocation, -⟩ := h
      simp [kind, ExpressionKind.build, hlocation.location_eq, pure, Except.pure]
  | binary operator left right location =>
      simp only [entries, List.forall_mem_cons] at h
      obtain ⟨hoperator, hleft, hright, hlocation, -⟩ := h
      have hoperator : record.operator "operator" = .ok operator := hoperator.requireAs_eq rfl
      have hleft : record.expression "left" = .ok left := hleft.requireAs_eq rfl
      have hright : record.expression "right" = .ok right := hright.requireAs_eq rfl
      simp [kind, ExpressionKind.build, hoperator, hleft, hright, hlocation.location_eq, bind, Except.bind, pure,
        Except.pure]
  | call callee arguments location =>
      simp only [entries, List.forall_mem_cons] at h
      obtain ⟨hcallee, harguments, hlocation, -⟩ := h
      have hcallee : record.expression "base" = .ok callee := hcallee.requireAs_eq rfl
      have harguments : record.expressions "arguments" = .ok arguments := harguments.requireAs_eq rfl
      simp [kind, ExpressionKind.build, hcallee, harguments, hlocation.location_eq, bind, Except.bind, pure, Except.pure]
  | stringCall callee argument location =>
      simp only [entries, List.forall_mem_cons] at h
      obtain ⟨hcallee, hargument, hlocation, -⟩ := h
      have hcallee : record.expression "base" = .ok callee := hcallee.requireAs_eq rfl
      have hargument : record.expression "argument" = .ok argument := hargument.requireAs_eq rfl
      simp [kind, ExpressionKind.build, hcallee, hargument, hlocation.location_eq, bind, Except.bind, pure, Except.pure]
  | tableCall callee argument location =>
      simp only [entries, List.forall_mem_cons] at h
      obtain ⟨hcallee, hargument, hlocation, -⟩ := h
      have hcallee : record.expression "base" = .ok callee := hcallee.requireAs_eq rfl
      have hargument : record.expression "arguments" = .ok argument := hargument.requireAs_eq rfl
      simp [kind, ExpressionKind.build, hcallee, hargument, hlocation.location_eq, bind, Except.bind, pure, Except.pure]
  | table fields location =>
      simp only [entries, List.forall_mem_cons] at h
      obtain ⟨hfields, hlocation, -⟩ := h
      have hfields : record.tableFields "fields" = .ok fields := hfields.requireAs_eq rfl
      simp [kind, ExpressionKind.build, hfields, hlocation.location_eq, bind, Except.bind, pure, Except.pure]
  | member indexer name base location =>
      simp only [entries, List.forall_mem_cons] at h
      obtain ⟨hindexer, hname, hbase, hlocation, -⟩ := h
      have hname : record.identifier "identifier" = .ok name := hname.requireAs_eq rfl
      have hbase : record.expression "base" = .ok base := hbase.requireAs_eq rfl
      simp [kind, ExpressionKind.build, hname, hbase, hindexer.indexer_eq, hlocation.location_eq, bind, Except.bind, pure,
        Except.pure]
  | unsupported other location =>
      simp only [entries, List.forall_mem_cons] at h
      obtain ⟨hlocation, -⟩ := h
      simp [kind, ExpressionKind.build, hlocation.location_eq, pure, Except.pure]

theorem TableField.build_eq {field : TableField} (h : ∀ entry ∈ field.entries, record.Holds entry) :
    field.kind.build record = .ok field := by
  cases field with
  | keyed key value =>
      simp only [entries, List.forall_mem_cons] at h
      obtain ⟨hkey, hvalue, -⟩ := h
      have hkey : record.expression "key" = .ok key := hkey.requireAs_eq rfl
      have hvalue : record.expression "value" = .ok value := hvalue.requireAs_eq rfl
      simp [kind, TableFieldKind.build, hkey, hvalue, bind, Except.bind, pure, Except.pure]
  | named key value =>
      simp only [entries, List.forall_mem_cons] at h
      obtain ⟨hkey, hvalue, -⟩ := h
      have hkey : record.identifier "key" = .ok key := hkey.requireAs_eq rfl
      have hvalue : record.expression "value" = .ok value := hvalue.requireAs_eq rfl
      simp [kind, TableFieldKind.build, hkey, hvalue, bind, Except.bind, pure, Except.pure]
  | positional value =>
      simp only [entries, List.forall_mem_cons] at h
      obtain ⟨hvalue, -⟩ := h
      have hvalue : record.expression "value" = .ok value := hvalue.requireAs_eq rfl
      simp [kind, TableFieldKind.build, hvalue, bind, Except.bind, pure, Except.pure]

theorem Statement.build_eq {statement : Statement} (h : ∀ entry ∈ statement.entries, record.Holds entry) :
    statement.kind.build record = .ok statement := by
  cases statement with
  | declare names values location =>
      simp only [entries, List.forall_mem_cons] at h
      obtain ⟨hnames, hvalues, hlocation, -⟩ := h
      have hnames : record.identifiers "variables" = .ok names := hnames.requireAs_eq rfl
      simp [kind, StatementKind.build, hnames, hvalues.initialValues_eq, hlocation.location_eq, bind, Except.bind, pure,
        Except.pure]
  | assign targets values location =>
      simp only [entries, List.forall_mem_cons] at h
      obtain ⟨htargets, hvalues, hlocation, -⟩ := h
      have htargets : record.expressions "variables" = .ok targets := htargets.requireAs_eq rfl
      have hvalues : record.expressions "init" = .ok values := hvalues.requireAs_eq rfl
      simp [kind, StatementKind.build, htargets, hvalues, hlocation.location_eq, bind, Except.bind, pure, Except.pure]
  | call expression location =>
      simp only [entries, List.forall_mem_cons] at h
      obtain ⟨hexpression, hlocation, -⟩ := h
      have hexpression : record.expression "expression" = .ok expression := hexpression.requireAs_eq rfl
      simp [kind, StatementKind.build, hexpression, hlocation.location_eq, bind, Except.bind, pure, Except.pure]
  | conditional clauses location =>
      simp only [entries, List.forall_mem_cons] at h
      obtain ⟨hclauses, hlocation, -⟩ := h
      have hclauses : record.clauses "clauses" = .ok clauses := hclauses.requireAs_eq rfl
      simp [kind, StatementKind.build, hclauses, hlocation.location_eq, bind, Except.bind, pure, Except.pure]
  | whileLoop condition body location =>
      simp only [entries, List.forall_mem_cons] at h
      obtain ⟨hcondition, hbody, hlocation, -⟩ := h
      have hcondition : record.expression "condition" = .ok condition := hcondition.requireAs_eq rfl
      have hbody : record.statements "body" = .ok body := hbody.requireAs_eq rfl
      simp [kind, StatementKind.build, hcondition, hbody, hlocation.location_eq, bind, Except.bind, pure, Except.pure]
  | breakLoop location =>
      simp only [entries, List.forall_mem_cons] at h
      obtain ⟨hlocation, -⟩ := h
      simp [kind, StatementKind.build, hlocation.location_eq, pure, Except.pure]
  | unsupported other location =>
      simp only [entries, List.forall_mem_cons] at h
      obtain ⟨hlocation, -⟩ := h
      simp [kind, StatementKind.build, hlocation.location_eq, pure, Except.pure]

theorem Clause.build_eq {clause : Clause} (h : ∀ entry ∈ clause.entries, record.Holds entry) :
    clause.kind.build record = .ok clause := by
  cases clause with
  | guarded opening condition body location =>
      simp only [entries, List.forall_mem_cons] at h
      obtain ⟨hcondition, hbody, hlocation, -⟩ := h
      have hcondition : record.expression "condition" = .ok condition := hcondition.requireAs_eq rfl
      have hbody : record.statements "body" = .ok body := hbody.requireAs_eq rfl
      simp [kind, ClauseKind.build, hcondition, hbody, hlocation.location_eq, bind, Except.bind, pure, Except.pure]
  | otherwise body location =>
      simp only [entries, List.forall_mem_cons] at h
      obtain ⟨hbody, hlocation, -⟩ := h
      have hbody : record.statements "body" = .ok body := hbody.requireAs_eq rfl
      simp [kind, ClauseKind.build, hbody, hlocation.location_eq, bind, Except.bind, pure, Except.pure]

/-- A value is built from a record that holds its parts. -/
theorem FieldValue.IsRecord.build_eq {value : FieldValue} {kind : RecordKind} {entries : List Entry}
    (h : value.IsRecord kind entries) (hholds : ∀ entry ∈ entries, record.Holds entry) :
    kind.build record = .ok value := by
  cases h with
  | position value =>
      simp only [Position.entries, List.forall_mem_cons] at hholds
      obtain ⟨hline, hcolumn, -⟩ := hholds
      have hline : record.count "line" = .ok value.line := hline.requireAs_eq rfl
      have hcolumn : record.count "column" = .ok value.column := hcolumn.requireAs_eq rfl
      simp [RecordKind.build, hline, hcolumn, bind, Except.bind, pure, Except.pure]
  | location value =>
      simp only [Location.entries, List.forall_mem_cons] at hholds
      obtain ⟨hstart, hstop, -⟩ := hholds
      have hstart : record.position "start" = .ok value.start := hstart.requireAs_eq rfl
      have hstop : record.position "end" = .ok value.stop := hstop.requireAs_eq rfl
      simp [RecordKind.build, hstart, hstop, bind, Except.bind, pure, Except.pure]
  | identifier value =>
      simp only [Identifier.entries, List.forall_mem_cons] at hholds
      obtain ⟨hname, hlocation, -⟩ := hholds
      have hname : record.text "name" = .ok value.name := hname.requireAs_eq rfl
      simp [RecordKind.build, hname, hlocation.location_eq, bind, Except.bind, pure, Except.pure]
  | expression value => simp [RecordKind.build, value.build_eq hholds, bind, Except.bind, pure, Except.pure]
  | tableField value => simp [RecordKind.build, value.build_eq hholds, bind, Except.bind, pure, Except.pure]
  | statement value => simp [RecordKind.build, value.build_eq hholds, bind, Except.bind, pure, Except.pure]
  | clause value => simp [RecordKind.build, value.build_eq hholds, bind, Except.bind, pure, Except.pure]

end Build

/-! ## The fields of an object -/

/-- Among values with different keys there is one with the key of a value. -/
theorem filter_of_nodup {α : Type} {key : α → String} {values : List α} (h : (values.map key).Nodup) {value : α}
    (hmem : value ∈ values) : values.filter (fun other => key other == key value) = [value] := by
  induction values with
  | nil => exact absurd hmem List.not_mem_nil
  | cons first values ih =>
      obtain ⟨hfirst, hothers⟩ := List.nodup_cons.mp h
      rcases List.mem_cons.mp hmem with rfl | hmem
      · have hnone : values.filter (fun other => key other == key value) = [] := by
          apply List.filter_eq_nil_iff.mpr
          intro other hother heq
          exact hfirst ((beq_iff_eq.mp heq) ▸ List.mem_map_of_mem hother)
        rw [List.filter_cons_of_pos (by simp), hnone]
      · have hne : key first ≠ key value := fun heq => hfirst (heq ▸ List.mem_map_of_mem hmem)
        rw [List.filter_cons_of_neg (by simpa using hne)]
        exact ih hothers hmem

theorem find?_of_nodup {α : Type} {key : α → String} {values : List α} (h : (values.map key).Nodup) {value : α}
    (hmem : value ∈ values) : values.find? (fun other => key other == key value) = some value := by
  rw [← List.head?_filter, filter_of_nodup h hmem, List.head?_cons]

namespace Json

theorem valuesAt_cons (name key : String) (json : Json) (members : List (String × Json)) :
    valuesAt name ((key, json) :: members) =
      if key = name then json :: valuesAt name members else valuesAt name members := by
  by_cases h : key = name <;> simp [valuesAt, h]

theorem mem_valuesAt {name : String} {json : Json} {members : List (String × Json)} :
    json ∈ valuesAt name members ↔ (name, json) ∈ members := by
  simp [valuesAt]

theorem valuesAt_append (name : String) (members others : List (String × Json)) :
    valuesAt name (members ++ others) = valuesAt name members ++ valuesAt name others := by
  simp [valuesAt]

theorem valuesAt_subset_cons (name : String) (member : String × Json) (members : List (String × Json)) :
    valuesAt name members ⊆ valuesAt name (member :: members) := by
  intro json hmem
  exact mem_valuesAt.mpr (List.mem_cons_of_mem _ (mem_valuesAt.mp hmem))

theorem lookup_of_valuesAt {name : String} {json : Json} {members : List (String × Json)}
    (h : valuesAt name members = [json]) : members.lookup name = some json := by
  induction members with
  | nil => exact absurd h (by simp [valuesAt])
  | cons member members ih =>
      obtain ⟨key, value⟩ := member
      rw [valuesAt_cons] at h
      by_cases hkey : key = name
      · rw [if_pos hkey] at h
        simp [hkey, (List.cons.inj h).1]
      · have hne : (name == key) = false := by simpa using fun heq : name = key => hkey heq.symm
        rw [if_neg hkey] at h
        simp [List.lookup_cons, hne, ih h]

end Json

def FieldValue.type : FieldValue → FieldType
  | .count _ => .count
  | .position _ => .position
  | .location _ => .location
  | .text _ => .text
  | .number _ => .number
  | .boolean _ => .boolean
  | .operator _ => .operator
  | .indexer _ => .indexer
  | .identifier _ => .identifier
  | .expression _ => .expression
  | .tableField _ => .tableField
  | .statement _ => .statement
  | .clause _ => .clause
  | .identifiers _ => .identifiers
  | .expressions _ => .expressions
  | .tableFields _ => .tableFields
  | .statements _ => .statements
  | .clauses _ => .clauses

/-- The parts of a value are the fields that its kind declares. -/
theorem FieldValue.IsRecord.fields_eq {value : FieldValue} {kind : RecordKind} {entries : List Entry}
    (h : value.IsRecord kind entries) :
    kind.fields.map (fun field => (field.name, field.type)) =
      entries.map (fun entry => (entry.name, entry.content.type)) := by
  cases h with
  | position value => rfl
  | location value => rfl
  | identifier value => rfl
  | expression value => cases value <;> rfl
  | tableField value => cases value <;> rfl
  | statement value => cases value <;> rfl
  | clause value => cases value <;> rfl

/-- No kind has two fields of one name, or a field with the name of the tag. -/
theorem RecordKind.nodup_names (kind : RecordKind) : ("type" :: kind.fields.map (·.name)).Nodup := by
  cases kind with
  | position => decide
  | location => decide
  | identifier => decide
  | expression kind =>
      cases kind with
      | unsupported other => cases other <;> decide
      | _ => decide
  | tableField kind => cases kind <;> decide
  | statement kind =>
      cases kind with
      | unsupported other => cases other <;> decide
      | _ => decide
  | clause kind =>
      cases kind with
      | guarded opening => cases opening <;> decide
      | otherwise => decide

theorem FieldValue.IsRecord.nodup_names {value : FieldValue} {kind : RecordKind} {entries : List Entry}
    (h : value.IsRecord kind entries) : ("type" :: entries.map (·.name)).Nodup := by
  have hnames : kind.fields.map (·.name) = entries.map (·.name) := by
    simpa [Function.comp_def] using congrArg (List.map Prod.fst) h.fields_eq
  rw [← hnames]
  exact kind.nodup_names

section Members

variable {entries : List Entry} {members : List (String × Json)}

/-- What an object gives of the parts of a record, in the order of its members. -/
def recordOf (entries : List Entry) (members : List (String × Json)) : Record FieldValue :=
  members.filterMap fun member =>
    (entries.find? fun entry => entry.name == member.1).map fun entry => (member.1, entry.content)

theorem recordOf_cons (entries : List Entry) (name : String) (json : Json) (members : List (String × Json)) :
    recordOf entries ((name, json) :: members) =
      (entries.find? fun entry => entry.name == name).elim (recordOf entries members) fun entry =>
        (name, entry.content) :: recordOf entries members := by
  cases hfind : entries.find? fun entry => entry.name == name <;> simp [recordOf, hfind]

/-- The decoder looks a name up among the fields as it is looked up among the parts. -/
theorem typeOf?_eq {fields : List (Field FieldType)}
    (h : fields.map (fun field => (field.name, field.type)) =
      entries.map (fun entry => (entry.name, entry.content.type))) (name : String) :
    Field.typeOf? fields name = (entries.find? fun entry => entry.name == name).map (·.content.type) := by
  have hfind := congrArg (fun pairs => (pairs.find? fun pair => pair.1 == name).map (·.2)) h
  simpa [List.find?_map, Field.typeOf?, Function.comp_def] using hfind

/-- The members that are fields are decoded to the parts. -/
theorem decodeMembers_eq {fields : List (Field FieldType)}
    (h : fields.map (fun field => (field.name, field.type)) =
      entries.map (fun entry => (entry.name, entry.content.type)))
    (hinside : ∀ entry ∈ entries, ∀ json ∈ Json.valuesAt entry.name members,
      decodeValue entry.content.type json = .ok entry.content) :
    decodeMembers fields members = (recordOf entries members).map fun field => (field.1, .ok field.2) := by
  induction members with
  | nil => simp [decodeMembers, recordOf]
  | cons member members ih =>
      obtain ⟨name, json⟩ := member
      have hothers := ih fun entry hmem json hjson =>
        hinside entry hmem json (Json.valuesAt_subset_cons _ _ _ hjson)
      rw [decodeMembers, typeOf?_eq h, recordOf_cons]
      cases hfind : entries.find? fun entry => entry.name == name with
      | none => simpa using hothers
      | some entry =>
          have hname : entry.name = name := by simpa using List.find?_some hfind
          have hjson : json ∈ Json.valuesAt entry.name ((name, json) :: members) := by
            rw [Json.mem_valuesAt, hname]
            exact List.mem_cons_self
          have hvalue := hinside entry (List.mem_of_find?_eq_some hfind) json hjson
          simp [hvalue, hothers]

/-- A part that is given at most once is collected at most once. -/
theorem nodup_recordOf (h : ∀ entry ∈ entries, (Json.valuesAt entry.name members).length ≤ 1) :
    ((recordOf entries members).map (·.1)).Nodup := by
  induction members with
  | nil => simp [recordOf]
  | cons member members ih =>
      obtain ⟨name, json⟩ := member
      have hothers := ih fun entry hmem => by
        have hlength := h entry hmem
        rw [Json.valuesAt_cons] at hlength
        split at hlength
        · rw [List.length_cons] at hlength
          omega
        · exact hlength
      rw [recordOf_cons]
      cases hfind : entries.find? fun entry => entry.name == name with
      | none => exact hothers
      | some entry =>
          have hname : entry.name = name := by simpa using List.find?_some hfind
          refine List.nodup_cons.mpr ⟨?_, hothers⟩
          -- A second part of the name would come from a second member of the name.
          intro hmem
          obtain ⟨field, hfield, heq⟩ := List.mem_map.mp hmem
          obtain ⟨other, hother, hentry⟩ := List.mem_filterMap.mp hfield
          have hsame : other.1 = name := by
            obtain ⟨_, -, rfl⟩ := Option.map_eq_some_iff.mp hentry
            exact heq
          have hvalue : other.2 ∈ Json.valuesAt name members := by
            rw [Json.mem_valuesAt, ← hsame]
            exact hother
          have hlength := h entry (List.mem_of_find?_eq_some hfind)
          rw [hname, Json.valuesAt_cons, if_pos rfl, List.length_cons] at hlength
          have hpositive := List.length_pos_of_mem hvalue
          omega

theorem find?_recordOf {name : String} {entry : Entry}
    (h : (entries.find? fun entry => entry.name == name) = some entry) :
    (recordOf entries members).find? name =
      if (Json.valuesAt name members).isEmpty then none else some entry.content := by
  induction members with
  | nil => rfl
  | cons member members ih =>
      obtain ⟨key, json⟩ := member
      rw [recordOf_cons, Json.valuesAt_cons]
      by_cases hkey : key = name
      · subst hkey
        simp [h, Record.find?]
      · rw [if_neg hkey, ← ih]
        cases hfind : entries.find? fun entry => entry.name == key with
        | none => rfl
        | some other =>
            have hne : (name == key) = false := by simpa using fun heq : name = key => hkey heq.symm
            simp [Record.find?, List.lookup_cons, hne]

/-- The record of an object holds the parts that the object gives. -/
theorem Entry.GivenBy.holds (hnodup : (entries.map (·.name)).Nodup) {entry : Entry} (hmem : entry ∈ entries)
    (h : entry.GivenBy members) : (recordOf entries members).Holds entry := by
  have hfind := @find?_recordOf entries members entry.name entry (find?_of_nodup hnodup hmem)
  rcases h with ⟨json, hvalues⟩ | ⟨hdefault, hvalues⟩
  · rw [hvalues] at hfind
    exact Or.inl hfind
  · rw [hvalues] at hfind
    exact Or.inr ⟨hdefault, hfind⟩

theorem Entry.GivenBy.length_le {entry : Entry} (h : entry.GivenBy members) :
    (Json.valuesAt entry.name members).length ≤ 1 := by
  rcases h with ⟨json, hvalues⟩ | ⟨-, hvalues⟩ <;> simp [hvalues]

end Members

theorem Record.find?_isSome_iff {α : Type} {record : Record α} {name : String} :
    (record.find? name).isSome = true ↔ name ∈ record.map (·.1) := by
  induction record with
  | nil => simp [Record.find?]
  | cons field record ih =>
      obtain ⟨key, value⟩ := field
      unfold Record.find? at ih ⊢
      by_cases hkey : name = key
      · subst hkey
        simp
      · have hne : (name == key) = false := by simpa using hkey
        simp [List.lookup_cons, hne, ih, hkey]

/-- Fields with different names are collected as they are. -/
theorem Record.collect_eq {α : Type} {record : Record α} (h : (record.map (·.1)).Nodup) :
    Record.collect (record.map fun field => (field.1, .ok field.2)) = .ok record := by
  have hfrom : ∀ seen : Record α, ((seen ++ record).map (·.1)).Nodup →
      Record.collectFrom seen (record.map fun field => (field.1, .ok field.2)) = .ok (seen ++ record) := by
    clear h
    induction record with
    | nil => simp [Record.collectFrom]
    | cons field record ih =>
        intro seen hnodup
        have hfresh : ¬ (Record.find? seen field.1).isSome = true := by
          rw [Record.find?_isSome_iff]
          rw [List.map_append, List.map_cons] at hnodup
          exact fun hmem => (List.nodup_append.mp hnodup).2.2 field.1 hmem field.1 List.mem_cons_self rfl
        have hrest := ih (seen ++ [field]) (by simpa using hnodup)
        simp [Record.collectFrom, hfresh, hrest]
  exact hfrom [] h

/-! ## Decoding renderings -/

/-- The kinds of a family have different names. -/
theorem NodeFamily.nodup_names (family : NodeFamily) : (family.kinds.map (·.name)).Nodup := by
  cases family <;> decide

theorem NodeFamily.kindOfTag_name {family : NodeFamily} {kind : RecordKind} (h : kind ∈ family.kinds) :
    family.kindOfTag (.string kind.name) = .ok kind := by
  unfold kindOfTag
  simp [find?_of_nodup family.nodup_names h]

theorem NodeFamily.kindOfMembers_eq {family : NodeFamily} {kind : RecordKind} (h : kind ∈ family.kinds)
    {members : List (String × Json)} (htag : Json.valuesAt "type" members = [.string kind.name]) :
    family.kindOfMembers members = .ok kind := by
  unfold kindOfMembers
  obtain ⟨⟨key, json⟩, hfilter, rfl⟩ := List.map_eq_singleton_iff.mp htag
  rw [hfilter]
  exact kindOfTag_name h

theorem NodeFamily.expression_mem_kinds (kind : ExpressionKind) : .expression kind ∈ expression.kinds := by
  cases kind with
  | unsupported other => cases other <;> decide
  | _ => decide

theorem NodeFamily.tableField_mem_kinds (kind : TableFieldKind) : .tableField kind ∈ tableField.kinds := by
  cases kind <;> decide

theorem NodeFamily.statement_mem_kinds (kind : StatementKind) : .statement kind ∈ statement.kinds := by
  cases kind with
  | unsupported other => cases other <;> decide
  | _ => decide

theorem NodeFamily.clause_mem_kinds (kind : ClauseKind) : .clause kind ∈ clause.kinds := by
  cases kind with
  | guarded opening => cases opening <;> decide
  | otherwise => decide

namespace FieldValue

/-- A record is decoded as its type says, or by the kind that its tag names. -/
theorem IsRecord.shape {value : FieldValue} {kind : RecordKind} {entries : List Entry}
    (h : value.IsRecord kind entries) :
    value.type.shape = .record kind ∨
      ∃ family, value.type.shape = .node family ∧ kind ∈ family.kinds ∧ kind.tag? = some kind.name := by
  cases h with
  | position value => exact Or.inl rfl
  | location value => exact Or.inl rfl
  | identifier value => exact Or.inl rfl
  | expression value => exact Or.inr ⟨.expression, rfl, NodeFamily.expression_mem_kinds _, rfl⟩
  | tableField value => exact Or.inr ⟨.tableField, rfl, NodeFamily.tableField_mem_kinds _, rfl⟩
  | statement value => exact Or.inr ⟨.statement, rfl, NodeFamily.statement_mem_kinds _, rfl⟩
  | clause value => exact Or.inr ⟨.clause, rfl, NodeFamily.clause_mem_kinds _, rfl⟩

/-- A list is put together from its items. -/
theorem IsList.shape {value : FieldValue} {values : List FieldValue} (h : value.IsList values) :
    ∃ item, value.type.shape = .list item ∧ (∀ part ∈ values, part.type = item) ∧ item.ofItems values = value := by
  cases h with
  | identifiers values => exact ⟨.identifier, rfl, by simp [type], by simp [FieldType.ofItems, List.filterMap_map]⟩
  | expressions values => exact ⟨.expression, rfl, by simp [type], by simp [FieldType.ofItems, List.filterMap_map]⟩
  | tableFields values => exact ⟨.tableField, rfl, by simp [type], by simp [FieldType.ofItems, List.filterMap_map]⟩
  | statements values => exact ⟨.statement, rfl, by simp [type], by simp [FieldType.ofItems, List.filterMap_map]⟩
  | clauses values => exact ⟨.clause, rfl, by simp [type], by simp [FieldType.ofItems, List.filterMap_map]⟩

end FieldValue

theorem decodeItems_eq {item : FieldType} {values : List FieldValue} {items : List Json}
    (hlength : values.length = items.length)
    (h : ∀ pair ∈ values.zip items, decodeValue item pair.2 = .ok pair.1) : decodeItems item items = .ok values := by
  induction items generalizing values with
  | nil =>
      obtain rfl := List.length_eq_zero_iff.mp hlength
      rfl
  | cons json items ih =>
      cases values with
      | nil => exact absurd hlength (by simp)
      | cons value values =>
          rw [List.zip_cons_cons, List.forall_mem_cons] at h
          simp only [decodeItems, h.1, ih (Nat.succ.inj hlength) h.2]

/-- The decoder takes a rendering back to what it renders. -/
theorem Renders.decodeValue_eq {value : FieldValue} {json : Json} (h : Renders value json) :
    decodeValue value.type json = .ok value := by
  induction h with
  | count value =>
      simp [decodeValue, FieldValue.type, FieldType.decodeLeaf, Json.toNatBelow, value.toNat_lt, Except.map]
  | nowhere => simp [decodeValue, FieldValue.type, FieldType.decodeLeaf]
  | text value => simp [decodeValue, FieldValue.type, FieldType.decodeLeaf]
  | number value => simp [decodeValue, FieldValue.type, FieldType.decodeLeaf]
  | boolean value => simp [decodeValue, FieldValue.type, FieldType.decodeLeaf]
  | operator value =>
      have hsymbol : BinaryOperator.ofSymbol? value.symbol = some value := by cases value <;> rfl
      simp [decodeValue, FieldValue.type, FieldType.decodeLeaf, decodeSymbol, hsymbol, Except.map]
  | indexer value =>
      have hsymbol : Indexer.ofSymbol? value.symbol = some value := by cases value <;> rfl
      simp [decodeValue, FieldValue.type, FieldType.decodeLeaf, decodeSymbol, hsymbol, Except.map]
  | @record value kind entries members isRecord tagged given inside ih =>
      have hnodup := (List.nodup_cons.mp isRecord.nodup_names).2
      have hmembers := decodeMembers_eq isRecord.fields_eq ih
      have hcollect := Record.collect_eq (nodup_recordOf fun entry hmem => (given entry hmem).length_le)
      have hbuild := isRecord.build_eq fun entry hmem => (given entry hmem).holds hnodup hmem
      rcases isRecord.shape with hshape | ⟨family, hshape, hkind, htag⟩
      · simp only [decodeValue, hshape, hmembers, hcollect, bind, Except.bind, hbuild]
      · have hfamily := NodeFamily.kindOfMembers_eq hkind (tagged kind.name htag)
        simp only [decodeValue, hshape, hfamily, hmembers, hcollect, bind, Except.bind, hbuild]
  | @list value values items isList sameLength inside ih =>
      obtain ⟨item, hshape, htypes, hitems⟩ := isList.shape
      have hdecode : decodeItems item items = .ok values := by
        apply decodeItems_eq sameLength
        intro pair hmem
        rw [← htypes pair.1 (List.of_mem_zip hmem).1]
        exact ih pair hmem
      unfold decodeValue
      simp only [hshape, hdecode, bind, Except.bind, hitems, pure, Except.pure]

end ScriptBytecode
