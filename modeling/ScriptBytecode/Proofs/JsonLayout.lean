import ScriptBytecode.Proofs.JsonText

/-!
# Both layouts spell the value

The texts that the writer gives, compact or indented, spell the value that is written. The two layouts differ in the
blanks between the tokens only: behind the first part, the items and the members of both are `rows`.
-/

namespace ScriptBytecode.Json

/-! ## Strings -/

/-- The escape of a character below the blank. -/
theorem hexUnit?_of_lt {value : Nat} (h : value < 32) :
    hexUnit? ['0', '0', hexChar (value / 16), hexChar (value % 16)] = some value ∧
      isLeadingSurrogate value = false ∧ isTrailingSurrogate value = false := by
  have hall : ∀ value : Fin 32, hexUnit? ['0', '0', hexChar (value.val / 16), hexChar (value.val % 16)] = some value.val ∧
      isLeadingSurrogate value.val = false ∧ isTrailingSurrogate value.val = false := by decide
  exact hall ⟨value, h⟩

theorem spellsChar_writeChar (c : Char) : SpellsChar c (writeChar c) := by
  unfold writeChar
  split
  · exact .letter rfl
  · exact .letter rfl
  · exact .letter rfl
  · exact .letter rfl
  · exact .letter rfl
  · exact .letter rfl
  · exact .letter rfl
  · rename_i noQuote noBackslash _ _ _ _ _
    split
    · rename_i hcontrol
      have hlt : c.toNat < 32 := hcontrol
      obtain ⟨hunit, hleading, htrailing⟩ := hexUnit?_of_lt hlt
      have hspelled := SpellsChar.unit hunit hleading htrailing
      rw [Char.ofNat_toNat] at hspelled
      exact hspelled
    · rename_i hvisible
      exact .plain hvisible noQuote noBackslash

theorem spellsChars_flatMap (chars : List Char) : SpellsChars chars (chars.flatMap writeChar) := by
  induction chars with
  | nil => exact .nil
  | cons c chars ih =>
      rw [List.flatMap_cons]
      exact .cons (spellsChar_writeChar c) ih

theorem spellsString_writeString (value : String) : SpellsString value (writeString value) :=
  ⟨value.toList.flatMap writeChar, spellsChars_flatMap value.toList, rfl⟩

/-! ## Rows -/

/-- The parts behind the first one with a comma and blanks before each, and then blanks and a closing bracket. -/
def rows {α : Type} (write : α → List Char) (before behind : List Char) (close : Char) : List α → List Char
  | [] => behind ++ [close]
  | value :: values => ',' :: (before ++ (write value ++ rows write before behind close values))

theorem listed_rows {α : Type} {spells : α → List Char → Prop} {write : α → List Char} {before behind : List Char}
    (close : Char) (hbefore : AllBlank before) (hbehind : AllBlank behind) {value : α} {values : List α}
    (h : ∀ part ∈ value :: values, spells part (write part)) :
    Listed spells close (value :: values) (before ++ (write value ++ rows write before behind close values)) := by
  induction values generalizing value with
  | nil => exact .last hbefore (h value List.mem_cons_self) hbehind
  | cons next values ih =>
      have hrest := ih fun part hmem => h part (List.mem_cons_of_mem value hmem)
      exact .more hbefore (h value List.mem_cons_self) allBlank_nil hrest

/-- A member in a layout that puts blanks behind the colon. -/
def writeMember (write : Json → List Char) (gap : List Char) (member : String × Json) : List Char :=
  writeString member.1 ++ ':' :: (gap ++ write member.2)

theorem spellsMember_writeMember {spells : Json → List Char → Prop} {write : Json → List Char} {gap : List Char}
    (hgap : AllBlank gap) {member : String × Json} (h : spells member.2 (write member.2)) :
    SpellsMember spells member (writeMember write gap member) := by
  have hmember := SpellsMember.intro (spellsString_writeString member.1) allBlank_nil hgap h
  exact hmember

/-- Parts between brackets. -/
def enclosed {α : Type} (first close : Char) (write : α → List Char) (before behind : List Char) : List α → List Char
  | [] => [first, close]
  | value :: values => first :: (before ++ (write value ++ rows write before behind close values))

theorem exists_bracketed_enclosed {α : Type} {spells : α → List Char → Prop} {write : α → List Char}
    {before behind : List Char} (first close : Char) (hbefore : AllBlank before) (hbehind : AllBlank behind)
    {values : List α} (h : ∀ part ∈ values, spells part (write part)) :
    ∃ text, enclosed first close write before behind values = first :: text ∧ Bracketed spells close values text := by
  cases values with
  | nil => exact ⟨[close], rfl, .empty allBlank_nil⟩
  | cons value values => exact ⟨_, rfl, .listed (listed_rows close hbefore hbehind h)⟩

/-! ## The two layouts -/

theorem compact_array (items : List Json) : compact (.array items) = enclosed '[' ']' compact [] [] items := by
  have hrows : ∀ items, compactItems items = rows compact [] [] ']' items := by
    intro items
    induction items with
    | nil => simp [compactItems, rows]
    | cons item items ih => simp [compactItems, rows, ih]
  cases items with
  | nil => simp [compact, enclosed]
  | cons item items => simp [compact, enclosed, hrows]

theorem compact_object (members : List (String × Json)) :
    compact (.object members) = enclosed '\x7b' '\x7d' (writeMember compact []) [] [] members := by
  have hrows : ∀ members, compactMembers members = rows (writeMember compact []) [] [] '\x7d' members := by
    intro members
    induction members with
    | nil => simp [compactMembers, rows]
    | cons member members ih => simp [compactMembers, rows, writeMember, ih]
  cases members with
  | nil => simp [compact, enclosed]
  | cons member members => simp [compact, enclosed, writeMember, hrows]

theorem indented_array (depth : Nat) (items : List Json) :
    indented depth (.array items) =
      enclosed '[' ']' (indented (depth + 1)) (newLine (depth + 1)) (newLine depth) items := by
  have hrows : ∀ items, indentedItems depth items =
      rows (indented (depth + 1)) (newLine (depth + 1)) (newLine depth) ']' items := by
    intro items
    induction items with
    | nil => simp [indentedItems, rows]
    | cons item items ih => simp [indentedItems, rows, ih]
  cases items with
  | nil => simp [indented, enclosed]
  | cons item items => simp [indented, enclosed, hrows]

theorem indented_object (depth : Nat) (members : List (String × Json)) :
    indented depth (.object members) =
      enclosed '\x7b' '\x7d' (writeMember (indented (depth + 1)) [' ']) (newLine (depth + 1)) (newLine depth) members := by
  have hrows : ∀ members, indentedMembers depth members =
      rows (writeMember (indented (depth + 1)) [' ']) (newLine (depth + 1)) (newLine depth) '\x7d' members := by
    intro members
    induction members with
    | nil => simp [indentedMembers, rows]
    | cons member members ih => simp [indentedMembers, rows, writeMember, ih]
  cases members with
  | nil => simp [indented, enclosed]
  | cons member members => simp [indented, enclosed, writeMember, hrows]

theorem allBlank_newLine (depth : Nat) : AllBlank (newLine depth) := by
  intro c hmem
  rcases List.mem_cons.mp hmem with rfl | hblank
  · decide
  · rw [List.eq_of_mem_replicate hblank]
    decide

/-! ## Values -/

/-- A value that documents can hold, with no more than a number of brackets inside each other. -/
inductive Writable : Nat → Json → Prop
  | null {brackets : Nat} : Writable brackets .null
  | bool {brackets : Nat} {value : Bool} : Writable brackets (.bool value)
  | number {brackets : Nat} {value : JsonNumber} (writable : IsWritableNumber value) : Writable brackets (.number value)
  | string {brackets : Nat} {value : String} : Writable brackets (.string value)
  | array {brackets : Nat} {items : List Json} (inside : ∀ item ∈ items, Writable brackets item) :
      Writable (brackets + 1) (.array items)
  | object {brackets : Nat} {members : List (String × Json)} (inside : ∀ member ∈ members, Writable brackets member.2) :
      Writable (brackets + 1) (.object members)

/-- The compact layout. -/
theorem spells_compact {brackets : Nat} {json : Json} (h : Writable brackets json) :
    Spells brackets json json.compact := by
  induction h with
  | null =>
      unfold compact
      exact .of_leaf .null
  | bool =>
      unfold compact
      exact .of_leaf .bool
  | number writable =>
      unfold compact
      exact .of_leaf (.number (readsNumber_writeNumber writable))
  | string =>
      unfold compact
      exact .of_leaf (.string (spellsString_writeString _))
  | array _ ih =>
      obtain ⟨text, htext, hinside⟩ := exists_bracketed_enclosed '[' ']' allBlank_nil allBlank_nil ih
      rw [compact_array, htext]
      exact Or.inr (.array hinside)
  | object _ ih =>
      have hmembers := fun pair hmem => @spellsMember_writeMember _ compact [] allBlank_nil pair (ih pair hmem)
      obtain ⟨text, htext, hinside⟩ := exists_bracketed_enclosed '\x7b' '\x7d' allBlank_nil allBlank_nil hmembers
      rw [compact_object, htext]
      exact Or.inr (.object hinside)

/-- The indented layout. -/
theorem spells_indented {brackets : Nat} {json : Json} (h : Writable brackets json) (depth : Nat) :
    Spells brackets json (json.indented depth) := by
  induction h generalizing depth with
  | null =>
      unfold indented
      exact .of_leaf .null
  | bool =>
      unfold indented
      exact .of_leaf .bool
  | number writable =>
      unfold indented
      exact .of_leaf (.number (readsNumber_writeNumber writable))
  | string =>
      unfold indented
      exact .of_leaf (.string (spellsString_writeString _))
  | array _ ih =>
      have hitems := fun item hmem => ih item hmem (depth + 1)
      obtain ⟨text, htext, hinside⟩ :=
        exists_bracketed_enclosed '[' ']' (allBlank_newLine (depth + 1)) (allBlank_newLine depth) hitems
      rw [indented_array, htext]
      exact Or.inr (.array hinside)
  | object _ ih =>
      have hgap : AllBlank [' '] := by
        intro c hmem
        rw [List.mem_singleton.mp hmem]
        rfl
      have hmembers := fun pair hmem => spellsMember_writeMember hgap (ih pair hmem (depth + 1))
      obtain ⟨text, htext, hinside⟩ :=
        exists_bracketed_enclosed '\x7b' '\x7d' (allBlank_newLine (depth + 1)) (allBlank_newLine depth) hmembers
      rw [indented_object, htext]
      exact Or.inr (.object hinside)

end ScriptBytecode.Json
