import ScriptBytecode.Program.Document
import ScriptBytecode.Proofs.JsonLayout
import ScriptBytecode.Proofs.Validity

/-!
# Programs are read back from their documents

What is written of a program is taken back layer by layer: instructions are decoded from their encoding, encoded
instructions and constants from their JSON values, and the JSON value from its text. A valid program is read back from
every text that spells its value (`parse_of_spells`), whatever blanks and escapes the text has. Of the reader of numbers
only this is asked: it gives the numbers of the program back from their own texts (`NumbersReadBack`).
-/

namespace ScriptBytecode

/-! ## Instructions -/

theorem Opcode.ofCode?_code (opcode : Opcode) : ofCode? opcode.code = some opcode := by
  cases opcode with
  | operate operation => cases operation <;> rfl
  | _ => rfl

/-- The operands of every instruction are decoded, also the list of a call and the parent of a scope. -/
theorem Instruction.decodeOperands_operands (instruction : Instruction JumpTarget) :
    decodeOperands instruction.opcode (instruction.operands.map Operand.raw) = .ok instruction := by
  cases instruction with
  | call callee arguments dst =>
      have harguments : (arguments.map (·.index)).map Register.mk = arguments := by
        rw [List.map_map]
        exact List.map_id'' (fun _ => rfl) arguments
      show Except.ok (Instruction.call callee ((arguments.map (·.index)).map Register.mk) dst) = _
      rw [harguments]
  | newScope dst parent => cases parent <;> rfl
  | _ => rfl

theorem Instruction.decode_encode (instruction : Instruction JumpTarget) (position : Nat) :
    decode instruction.encode position = .ok instruction := by
  simp [decode, encode, Opcode.ofCode?_code, decodeOperands_operands]

theorem Program.decodeFrom_encode (instructions : List (Instruction JumpTarget)) (position : Nat) :
    decodeFrom position (instructions.map Instruction.encode) = .ok instructions := by
  induction instructions generalizing position with
  | nil => rfl
  | cons instruction instructions ih => simp [decodeFrom, Instruction.decode_encode, ih]

/-! ## Values -/

/-- Reading what was written value by value. -/
theorem mapM_map_of_pure {m : Type → Type} [Monad m] [LawfulMonad m] {α β : Type} {read : β → m α} {write : α → β}
    (h : ∀ value, read (write value) = pure value) (values : List α) : (values.map write).mapM read = pure values := by
  induction values with
  | nil => rw [List.map_nil, List.mapM_nil]
  | cons value values ih => rw [List.map_cons, List.mapM_cons, h, pure_bind, ih, pure_bind]

theorem Json.toListOf_map {α : Type} {item : Json → Except ShapeFault α} {write : α → Json}
    (h : ∀ value, item (write value) = .ok value) (values : List α) :
    Json.toListOf item (.array (values.map write)) = .ok values :=
  mapM_map_of_pure h values

/-- An object with two fields in the order of their declaration. -/
theorem Json.toRecord_pair {α : Type} {first second : String} {readFirst readSecond : Json → Except ShapeFault α}
    {mayFirst maySecond : Bool} {json other : Json} {value last : α} (hne : first ≠ second)
    (hfirst : readFirst json = .ok value) (hsecond : readSecond other = .ok last) :
    Json.toRecord [⟨first, readFirst, mayFirst⟩, ⟨second, readSecond, maySecond⟩]
      (.object [(first, json), (second, other)]) = .ok [(first, value), (second, last)] := by
  have hother : (second == first) = false := beq_eq_false_iff_ne.mpr hne.symm
  simp [Json.toRecord, Field.typeOf?, Record.collect, Record.collectFrom, Record.find?, List.lookup_cons, hne, hother,
    hfirst, hsecond]

theorem Constant.ofJson_toJson (constant : Constant) : ofJson constant.toJson = .ok constant := by
  cases constant <;> rfl

namespace RawOperand

theorem wordOfJson?_natural (word : UInt32) : wordOfJson? (.number (.natural word.toNat)) = some word := by
  have hlt : word.toNat < UInt32.size := word.toNat_lt
  show (if word.toNat < UInt32.size then some (UInt32.ofNat word.toNat) else none) = some word
  rw [if_pos hlt, UInt32.ofNat_toNat]

theorem ofJson_toJson (operand : RawOperand) : ofJson operand.toJson = .ok operand := by
  cases operand with
  | word value => simp [ofJson, toJson, wordOfJson?_natural]
  | words values =>
      have hwords : (values.map fun value => Json.number (.natural value.toNat)).mapM wordOfJson? = some values :=
        mapM_map_of_pure wordOfJson?_natural values
      have hlist : wordOfJson? (.array (values.map fun value => Json.number (.natural value.toNat))) = none := rfl
      simp [ofJson, toJson, hwords, hlist]

end RawOperand

theorem EncodedInstruction.ofJson_toJson (encoded : EncodedInstruction) : ofJson encoded.toJson = .ok encoded := by
  have hlt : encoded.code.toNat < UInt8.size := encoded.code.toNat_lt
  have hcode : Json.toNatBelow UInt8.size (.number (.natural encoded.code.toNat)) = .ok encoded.code.toNat := if_pos hlt
  have hdata := Json.toListOf_map RawOperand.ofJson_toJson encoded.data
  have hrecord : encoded.toJson.toRecord fields =
      .ok [("code", .code (UInt8.ofNat encoded.code.toNat)), ("data", .data encoded.data)] := by
    apply Json.toRecord_pair (by decide)
    · rw [hcode]
      rfl
    · rw [hdata]
      rfl
  rw [UInt8.ofNat_toNat] at hrecord
  unfold ofJson
  rw [hrecord]
  rfl

theorem Program.encodedOfJson_toJson (program : Program) :
    encodedOfJson program.toJson =
      .ok ⟨program.constants.constants.toList, program.instructions.toList.map Instruction.encode⟩ := by
  have hconstants := Json.toListOf_map Constant.ofJson_toJson program.constants.constants.toList
  have hinstructions :=
    Json.toListOf_map EncodedInstruction.ofJson_toJson (program.instructions.toList.map Instruction.encode)
  have hrecord : program.toJson.toRecord fields =
      .ok [("constants", .constants program.constants.constants.toList),
        ("instructions", .instructions (program.instructions.toList.map Instruction.encode))] := by
    apply Json.toRecord_pair (by decide)
    · rw [hconstants]
      rfl
    · rw [List.map_map] at hinstructions
      exact congrArg (Except.map Part.instructions) hinstructions
  unfold encodedOfJson
  rw [hrecord]
  rfl

/-! ## Texts -/

/-- Whether a constant that is a number is read back from the text that documents give of it. -/
def Constant.readsBack : Constant → Bool
  | .number value => Json.readsBack value
  | .boolean _ | .string _ => true

namespace Program

/-- The numbers of a program are read back from the texts that documents give of them. -/
def NumbersReadBack (program : Program) : Prop :=
  ∀ constant ∈ program.constants.constants.toList, constant.readsBack = true

instance (program : Program) : Decidable program.NumbersReadBack :=
  inferInstanceAs (Decidable (∀ constant ∈ program.constants.constants.toList, constant.readsBack = true))

open Json

theorem writable_word (brackets : Nat) (word : UInt32) : Writable brackets (.number (.natural word.toNat)) := by
  have hlt := word.toNat_lt
  exact .number (Nat.lt_trans hlt (by decide))

theorem writable_operand (brackets : Nat) (operand : RawOperand) : Writable (brackets + 1) operand.toJson := by
  cases operand with
  | word value => exact writable_word (brackets + 1) value
  | words values =>
      apply Writable.array
      intro item hmem
      obtain ⟨value, -, rfl⟩ := List.mem_map.mp hmem
      exact writable_word brackets value

theorem writable_encoded (brackets : Nat) (encoded : EncodedInstruction) : Writable (brackets + 3) encoded.toJson := by
  apply Writable.object
  simp only [List.forall_mem_cons, List.not_mem_nil, false_implies, implies_true, and_true]
  constructor
  · have hlt := encoded.code.toNat_lt
    exact .number (Nat.lt_trans hlt (by decide))
  · apply Writable.array
    intro item hmem
    obtain ⟨operand, -, rfl⟩ := List.mem_map.mp hmem
    exact writable_operand brackets operand

theorem writable_constant (brackets : Nat) {constant : Constant} (h : constant.readsBack = true) :
    Writable brackets constant.toJson := by
  cases constant with
  | boolean value => exact .bool
  | number value => exact .number h
  | string value => exact .string

/-- The value of a program has at most five brackets inside each other. -/
theorem writable_toJson (brackets : Nat) {program : Program} (h : program.NumbersReadBack) :
    Writable (brackets + 5) program.toJson := by
  apply Writable.object
  simp only [List.forall_mem_cons, List.not_mem_nil, false_implies, implies_true, and_true]
  constructor
  · apply Writable.array
    intro item hmem
    obtain ⟨constant, hconstant, rfl⟩ := List.mem_map.mp hmem
    exact writable_constant _ (h constant hconstant)
  · apply Writable.array
    intro item hmem
    obtain ⟨instruction, -, rfl⟩ := List.mem_map.mp hmem
    exact writable_encoded brackets instruction.encode

/-- The reader of programs takes the text of a program back to its value. -/
theorem reads_reader (brackets : Nat) (program : Program) : Reads reader (brackets + 4) program.toJson := by
  have hinstruction : ∀ encoded : EncodedInstruction, Reads EncodedInstruction.reader (brackets + 2) encoded.toJson := by
    intro encoded
    apply reads_readRecord
    simp only [List.forall_mem_cons, List.not_mem_nil, false_implies, implies_true, and_true]
    exact ⟨⟨_, rfl, reads_readValue _ _⟩, ⟨_, rfl, reads_readList fun item _ => reads_readValue _ item⟩⟩
  apply reads_readRecord
  simp only [List.forall_mem_cons, List.not_mem_nil, false_implies, implies_true, and_true]
  refine ⟨⟨_, rfl, reads_readList fun item _ => reads_readValue _ item⟩, ⟨_, rfl, reads_readList ?_⟩⟩
  intro item hmem
  obtain ⟨instruction, -, rfl⟩ := List.mem_map.mp hmem
  exact hinstruction instruction.encode

/-- A valid program is read back from every text that spells its value. -/
theorem parse_of_spells {program : Program} {before text behind : List Char} (hvalid : program.validate = .ok ())
    (hspells : Spells bracketLimit program.toJson text) (hbefore : AllBlank before) (hbehind : AllBlank behind) :
    parse (String.ofList (before ++ (text ++ behind))) = .ok program := by
  have hdocument := readDocument_of_spells (reads_reader 123 program) hspells hbefore hbehind
  -- The arrays of the program were written as lists.
  have hprogram : (⟨⟨program.constants.constants.toList.toArray⟩, program.instructions.toList.toArray⟩ : Program) =
      program := by simp
  unfold parse
  simp only [hdocument, encodedOfJson_toJson, decodeFrom_encode, hprogram, hvalid]

/-- The two texts of a valid program exist, and the program is read back from both of them if its numbers are. -/
theorem parse_written {program : Program} (h : program.validate = .ok ()) (hnumbers : program.NumbersReadBack) :
    (∃ text, program.compact = .ok text ∧ parse text = .ok program) ∧
      ∃ text, program.indented = .ok text ∧ parse text = .ok program := by
  have hwritable : Writable bracketLimit program.toJson := writable_toJson 122 hnumbers
  constructor
  · refine ⟨String.ofList program.toJson.compact, ?_, ?_⟩
    · simp [Program.compact, h, bind, Except.bind, pure, Except.pure]
    · have hparse := parse_of_spells h (spells_compact hwritable) allBlank_nil allBlank_nil
      rwa [List.nil_append, List.append_nil] at hparse
  · refine ⟨String.ofList (program.toJson.indented 0), ?_, ?_⟩
    · simp [Program.indented, h, bind, Except.bind, pure, Except.pure]
    · have hparse := parse_of_spells h (spells_indented hwritable 0) allBlank_nil allBlank_nil
      rwa [List.nil_append, List.append_nil] at hparse

/-- A program with a constant twice, a negative zero, the smallest double, a string with a quote, a backslash and a control
character, and operands of every shape. -/
def everyShape : Program :=
  ⟨⟨#[.number ⟨0x8000000000000000⟩, .string "\"\\\x01", .number ⟨1⟩, .number ⟨0x8000000000000000⟩, .boolean true]⟩,
    #[.newScope ⟨1⟩ none, .newScope ⟨2⟩ (some ⟨1⟩), .scopeGet ⟨2⟩ ⟨1⟩ ⟨3⟩, .call ⟨3⟩ [⟨3⟩, ⟨1⟩] ⟨4⟩, .call ⟨3⟩ [] ⟨5⟩,
      .operate .pow ⟨4⟩ ⟨5⟩ ⟨6⟩, .load ⟨4⟩ ⟨7⟩, .jumpIf ⟨7⟩ ⟨8⟩]⟩

theorem parse_written_everyShape :
    everyShape.validate = .ok () ∧ everyShape.NumbersReadBack ∧
      (∃ text, everyShape.compact = .ok text ∧ parse text = .ok everyShape) ∧
        ∃ text, everyShape.indented = .ok text ∧ parse text = .ok everyShape := by
  have hnumbers : everyShape.NumbersReadBack := by decide +kernel
  exact ⟨rfl, hnumbers, parse_written rfl hnumbers⟩

end Program
end ScriptBytecode
