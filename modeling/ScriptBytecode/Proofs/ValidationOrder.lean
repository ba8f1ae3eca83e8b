import ScriptBytecode.Program.Document
import ScriptBytecode.Proofs.Validity

/-!
# Which fault of a program is reported

A program with many faults is refused with one of them: the first constant of the pool that is no finite number, and if
there is none, the fault of the first instruction that has one. `Program.Reports` says so without the check, from the
place that an instruction may jump to and the constant that it names; `validate` reports exactly these faults, and the
two ways of writing a program refuse it as `validate` does.
-/

namespace ScriptBytecode

/-! ## Faults -/

/-- The constant that an instruction names. -/
def Instruction.constant? {τ : Type} : Instruction τ → Option ConstantIndex
  | .load constant _ => some constant
  | .getVar name _ => some name
  | .setVar _ name => some name
  | .setField _ key _ => some key
  | .scopeGet _ name _ => some name
  | .scopeSet _ name _ => some name
  | .getField _ key _ => some key
  | .call .. | .jumpIfNot .. | .jumpIf .. | .jump .. | .operate .. | .setNil .. | .newTable .. | .setTable ..
  | .pushTable .. | .newScope .. => none

/-- The constants among the operands are the one that an instruction names. -/
theorem Instruction.constants_eq {τ : Type} (instruction : Instruction τ) :
    instruction.constants = instruction.constant?.toList := by
  cases instruction with
  | newScope dst parent => cases parent <;> rfl
  | _ => rfl

/-- A constant that is no finite number, at a place of the pool. -/
inductive Constant.Faulty (place : Nat) : Constant → ValidityFault → Prop
  | nonFinite {value : Binary64} (nonFinite : value.isFinite = false) :
      Faulty place (.number value) (.nonFiniteConstant (UInt32.ofNat place))

/-- An instruction that jumps beyond the end of the program or names a constant beyond the pool. -/
inductive Instruction.Faulty (program : Program) (position : Nat) (instruction : Instruction JumpTarget) :
    ValidityFault → Prop
  | target {target : JumpTarget} (jumps : instruction.target? = some target)
      (beyond : program.length < target.pc.toNat) :
      Faulty program position instruction (.jumpTarget target position program.length)
  | constant {constant : ConstantIndex} (names : instruction.constant? = some constant)
      (beyond : program.constants.size ≤ constant.index.toNat) :
      Faulty program position instruction (.constantIndex constant position program.constants.size)

namespace Program

variable {program : Program} {fault : ValidityFault}

def NonFiniteAt (program : Program) (place : Nat) : Prop :=
  ∃ value, program.constants.get? place = some (.number value) ∧ value.isFinite = false

def FaultAt (program : Program) (position : Nat) (fault : ValidityFault) : Prop :=
  ∃ instruction, program.instructions[position]? = some instruction ∧ instruction.Faulty program position fault

/-- The fault that a program is refused with. Constants come before all instructions. -/
inductive Reports (program : Program) : ValidityFault → Prop
  | constant {place : Nat} (nonFinite : program.NonFiniteAt place)
      (first : ∀ earlier < place, ¬ program.NonFiniteAt earlier) :
      Reports program (.nonFiniteConstant (UInt32.ofNat place))
  | instruction {position : Nat} {fault : ValidityFault} (finite : ∀ place, ¬ program.NonFiniteAt place)
      (faulty : program.FaultAt position fault)
      (first : ∀ earlier < position, ∀ other, ¬ program.FaultAt earlier other) : Reports program fault

/-! ## The first entry with a fault -/

/-- The fault of the first entry of a list that has one. The list begins at a given place. -/
def FirstFaultIn {α : Type} (faulty : Nat → α → ValidityFault → Prop) (start : Nat) (entries : List α)
    (fault : ValidityFault) : Prop :=
  ∃ offset entry, entries[offset]? = some entry ∧ faulty (start + offset) entry fault ∧
    ∀ earlier < offset, ∀ other, entries[earlier]? = some other → ∀ fault, ¬ faulty (start + earlier) other fault

section FirstFaultIn

variable {α : Type} {faulty : Nat → α → ValidityFault → Prop} {start : Nat} {entry : α} {entries : List α}

theorem not_firstFaultIn_nil : ¬ FirstFaultIn faulty start [] fault := by
  rintro ⟨offset, entry, hentry, -⟩
  simp at hentry

/-- A list is searched from its front. -/
theorem firstFaultIn_cons_iff :
    FirstFaultIn faulty start (entry :: entries) fault ↔
      faulty start entry fault ∨
        (∀ other, ¬ faulty start entry other) ∧ FirstFaultIn faulty (start + 1) entries fault := by
  have hshift : ∀ offset, start + (offset + 1) = start + 1 + offset := fun offset => by omega
  constructor
  · rintro ⟨offset, found, hfound, hfault, hfirst⟩
    cases offset with
    | zero =>
        obtain rfl : entry = found := by simpa using hfound
        exact Or.inl hfault
    | succ offset =>
        refine Or.inr ⟨hfirst 0 (Nat.succ_pos offset) entry rfl, offset, found, hfound, hshift offset ▸ hfault, ?_⟩
        intro earlier hearlier other hother
        rw [← hshift]
        exact hfirst (earlier + 1) (Nat.succ_lt_succ hearlier) other hother
  · rintro (hfault | ⟨hfine, offset, found, hfound, hfault, hfirst⟩)
    · exact ⟨0, entry, rfl, hfault, fun earlier hearlier => absurd hearlier (Nat.not_lt_zero earlier)⟩
    · refine ⟨offset + 1, found, hfound, hshift offset ▸ hfault, ?_⟩
      intro earlier hearlier other hother
      cases earlier with
      | zero =>
          obtain rfl : entry = other := by simpa using hother
          exact hfine
      | succ earlier =>
          rw [hshift]
          exact hfirst earlier (Nat.lt_of_succ_lt_succ hearlier) other hother

end FirstFaultIn

/-! ## What the check finds -/

theorem constant_faulty_iff {place : Nat} {constant : Constant} :
    constant.Faulty place fault ↔ constant.isEncodable = false ∧ fault = .nonFiniteConstant (UInt32.ofNat place) := by
  constructor
  · rintro ⟨nonFinite⟩
    exact ⟨nonFinite, rfl⟩
  · rintro ⟨hencodable, rfl⟩
    cases constant with
    | number value => exact .nonFinite hencodable
    | boolean value => simp [Constant.isEncodable] at hencodable
    | string value => simp [Constant.isEncodable] at hencodable

theorem constantFault?_eq_some_iff {index : Nat} {constants : List Constant} :
    constantFault? index constants = some fault ↔
      FirstFaultIn (fun place => Constant.Faulty place) index constants fault := by
  induction constants generalizing index with
  | nil => exact iff_of_false (by simp [constantFault?]) not_firstFaultIn_nil
  | cons constant constants ih =>
      simp only [constantFault?, firstFaultIn_cons_iff, constant_faulty_iff]
      by_cases hencodable : constant.isEncodable = true
      · simp [hencodable, ih]
      · simp [hencodable, eq_comm]

/-- Registers have no fault, so what the operands come to is the fault of the place or of the constant among them. -/
theorem findSome?_operandFault? (position : Nat) (instruction : Instruction JumpTarget) :
    instruction.operands.findSome? (program.operandFault? position) =
      ((instruction.target?.bind fun target => program.operandFault? position (.target target)).or
        (instruction.constant?.bind fun constant => program.operandFault? position (.constant constant))) := by
  have hregister : ∀ register, program.operandFault? position (.register register) = none := fun _ => rfl
  cases instruction with
  | call | operate | setNil | newTable | setTable | pushTable => rfl
  | newScope dst parent => cases parent <;> rfl
  | load | getVar | setVar | jumpIfNot | jumpIf | jump | setField | scopeGet | scopeSet | getField =>
      simp only [Instruction.operands, Instruction.target?, Instruction.constant?, List.findSome?_cons, hregister,
        List.findSome?_nil, Option.bind_some, Option.bind_none, Option.or_none, Option.none_or]
      split <;> simp only [*]

theorem operandFault?_target_eq_some_iff {position : Nat} {target : JumpTarget} :
    program.operandFault? position (.target target) = some fault ↔
      program.length < target.pc.toNat ∧ .jumpTarget target position program.length = fault :=
  Option.ite_none_right_eq_some.trans (and_congr_right' Option.some_inj)

theorem operandFault?_constant_eq_some_iff {position : Nat} {constant : ConstantIndex} :
    program.operandFault? position (.constant constant) = some fault ↔
      program.constants.size ≤ constant.index.toNat ∧ .constantIndex constant position program.constants.size = fault :=
  Option.ite_none_right_eq_some.trans (and_congr_right' Option.some_inj)

/-- An instruction that jumps names no constant, so it has no two faults. -/
theorem constant?_of_target? {τ : Type} {instruction : Instruction τ} {target : τ}
    (h : instruction.target? = some target) : instruction.constant? = none := by
  cases instruction with
  | jumpIfNot | jumpIf | jump => rfl
  | _ => simp [Instruction.target?] at h

theorem findSome?_operandFault?_eq_some_iff {position : Nat} {instruction : Instruction JumpTarget} :
    instruction.operands.findSome? (program.operandFault? position) = some fault ↔
      instruction.Faulty program position fault := by
  rw [findSome?_operandFault?]
  constructor
  · intro h
    rcases Option.or_eq_some_iff.mp h with hjump | ⟨-, hname⟩
    · obtain ⟨target, jumps, hfault⟩ := Option.bind_eq_some_iff.mp hjump
      obtain ⟨beyond, rfl⟩ := operandFault?_target_eq_some_iff.mp hfault
      exact .target jumps beyond
    · obtain ⟨constant, names, hfault⟩ := Option.bind_eq_some_iff.mp hname
      obtain ⟨beyond, rfl⟩ := operandFault?_constant_eq_some_iff.mp hfault
      exact .constant names beyond
  · rintro (⟨jumps, beyond⟩ | ⟨names, beyond⟩)
    · rw [jumps, Option.bind_some, operandFault?_target_eq_some_iff.mpr ⟨beyond, rfl⟩]
      rfl
    · have hnone : instruction.target? = none := by
        cases htarget : instruction.target? with
        | none => rfl
        | some target => simp [constant?_of_target? htarget] at names
      rw [hnone, names, Option.bind_none, Option.none_or, Option.bind_some]
      exact operandFault?_constant_eq_some_iff.mpr ⟨beyond, rfl⟩

theorem instructionFault?_eq_some_iff {position : Nat} {instructions : List (Instruction JumpTarget)} :
    program.instructionFault? position instructions = some fault ↔
      FirstFaultIn (fun position => Instruction.Faulty program position) position instructions fault := by
  induction instructions generalizing position with
  | nil => exact iff_of_false (by simp [instructionFault?]) not_firstFaultIn_nil
  | cons instruction instructions ih =>
      rw [firstFaultIn_cons_iff, ← ih, instructionFault?]
      simp only [← findSome?_operandFault?_eq_some_iff]
      cases instruction.operands.findSome? (program.operandFault? position) with
      | none => simp
      | some found => simp

theorem nonFiniteAt_iff {place : Nat} :
    program.NonFiniteAt place ↔
      ∃ constant fault, program.constants.constants.toList[place]? = some constant ∧ constant.Faulty place fault := by
  unfold NonFiniteAt ConstantPool.get?
  rw [← Array.getElem?_toList]
  constructor
  · rintro ⟨value, hget, hfinite⟩
    exact ⟨.number value, _, hget, .nonFinite hfinite⟩
  · rintro ⟨constant, fault, hget, ⟨hfinite⟩⟩
    exact ⟨_, hget, hfinite⟩

theorem constantFault?_eq_none_iff_nonFiniteAt :
    constantFault? 0 program.constants.constants.toList = none ↔ ∀ place, ¬ program.NonFiniteAt place := by
  rw [constantFault?_eq_none_iff]
  constructor
  · rintro h place ⟨value, hget, hfinite⟩
    unfold ConstantPool.get? at hget
    have hencodable := h _ (Array.mem_toList_iff.mpr (Array.mem_of_getElem? hget))
    exact Bool.false_ne_true (hfinite.symm.trans hencodable)
  · intro h constant hmem
    obtain ⟨place, hget⟩ := List.mem_iff_getElem?.mp hmem
    rw [← Bool.not_eq_false]
    intro hencodable
    exact h place (nonFiniteAt_iff.mpr ⟨constant, _, hget, constant_faulty_iff.mpr ⟨hencodable, rfl⟩⟩)

theorem constantFault?_eq_some_iff_nonFiniteAt :
    constantFault? 0 program.constants.constants.toList = some fault ↔
      ∃ place, program.NonFiniteAt place ∧ (∀ earlier < place, ¬ program.NonFiniteAt earlier) ∧
        fault = .nonFiniteConstant (UInt32.ofNat place) := by
  rw [constantFault?_eq_some_iff]
  constructor
  · rintro ⟨place, constant, hget, hfaulty, hfirst⟩
    rw [Nat.zero_add] at hfaulty
    refine ⟨place, nonFiniteAt_iff.mpr ⟨constant, fault, hget, hfaulty⟩, ?_, (constant_faulty_iff.mp hfaulty).2⟩
    intro earlier hearlier hother
    obtain ⟨other, fault, hget, hfaulty⟩ := nonFiniteAt_iff.mp hother
    exact hfirst earlier hearlier other hget fault ((Nat.zero_add earlier).symm ▸ hfaulty)
  · rintro ⟨place, hnonFinite, hfirst, rfl⟩
    obtain ⟨constant, fault, hget, hfaulty⟩ := nonFiniteAt_iff.mp hnonFinite
    obtain ⟨-, rfl⟩ := constant_faulty_iff.mp hfaulty
    refine ⟨place, constant, hget, (Nat.zero_add place).symm ▸ hfaulty, ?_⟩
    intro earlier hearlier other hother fault hfaulty
    rw [Nat.zero_add] at hfaulty
    exact hfirst earlier hearlier (nonFiniteAt_iff.mpr ⟨other, fault, hother, hfaulty⟩)

theorem instructionFault?_eq_some_iff_faultAt :
    program.instructionFault? 0 program.instructions.toList = some fault ↔
      ∃ position, program.FaultAt position fault ∧ ∀ earlier < position, ∀ other, ¬ program.FaultAt earlier other := by
  rw [instructionFault?_eq_some_iff]
  unfold FirstFaultIn FaultAt
  simp only [Nat.zero_add, Array.getElem?_toList]
  constructor
  · rintro ⟨position, instruction, hget, hfaulty, hfirst⟩
    refine ⟨position, ⟨instruction, hget, hfaulty⟩, ?_⟩
    rintro earlier hearlier other ⟨instruction, hget, hfaulty⟩
    exact hfirst earlier hearlier instruction hget other hfaulty
  · rintro ⟨position, ⟨instruction, hget, hfaulty⟩, hfirst⟩
    refine ⟨position, instruction, hget, hfaulty, ?_⟩
    intro earlier hearlier other hother fault hfaulty
    exact hfirst earlier hearlier fault ⟨other, hother, hfaulty⟩

/-! ## The order of the check -/

theorem validate_eq_error_iff : program.validate = .error fault ↔ program.Reports fault := by
  have hfault : program.validate = .error fault ↔ program.fault? = some fault := by
    unfold validate
    cases program.fault? <;> simp
  rw [hfault]
  unfold fault?
  constructor
  · intro h
    cases hconstants : constantFault? 0 program.constants.constants.toList with
    | some found =>
        simp only [hconstants, Option.some.injEq] at h
        obtain ⟨place, hnonFinite, hfirst, rfl⟩ := constantFault?_eq_some_iff_nonFiniteAt.mp hconstants
        exact h ▸ .constant hnonFinite hfirst
    | none =>
        simp only [hconstants] at h
        obtain ⟨position, hfaulty, hfirst⟩ := instructionFault?_eq_some_iff_faultAt.mp h
        exact .instruction (constantFault?_eq_none_iff_nonFiniteAt.mp hconstants) hfaulty hfirst
  · intro h
    cases h with
    | constant nonFinite first =>
        rw [constantFault?_eq_some_iff_nonFiniteAt.mpr ⟨_, nonFinite, first, rfl⟩]
    | instruction finite faulty first =>
        rw [constantFault?_eq_none_iff_nonFiniteAt.mpr finite]
        exact instructionFault?_eq_some_iff_faultAt.mpr ⟨_, faulty, first⟩

/-- As long as the places of the pool are words, the reported place is that of the first constant that is not finite. -/
theorem nonFiniteAt_of_reports {index : UInt32} (h : program.Reports (.nonFiniteConstant index))
    (hsize : program.constants.size ≤ 2 ^ 32) :
    program.NonFiniteAt index.toNat ∧ ∀ earlier < index.toNat, ¬ program.NonFiniteAt earlier := by
  cases h with
  | @constant place nonFinite first =>
      obtain ⟨value, hget, -⟩ := id nonFinite
      have hlt := Nat.lt_of_lt_of_le (ConstantPool.lt_size_of_get? hget) hsize
      have hword : (UInt32.ofNat place).toNat = place := by
        rw [UInt32.toNat_ofNat']
        exact Nat.mod_eq_of_lt hlt
      rw [hword]
      exact ⟨nonFinite, first⟩
  | instruction finite faulty first =>
      obtain ⟨instruction, -, ⟨⟩⟩ := faulty

/-- A program that is not valid is not written, for the fault that it has. -/
theorem compact_eq_error_iff : program.compact = .error fault ↔ program.validate = .error fault := by
  unfold compact
  cases program.validate <;> simp [bind, Except.bind, pure, Except.pure]

theorem indented_eq_error_iff : program.indented = .error fault ↔ program.validate = .error fault := by
  unfold indented
  cases program.validate <;> simp [bind, Except.bind, pure, Except.pure]

/-- The check is exact and reports the first fault, and writing a program fails as the check does. -/
theorem validate_exact (program : Program) :
    (program.validate = .ok () ↔
      (∀ value, Constant.number value ∈ program.constants.constants → value.isFinite = true) ∧
        (∀ instruction ∈ program.instructions, ∀ target, instruction.target? = some target →
          target.pc.toNat ≤ program.length) ∧
          ∀ instruction ∈ program.instructions, ∀ constant, instruction.constant? = some constant →
            constant.index.toNat < program.constants.size) ∧
      (∀ fault, program.validate = .error fault ↔ program.Reports fault) ∧
        (∀ index, program.Reports (.nonFiniteConstant index) → program.constants.size ≤ 2 ^ 32 →
          program.NonFiniteAt index.toNat ∧ ∀ earlier < index.toNat, ¬ program.NonFiniteAt earlier) ∧
          ∀ fault, (program.compact = .error fault ↔ program.validate = .error fault) ∧
            (program.indented = .error fault ↔ program.validate = .error fault) := by
  refine ⟨?_, fun fault => validate_eq_error_iff, fun index => nonFiniteAt_of_reports,
    fun fault => ⟨compact_eq_error_iff, indented_eq_error_iff⟩⟩
  rw [validate_eq_ok_iff]
  constructor
  · rintro ⟨finite, targets, constants⟩
    refine ⟨finite, targets, fun instruction hmem constant hconstant => constants instruction hmem constant ?_⟩
    simp [Instruction.constants_eq, hconstant]
  · rintro ⟨finite, targets, constants⟩
    refine ⟨finite, targets, fun instruction hmem constant hconstant => constants instruction hmem constant ?_⟩
    simpa [Instruction.constants_eq] using hconstant

/-- Two constants that are not finite, behind a constant that is fine, and two faulty instructions. -/
def faultyThroughout : Program :=
  ⟨⟨#[.boolean true, .number ⟨0x7ff0000000000000⟩, .number ⟨0x7ff8000000000000⟩]⟩, #[.jump ⟨9⟩, .load ⟨3⟩ ⟨1⟩]⟩

/-- An instruction that is fine, one that names no constant, and one that jumps too far. -/
def faultyInstructions : Program :=
  ⟨⟨#[.boolean true]⟩, #[.load ⟨0⟩ ⟨1⟩, .load ⟨1⟩ ⟨2⟩, .jump ⟨9⟩]⟩

theorem validate_exact_faultyThroughout :
    (faultyThroughout.validate = .error (.nonFiniteConstant 1) ∧ faultyThroughout.FaultAt 0 (.jumpTarget ⟨9⟩ 0 2) ∧
      faultyThroughout.NonFiniteAt 1 ∧ (∀ earlier < 1, ¬ faultyThroughout.NonFiniteAt earlier) ∧
        faultyThroughout.NonFiniteAt 2 ∧ faultyThroughout.compact = .error (.nonFiniteConstant 1) ∧
          faultyThroughout.indented = .error (.nonFiniteConstant 1)) ∧
      faultyInstructions.Reports (.constantIndex ⟨1⟩ 1 1) ∧ faultyInstructions.FaultAt 2 (.jumpTarget ⟨9⟩ 2 3) ∧
        faultyInstructions.compact = .error (.constantIndex ⟨1⟩ 1 1) := by
  obtain ⟨-, hreports, hplace, hwritten⟩ := validate_exact faultyThroughout
  have hvalidate : faultyThroughout.validate = .error (.nonFiniteConstant 1) := by decide
  obtain ⟨hnonFinite, hfirst⟩ := hplace 1 ((hreports _).mp hvalidate) (by decide)
  obtain ⟨-, hother, -, hothers⟩ := validate_exact faultyInstructions
  have hinstruction : faultyInstructions.validate = .error (.constantIndex ⟨1⟩ 1 1) := by decide
  refine ⟨⟨hvalidate, ⟨_, rfl, .target rfl (by decide)⟩, hnonFinite, hfirst, ⟨_, rfl, by decide⟩, ?_, ?_⟩,
    (hother _).mp hinstruction, ⟨_, rfl, .target rfl (by decide)⟩, (hothers _).1.mpr hinstruction⟩
  · exact (hwritten _).1.mpr hvalidate
  · exact (hwritten _).2.mpr hvalidate

end Program
end ScriptBytecode
