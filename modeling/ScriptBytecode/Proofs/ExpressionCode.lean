import ScriptBytecode.Lowering.Expression
import ScriptBytecode.Proofs.Assembling

/-!
# The code of expressions

Lowering an expression only ever interns constants and puts plain instructions behind the code. `Grows` lists the ways
in which the code can grow on the way, with what is true of each new instruction: where its sources were written, that
its constants are in the pool, and, for a name that is read, whether the scopes have it. Everything else that is said
of the code of an expression follows by induction on `Grows`.
-/

namespace ScriptBytecode

/-- What a script does with a variable. -/
inductive Access where
  | read (name : String)
  | declare (name : String)
  | assign (name : String)
deriving DecidableEq

mutual

/-- The variables that an expression reads, in the order in which it reads them. -/
def Expression.accesses : Expression → List Access
  | .identifier identifier => [.read identifier.name]
  | .binary _ left right _ => left.accesses ++ right.accesses
  | .call callee arguments _ => callee.accesses ++ accessesOfArguments arguments
  | .stringCall callee argument _ => callee.accesses ++ argument.accesses
  | .tableCall callee argument _ => callee.accesses ++ argument.accesses
  | .table fields _ => accessesOfFields fields
  | .member _ _ base _ => base.accesses
  | .number .. | .string .. | .boolean .. | .nil .. | .unsupported .. => []

/-- The variables that the arguments of a call read. -/
def accessesOfArguments : List Expression → List Access
  | [] => []
  | argument :: arguments => argument.accesses ++ accessesOfArguments arguments

/-- The variables that the fields of a table read. -/
def accessesOfFields : List TableField → List Access
  | [] => []
  | .keyed key value :: fields => key.accesses ++ value.accesses ++ accessesOfFields fields
  | .named _ value :: fields => value.accesses ++ accessesOfFields fields
  | .positional value :: fields => value.accesses ++ accessesOfFields fields

end

/-- The constants among the operands. -/
def Instruction.constants {τ : Type} (instruction : Instruction τ) : List ConstantIndex :=
  instruction.operands.filterMap fun
    | .constant constant => some constant
    | _ => none

/-- Whether an instruction reads or writes a variable, or makes a scope object. -/
def Instruction.concernsVariables {τ : Type} : Instruction τ → Bool
  | .getVar .. | .setVar .. | .newScope .. | .scopeGet .. | .scopeSet .. => true
  | .load .. | .call .. | .jumpIfNot .. | .jumpIf .. | .jump .. | .operate .. | .setNil .. | .newTable ..
  | .setField .. | .setTable .. | .pushTable .. | .getField .. => false

/-- The registers that code writes, in order. -/
def written (code : List PlainInstruction) : List Register :=
  code.filterMap Instruction.dst?

@[simp] theorem written_append (code more : List PlainInstruction) :
    written (code ++ more) = written code ++ written more := by
  simp [written]

/-- One more instruction whose constants are below a bound that is no smaller. -/
theorem constantsBelow_push {code : List PlainInstruction} {instruction : PlainInstruction} {bound larger : Nat}
    (h : ∀ old ∈ code, ∀ constant ∈ old.constants, constant.index.toNat < bound) (hle : bound ≤ larger)
    (hnew : ∀ constant ∈ instruction.constants, constant.index.toNat < larger) :
    ∀ either ∈ code ++ [instruction], ∀ constant ∈ either.constants, constant.index.toNat < larger := by
  intro either hmem constant hconstant
  rcases List.mem_append.mp hmem with hold | hlast
  · exact Nat.lt_of_lt_of_le (h either hold constant hconstant) hle
  · obtain rfl := List.mem_singleton.mp hlast
    exact hnew constant hconstant

/-- Code of which each instruction reads registers that are given or were written by the code before it. -/
def Covered : List Register → List PlainInstruction → Prop
  | _, [] => True
  | given, instruction :: code =>
      (∀ register ∈ instruction.sources, register ∈ given) ∧ Covered (given ++ instruction.dst?.toList) code

theorem covered_append {given : List Register} {code more : List PlainInstruction} :
    Covered given (code ++ more) ↔ Covered given code ∧ Covered (given ++ written code) more := by
  induction code generalizing given with
  | nil => simp [Covered, written]
  | cons instruction code ih =>
      have hwritten : written (instruction :: code) = instruction.dst?.toList ++ written code := by
        cases hdst : instruction.dst? <;> simp [written, hdst]
      simp only [List.cons_append, Covered, ih, hwritten, List.append_assoc, and_assoc]

open Assembler Assembling

/-- Code that writes the registers behind `first` up to `last`, each once and in order. -/
def WritesInOrder (first last : UInt32) (code : List PlainInstruction) : Prop :=
  (written code).map (·.index.toNat) = List.range' (first.toNat + 1) (written code).length ∧
    last.toNat = first.toNat + (written code).length

namespace WritesInOrder

variable {first last : UInt32} {code more : List PlainInstruction}

theorem nil (first : UInt32) : WritesInOrder first first [] := by
  simp [WritesInOrder, written]

theorem push_none (h : WritesInOrder first last code) {instruction : PlainInstruction}
    (hdst : instruction.dst? = none) : WritesInOrder first last (code ++ [instruction]) := by
  have hone : written [instruction] = [] := by simp [written, hdst]
  simpa [WritesInOrder, hone] using h

theorem push_some (h : WritesInOrder first last code) {instruction : PlainInstruction} {dst : Register}
    {next : UInt32} (hdst : instruction.dst? = some dst)
    (hnext : dst.index = next ∧ next.toNat = last.toNat + 1) :
    WritesInOrder first next (code ++ [instruction]) := by
  obtain ⟨hindex, hlast⟩ := hnext
  obtain ⟨hnumbers, hcount⟩ := h
  have hone : written [instruction] = [dst] := by simp [written, hdst]
  constructor
  · rw [written_append, hone, List.map_append, hnumbers, List.length_append, List.length_singleton,
      List.range'_1_concat]
    simp only [List.map_cons, List.map_nil, hindex]
    congr 2
    omega
  · rw [written_append, hone, List.length_append, List.length_singleton]
    omega

theorem append {middle : UInt32} (h : WritesInOrder first middle code) (h' : WritesInOrder middle last more) :
    WritesInOrder first last (code ++ more) := by
  obtain ⟨hnumbers, hmiddle⟩ := h
  obtain ⟨hmore, hlast⟩ := h'
  have hbehind : middle.toNat + 1 = first.toNat + 1 + (written code).length := by omega
  constructor
  · rw [written_append, List.map_append, hnumbers, hmore, List.length_append, hbehind]
    exact List.range'_append_1
  · rw [written_append, List.length_append]
    omega

/-- The registers that are written were not in use before. -/
theorem lt_of_mem (h : WritesInOrder first last code) {register : Register} (hmem : register ∈ written code) :
    first.toNat < register.index.toNat ∧ register.index.toNat ≤ last.toNat := by
  have hnumber : register.index.toNat ∈ (written code).map (·.index.toNat) := List.mem_map_of_mem hmem
  rw [h.1, List.mem_range'_1] at hnumber
  have hlast := h.2
  omega

end WritesInOrder

/-- How the code grows, without jumps, from an assembler `a` on: what was done with variables so far, the instructions
that were put behind the code, and the assembler that was reached. -/
inductive Grows (given : List Register) (a : Assembler) :
    List Access → List PlainInstruction → Assembler → Prop
  | start : Grows given a [] [] a
  | intern {accesses : List Access} {code : List PlainInstruction} {b c : Assembler} {constant : Constant}
      {index : ConstantIndex} (grown : Grows given a accesses code b) (encodable : constant.isEncodable)
      (added : addConstant constant b = .ok (index, c)) : Grows given a accesses code c
  /-- An instruction that leaves variables alone and has no result. -/
  | act {accesses : List Access} {code : List PlainInstruction} {b : Assembler} {instruction : PlainInstruction}
      (grown : Grows given a accesses code b) (ordinary : instruction.concernsVariables = false)
      (noResult : instruction.dst? = none)
      (sources : ∀ register ∈ instruction.sources, register ∈ given ++ written code)
      (constants : ∀ constant ∈ instruction.constants, constant.index.toNat < b.constants.size) :
      Grows given a accesses (code ++ [instruction]) (b.pushed (.ofPlain instruction))
  /-- An instruction that leaves variables alone and has a register of its own for its result. -/
  | compute {accesses : List Access} {code : List PlainInstruction} {b c : Assembler} {dst : Register}
      {instruction : PlainInstruction} (grown : Grows given a accesses code b)
      (ordinary : instruction.concernsVariables = false) (allocated : allocate b = .ok (dst, c))
      (result : instruction.dst? = some dst)
      (sources : ∀ register ∈ instruction.sources, register ∈ given ++ written code)
      (constants : ∀ constant ∈ instruction.constants, constant.index.toNat < b.constants.size) :
      Grows given a accesses (code ++ [instruction]) (c.pushed (.ofPlain instruction))
  /-- A name is read that an open scope has. -/
  | readScoped {accesses : List Access} {code : List PlainInstruction} {b c d : Assembler} {name : String}
      {index : ConstantIndex} {scope dst : Register} (grown : Grows given a accesses code b)
      (added : addString name b = .ok (index, c)) (bound : (b.scopes.lookup name).isSome)
      (current : b.scopes.currentRegister? = some scope) (scopeGiven : scope ∈ given)
      (allocated : allocate c = .ok (dst, d)) :
      Grows given a (accesses ++ [.read name]) (code ++ [.scopeGet scope index dst])
        (d.pushed (.scopeGet scope index dst))
  /-- A name is read that no open scope has. -/
  | readGlobal {accesses : List Access} {code : List PlainInstruction} {b c d : Assembler} {name : String}
      {index : ConstantIndex} {dst : Register} (grown : Grows given a accesses code b)
      (added : addString name b = .ok (index, c)) (free : b.scopes.lookup name = none)
      (allocated : allocate c = .ok (dst, d)) :
      Grows given a (accesses ++ [.read name]) (code ++ [.getVar index dst]) (d.pushed (.getVar index dst))
  /-- A name is declared, or assigned to where an open scope has it. -/
  | writeScoped {accesses : List Access} {code : List PlainInstruction} {b c : Assembler} {name : String}
      {index : ConstantIndex} {scope src : Register} {id : Nat} {scopes : ScopeChain} {access : Access}
      (grown : Grows given a accesses code b) (added : addString name b = .ok (index, c))
      (current : b.scopes.currentRegister? = some scope) (scopeGiven : scope ∈ given)
      (srcWritten : src ∈ written code) (defined : b.scopes.define name src = some (id, scopes))
      (meant : access = .declare name ∨ access = .assign name ∧ (b.scopes.lookup name).isSome) :
      Grows given a (accesses ++ [access]) (code ++ [.scopeSet scope index src])
        ((c.withScopes scopes).pushed (.scopeSet scope index src))
  /-- A name is assigned to that no open scope has. -/
  | writeGlobal {accesses : List Access} {code : List PlainInstruction} {b c : Assembler} {name : String}
      {index : ConstantIndex} {src : Register} (grown : Grows given a accesses code b)
      (added : addString name b = .ok (index, c)) (free : b.scopes.lookup name = none)
      (srcWritten : src ∈ written code) :
      Grows given a (accesses ++ [.assign name]) (code ++ [.setVar src index]) (c.pushed (.setVar src index))

namespace Grows

variable {given : List Register} {a b : Assembler} {accesses : List Access} {code : List PlainInstruction}

/-- Labels stay as they are, and the code grows by the new instructions. -/
theorem frame (h : Grows given a accesses code b) :
    b.labels = a.labels ∧ b.code.toList = a.code.toList ++ code.map (@Instruction.ofPlain Label) := by
  induction h with
  | start => simp
  | intern _ _ added ih =>
      obtain ⟨-, -, rfl⟩ := addConstant_eq_ok_iff.mp added
      exact ih
  | act _ _ _ _ _ ih => simp [ih]
  | compute _ _ allocated _ _ _ ih =>
      obtain ⟨-, -, rfl⟩ := allocate_eq_ok_iff.mp allocated
      simp [ih]
  | readScoped _ added _ _ _ allocated ih =>
      obtain ⟨-, -, rfl⟩ := addConstant_eq_ok_iff.mp added
      obtain ⟨-, -, rfl⟩ := allocate_eq_ok_iff.mp allocated
      simp [ih, Instruction.ofPlain]
  | readGlobal _ added _ allocated ih =>
      obtain ⟨-, -, rfl⟩ := addConstant_eq_ok_iff.mp added
      obtain ⟨-, -, rfl⟩ := allocate_eq_ok_iff.mp allocated
      simp [ih, Instruction.ofPlain]
  | writeScoped _ added _ _ _ _ _ ih =>
      obtain ⟨-, -, rfl⟩ := addConstant_eq_ok_iff.mp added
      simp [ih, Instruction.ofPlain]
  | writeGlobal _ added _ _ ih =>
      obtain ⟨-, -, rfl⟩ := addConstant_eq_ok_iff.mp added
      simp [ih, Instruction.ofPlain]

theorem labels_eq (h : Grows given a accesses code b) : b.labels = a.labels :=
  h.frame.1

theorem code_eq (h : Grows given a accesses code b) :
    b.code.toList = a.code.toList ++ code.map (@Instruction.ofPlain Label) :=
  h.frame.2

theorem code_size_eq (h : Grows given a accesses code b) : b.code.size = a.code.size + code.length := by
  have hlength := congrArg List.length h.code_eq
  simpa using hlength

/-- The open scopes stay open, and a name is known afterwards if it was known before or is declared. -/
theorem scopes_frame (h : Grows given a accesses code b) (hwf : a.scopes.WellFormed) :
    b.scopes.WellFormed ∧ a.scopes.Refills b.scopes ∧
      ∀ name, b.scopes.Knows name ↔ a.scopes.Knows name ∨ Access.declare name ∈ accesses := by
  induction h with
  | start => exact ⟨hwf, .of_stack_eq rfl, by simp⟩
  | intern _ _ added ih =>
      obtain ⟨-, -, rfl⟩ := addConstant_eq_ok_iff.mp added
      exact ih
  | act _ _ _ _ _ ih => exact ih
  | compute _ _ allocated _ _ _ ih =>
      obtain ⟨-, -, rfl⟩ := allocate_eq_ok_iff.mp allocated
      exact ih
  | readScoped _ added _ _ _ allocated ih =>
      obtain ⟨-, -, rfl⟩ := addConstant_eq_ok_iff.mp added
      obtain ⟨-, -, rfl⟩ := allocate_eq_ok_iff.mp allocated
      simpa using ih
  | readGlobal _ added _ allocated ih =>
      obtain ⟨-, -, rfl⟩ := addConstant_eq_ok_iff.mp added
      obtain ⟨-, -, rfl⟩ := allocate_eq_ok_iff.mp allocated
      simpa using ih
  | @writeScoped _ _ _ _ name _ _ _ _ _ access _ added _ _ _ defined meant ih =>
      obtain ⟨hwf', hrefills, hknows⟩ := ih
      obtain ⟨-, -, rfl⟩ := addConstant_eq_ok_iff.mp added
      refine ⟨ScopeChain.wellFormed_define hwf' defined,
        hrefills.trans (ScopeChain.refills_define hwf' defined), fun other => ?_⟩
      have hdefined := ScopeChain.knows_define_iff hwf' defined other
      rcases meant with rfl | ⟨rfl, hbound⟩
      · simpa [hknows, or_assoc] using hdefined
      -- An assignment defines a name that is known, so nothing becomes known.
      · have hname := (ScopeChain.lookup_isSome_iff _ _).mp hbound
        have hsame : other = name → a.scopes.Knows other ∨ Access.declare other ∈ _ :=
          fun hother => (hknows other).mp (hother ▸ hname)
        simpa [hknows, or_iff_left_of_imp hsame] using hdefined
  | writeGlobal _ added _ _ ih =>
      obtain ⟨-, -, rfl⟩ := addConstant_eq_ok_iff.mp added
      simpa using ih

theorem inScope (h : Grows given a accesses code b) {scope : Register} (hscope : a.InScope scope) :
    b.InScope scope := by
  obtain ⟨hwf, hrefills, -⟩ := h.scopes_frame hscope.wellFormed
  exact hscope.of_refills hwf hrefills

theorem advances (h : Grows given a accesses code b) : a.Advances b := by
  induction h with
  | start => exact .refl _
  | intern _ encodable added ih => exact ih.trans (advances_of_addConstant encodable added)
  | act _ _ _ _ _ ih => exact ih
  | compute _ _ allocated _ _ _ ih =>
      have hallocated := ih.trans (advances_of_allocate allocated)
      exact hallocated
  | readScoped _ added _ _ _ allocated ih =>
      have hadded := ih.trans (advances_of_addConstant rfl added)
      have hallocated := hadded.trans (advances_of_allocate allocated)
      exact hallocated
  | readGlobal _ added _ allocated ih =>
      have hadded := ih.trans (advances_of_addConstant rfl added)
      have hallocated := hadded.trans (advances_of_allocate allocated)
      exact hallocated
  | writeScoped _ added _ _ _ _ _ ih =>
      have hadded := ih.trans (advances_of_addConstant rfl added)
      exact hadded
  | writeGlobal _ added _ _ ih =>
      have hadded := ih.trans (advances_of_addConstant rfl added)
      exact hadded

/-- The constants of the new instructions are in the pool. -/
theorem constants_lt (h : Grows given a accesses code b) :
    ∀ instruction ∈ code, ∀ constant ∈ instruction.constants, constant.index.toNat < b.constants.size := by
  induction h with
  | start => simp
  | intern _ _ added ih =>
      intro instruction hmem constant hconstant
      exact Nat.lt_of_lt_of_le (ih instruction hmem constant hconstant) (extends_of_addConstant added).size_le
  | act _ _ _ _ constants ih => exact constantsBelow_push ih (Nat.le_refl _) constants
  | compute _ _ allocated _ _ constants ih =>
      obtain ⟨-, -, rfl⟩ := allocate_eq_ok_iff.mp allocated
      exact constantsBelow_push ih (Nat.le_refl _) constants
  | readScoped _ added _ _ _ allocated ih =>
      have hlt := lt_size_of_addConstant added
      have hle := (extends_of_addConstant added).size_le
      obtain ⟨-, -, rfl⟩ := allocate_eq_ok_iff.mp allocated
      exact constantsBelow_push ih hle (by simpa [Instruction.constants, Instruction.operands] using hlt)
  | readGlobal _ added _ allocated ih =>
      have hlt := lt_size_of_addConstant added
      have hle := (extends_of_addConstant added).size_le
      obtain ⟨-, -, rfl⟩ := allocate_eq_ok_iff.mp allocated
      exact constantsBelow_push ih hle (by simpa [Instruction.constants, Instruction.operands] using hlt)
  | writeScoped _ added _ _ _ _ _ ih =>
      have hlt := lt_size_of_addConstant added
      have hle := (extends_of_addConstant added).size_le
      exact constantsBelow_push ih hle (by simpa [Instruction.constants, Instruction.operands] using hlt)
  | writeGlobal _ added _ _ ih =>
      have hlt := lt_size_of_addConstant added
      have hle := (extends_of_addConstant added).size_le
      exact constantsBelow_push ih hle (by simpa [Instruction.constants, Instruction.operands] using hlt)

/-- Every register is read behind the instruction that writes it. -/
theorem covered (h : Grows given a accesses code b) : Covered given code := by
  induction h with
  | start => trivial
  | intern _ _ _ ih => exact ih
  | act _ _ _ sources _ ih => exact covered_append.mpr ⟨ih, sources, trivial⟩
  | compute _ _ _ _ sources _ ih => exact covered_append.mpr ⟨ih, sources, trivial⟩
  | readScoped _ _ _ _ scopeGiven _ ih =>
      refine covered_append.mpr ⟨ih, ?_, trivial⟩
      simp [Instruction.sources, scopeGiven]
  | readGlobal _ _ _ _ ih =>
      refine covered_append.mpr ⟨ih, ?_, trivial⟩
      simp [Instruction.sources]
  | writeScoped _ _ _ scopeGiven srcWritten _ _ ih =>
      refine covered_append.mpr ⟨ih, ?_, trivial⟩
      simp [Instruction.sources, scopeGiven, srcWritten]
  | writeGlobal _ _ _ srcWritten ih =>
      refine covered_append.mpr ⟨ih, ?_, trivial⟩
      simp [Instruction.sources, srcWritten]

/-- The registers that are written follow the last register in order. -/
theorem writesInOrder (h : Grows given a accesses code b) : WritesInOrder a.lastRegister b.lastRegister code := by
  induction h with
  | start => exact .nil _
  | intern _ _ added ih =>
      obtain ⟨-, -, rfl⟩ := addConstant_eq_ok_iff.mp added
      exact ih
  | act _ _ noResult _ _ ih => exact ih.push_none noResult
  | compute _ _ allocated result _ _ ih =>
      have hnext := toNat_allocate allocated
      exact ih.push_some result hnext
  | readScoped _ added _ _ _ allocated ih =>
      have hnext := toNat_allocate allocated
      obtain ⟨-, -, rfl⟩ := addConstant_eq_ok_iff.mp added
      exact ih.push_some rfl hnext
  | readGlobal _ added _ allocated ih =>
      have hnext := toNat_allocate allocated
      obtain ⟨-, -, rfl⟩ := addConstant_eq_ok_iff.mp added
      exact ih.push_some rfl hnext
  | writeScoped _ added _ _ _ _ _ ih =>
      obtain ⟨-, -, rfl⟩ := addConstant_eq_ok_iff.mp added
      exact ih.push_none rfl
  | writeGlobal _ added _ _ ih =>
      obtain ⟨-, -, rfl⟩ := addConstant_eq_ok_iff.mp added
      exact ih.push_none rfl

end Grows

/-! ## Lowering an expression makes the code grow -/

/-- The code has grown beyond `code` and the pool beyond that of `b`, and the registers of some values have been
written. -/
def GrowsBeyond (given : List Register) (a : Assembler) (accesses : List Access) (code : List PlainInstruction)
    (b : Assembler) (values : List Register) (c : Assembler) : Prop :=
  ∃ longer, code <+: longer ∧ b.constants.Extends c.constants ∧ Grows given a accesses longer c ∧
    ∀ register ∈ values, register ∈ written longer

theorem mem_written_of_shorter {code longer : List PlainInstruction} (h : code <+: longer) {register : Register}
    (hmem : register ∈ written code) : register ∈ written longer := by
  obtain ⟨more, rfl⟩ := h
  rw [written_append]
  exact List.mem_append_left _ hmem

theorem mem_written_push (code : List PlainInstruction) {instruction : PlainInstruction} {dst : Register}
    (hdst : instruction.dst? = some dst) : dst ∈ written (code ++ [instruction]) := by
  simp [written, hdst]

section Lowering

variable {given : List Register} {a b : Assembler} {scope : Register} {accesses : List Access}
  {code : List PlainInstruction}

theorem GrowsBeyond.of_longer {longer : List PlainInstruction} {c d : Assembler} {values : List Register}
    (h : GrowsBeyond given a accesses longer c values d) (hcode : code <+: longer)
    (hextends : b.constants.Extends c.constants) : GrowsBeyond given a accesses code b values d := by
  obtain ⟨longest, hlongest, hmore, grown, hvalues⟩ := h
  exact ⟨longest, hcode.trans hlongest, hextends.trans hmore, grown, hvalues⟩

/-- A value that is computed from values that were computed before. -/
theorem meets_compute (grown : Grows given a accesses code b) (make : Register → PlainInstruction)
    (hresult : ∀ dst, (make dst).dst? = some dst) (hordinary : ∀ dst, (make dst).concernsVariables = false)
    (hsources : ∀ dst, ∀ register ∈ (make dst).sources, register ∈ given ++ written code)
    (hconstants : ∀ dst, ∀ constant ∈ (make dst).constants, constant.index.toNat < b.constants.size) :
    Meets (do
      let dst ← allocate
      emit (.ofPlain (make dst))
      return dst) b fun dst c => GrowsBeyond given a accesses code b [dst] c := by
  refine meets_bind (meets_allocate fun dst c allocated => ?_)
  refine meets_bind (meets_emit ?_)
  refine meets_pure ⟨code ++ [make dst], List.prefix_append _ _, ?_, ?_, ?_⟩
  · obtain ⟨-, -, rfl⟩ := allocate_eq_ok_iff.mp allocated
    exact .refl _
  · exact .compute grown (hordinary dst) allocated (hresult dst) (hsources dst) (hconstants dst)
  · intro register hmem
    obtain rfl := List.mem_singleton.mp hmem
    exact mem_written_push code (hresult register)

theorem meets_lowerConstant (grown : Grows given a accesses code b) {constant : Constant}
    (encodable : constant.isEncodable) :
    Meets (lowerConstant constant) b fun dst c => GrowsBeyond given a accesses code b [dst] c := by
  refine meets_bind (meets_addConstant fun index c added => ?_)
  have hlt := lt_size_of_addConstant added
  refine (meets_compute (grown.intern encodable added) (.load index) (fun _ => rfl) (fun _ => rfl)
    (by simp [Instruction.sources]) ?_).mono ?_
  · intro dst held hheld
    obtain rfl : held = index := by simpa [Instruction.constants, Instruction.operands] using hheld
    exact hlt
  · intro dst d hbeyond
    exact hbeyond.of_longer (List.prefix_refl _) (extends_of_addConstant added)

theorem meets_lowerName (hscope : a.InScope scope) (hgiven : scope ∈ given)
    (grown : Grows given a accesses code b) (name : String) :
    Meets (lowerName name) b fun dst c => GrowsBeyond given a (accesses ++ [.read name]) code b [dst] c := by
  refine meets_bind (meets_addConstant fun index c added => ?_)
  have hextends := extends_of_addConstant added
  have hin := grown.inScope hscope
  -- The name is interned before it is looked up, which leaves the scopes alone.
  have hscopes := scopes_of_addConstant added
  refine meets_bind (meets_resolveVariable ?_)
  rw [hscopes]
  cases hlookup : b.scopes.lookup name with
  | some found =>
      refine meets_bind (meets_scopeRegister (hin.of_scopes_eq hscopes) ?_)
      refine meets_bind (meets_allocate fun dst d allocated => ?_)
      refine meets_bind (meets_emit ?_)
      refine meets_pure ⟨code ++ [.scopeGet scope index dst], List.prefix_append _ _, ?_, ?_, ?_⟩
      · obtain ⟨-, -, rfl⟩ := allocate_eq_ok_iff.mp allocated
        exact hextends
      · exact .readScoped grown added (by simp [hlookup]) hin.current hgiven allocated
      · intro register hmem
        obtain rfl := List.mem_singleton.mp hmem
        exact mem_written_push code rfl
  | none =>
      refine meets_bind (meets_allocate fun dst d allocated => ?_)
      refine meets_bind (meets_emit ?_)
      refine meets_pure ⟨code ++ [.getVar index dst], List.prefix_append _ _, ?_, ?_, ?_⟩
      · obtain ⟨-, -, rfl⟩ := allocate_eq_ok_iff.mp allocated
        exact hextends
      · exact .readGlobal grown added hlookup allocated
      · intro register hmem
        obtain rfl := List.mem_singleton.mp hmem
        exact mem_written_push code rfl

/-- The call itself, once its function and its arguments have been computed. -/
theorem meets_call {function : Register} {arguments : List Register} (grown : Grows given a accesses code b)
    (hfunction : function ∈ written code) (harguments : ∀ register ∈ arguments, register ∈ written code) :
    Meets (do
      let dst ← allocate
      emit (.call function arguments dst)
      return dst) b fun dst c => GrowsBeyond given a accesses code b [dst] c := by
  refine meets_compute grown (.call function arguments) (fun _ => rfl) (fun _ => rfl) ?_
    (by simp [Instruction.constants, Instruction.operands])
  intro dst register hsource
  apply List.mem_append_right
  rcases List.mem_cons.mp hsource with rfl | hargument
  · exact hfunction
  · exact harguments register hargument

/-- One field of a table, once its parts have been computed. -/
theorem grows_setField (grown : Grows given a accesses code b) (instruction : PlainInstruction)
    (hordinary : instruction.concernsVariables = false) (hresult : instruction.dst? = none)
    (hsources : ∀ register ∈ instruction.sources, register ∈ written code)
    (hconstants : ∀ constant ∈ instruction.constants, constant.index.toNat < b.constants.size) :
    Grows given a accesses (code ++ [instruction]) (b.pushed (.ofPlain instruction)) :=
  .act grown hordinary hresult (fun register hsource => List.mem_append_right _ (hsources register hsource))
    hconstants

mutual

/-- An expression is lowered to code behind what is there, and its value is in a register that this code writes. -/
theorem meets_lowerExpression (hscope : a.InScope scope) (hgiven : scope ∈ given) :
    ∀ (expression : Expression) {accesses : List Access} {code : List PlainInstruction} {b : Assembler},
      Grows given a accesses code b →
        Meets (lowerExpression expression) b fun dst c =>
          GrowsBeyond given a (accesses ++ expression.accesses) code b [dst] c
  | .identifier identifier, accesses, code, b, grown => by
      unfold lowerExpression Expression.accesses
      exact meets_lowerName hscope hgiven grown identifier.name
  | .number value location, accesses, code, b, grown => by
      unfold lowerExpression Expression.accesses
      rw [List.append_nil]
      by_cases hfinite : value.isFinite = true
      · rw [if_pos hfinite]
        exact meets_lowerConstant grown hfinite
      · rw [if_neg hfinite]
        exact meets_fail id
  | .string value _, accesses, code, b, grown => by
      unfold lowerExpression Expression.accesses
      rw [List.append_nil]
      exact meets_lowerConstant grown rfl
  | .boolean value _, accesses, code, b, grown => by
      unfold lowerExpression Expression.accesses
      rw [List.append_nil]
      exact meets_lowerConstant grown rfl
  | .nil _, accesses, code, b, grown => by
      unfold lowerExpression Expression.accesses
      rw [List.append_nil]
      exact meets_compute grown .setNil (fun _ => rfl) (fun _ => rfl) (by simp [Instruction.sources])
        (by simp [Instruction.constants, Instruction.operands])
  | .binary operator left right location, accesses, code, b, grown => by
      unfold lowerExpression Expression.accesses
      cases operator.operation? with
      | none => exact meets_fail id
      | some operation =>
          refine (meets_lowerExpression hscope hgiven left grown).bind ?_
          rintro lhs c ⟨code₁, hcode₁, hextends₁, grown₁, hlhs⟩
          refine (meets_lowerExpression hscope hgiven right grown₁).bind ?_
          rintro rhs d ⟨code₂, hcode₂, hextends₂, grown₂, hrhs⟩
          rw [List.append_assoc] at grown₂
          refine (meets_compute grown₂ (.operate operation lhs rhs) (fun _ => rfl) (fun _ => rfl) ?_
            (by simp [Instruction.constants, Instruction.operands])).mono ?_
          · intro dst register hsource
            apply List.mem_append_right
            rcases List.mem_cons.mp hsource with rfl | hright
            · exact mem_written_of_shorter hcode₂ (hlhs _ List.mem_cons_self)
            · exact hrhs register hright
          · intro dst e hbeyond
            exact hbeyond.of_longer (hcode₁.trans hcode₂) (hextends₁.trans hextends₂)
  | .call callee arguments _, accesses, code, b, grown => by
      unfold lowerExpression Expression.accesses
      refine (meets_lowerExpression hscope hgiven callee grown).bind ?_
      rintro function c ⟨code₁, hcode₁, hextends₁, grown₁, hfunction⟩
      refine (meets_lowerArguments hscope hgiven arguments grown₁).bind ?_
      rintro registers d ⟨code₂, hcode₂, hextends₂, grown₂, hregisters⟩
      rw [List.append_assoc] at grown₂
      have hfunction₂ := mem_written_of_shorter hcode₂ (hfunction function List.mem_cons_self)
      exact (meets_call grown₂ hfunction₂ hregisters).mono fun dst e hbeyond =>
        hbeyond.of_longer (hcode₁.trans hcode₂) (hextends₁.trans hextends₂)
  | .stringCall callee argument _, accesses, code, b, grown => by
      unfold lowerExpression Expression.accesses
      refine (meets_lowerExpression hscope hgiven callee grown).bind ?_
      rintro function c ⟨code₁, hcode₁, hextends₁, grown₁, hfunction⟩
      refine (meets_lowerExpression hscope hgiven argument grown₁).bind ?_
      rintro register d ⟨code₂, hcode₂, hextends₂, grown₂, hregister⟩
      rw [List.append_assoc] at grown₂
      have hfunction₂ := mem_written_of_shorter hcode₂ (hfunction function List.mem_cons_self)
      exact (meets_call grown₂ hfunction₂ hregister).mono fun dst e hbeyond =>
        hbeyond.of_longer (hcode₁.trans hcode₂) (hextends₁.trans hextends₂)
  | .tableCall callee argument _, accesses, code, b, grown => by
      unfold lowerExpression Expression.accesses
      refine (meets_lowerExpression hscope hgiven callee grown).bind ?_
      rintro function c ⟨code₁, hcode₁, hextends₁, grown₁, hfunction⟩
      refine (meets_lowerExpression hscope hgiven argument grown₁).bind ?_
      rintro register d ⟨code₂, hcode₂, hextends₂, grown₂, hregister⟩
      rw [List.append_assoc] at grown₂
      have hfunction₂ := mem_written_of_shorter hcode₂ (hfunction function List.mem_cons_self)
      exact (meets_call grown₂ hfunction₂ hregister).mono fun dst e hbeyond =>
        hbeyond.of_longer (hcode₁.trans hcode₂) (hextends₁.trans hextends₂)
  | .table fields _, accesses, code, b, grown => by
      unfold lowerExpression Expression.accesses
      refine meets_bind (meets_allocate fun dst c allocated => ?_)
      refine meets_bind (meets_emit ?_)
      have grown₁ : Grows given a accesses (code ++ [.newTable dst]) (c.pushed (.newTable dst)) :=
        .compute grown rfl allocated rfl (by simp [Instruction.sources])
          (by simp [Instruction.constants, Instruction.operands])
      have hdst : dst ∈ written (code ++ [.newTable dst]) := mem_written_push code rfl
      refine (meets_lowerFields hscope hgiven dst fields grown₁ hdst).bind ?_
      rintro ⟨⟩ d ⟨code₂, hcode₂, hextends₂, grown₂, -⟩
      obtain ⟨-, -, rfl⟩ := allocate_eq_ok_iff.mp allocated
      refine meets_pure ⟨code₂, (List.prefix_append _ _).trans hcode₂, hextends₂, grown₂, ?_⟩
      intro register hmem
      obtain rfl := List.mem_singleton.mp hmem
      exact mem_written_of_shorter hcode₂ hdst
  | .member indexer identifier base location, accesses, code, b, grown => by
      unfold lowerExpression Expression.accesses
      by_cases hcolon : indexer = .colon
      · rw [if_pos hcolon]
        exact meets_fail id
      · rw [if_neg hcolon]
        refine (meets_lowerExpression hscope hgiven base grown).bind ?_
        rintro table c ⟨code₁, hcode₁, hextends₁, grown₁, htable⟩
        refine meets_bind (meets_addConstant fun key d added => ?_)
        have hlt := lt_size_of_addConstant added
        refine (meets_compute (grown₁.intern rfl added) (.getField table key) (fun _ => rfl) (fun _ => rfl)
          ?_ ?_).mono ?_
        · intro dst register hsource
          exact List.mem_append_right _ (htable register hsource)
        · intro dst held hheld
          obtain rfl : held = key := by simpa [Instruction.constants, Instruction.operands] using hheld
          exact hlt
        · intro dst e hbeyond
          exact hbeyond.of_longer hcode₁ (hextends₁.trans (extends_of_addConstant added))
  | .unsupported kind location, accesses, code, b, grown => by
      unfold lowerExpression
      exact meets_fail id

theorem meets_lowerArguments (hscope : a.InScope scope) (hgiven : scope ∈ given) :
    ∀ (arguments : List Expression) {accesses : List Access} {code : List PlainInstruction} {b : Assembler},
      Grows given a accesses code b →
        Meets (lowerArguments arguments) b fun registers c =>
          GrowsBeyond given a (accesses ++ accessesOfArguments arguments) code b registers c
  | [], accesses, code, b, grown => by
      unfold lowerArguments accessesOfArguments
      rw [List.append_nil]
      exact meets_pure ⟨code, List.prefix_refl _, .refl _, grown, by simp⟩
  | argument :: arguments, accesses, code, b, grown => by
      unfold lowerArguments accessesOfArguments
      refine (meets_lowerExpression hscope hgiven argument grown).bind ?_
      rintro register c ⟨code₁, hcode₁, hextends₁, grown₁, hregister⟩
      refine (meets_lowerArguments hscope hgiven arguments grown₁).bind ?_
      rintro registers d ⟨code₂, hcode₂, hextends₂, grown₂, hregisters⟩
      rw [List.append_assoc] at grown₂
      refine meets_pure ⟨code₂, hcode₁.trans hcode₂, hextends₁.trans hextends₂, grown₂, ?_⟩
      intro other hmem
      rcases List.mem_cons.mp hmem with rfl | hrest
      · exact mem_written_of_shorter hcode₂ (hregister _ List.mem_cons_self)
      · exact hregisters other hrest

theorem meets_lowerFields (hscope : a.InScope scope) (hgiven : scope ∈ given)
    (table : Register) :
    ∀ (fields : List TableField) {accesses : List Access} {code : List PlainInstruction} {b : Assembler},
      Grows given a accesses code b → table ∈ written code →
        Meets (lowerFields table fields) b fun _ c =>
          GrowsBeyond given a (accesses ++ accessesOfFields fields) code b [] c
  | [], accesses, code, b, grown, htable => by
      unfold lowerFields accessesOfFields
      rw [List.append_nil]
      exact meets_pure ⟨code, List.prefix_refl _, .refl _, grown, by simp⟩
  | .keyed key value :: fields, accesses, code, b, grown, htable => by
      unfold lowerFields accessesOfFields
      refine (meets_lowerExpression hscope hgiven key grown).bind ?_
      rintro keyRegister c ⟨code₁, hcode₁, hextends₁, grown₁, hkey⟩
      refine (meets_lowerExpression hscope hgiven value grown₁).bind ?_
      rintro src d ⟨code₂, hcode₂, hextends₂, grown₂, hsrc⟩
      refine meets_bind (meets_emit ?_)
      have htable₂ := mem_written_of_shorter (hcode₁.trans hcode₂) htable
      have hkey₂ := mem_written_of_shorter hcode₂ (hkey _ List.mem_cons_self)
      have hsrc₂ := hsrc _ List.mem_cons_self
      rw [List.append_assoc] at grown₂
      have grown₃ := grows_setField grown₂ (.setTable table keyRegister src) rfl rfl
        (by simp [Instruction.sources, htable₂, hkey₂, hsrc₂]) (by simp [Instruction.constants, Instruction.operands])
      have hprefix := (hcode₁.trans hcode₂).trans (List.prefix_append code₂ [.setTable table keyRegister src])
      rw [← List.append_assoc]
      exact (meets_lowerFields hscope hgiven table fields grown₃ (mem_written_of_shorter hprefix htable)).mono
        fun _ e hbeyond => hbeyond.of_longer hprefix (hextends₁.trans hextends₂)
  | .named key value :: fields, accesses, code, b, grown, htable => by
      unfold lowerFields accessesOfFields
      refine meets_bind (meets_addConstant fun index c added => ?_)
      refine (meets_lowerExpression hscope hgiven value (grown.intern rfl added)).bind ?_
      rintro src d ⟨code₁, hcode₁, hextends₁, grown₁, hsrc⟩
      refine meets_bind (meets_emit ?_)
      have hlt := Nat.lt_of_lt_of_le (lt_size_of_addConstant added) hextends₁.size_le
      have htable₁ := mem_written_of_shorter hcode₁ htable
      have hsrc₁ := hsrc _ List.mem_cons_self
      have grown₂ := grows_setField grown₁ (.setField table index src) rfl rfl
        (by simp [Instruction.sources, htable₁, hsrc₁]) (by simpa [Instruction.constants, Instruction.operands] using hlt)
      have hprefix := hcode₁.trans (List.prefix_append code₁ [.setField table index src])
      rw [← List.append_assoc]
      exact (meets_lowerFields hscope hgiven table fields grown₂ (mem_written_of_shorter hprefix htable)).mono
        fun _ e hbeyond => hbeyond.of_longer hprefix ((extends_of_addConstant added).trans hextends₁)
  | .positional value :: fields, accesses, code, b, grown, htable => by
      unfold lowerFields accessesOfFields
      refine (meets_lowerExpression hscope hgiven value grown).bind ?_
      rintro src c ⟨code₁, hcode₁, hextends₁, grown₁, hsrc⟩
      refine meets_bind (meets_emit ?_)
      have htable₁ := mem_written_of_shorter hcode₁ htable
      have hsrc₁ := hsrc _ List.mem_cons_self
      have grown₂ := grows_setField grown₁ (.pushTable table src) rfl rfl
        (by simp [Instruction.sources, htable₁, hsrc₁]) (by simp [Instruction.constants, Instruction.operands])
      have hprefix := hcode₁.trans (List.prefix_append code₁ [.pushTable table src])
      rw [← List.append_assoc]
      exact (meets_lowerFields hscope hgiven table fields grown₂ (mem_written_of_shorter hprefix htable)).mono
        fun _ e hbeyond => hbeyond.of_longer hprefix hextends₁

end

end Lowering
end ScriptBytecode
