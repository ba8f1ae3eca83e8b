import ScriptBytecode.Proofs.TreeDemands
import ScriptBytecode.Proofs.Validity

/-!
# The pool of a script

The pool of a script that compiles holds the constants of its tree, each once and in the order of their first
occurrences. Nothing is added to the pool without need: behind every step of lowering, the constants that it has added
are named by instructions that it has emitted (`Assembler.Settles`). A constant is added some steps before the
instruction that names it, so single steps are put together by `settles_addConstant_bind`, which looks for that
instruction in the steps that follow.
-/

namespace ScriptBytecode

open Assembler Assembling

/-! ## Constants that are named -/

namespace Assembler

/-- Some instruction names the constant at a place of the pool. -/
def Names (a : Assembler) (index : Nat) : Prop :=
  ∃ instruction ∈ a.code.toList.filterMap Instruction.plain?, ∃ constant ∈ instruction.constants,
    constant.index.toNat = index

/-- Code and constants stay where they are, and the constants that come are named by instructions. -/
structure Settles (a b : Assembler) : Prop where
  code : a.code.toList <+: b.code.toList
  pool : a.constants.Extends b.constants
  size_le : a.constants.size ≤ 2 ^ 32 → b.constants.size ≤ 2 ^ 32
  named : a.constants.size ≤ 2 ^ 32 → ∀ index, a.constants.size ≤ index → index < b.constants.size → b.Names index

variable {a b c : Assembler}

theorem Names.mono {index : Nat} (h : a.Names index) (hcode : a.code.toList <+: b.code.toList) : b.Names index := by
  obtain ⟨instruction, hmem, hnamed⟩ := h
  obtain ⟨more, hmore⟩ := hcode
  refine ⟨instruction, ?_, hnamed⟩
  rw [← hmore, List.filterMap_append]
  exact List.mem_append_left _ hmem

namespace Settles

/-- No constant comes. -/
theorem of_constants_eq (hcode : a.code.toList <+: b.code.toList) (hconstants : b.constants = a.constants) :
    a.Settles b where
  code := hcode
  pool := hconstants ▸ .refl _
  size_le := fun hsize => hconstants ▸ hsize
  named := by
    intro _ index hold hnew
    rw [hconstants] at hnew
    omega

theorem trans (h : a.Settles b) (h' : b.Settles c) : a.Settles c where
  code := h.code.trans h'.code
  pool := h.pool.trans h'.pool
  size_le := fun hsize => h'.size_le (h.size_le hsize)
  named := by
    intro hsize index hold hnew
    by_cases hfirst : index < b.constants.size
    · exact (h.named hsize index hold hfirst).mono h'.code
    · exact h'.named (h.size_le hsize) index (Nat.le_of_not_lt hfirst) hnew

/-- A constant is added, and later on an instruction names it. -/
theorem of_addConstant {constant : Constant} {index : ConstantIndex} (added : addConstant constant a = .ok (index, b))
    (h : b.Settles c) (hnamed : c.Names index.index.toNat) : a.Settles c := by
  have hextends := extends_of_addConstant added
  refine ⟨?_, hextends.trans h.pool, ?_, ?_⟩
  · obtain ⟨-, -, rfl⟩ := addConstant_eq_ok_iff.mp added
    exact h.code
  · intro hsize
    exact h.size_le (get?_of_addConstant hsize added).2
  · intro hsize place hold hnew
    by_cases hlater : b.constants.size ≤ place
    · exact h.named (get?_of_addConstant hsize added).2 place hlater hnew
    · -- Only the added constant can stand between the two pools, and then it has the first free place.
      obtain ⟨hroom, rfl, rfl⟩ := addConstant_eq_ok_iff.mp added
      cases hfind : a.constants.find? constant with
      | some found =>
          rw [ConstantPool.add_of_find?_eq_some hfind] at hlater
          exact absurd hold hlater
      | none =>
          have hadd := ConstantPool.add_of_find?_eq_none hfind
          have hplace : place = a.constants.size := by
            simp only [hadd, ConstantPool.size, Array.size_push] at hlater hold ⊢
            omega
          have hlt : a.constants.size < 2 ^ 32 := by simpa [ConstantPool.isFull, hfind] using hroom
          have hword : (a.constants.add constant).1.toNat = place := by
            rw [hadd, hplace]
            exact (UInt32.toNat_ofNat').trans (Nat.mod_eq_of_lt hlt)
          rw [← hword]
          exact hnamed

end Settles
end Assembler

/-! ## Steps that settle -/

namespace Assembling

variable {α β : Type} {step : Assembling α} {next : α → Assembling β}

/-- A step leaves no constant behind that it has added and not named. -/
def Settles (step : Assembling α) : Prop :=
  ∀ a b value, step a = .ok (value, b) → a.Settles b

/-- A step puts an instruction behind the code that names a constant. -/
def Emits (index : Nat) (step : Assembling α) : Prop :=
  ∀ a b value, step a = .ok (value, b) → b.Names index

theorem Settles.bind (h : step.Settles) (hnext : ∀ value, (next value).Settles) : Settles (step >>= next) := by
  intro a c result hresult
  obtain ⟨value, b, hstep, hrest⟩ := bind_eq_ok_iff.mp hresult
  exact (h a b value hstep).trans (hnext value b c result hrest)

theorem settles_pure (value : α) : Settles (pure value) := by
  intro a b result hresult
  obtain ⟨-, rfl⟩ := Prod.mk.inj (pure_eq_ok_iff.mp hresult)
  exact .of_constants_eq (List.prefix_refl _) rfl

theorem settles_fail (error : CompileError) : Settles (fail error : Assembling α) :=
  fun _ _ _ hresult => nomatch hresult

/-- A step that only puts instructions behind the code, if it does anything to code and constants. -/
theorem settles_of_frame (h : ∀ a b value, step a = .ok (value, b) →
    a.code.toList <+: b.code.toList ∧ b.constants = a.constants) : step.Settles :=
  fun a b value hstep => .of_constants_eq (h a b value hstep).1 (h a b value hstep).2

theorem Emits.bind_right {index : Nat} (h : ∀ value, (next value).Emits index) : Emits index (step >>= next) := by
  intro a c result hresult
  obtain ⟨value, b, -, hrest⟩ := bind_eq_ok_iff.mp hresult
  exact h value b c result hrest

theorem Emits.bind_left {index : Nat} (h : step.Emits index) (hnext : ∀ value, (next value).Settles) :
    Emits index (step >>= next) := by
  intro a c result hresult
  obtain ⟨value, b, hstep, hrest⟩ := bind_eq_ok_iff.mp hresult
  exact (h a b value hstep).mono (hnext value b c result hrest).code

/-- A constant is added in front of steps that settle and that name it. -/
theorem settles_addConstant_bind {constant : Constant} {next : ConstantIndex → Assembling β}
    (h : ∀ index, (next index).Settles) (hnamed : ∀ index, (next index).Emits index.index.toNat) :
    Settles (addConstant constant >>= next) := by
  intro a c result hresult
  obtain ⟨index, b, added, hrest⟩ := bind_eq_ok_iff.mp hresult
  exact .of_addConstant added (h index b c result hrest) (hnamed index b c result hrest)

end Assembling

theorem settles_emit (instruction : Instruction Label) : (emit instruction).Settles := by
  apply settles_of_frame
  rintro a b ⟨⟩ hstep
  obtain ⟨-, rfl⟩ := Prod.mk.inj (Except.ok.inj hstep)
  exact ⟨⟨[instruction], by simp⟩, rfl⟩

/-- Emitting an instruction that names a constant. -/
theorem emits_emit {instruction : PlainInstruction} {index : ConstantIndex} (h : index ∈ instruction.constants) :
    (emit (.ofPlain instruction)).Emits index.index.toNat := by
  rintro a b ⟨⟩ hstep
  obtain ⟨-, rfl⟩ := Prod.mk.inj (Except.ok.inj hstep)
  exact ⟨instruction, by simp, index, h, rfl⟩

theorem settles_allocate : allocate.Settles := by
  apply settles_of_frame
  intro a b register hstep
  obtain ⟨-, -, rfl⟩ := allocate_eq_ok_iff.mp hstep
  exact ⟨List.prefix_refl _, rfl⟩

theorem settles_enterScope : enterScope.Settles := by
  apply settles_of_frame
  intro a b scope hstep
  obtain ⟨-, hconstants, -, hcode⟩ := frame_enterScope hstep rfl
  exact ⟨⟨_, hcode.symm⟩, hconstants⟩

theorem settles_exitScope : exitScope.Settles := by
  apply settles_of_frame
  rintro a b ⟨⟩ hstep
  obtain ⟨-, rfl⟩ := Prod.mk.inj (Except.ok.inj hstep)
  exact ⟨List.prefix_refl _, rfl⟩

theorem settles_scopeRegister : scopeRegister.Settles := by
  apply settles_of_frame
  intro a b register hstep
  unfold scopeRegister at hstep
  split at hstep
  · obtain ⟨-, rfl⟩ := Prod.mk.inj (Except.ok.inj hstep)
    exact ⟨List.prefix_refl _, rfl⟩
  · exact nomatch hstep

theorem settles_resolveVariable (name : String) : (resolveVariable name).Settles := by
  apply settles_of_frame
  intro a b found hstep
  obtain ⟨-, rfl⟩ := Prod.mk.inj (Except.ok.inj hstep)
  exact ⟨List.prefix_refl _, rfl⟩

theorem settles_defineVariable (name : String) (register : Register) : (defineVariable name register).Settles := by
  apply settles_of_frame
  rintro a b ⟨⟩ hstep
  unfold defineVariable at hstep
  split at hstep
  · obtain ⟨-, rfl⟩ := Prod.mk.inj (Except.ok.inj hstep)
    exact ⟨List.prefix_refl _, rfl⟩
  · exact nomatch hstep

theorem settles_newLabel : newLabel.Settles := by
  apply settles_of_frame
  intro a b label hstep
  obtain ⟨-, rfl⟩ := Prod.mk.inj (Except.ok.inj hstep)
  exact ⟨List.prefix_refl _, rfl⟩

theorem settles_labelHere : labelHere.Settles := by
  apply settles_of_frame
  intro a b label hstep
  obtain ⟨-, rfl⟩ := Prod.mk.inj (Except.ok.inj hstep)
  exact ⟨List.prefix_refl _, rfl⟩

theorem settles_bindLabel (label : Label) : (bindLabel label).Settles := by
  apply settles_of_frame
  rintro a b ⟨⟩ hstep
  obtain ⟨-, rfl⟩ := Prod.mk.inj (Except.ok.inj hstep)
  exact ⟨List.prefix_refl _, rfl⟩

theorem settles_newLabels (clauses : List Clause) : (newLabels clauses).Settles := by
  apply settles_of_frame
  intro a b labels hstep
  obtain ⟨-, hcode, hconstants, -⟩ := frame_newLabels hstep
  rw [hcode]
  exact ⟨List.prefix_refl _, hconstants⟩

/-! ## Lowering settles -/

/-- A result that gets a register of its own. -/
theorem settles_result (make : Register → Instruction Label) :
    Settles (do
      let dst ← allocate
      emit (make dst)
      return dst) :=
  settles_allocate.bind fun dst => (settles_emit (make dst)).bind fun _ => settles_pure dst

/-- The instruction that computes a result names a constant. -/
theorem emits_result {make : Register → PlainInstruction} {index : ConstantIndex}
    (h : ∀ dst, index ∈ (make dst).constants) :
    Emits index.index.toNat (do
      let dst ← allocate
      emit (.ofPlain (make dst))
      return dst) :=
  Emits.bind_right fun dst => (emits_emit (h dst)).bind_left fun _ => settles_pure dst

theorem settles_lowerConstant (constant : Constant) : (lowerConstant constant).Settles := by
  apply settles_addConstant_bind
  · intro index
    exact settles_result (.load index)
  · intro index
    exact @emits_result (.load index) index fun dst => List.mem_cons_self

theorem settles_lowerName (name : String) : (lowerName name).Settles := by
  apply settles_addConstant_bind
  · intro index
    refine (settles_resolveVariable name).bind fun found => ?_
    cases found with
    | some _ => exact settles_scopeRegister.bind fun scope => settles_result (.scopeGet scope index)
    | none => exact settles_result (.getVar index)
  · intro index
    apply Emits.bind_right
    intro found
    cases found with
    | some _ =>
        apply Emits.bind_right
        intro scope
        exact @emits_result (.scopeGet scope index) index fun dst => List.mem_cons_self
    | none => exact @emits_result (.getVar index) index fun dst => List.mem_cons_self

mutual

theorem settles_lowerExpression : ∀ expression : Expression, (lowerExpression expression).Settles
  | .identifier identifier => by
      unfold lowerExpression
      exact settles_lowerName identifier.name
  | .number value location => by
      unfold lowerExpression
      split
      · exact settles_lowerConstant (.number value)
      · exact settles_fail _
  | .string value _ => by
      unfold lowerExpression
      exact settles_lowerConstant (.string value)
  | .boolean value _ => by
      unfold lowerExpression
      exact settles_lowerConstant (.boolean value)
  | .nil _ => by
      unfold lowerExpression
      exact settles_result .setNil
  | .binary operator left right location => by
      unfold lowerExpression
      cases operator.operation? with
      | none => exact settles_fail _
      | some operation =>
          exact (settles_lowerExpression left).bind fun lhs => (settles_lowerExpression right).bind fun rhs =>
            settles_result (.operate operation lhs rhs)
  | .call callee arguments _ => by
      unfold lowerExpression
      exact (settles_lowerExpression callee).bind fun function => (settles_lowerArguments arguments).bind fun registers =>
        settles_result (.call function registers)
  | .stringCall callee argument _ => by
      unfold lowerExpression
      exact (settles_lowerExpression callee).bind fun function => (settles_lowerExpression argument).bind fun register =>
        settles_result (.call function [register])
  | .tableCall callee argument _ => by
      unfold lowerExpression
      exact (settles_lowerExpression callee).bind fun function => (settles_lowerExpression argument).bind fun register =>
        settles_result (.call function [register])
  | .table fields _ => by
      unfold lowerExpression
      exact settles_allocate.bind fun dst => (settles_emit _).bind fun _ =>
        (settles_lowerFields dst fields).bind fun _ => settles_pure dst
  | .member indexer identifier base location => by
      unfold lowerExpression
      split
      · exact settles_fail _
      · refine (settles_lowerExpression base).bind fun table => ?_
        apply settles_addConstant_bind
        · intro key
          exact settles_result (.getField table key)
        · intro key
          exact @emits_result (.getField table key) key fun dst => List.mem_cons_self
  | .unsupported kind location => by
      unfold lowerExpression
      exact settles_fail _

theorem settles_lowerArguments : ∀ arguments : List Expression, (lowerArguments arguments).Settles
  | [] => by
      unfold lowerArguments
      exact settles_pure []
  | argument :: arguments => by
      unfold lowerArguments
      exact (settles_lowerExpression argument).bind fun _ => (settles_lowerArguments arguments).bind fun _ =>
        settles_pure _

theorem settles_lowerFields (table : Register) : ∀ fields : List TableField, (lowerFields table fields).Settles
  | [] => by
      unfold lowerFields
      exact settles_pure ()
  | .keyed key value :: fields => by
      unfold lowerFields
      exact (settles_lowerExpression key).bind fun _ => (settles_lowerExpression value).bind fun _ =>
        (settles_emit _).bind fun _ => settles_lowerFields table fields
  | .named key value :: fields => by
      unfold lowerFields
      -- The name of the field waits in the pool until its value has been computed.
      apply settles_addConstant_bind
      · intro index
        exact (settles_lowerExpression value).bind fun _ => (settles_emit _).bind fun _ =>
          settles_lowerFields table fields
      · intro index
        apply Emits.bind_right
        intro src
        refine Emits.bind_left ?_ fun _ => settles_lowerFields table fields
        exact @emits_emit (.setField table index src) index List.mem_cons_self
  | .positional value :: fields => by
      unfold lowerFields
      exact (settles_lowerExpression value).bind fun _ => (settles_emit _).bind fun _ =>
        settles_lowerFields table fields

end

theorem settles_lowerDeclaration (name : String) (value : Expression) : (lowerDeclaration name value).Settles := by
  refine (settles_lowerExpression value).bind fun src => ?_
  apply settles_addConstant_bind
  · intro index
    exact settles_scopeRegister.bind fun _ => (settles_defineVariable name src).bind fun _ => settles_emit _
  · intro index
    apply Emits.bind_right
    intro scope
    apply Emits.bind_right
    intro _
    exact @emits_emit (.scopeSet scope index src) index List.mem_cons_self

theorem settles_lowerDeclarations : ∀ (names : List Identifier) (values : List Expression),
    (lowerDeclarations names values).Settles
  | [], _ => settles_pure ()
  | _ :: _, [] => settles_pure ()
  | identifier :: names, value :: values => by
      unfold lowerDeclarations
      exact (settles_lowerDeclaration identifier.name value).bind fun _ => settles_lowerDeclarations names values

theorem settles_lowerAssignment (target : AssignmentTarget) (value : Expression) :
    (lowerAssignment target value).Settles := by
  refine (settles_lowerExpression value).bind fun src => ?_
  cases target with
  | name assigned =>
      apply settles_addConstant_bind
      · intro index
        refine (settles_resolveVariable assigned).bind fun found => ?_
        cases found with
        | some _ =>
            exact settles_scopeRegister.bind fun _ => (settles_defineVariable assigned src).bind fun _ => settles_emit _
        | none => exact settles_emit _
      · intro index
        apply Emits.bind_right
        intro found
        cases found with
        | some _ =>
            apply Emits.bind_right
            intro scope
            apply Emits.bind_right
            intro _
            exact @emits_emit (.scopeSet scope index src) index List.mem_cons_self
        | none => exact @emits_emit (.setVar src index) index List.mem_cons_self
  | member indexer identifier base location =>
      by_cases hcolon : indexer = .colon
      · simp only [hcolon, if_true]
        exact settles_fail _
      · simp only [hcolon, if_false]
        refine (settles_lowerExpression base).bind fun table => ?_
        apply settles_addConstant_bind
        · intro key
          exact settles_emit _
        · intro key
          exact @emits_emit (.setField table key src) key List.mem_cons_self

theorem settles_lowerAssignments : ∀ (targets : List AssignmentTarget) (values : List Expression),
    (lowerAssignments targets values).Settles
  | [], _ => settles_pure ()
  | _ :: _, [] => settles_pure ()
  | target :: targets, value :: values => by
      unfold lowerAssignments
      exact (settles_lowerAssignment target value).bind fun _ => settles_lowerAssignments targets values

theorem settles_lowerTests (clauses : List Clause) (labels : List Label) : (lowerTests clauses labels).Settles := by
  induction clauses generalizing labels with
  | nil => exact settles_pure ()
  | cons clause clauses ih =>
      cases labels with
      | nil => cases clause <;> exact settles_pure ()
      | cons label labels =>
          cases clause with
          | guarded _ condition =>
              unfold lowerTests
              exact (settles_lowerExpression condition).bind fun _ => (settles_emit _).bind fun _ => ih labels
          | otherwise =>
              unfold lowerTests
              exact (settles_emit _).bind fun _ => ih labels

mutual

theorem settles_lowerStatement (loopEnd : Option Label) : ∀ statement : Statement,
    (lowerStatement loopEnd statement).Settles
  | .declare names values location => by
      unfold lowerStatement
      split
      · exact settles_fail _
      · split
        · exact settles_fail _
        · exact settles_lowerDeclarations names values
  | .assign targets values location => by
      unfold lowerStatement
      split
      · exact settles_fail _
      · split
        · exact settles_fail _
        · split
          · exact settles_fail _
          · exact settles_lowerAssignments _ values
  | .call expression _ => by
      unfold lowerStatement
      exact (settles_lowerExpression expression).bind fun _ => settles_pure ()
  | .conditional clauses location => by
      unfold lowerStatement
      split
      · exact settles_fail _
      · exact settles_enterScope.bind fun _ => settles_newLabel.bind fun conditionalEnd =>
          (settles_newLabels clauses).bind fun labels => (settles_lowerTests clauses labels).bind fun _ =>
            (settles_emit _).bind fun _ => (settles_lowerBodies loopEnd conditionalEnd clauses labels).bind fun _ =>
              (settles_bindLabel _).bind fun _ => settles_exitScope
  | .whileLoop condition body _ => by
      unfold lowerStatement
      exact settles_enterScope.bind fun _ => settles_newLabel.bind fun exit =>
        (settles_lowerExpression condition).bind fun _ => (settles_emit _).bind fun _ =>
          settles_labelHere.bind fun _ => (settles_lowerBlock (some exit) body).bind fun _ =>
            (settles_lowerExpression condition).bind fun _ => (settles_emit _).bind fun _ =>
              (settles_bindLabel exit).bind fun _ => settles_exitScope
  | .breakLoop location => by
      unfold lowerStatement
      cases loopEnd with
      | some exit => exact settles_emit _
      | none => exact settles_fail _
  | .unsupported kind location => by
      unfold lowerStatement
      exact settles_fail _

theorem settles_lowerBlock (loopEnd : Option Label) : ∀ statements : List Statement,
    (lowerBlock loopEnd statements).Settles
  | [] => by
      unfold lowerBlock
      exact settles_pure ()
  | statement :: statements => by
      unfold lowerBlock
      exact (settles_lowerStatement loopEnd statement).bind fun _ => settles_lowerBlock loopEnd statements

theorem settles_lowerBodies (loopEnd : Option Label) (conditionalEnd : Label) :
    ∀ (clauses : List Clause) (labels : List Label), (lowerBodies loopEnd conditionalEnd clauses labels).Settles
  | [], _ => by
      unfold lowerBodies
      exact settles_pure ()
  | .guarded .. :: _, [] => by
      unfold lowerBodies
      exact settles_pure ()
  | .otherwise .. :: _, [] => by
      unfold lowerBodies
      exact settles_pure ()
  | .guarded _ _ body _ :: clauses, label :: labels => by
      unfold lowerBodies
      exact (settles_bindLabel label).bind fun _ => (settles_lowerBlock loopEnd body).bind fun _ =>
        (settles_emit _).bind fun _ => settles_lowerBodies loopEnd conditionalEnd clauses labels
  | .otherwise body _ :: clauses, label :: labels => by
      unfold lowerBodies
      exact (settles_bindLabel label).bind fun _ => (settles_lowerBlock loopEnd body).bind fun _ =>
        settles_lowerBodies loopEnd conditionalEnd clauses labels

end

theorem settles_lowerChunk (chunk : Chunk) : (lowerChunk chunk).Settles :=
  settles_enterScope.bind fun _ => (settles_lowerBlock none chunk.body).bind fun _ => settles_exitScope

/-! ## The pool of a script -/

/-- Computing an expression again adds nothing to a pool that has only grown since the first time. -/
theorem constants_of_lowered_again {expression : Expression} {a b c d : Assembler} {first again : Register}
    (h : lowerExpression expression a = .ok (first, b)) (hextends : b.constants.Extends c.constants)
    (h' : lowerExpression expression c = .ok (again, d)) : d.constants = c.constants := by
  obtain ⟨-, -, hfirst⟩ := (demands_lowerExpression expression).of_eq_ok h
  obtain ⟨-, -, hagain⟩ := (demands_lowerExpression expression).of_eq_ok h'
  rw [hagain]
  apply ConstantPool.addAll_of_subset
  intro constant hmem
  apply hextends.subset
  rw [hfirst]
  exact ConstantPool.mem_toList_addAll.mpr (Or.inr hmem)

/-- The pool of a script that compiles has the constants of its tree, each at its first occurrence. No two of its
constants are the same, every one of them is named by an instruction, and the condition of a loop adds nothing when it
is lowered for the second time, behind the body. -/
theorem constants_of_compile {chunk : Chunk} {program : Program} (h : chunk.compile = .ok program) :
    program.constants.constants.toList = chunk.constants.eraseDups ∧
      program.constants.constants.toList.Nodup ∧
        (∀ index, index < program.constants.size → ∃ instruction ∈ program.instructions, ∃ constant : ConstantIndex,
          .constant constant ∈ instruction.operands ∧ constant.index.toNat = index) ∧
          ∀ {condition : Expression} {body : List Statement} {loopEnd : Option Label} {a b b' c d : Assembler}
            {entry again : Register}, lowerExpression condition a = .ok (entry, b) → b'.constants = b.constants →
              lowerBlock loopEnd body b' = .ok ((), c) → lowerExpression condition c = .ok (again, d) →
                d.constants = c.constants := by
  obtain ⟨a, hlower, hcode, hconstants⟩ := lowerChunk_of_compile_eq_ok h
  obtain ⟨-, -, hpool⟩ := (demands_lowerChunk chunk).of_eq_ok hlower
  have hempty : Assembler.empty.constants.constants.toList.Nodup := List.nodup_nil
  rw [hconstants]
  refine ⟨?_, ?_, ?_, ?_⟩
  · rw [hpool]
    exact ConstantPool.toList_addAll_empty chunk.constants
  · rw [hpool]
    exact ConstantPool.nodup_addAll hempty
  · intro index hindex
    obtain ⟨plain, hmem, constant, hconstant, hplace⟩ :=
      (settles_lowerChunk chunk _ _ _ hlower).named (Nat.zero_le _) index (Nat.zero_le _) hindex
    rw [← plain_of_resolveCode hcode] at hmem
    obtain ⟨instruction, hinstruction, hplain⟩ := List.mem_filterMap.mp hmem
    obtain rfl := Instruction.eq_ofPlain_of_plain? hplain
    refine ⟨_, Array.mem_toList_iff.mp hinstruction, constant, ?_, hplace⟩
    rw [← Instruction.mem_constants_iff, Instruction.constants_ofPlain]
    exact hconstant
  · intro condition body loopEnd a b b' c d entry again hentry hsame hbody hagain
    have hextends : b.constants.Extends c.constants := hsame ▸ (settles_lowerBlock loopEnd body _ _ _ hbody).pool
    exact constants_of_lowered_again hentry hextends hagain

/-- `while t.k do t = { k = "t", [0] = -0 } end`, with two zeros that differ in their sign. -/
def refilledTable : Chunk :=
  ⟨[.whileLoop (.member .dot ⟨"k", none⟩ (.identifier ⟨"t", none⟩) none)
    [.assign [.identifier ⟨"t", none⟩]
      [.table [.named ⟨"k", none⟩ (.string "t" none),
        .keyed (.number ⟨0⟩ none) (.number ⟨0x8000000000000000⟩ none)] none] none] none]⟩

/-- A pool in which four constants of nine stay, the last of them named by the load of the negative zero. -/
theorem constants_of_compile_refilledTable :
    ∃ program, refilledTable.compile = .ok program ∧
      program.constants.constants.toList =
        [.string "t", .string "k", .number ⟨0⟩, .number ⟨0x8000000000000000⟩] ∧
      (∃ instruction ∈ program.instructions, ∃ constant : ConstantIndex,
        .constant constant ∈ instruction.operands ∧ constant.index.toNat = 3) ∧
      ∃ entry again b d, lowerExpression (.identifier ⟨"t", none⟩) .empty = .ok (entry, b) ∧
        lowerBlock none [] b = .ok ((), b) ∧ lowerExpression (.identifier ⟨"t", none⟩) b = .ok (again, d) ∧
          d.constants = b.constants := by
  obtain ⟨program, hcompile⟩ := @exists_program_of_isSome refilledTable (by decide +kernel)
  obtain ⟨hpool, -, hnamed, hagain⟩ := constants_of_compile hcompile
  have hlist : refilledTable.constants.eraseDups =
      [.string "t", .string "k", .number ⟨0⟩, .number ⟨0x8000000000000000⟩] := by decide
  rw [hlist] at hpool
  have hsize : program.constants.size = 4 := by
    simpa [ConstantPool.size] using congrArg List.length hpool
  exact ⟨program, hcompile, hpool, hnamed 3 (by omega), _, _, _, _, rfl, rfl, rfl,
    @hagain (.identifier ⟨"t", none⟩) [] none .empty _ _ _ _ _ _ rfl rfl rfl rfl⟩

end ScriptBytecode
