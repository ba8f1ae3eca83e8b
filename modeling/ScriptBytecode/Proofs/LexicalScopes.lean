import ScriptBytecode.Proofs.Layout
import ScriptBytecode.Proofs.LexicalWalk

/-!
# Scoped and global accesses of compiled scripts

The compiler keeps its scopes in an array with a pointer to the current one; `ScopeWalk` keeps a stack of sets of names.
`Assembler.Agrees` relates the two. It is kept by every step of lowering when the walk takes the step of the tree that
belongs to it. So the instructions of a program that deal with variables are, one by one, what the walk over the tree of
the script says.
-/

namespace ScriptBytecode

open Assembler Assembling

/-- What shows of a scope of the compiler is a scope of the walk. -/
def ShowsScope (scopes : List Register) (shown : Register × Set String) (scope : OpenScope) : Prop :=
  scopes[scope.number]? = some shown.1 ∧ shown.2 = scope.names

theorem ShowsScope.mono {scopes more : List Register} {shown : Register × Set String} {scope : OpenScope}
    (hscopes : scopes <+: more) (h : ShowsScope scopes shown scope) : ShowsScope more shown scope :=
  ⟨getElem?_of_isPrefix hscopes h.1, h.2⟩

/-- An assembler has come as far as a walk: the same scopes are open with the same names, and the instructions that deal
with variables do what the walk has noted. -/
structure Assembler.Agrees (a : Assembler) (walk : ScopeWalk) : Prop where
  pool : a.constants.Sound
  wellFormed : a.scopes.WellFormed
  outermost : ∃ root rest, a.code.toList = .newScope root none :: rest ∧ ∀ dst, .newScope dst none ∉ rest
  nodup : (scopeRegisters a.code.toList).Nodup
  inUse : ∀ register ∈ scopeRegisters a.code.toList, register.index.toNat ≤ a.lastRegister.toNat
  opened : walk.opened = (scopeRegisters a.code.toList).length
  shown : List.Forall₂ (ShowsScope (scopeRegisters a.code.toList)) a.scopes.stack (walk.current :: walk.around)
  realized : List.Forall₂ (Realizes a.constants (scopeRegisters a.code.toList))
    (a.code.toList.filter Instruction.concernsVariables) walk.events

theorem scopeRegisters_append {τ : Type} (code more : List (Instruction τ)) :
    scopeRegisters (code ++ more) = scopeRegisters code ++ scopeRegisters more :=
  List.filterMap_append

theorem scopeRegisters_singleton_of_none {τ : Type} {instruction : Instruction τ} (h : instruction.openedScope? = none) :
    scopeRegisters [instruction] = [] := by
  simp [scopeRegisters, h]

namespace Assembler.Agrees

variable {a b : Assembler} {walk : ScopeWalk}

/-! ## What the two agree on -/

theorem knows_iff (h : a.Agrees walk) (name : String) : a.scopes.Knows name ↔ walk.Knows name := by
  have hshown := h.shown
  unfold ScopeChain.Knows ScopeWalk.Knows
  revert hshown
  generalize a.scopes.stack = stack
  generalize walk.current :: walk.around = scopes
  intro hshown
  induction hshown with
  | nil => simp
  | @cons shown scope _ _ hfirst _ ih =>
      simp only [List.exists_mem_cons_iff, ih, hfirst.2, Finset.mem_coe]

theorem lookup_isSome_iff (h : a.Agrees walk) (name : String) :
    (a.scopes.lookup name).isSome ↔ walk.Knows name :=
  (ScopeChain.lookup_isSome_iff a.scopes name).trans (h.knows_iff name)

theorem not_knows_of_lookup (h : a.Agrees walk) {name : String} (hfree : a.scopes.lookup name = none) :
    ¬ walk.Knows name := by
  rw [← h.lookup_isSome_iff, hfree]
  exact Bool.false_ne_true

/-- The register of the innermost scope. -/
theorem current (h : a.Agrees walk) {scope : Register} (hcurrent : a.scopes.currentRegister? = some scope) :
    (scopeRegisters a.code.toList)[walk.current.number]? = some scope := by
  rw [ScopeChain.currentRegister?_eq h.wellFormed] at hcurrent
  have hshown := h.shown
  revert hcurrent hshown
  cases a.scopes.stack with
  | nil =>
      intro hcurrent
      exact nomatch hcurrent
  | cons shown rest =>
      intro hcurrent hshown
      obtain rfl := Option.some.inj hcurrent
      exact (List.forall₂_cons.mp hshown).1.1

theorem isSome_currentRegister? (h : a.Agrees walk) : ∃ scope, a.scopes.currentRegister? = some scope := by
  rw [ScopeChain.currentRegister?_eq h.wellFormed]
  have hshown := h.shown
  revert hshown
  cases a.scopes.stack with
  | nil =>
      intro hshown
      exact nomatch hshown
  | cons shown rest => exact fun _ => ⟨shown.1, rfl⟩

/-! ## Single steps -/

theorem withLabels (h : a.Agrees walk) (labels : LabelTable) : (a.withLabels labels).Agrees walk :=
  { h with }

theorem bound (h : a.Agrees walk) (label : Label) : (a.bound label).Agrees walk :=
  { h with }

theorem newLabels {clauses : List Clause} {labels : List Label} (h : a.Agrees walk)
    (reserved : newLabels clauses a = .ok (labels, b)) : b.Agrees walk := by
  obtain ⟨hscopes, hcode, hconstants, hregister⟩ := frame_newLabels reserved
  constructor
  · rw [hconstants]
    exact h.pool
  · rw [hscopes]
    exact h.wellFormed
  · rw [hcode]
    exact h.outermost
  · rw [hcode]
    exact h.nodup
  · rw [hcode, hregister]
    exact h.inUse
  · rw [hcode]
    exact h.opened
  · rw [hcode, hscopes]
    exact h.shown
  · rw [hcode, hconstants]
    exact h.realized

theorem addConstant {constant : Constant} {index : ConstantIndex} (h : a.Agrees walk)
    (encodable : constant.isEncodable) (added : addConstant constant a = .ok (index, b)) : b.Agrees walk := by
  have hsound := (advances_of_addConstant encodable added).sound h.pool
  have hextends := extends_of_addConstant added
  obtain ⟨-, -, rfl⟩ := addConstant_eq_ok_iff.mp added
  exact { h with
    pool := hsound
    realized := h.realized.imp fun _ _ hone => hone.mono hextends (List.prefix_refl _) }

theorem allocate {dst : Register} (h : a.Agrees walk) (allocated : allocate a = .ok (dst, b)) : b.Agrees walk := by
  have hnext := toNat_allocate allocated
  obtain ⟨-, -, rfl⟩ := allocate_eq_ok_iff.mp allocated
  refine { h with inUse := ?_ }
  intro register hmem
  have hle := h.inUse register hmem
  omega

/-- An instruction that makes no scope object, with the events that it realizes. -/
theorem push {instruction : Instruction Label} {events : List VariableEvent} (h : a.Agrees walk)
    (hopens : instruction.openedScope? = none)
    (hevents : List.Forall₂ (Realizes a.constants (scopeRegisters a.code.toList))
      ([instruction].filter Instruction.concernsVariables) events) :
    (a.pushed instruction).Agrees { walk with events := walk.events ++ events } := by
  have hregisters : scopeRegisters (a.pushed instruction).code.toList = scopeRegisters a.code.toList := by
    rw [pushed_code_toList, scopeRegisters_append, scopeRegisters_singleton_of_none hopens, List.append_nil]
  constructor
  · exact h.pool
  · exact h.wellFormed
  · obtain ⟨root, rest, hcode, honly⟩ := h.outermost
    refine ⟨root, rest ++ [instruction], by simp [hcode], ?_⟩
    intro dst hmem
    rcases List.mem_append.mp hmem with hold | hnew
    · exact honly dst hold
    · obtain rfl := List.mem_singleton.mp hnew
      exact nomatch hopens
  · rw [hregisters]
    exact h.nodup
  · rw [hregisters]
    exact h.inUse
  · rw [hregisters]
    exact h.opened
  · rw [hregisters]
    exact h.shown
  · rw [hregisters, pushed_code_toList, List.filter_append]
    exact List.rel_append h.realized hevents

/-- An instruction that leaves variables alone. -/
theorem pushOrdinary {instruction : Instruction Label} (h : a.Agrees walk)
    (ordinary : instruction.concernsVariables = false) : (a.pushed instruction).Agrees walk := by
  have hpushed := @push a walk instruction [] h (openedScope?_of_ordinary ordinary) (by simp [ordinary])
  simpa using hpushed

/-- An instruction that does what an event says. -/
theorem pushEvent {instruction : Instruction Label} {event : VariableEvent} (h : a.Agrees walk)
    (hopens : instruction.openedScope? = none)
    (hevent : Realizes a.constants (scopeRegisters a.code.toList) instruction event) :
    (a.pushed instruction).Agrees (walk.note event) := by
  apply h.push hopens
  rw [List.filter_cons_of_pos hevent.concernsVariables]
  exact .cons hevent .nil

/-- A definition. -/
theorem define {name : String} {src : Register} {id : Nat} {scopes : ScopeChain} (h : a.Agrees walk)
    (defined : a.scopes.define name src = some (id, scopes)) : (a.withScopes scopes).Agrees (walk.define name) := by
  have hwf := ScopeChain.wellFormed_define h.wellFormed defined
  unfold ScopeWalk.define
  by_cases hknown : walk.Knows name
  · rw [if_pos hknown]
    have hstack := ScopeChain.stack_define_of_mem h.wellFormed defined ((h.knows_iff name).mpr hknown)
    refine { h with wellFormed := hwf, shown := ?_ }
    show List.Forall₂ _ scopes.stack _
    rw [hstack]
    exact h.shown
  · rw [if_neg hknown]
    have hfree : ¬ a.scopes.Knows name := fun hknows => hknown ((h.knows_iff name).mp hknows)
    obtain ⟨top, names, rest, hstack, hdefined⟩ := ScopeChain.stack_define_of_not_mem h.wellFormed defined hfree
    have hshown := h.shown
    rw [hstack, List.forall₂_cons] at hshown
    obtain ⟨⟨hregister, hnames⟩, hrest⟩ := hshown
    refine { h with wellFormed := hwf, shown := ?_ }
    show List.Forall₂ _ scopes.stack _
    rw [hdefined]
    refine .cons ⟨hregister, ?_⟩ hrest
    show insert name names = _
    rw [Finset.coe_insert]
    exact congrArg (insert name) hnames

/-- A scope is entered. Its object has a register that no scope had before. -/
theorem enter {inner : Register} (h : a.Agrees walk) (entered : enterScope a = .ok (inner, b)) :
    b.Agrees walk.enter := by
  obtain ⟨scope, hscope⟩ := h.isSome_currentRegister?
  obtain ⟨-, hconstants, hscopes, hcode⟩ := frame_enterScope entered hscope
  obtain ⟨c, allocated, hopened⟩ := enterScope_eq_ok_iff.mp entered
  obtain ⟨hindex, hlast⟩ := toNat_allocate allocated
  have hregister : b.lastRegister = c.lastRegister := by rw [hopened]; rfl
  have hregisters : scopeRegisters b.code.toList = scopeRegisters a.code.toList ++ [inner] := by
    rw [hcode, scopeRegisters_append]
    rfl
  have hprefix : scopeRegisters a.code.toList <+: scopeRegisters b.code.toList := ⟨[inner], hregisters.symm⟩
  have hnew : (scopeRegisters b.code.toList)[walk.opened]? = some inner := by
    rw [hregisters, h.opened, List.getElem?_append_right (Nat.le_refl _)]
    simp
  constructor
  · rw [hconstants]
    exact h.pool
  · rw [hscopes]
    exact ScopeChain.wellFormed_enter h.wellFormed inner
  · obtain ⟨root, rest, hrest, honly⟩ := h.outermost
    refine ⟨root, rest ++ [.newScope inner (some scope)], by rw [hcode, hrest, List.cons_append], ?_⟩
    intro dst hmem
    rcases List.mem_append.mp hmem with hold | hlater
    · exact honly dst hold
    · exact nomatch List.mem_singleton.mp hlater
  · rw [hregisters, List.nodup_append]
    refine ⟨h.nodup, List.nodup_singleton inner, ?_⟩
    intro register hmem other hother
    obtain rfl := List.mem_singleton.mp hother
    rintro rfl
    have hle := h.inUse register hmem
    rw [hindex] at hle
    omega
  · intro register hmem
    rw [hregisters] at hmem
    rw [hregister]
    rcases List.mem_append.mp hmem with hold | hnewest
    · have hle := h.inUse register hold
      omega
    · obtain rfl := List.mem_singleton.mp hnewest
      rw [hindex]
  · rw [hregisters, List.length_append, ← h.opened]
    rfl
  · rw [hscopes, ScopeChain.stack_enter h.wellFormed]
    exact .cons ⟨hnew, Finset.coe_empty.symm⟩ (h.shown.imp fun _ _ hone => hone.mono hprefix)
  · rw [hcode, List.filter_append, hconstants, ← hcode]
    apply List.rel_append
    · exact h.realized.imp fun _ _ hone => hone.mono (.refl _) hprefix
    · exact .cons (.openInner hnew (getElem?_of_isPrefix hprefix (h.current hscope))) .nil

/-- The innermost scope is left, if there is one around it. -/
theorem leave {outer : ScopeWalk} (h : a.Agrees walk) (haround : walk.around = outer.enter.around) :
    a.closed.Agrees walk.leave := by
  have hwalk : walk.around = outer.current :: outer.around := haround
  have hshown := h.shown
  rw [hwalk] at hshown
  have hleave : walk.leave = { walk with current := outer.current, around := outer.around } := by
    simp [ScopeWalk.leave, hwalk]
  rw [hleave]
  refine { h with wellFormed := ScopeChain.wellFormed_exit h.wellFormed, shown := ?_ }
  show List.Forall₂ _ a.scopes.exit.stack _
  rw [ScopeChain.stack_exit h.wellFormed]
  cases hstack : a.scopes.stack with
  | nil =>
      rw [hstack] at hshown
      cases hshown
  | cons shown rest =>
      rw [hstack] at hshown
      exact (List.forall₂_cons.mp hshown).2

/-! ## Lowering -/

/-- The place of a name that was added to the pool. -/
theorem named {name : String} {index : ConstantIndex} (h : a.Agrees walk)
    (added : addString name a = .ok (index, b)) : b.constants.get? index.index.toNat = some (.string name) :=
  (get?_of_addConstant h.pool.size_le added).1

/-- Code without jumps follows the accesses that it was emitted for. -/
theorem grows {given : List Register} {accesses : List Access} {code : List PlainInstruction} (h : a.Agrees walk)
    (grown : Grows given a accesses code b) : b.Agrees (walk.accessAll accesses) := by
  induction grown with
  | start => exact h
  | intern _ encodable added ih => exact ih.addConstant encodable added
  | act _ ordinary _ _ _ ih => exact ih.pushOrdinary (by simpa using ordinary)
  | compute _ ordinary allocated _ _ _ ih => exact (ih.allocate allocated).pushOrdinary (by simpa using ordinary)
  | readScoped _ added bound current _ allocated ih =>
      rw [ScopeWalk.accessAll_concat, ScopeWalk.access_read_of_knows ((ih.lookup_isSome_iff _).mp bound)]
      have hcurrent := ih.current current
      have hnamed := ih.named added
      have hready := (ih.addConstant rfl added).allocate allocated
      obtain ⟨-, -, rfl⟩ := addConstant_eq_ok_iff.mp added
      obtain ⟨-, -, rfl⟩ := allocate_eq_ok_iff.mp allocated
      exact hready.pushEvent rfl (.readScoped hcurrent hnamed)
  | readGlobal _ added free allocated ih =>
      rw [ScopeWalk.accessAll_concat, ScopeWalk.access_read_of_not_knows (ih.not_knows_of_lookup free)]
      have hnamed := ih.named added
      have hready := (ih.addConstant rfl added).allocate allocated
      obtain ⟨-, -, rfl⟩ := allocate_eq_ok_iff.mp allocated
      exact hready.pushEvent rfl (.readGlobal hnamed)
  | @writeScoped _ _ _ _ _ _ _ src _ _ _ _ added current _ _ defined meant ih =>
      have hcurrent := code_of_addConstant added ▸ ih.current current
      have hnamed := ih.named added
      have hready := (ih.addConstant rfl added).define (scopes_of_addConstant added ▸ defined)
      have hpushed := hready.pushEvent rfl (@Realizes.writeScoped _ _ _ _ src _ _ _ hcurrent hnamed)
      rw [ScopeWalk.accessAll_concat]
      rcases meant with rfl | ⟨rfl, hbound⟩
      · exact hpushed
      -- An assignment is scoped where the name is known, and then defining it changes nothing.
      · have hknown := (ih.lookup_isSome_iff _).mp hbound
        rw [ScopeWalk.define_of_knows hknown] at hpushed
        rw [ScopeWalk.access_assign_of_knows hknown]
        exact hpushed
  | writeGlobal _ added free _ ih =>
      rw [ScopeWalk.accessAll_concat, ScopeWalk.access_assign_of_not_knows (ih.not_knows_of_lookup free)]
      exact (ih.addConstant rfl added).pushEvent rfl (.writeGlobal (ih.named added))

theorem tests {scope : Register} {clauses : List Clause} {labels : List Label} {tests : List Test}
    (h : a.Agrees walk) (tested : LowersTests scope a clauses labels tests b) : b.Agrees (walk.conditions clauses) := by
  induction tested generalizing walk with
  | nil => exact h
  | guarded grown _ _ ih => exact ih ((h.grows grown).pushOrdinary rfl)
  | otherwise _ ih => exact ih (h.pushOrdinary rfl)

mutual

theorem statement {loopEnd : Option Label} {scope : Register} {a b : Assembler} {walk : ScopeWalk}
    {statement : Statement} {outline : Outline} (h : a.Agrees walk)
    (lowered : LowersStatement loopEnd scope a statement outline b) : b.Agrees (walk.statement statement) := by
  cases lowered with
  | simple simple grown =>
      rw [ScopeWalk.statement_of_isSimple simple]
      exact h.grows grown
  | conditional _ _ entered reserved tested chosen =>
      unfold ScopeWalk.statement
      have htests := (((h.enter entered).withLabels _).newLabels reserved).tests tested
      have hbodies := bodies (htests.pushOrdinary rfl) chosen
      apply (hbodies.bound _).leave
      rw [ScopeWalk.around_bodies, ScopeWalk.around_conditions]
  | whileLoop _ entered entryGrown _ repeated againGrown _ =>
      unfold ScopeWalk.statement
      have hentry := ((h.enter entered).withLabels _).grows entryGrown
      have hbody := block (((hentry.pushOrdinary rfl).withLabels _).bound _) repeated
      have hagain := hbody.grows againGrown
      apply ((hagain.pushOrdinary rfl).bound _).leave
      rw [ScopeWalk.around_accessAll, ScopeWalk.around_block, ScopeWalk.around_accessAll]
  | breakLoop =>
      unfold ScopeWalk.statement
      exact h.pushOrdinary rfl

theorem block {loopEnd : Option Label} {scope : Register} {a b : Assembler} {walk : ScopeWalk}
    {statements : List Statement} {outlines : List Outline} (h : a.Agrees walk)
    (lowered : LowersBlock loopEnd scope a statements outlines b) : b.Agrees (walk.block statements) := by
  cases lowered with
  | nil =>
      unfold ScopeWalk.block
      exact h
  | cons first rest =>
      unfold ScopeWalk.block
      exact block (statement h first) rest

theorem bodies {loopEnd : Option Label} {scope : Register} {conditionalEnd : Label} {a b : Assembler}
    {walk : ScopeWalk} {clauses : List Clause} {labels : List Label} {outlines : List (List Outline)}
    (h : a.Agrees walk) (lowered : LowersBodies loopEnd scope conditionalEnd a clauses labels outlines b) :
    b.Agrees (walk.bodies clauses) := by
  cases lowered with
  | nil =>
      unfold ScopeWalk.bodies
      exact h
  | guarded first rest =>
      unfold ScopeWalk.bodies
      exact bodies ((block (h.bound _) first).pushOrdinary rfl) rest
  | otherwise first rest =>
      unfold ScopeWalk.bodies
      exact bodies (block (h.bound _) first) rest

end

end Assembler.Agrees

/-- A script begins with its scope. -/
theorem agrees_start {scope : Register} {a : Assembler} (entered : enterScope .empty = .ok (scope, a)) :
    a.Agrees .start := by
  obtain ⟨c, allocated, hopened⟩ := enterScope_eq_ok_iff.mp entered
  obtain ⟨hindex, -⟩ := toNat_allocate allocated
  obtain ⟨-, hconstants, hscopes, hcode⟩ := frame_enterScope entered rfl
  have hcode' : a.code.toList = [.newScope scope none] := hcode
  have hregisters : scopeRegisters a.code.toList = [scope] := by rw [hcode']; rfl
  have hwf := ScopeChain.wellFormed_enter ScopeChain.wellFormed_empty scope
  constructor
  · rw [hconstants]
    exact ConstantPool.sound_empty
  · rw [hscopes]
    exact hwf
  · exact ⟨scope, [], hcode', fun _ => List.not_mem_nil⟩
  · rw [hregisters]
    exact List.nodup_singleton scope
  · intro register hmem
    rw [hregisters] at hmem
    obtain rfl := List.mem_singleton.mp hmem
    rw [hindex, hopened]
    exact Nat.le_refl _
  · rw [hregisters]
    rfl
  · have hstack := ScopeChain.stack_enter ScopeChain.wellFormed_empty scope
    rw [hregisters, hscopes]
    show List.Forall₂ _ (ScopeChain.empty.enter scope).2.stack _
    rw [hstack]
    exact .cons ⟨rfl, Finset.coe_empty.symm⟩ .nil
  · rw [hcode']
    exact .cons (.openOutermost rfl) .nil

/-! ## The code of a program -/

section Plain

variable {τ : Type}

/-- Jumps do not deal with variables. -/
theorem filter_concernsVariables (code : List (Instruction τ)) :
    code.filter Instruction.concernsVariables =
      ((code.filterMap Instruction.plain?).filter Instruction.concernsVariables).map Instruction.ofPlain := by
  induction code with
  | nil => rfl
  | cons instruction code ih =>
      cases hplain : instruction.plain? with
      | some plain =>
          obtain rfl := Instruction.eq_ofPlain_of_plain? hplain
          by_cases hconcerns : plain.concernsVariables = true
          · simp [hconcerns, ih]
          · simp [hconcerns, ih]
      | none =>
          have hordinary : instruction.concernsVariables = false := by
            cases instruction <;> first | rfl | exact nomatch hplain
          simp [hplain, hordinary, ih]

/-- Jumps make no scope objects. -/
theorem scopeRegisters_plain (code : List (Instruction τ)) :
    scopeRegisters code = scopeRegisters (code.filterMap Instruction.plain?) := by
  unfold scopeRegisters
  rw [List.filterMap_filterMap]
  congr 1
  funext instruction
  cases instruction <;> rfl

/-- What an instruction does with variables does not depend on what its jumps go to. -/
theorem Realizes.of_plain?_eq {σ : Type} {pool : ConstantPool} {scopes : List Register} {instruction : Instruction τ}
    {other : Instruction σ} {event : VariableEvent} (hplain : other.plain? = instruction.plain?)
    (h : Realizes pool scopes instruction event) : Realizes pool scopes other event := by
  cases h with
  | openOutermost register =>
      obtain rfl := Instruction.eq_ofPlain_of_plain? hplain
      exact .openOutermost register
  | openInner register parentRegister =>
      obtain rfl := Instruction.eq_ofPlain_of_plain? hplain
      exact .openInner register parentRegister
  | readScoped innermost named =>
      obtain rfl := Instruction.eq_ofPlain_of_plain? hplain
      exact .readScoped innermost named
  | readGlobal named =>
      obtain rfl := Instruction.eq_ofPlain_of_plain? hplain
      exact .readGlobal named
  | writeScoped innermost named =>
      obtain rfl := Instruction.eq_ofPlain_of_plain? hplain
      exact .writeScoped innermost named
  | writeGlobal named =>
      obtain rfl := Instruction.eq_ofPlain_of_plain? hplain
      exact .writeGlobal named

theorem ofPlain_mem_of_plain_eq {σ : Type} {code : List (Instruction τ)} {other : List (Instruction σ)}
    {plain : PlainInstruction} (h : code.filterMap Instruction.plain? = other.filterMap Instruction.plain?)
    (hmem : .ofPlain plain ∈ code) : .ofPlain plain ∈ other := by
  have hplain : plain ∈ other.filterMap Instruction.plain? := by
    rw [← h, List.mem_filterMap]
    exact ⟨_, hmem, Instruction.plain?_ofPlain plain⟩
  obtain ⟨instruction, hinstruction, hsame⟩ := List.mem_filterMap.mp hplain
  rw [← Instruction.eq_ofPlain_of_plain? hsame]
  exact hinstruction

end Plain

/-- The instructions of a program that deal with variables are, one by one, what the walk over the tree of the script
says. Its scope objects have registers of their own, and only the first instruction makes one without a parent. -/
theorem realizes_variableEvents {chunk : Chunk} {program : Program} (h : chunk.compile = .ok program) :
    List.Forall₂ (Realizes program.constants (scopeRegisters program.instructions.toList))
      (program.instructions.toList.filter Instruction.concernsVariables) chunk.variableEvents ∧
      (scopeRegisters program.instructions.toList).Nodup ∧
        (∃ root, program.instructions[0]? = some (.newScope root none)) ∧
          ∀ pc dst, program.instructions[pc]? = some (.newScope dst none) → pc = 0 := by
  obtain ⟨outline, b, -, ⟨scope, a, c, entered, -, lowered, rfl⟩, hcode, hconstants⟩ := lowersChunk_of_compile h
  have hagrees := (agrees_start entered).block lowered
  have hplain := plain_of_resolveCode hcode
  have hregisters : scopeRegisters program.instructions.toList = scopeRegisters c.code.toList := by
    rw [scopeRegisters_plain, hplain]
    exact (scopeRegisters_plain c.code.toList).symm
  have hrealized := hagrees.realized
  rw [filter_concernsVariables, List.forall₂_map_left_iff] at hrealized
  obtain ⟨root, rest, hfirst, honly⟩ := hagrees.outermost
  have hlines := mapTargetM_of_resolveCode hcode
  rw [closed_code, hfirst, List.forall₂_cons_left_iff] at hlines
  obtain ⟨line, lines, hline, hrest, hprogram⟩ := hlines
  obtain rfl := Except.ok.inj hline
  refine ⟨?_, ?_, ?_, ?_⟩
  · rw [hregisters, hconstants, filter_concernsVariables, hplain, List.forall₂_map_left_iff]
    refine hrealized.imp fun instruction event hevent => hevent.of_plain?_eq ?_
    rw [Instruction.plain?_ofPlain, Instruction.plain?_ofPlain]
  · rw [hregisters]
    exact hagrees.nodup
  · refine ⟨root, ?_⟩
    rw [← Array.getElem?_toList, hprogram]
    rfl
  · intro pc dst hpc
    rw [← Array.getElem?_toList, hprogram] at hpc
    cases pc with
    | zero => rfl
    | succ pc =>
        rw [List.getElem?_cons_succ] at hpc
        rw [hprogram, closed_code, hfirst] at hplain
        have htail : lines.filterMap Instruction.plain? = rest.filterMap Instruction.plain? := List.tail_eq_of_cons_eq hplain
        have hmem := @ofPlain_mem_of_plain_eq _ _ _ _ (.newScope dst none) htail (List.mem_of_getElem? hpc)
        exact absurd hmem (honly dst)

/-- `local x = y; while x do local z = x; x = z; w = z end; z = x`. The name `z` is known inside the loop only, and `w`
nowhere. -/
def declaringLoop : Chunk :=
  ⟨[.declare [⟨"x", none⟩] [.identifier ⟨"y", none⟩] none,
    .whileLoop (.identifier ⟨"x", none⟩)
      [.declare [⟨"z", none⟩] [.identifier ⟨"x", none⟩] none,
        .assign [.identifier ⟨"x", none⟩, .identifier ⟨"w", none⟩]
          [.identifier ⟨"z", none⟩, .identifier ⟨"z", none⟩] none] none,
    .assign [.identifier ⟨"z", none⟩] [.identifier ⟨"x", none⟩] none]⟩

/-- The accesses of a script with a loop. The loop reads its condition in its own scope, at both places. -/
theorem realizes_variableEvents_declaringLoop :
    ∃ program, declaringLoop.compile = .ok program ∧
      List.Forall₂ (Realizes program.constants (scopeRegisters program.instructions.toList))
        (program.instructions.toList.filter Instruction.concernsVariables)
        [.openScope 0 none, .readGlobal "y", .writeScoped 0 "x", .openScope 1 (some 0), .readScoped 1 "x",
          .readScoped 1 "x", .writeScoped 1 "z", .readScoped 1 "z", .writeScoped 1 "x", .readScoped 1 "z",
          .writeGlobal "w", .readScoped 1 "x", .readScoped 0 "x", .writeGlobal "z"] := by
  obtain ⟨program, hcompile⟩ := @exists_program_of_isSome declaringLoop (by decide +kernel)
  exact ⟨program, hcompile, (realizes_variableEvents hcompile).1⟩

end ScriptBytecode
