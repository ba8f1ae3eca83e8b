import ScriptBytecode.Proofs.ExpressionCode
import ScriptBytecode.Proofs.Outline

/-!
# The code of statements

`LowersStatement`, `LowersBlock` and `LowersBodies` list the ways in which statements are lowered, one rule for each
form, with the assemblers in between. The simple statements only make the code grow, without jumps; the others enter a
scope, put jumps around the code of their parts and bind labels. `meets_outlineStatement` says that these are all the
ways, and that lowering in an open scope fails with no error but those that blame the script or its size. What holds of
every lowered script is proved by induction on these rules.
-/

namespace ScriptBytecode

open Assembler Assembling

/-! ## Accesses of simple statements -/

/-- What a declaration does with variables: each value is computed before its name is declared. -/
def accessesOfDeclaration : List Identifier → List Expression → List Access
  | identifier :: identifiers, value :: values =>
      value.accesses ++ [.declare identifier.name] ++ accessesOfDeclaration identifiers values
  | _, _ => []

/-- What the assignment of a value to a target does with variables, apart from computing the value. -/
def AssignmentTarget.accesses : AssignmentTarget → List Access
  | .name assigned => [.assign assigned]
  | .member _ _ base _ => base.accesses

/-- What an assignment does with variables. A target without a value beside it is passed over. -/
def accessesOfAssignment : List Expression → List Expression → List Access
  | target :: targets, value :: values =>
      value.accesses ++
        (match AssignmentTarget.ofExpression none target with
          | .ok target => target.accesses
          | .error _ => []) ++
        accessesOfAssignment targets values
  | _, _ => []

namespace Statement

/-- Whether a statement has no statements inside and stays in its scope. -/
def isSimple : Statement → Bool
  | .declare .. | .assign .. | .call .. => true
  | .conditional .. | .whileLoop .. | .breakLoop .. | .unsupported .. => false

/-- What a simple statement does with variables. -/
def accesses : Statement → List Access
  | .declare names values _ => accessesOfDeclaration names values
  | .assign targets values _ => accessesOfAssignment targets values
  | .call expression _ => expression.accesses
  | .conditional .. | .whileLoop .. | .breakLoop .. | .unsupported .. => []

end Statement

/-! ## The rules -/

/-- The tests of a conditional are lowered, each followed by a jump to the body of its clause. -/
inductive LowersTests (scope : Register) :
    Assembler → List Clause → List Label → List Test → Assembler → Prop
  | nil {a : Assembler} : LowersTests scope a [] [] [] a
  | guarded {a b c : Assembler} {opening : ClauseOpening} {condition : Expression} {body : List Statement}
      {location : Option Location} {clauses : List Clause} {label : Label} {labels : List Label} {test : Test}
      {tests : List Test} (grown : Grows [scope] a condition.accesses test.code b)
      (computed : test.condition ∈ written test.code)
      (rest : LowersTests scope (b.pushed (.jumpIf test.condition label)) clauses labels tests c) :
      LowersTests scope a (.guarded opening condition body location :: clauses) (label :: labels) (test :: tests) c
  | otherwise {a b : Assembler} {body : List Statement} {location : Option Location} {clauses : List Clause}
      {label : Label} {labels : List Label} {tests : List Test}
      (rest : LowersTests scope (a.pushed (.jump label)) clauses labels tests b) :
      LowersTests scope a (.otherwise body location :: clauses) (label :: labels) tests b

mutual

/-- A statement is lowered in a scope, inside a loop that ends at a given label or outside of loops. -/
inductive LowersStatement : Option Label → Register → Assembler → Statement → Outline → Assembler → Prop
  | simple {loopEnd : Option Label} {scope : Register} {a b : Assembler} {statement : Statement}
      {code : List PlainInstruction} (simple : statement.isSimple = true)
      (grown : Grows [scope] a statement.accesses code b) :
      LowersStatement loopEnd scope a statement (.simple statement.kind code) b
  | conditional {loopEnd : Option Label} {scope inner : Register} {a b c d e : Assembler}
      {clauses : List Clause} {location : Option Location} {labels : List Label} {tests : List Test}
      {bodies : List (List Outline)} (lastOnly : clauses.dropLast.any Clause.isOtherwise = false)
      (parent : a.scopes.currentRegister? = some scope) (entered : enterScope a = .ok (inner, b))
      (reserved : newLabels clauses (b.withLabels b.labels.create.2) = .ok (labels, c))
      (tested : LowersTests inner c clauses labels tests d)
      (chosen : LowersBodies loopEnd inner b.labels.create.1 (d.pushed (.jump b.labels.create.1)) clauses labels
        bodies e) :
      LowersStatement loopEnd scope a (.conditional clauses location)
        (.conditional [.newScope inner (some scope)] (.ofParts clauses tests bodies))
        (e.bound b.labels.create.1).closed
  | whileLoop {loopEnd : Option Label} {scope inner : Register} {a b c d e : Assembler} {condition : Expression}
      {statements : List Statement} {location : Option Location} {entry again : Test} {body : List Outline}
      (parent : a.scopes.currentRegister? = some scope) (entered : enterScope a = .ok (inner, b))
      (entryGrown : Grows [inner] (b.withLabels b.labels.create.2) condition.accesses entry.code c)
      (entryComputed : entry.condition ∈ written entry.code)
      (repeated : LowersBlock (some b.labels.create.1) inner
        (((c.pushed (.jumpIfNot entry.condition b.labels.create.1)).withLabels c.labels.create.2).bound
          c.labels.create.1)
        statements body d)
      (againGrown : Grows [inner] d condition.accesses again.code e)
      (againComputed : again.condition ∈ written again.code) :
      LowersStatement loopEnd scope a (.whileLoop condition statements location)
        (.whileLoop [.newScope inner (some scope)] entry body again)
        ((e.pushed (.jumpIf again.condition c.labels.create.1)).bound b.labels.create.1).closed
  | breakLoop {exit : Label} {scope : Register} {a : Assembler} {location : Option Location} :
      LowersStatement (some exit) scope a (.breakLoop location) .breakLoop (a.pushed (.jump exit))

/-- Statements are lowered in order. -/
inductive LowersBlock :
    Option Label → Register → Assembler → List Statement → List Outline → Assembler → Prop
  | nil {loopEnd : Option Label} {scope : Register} {a : Assembler} : LowersBlock loopEnd scope a [] [] a
  | cons {loopEnd : Option Label} {scope : Register} {a b c : Assembler} {statement : Statement}
      {statements : List Statement} {outline : Outline} {outlines : List Outline}
      (first : LowersStatement loopEnd scope a statement outline b)
      (rest : LowersBlock loopEnd scope b statements outlines c) :
      LowersBlock loopEnd scope a (statement :: statements) (outline :: outlines) c

/-- The bodies of a conditional are lowered in order, each behind its label. -/
inductive LowersBodies :
    Option Label → Register → Label → Assembler → List Clause → List Label → List (List Outline) → Assembler → Prop
  | nil {loopEnd : Option Label} {scope : Register} {conditionalEnd : Label} {a : Assembler} :
      LowersBodies loopEnd scope conditionalEnd a [] [] [] a
  | guarded {loopEnd : Option Label} {scope : Register} {conditionalEnd label : Label} {a b c : Assembler}
      {opening : ClauseOpening} {condition : Expression} {statements : List Statement} {location : Option Location}
      {clauses : List Clause} {labels : List Label} {body : List Outline} {bodies : List (List Outline)}
      (first : LowersBlock loopEnd scope (a.bound label) statements body b)
      (rest : LowersBodies loopEnd scope conditionalEnd (b.pushed (.jump conditionalEnd)) clauses labels bodies c) :
      LowersBodies loopEnd scope conditionalEnd a (.guarded opening condition statements location :: clauses)
        (label :: labels) (body :: bodies) c
  | otherwise {loopEnd : Option Label} {scope : Register} {conditionalEnd label : Label} {a b c : Assembler}
      {statements : List Statement} {location : Option Location} {clauses : List Clause} {labels : List Label}
      {body : List Outline} {bodies : List (List Outline)}
      (first : LowersBlock loopEnd scope (a.bound label) statements body b)
      (rest : LowersBodies loopEnd scope conditionalEnd b clauses labels bodies c) :
      LowersBodies loopEnd scope conditionalEnd a (.otherwise statements location :: clauses) (label :: labels)
        (body :: bodies) c

end

/-- A script is lowered inside its outermost scope, which is inside no other. -/
def LowersChunk (chunk : Chunk) (outline : ScriptOutline) (b : Assembler) : Prop :=
  ∃ scope a c, enterScope .empty = .ok (scope, a) ∧ outline.opening = [.newScope scope none] ∧
    LowersBlock none scope a chunk.body outline.body c ∧ b = c.closed

/-! ## The scopes around a statement -/

theorem LowersTests.scopes_frame {scope : Register} {a b : Assembler} {clauses : List Clause} {labels : List Label}
    {tests : List Test} (h : LowersTests scope a clauses labels tests b) (hwf : a.scopes.WellFormed) :
    b.scopes.WellFormed ∧ a.scopes.Refills b.scopes := by
  induction h with
  | nil => exact ⟨hwf, .of_stack_eq rfl⟩
  | guarded grown _ _ ih =>
      obtain ⟨hwf', hrefills, -⟩ := grown.scopes_frame hwf
      obtain ⟨hwf'', hrefills'⟩ := ih hwf'
      exact ⟨hwf'', hrefills.trans hrefills'⟩
  | otherwise _ ih => exact ih hwf

/-- Behind the end of an inner scope the scopes show what they showed before its beginning. -/
theorem stack_closed {a b c : Assembler} {inner : Register} (entered : enterScope a = .ok (inner, b))
    (hwf : a.scopes.WellFormed) (hwf' : c.scopes.WellFormed) (hrefills : b.scopes.Refills c.scopes) :
    c.closed.scopes.WellFormed ∧ c.closed.scopes.stack = a.scopes.stack := by
  obtain ⟨d, allocated, rfl⟩ := enterScope_eq_ok_iff.mp entered
  obtain ⟨-, -, rfl⟩ := allocate_eq_ok_iff.mp allocated
  exact ⟨ScopeChain.wellFormed_exit hwf', hrefills.stack_exit_eq hwf hwf'⟩

theorem frame_newLabels {a b : Assembler} {clauses : List Clause} {labels : List Label}
    (h : newLabels clauses a = .ok (labels, b)) :
    b.scopes = a.scopes ∧ b.code = a.code ∧ b.constants = a.constants ∧ b.lastRegister = a.lastRegister := by
  induction clauses generalizing a labels with
  | nil =>
      obtain ⟨-, rfl⟩ := Prod.mk.inj (Except.ok.inj h)
      exact ⟨rfl, rfl, rfl, rfl⟩
  | cons clause clauses ih =>
      unfold newLabels at h
      rw [bind_of_ok (newLabel_apply a)] at h
      obtain ⟨rest, c, hrest, hpure⟩ := bind_eq_ok_iff.mp h
      obtain ⟨-, rfl⟩ := Prod.mk.inj (pure_eq_ok_iff.mp hpure)
      have hframe := ih hrest
      exact hframe

mutual

/-- A statement leaves the scopes around it open, and at most the innermost one gets new names, those that the statement
itself declares. -/
theorem scopes_frame_statement {loopEnd : Option Label} {scope : Register} {a b : Assembler} {statement : Statement}
    {outline : Outline} (h : LowersStatement loopEnd scope a statement outline b) (hwf : a.scopes.WellFormed) :
    b.scopes.WellFormed ∧ a.scopes.Refills b.scopes ∧
      ∀ name, b.scopes.Knows name ↔ a.scopes.Knows name ∨ Access.declare name ∈ statement.accesses := by
  have hsame : ∀ {c : Assembler}, c.scopes.stack = a.scopes.stack →
      a.scopes.Refills c.scopes ∧ ∀ name, c.scopes.Knows name ↔ a.scopes.Knows name ∨ Access.declare name ∈ [] :=
    fun hstack => ⟨.of_stack_eq hstack, fun name => by simp [ScopeChain.Knows, hstack]⟩
  cases h with
  | simple _ grown => exact grown.scopes_frame hwf
  | conditional _ _ entered reserved tested chosen =>
      have hin := inScope_of_enterScope entered hwf
      obtain ⟨hscopes, -, -, -⟩ := frame_newLabels reserved
      obtain ⟨hwfTests, htests⟩ := tested.scopes_frame (hscopes ▸ hin.wellFormed)
      obtain ⟨hwfBodies, hbodies⟩ := scopes_frame_bodies chosen hwfTests
      obtain ⟨hwf', hstack⟩ := stack_closed entered hwf hwfBodies ((hscopes ▸ htests).trans hbodies)
      exact ⟨hwf', hsame hstack⟩
  | whileLoop _ entered entryGrown _ repeated againGrown _ =>
      have hin := inScope_of_enterScope entered hwf
      obtain ⟨hwfEntry, hentry, -⟩ := entryGrown.scopes_frame hin.wellFormed
      obtain ⟨hwfBody, hbody⟩ := scopes_frame_block repeated hwfEntry
      obtain ⟨hwfAgain, hagain, -⟩ := againGrown.scopes_frame hwfBody
      obtain ⟨hwf', hstack⟩ := stack_closed entered hwf hwfAgain ((hentry.trans hbody).trans hagain)
      exact ⟨hwf', hsame hstack⟩
  | breakLoop => exact ⟨hwf, hsame rfl⟩

theorem scopes_frame_block {loopEnd : Option Label} {scope : Register} {a b : Assembler}
    {statements : List Statement} {outlines : List Outline}
    (h : LowersBlock loopEnd scope a statements outlines b) (hwf : a.scopes.WellFormed) :
    b.scopes.WellFormed ∧ a.scopes.Refills b.scopes := by
  cases h with
  | nil => exact ⟨hwf, .of_stack_eq rfl⟩
  | cons first rest =>
      obtain ⟨hwfFirst, hfirst, -⟩ := scopes_frame_statement first hwf
      obtain ⟨hwfRest, hrest⟩ := scopes_frame_block rest hwfFirst
      exact ⟨hwfRest, hfirst.trans hrest⟩

theorem scopes_frame_bodies {loopEnd : Option Label} {scope : Register} {conditionalEnd : Label} {a b : Assembler}
    {clauses : List Clause} {labels : List Label} {bodies : List (List Outline)}
    (h : LowersBodies loopEnd scope conditionalEnd a clauses labels bodies b) (hwf : a.scopes.WellFormed) :
    b.scopes.WellFormed ∧ a.scopes.Refills b.scopes := by
  cases h with
  | nil => exact ⟨hwf, .of_stack_eq rfl⟩
  | guarded first rest =>
      obtain ⟨hwfFirst, hfirst⟩ := scopes_frame_block first hwf
      obtain ⟨hwfRest, hrest⟩ := scopes_frame_bodies rest hwfFirst
      exact ⟨hwfRest, hfirst.trans hrest⟩
  | otherwise first rest =>
      obtain ⟨hwfFirst, hfirst⟩ := scopes_frame_block first hwf
      obtain ⟨hwfRest, hrest⟩ := scopes_frame_bodies rest hwfFirst
      exact ⟨hwfRest, hfirst.trans hrest⟩

end

/-! ## What statements add -/

theorem advances_of_enterScope {a b : Assembler} {inner : Register} (h : enterScope a = .ok (inner, b)) :
    a.Advances b := by
  obtain ⟨c, allocated, rfl⟩ := enterScope_eq_ok_iff.mp h
  have hadvances := advances_of_allocate allocated
  exact hadvances

theorem advances_of_newLabels {a b : Assembler} {clauses : List Clause} {labels : List Label}
    (h : newLabels clauses a = .ok (labels, b)) : a.Advances b := by
  obtain ⟨-, -, hconstants, hregister⟩ := frame_newLabels h
  unfold Assembler.Advances
  rw [hconstants, hregister]
  exact Advances.refl a

theorem LowersTests.advances {scope : Register} {a b : Assembler} {clauses : List Clause} {labels : List Label}
    {tests : List Test} (h : LowersTests scope a clauses labels tests b) : a.Advances b := by
  induction h with
  | nil => exact .refl _
  | guarded grown _ _ ih => exact grown.advances.trans ih
  | otherwise _ ih => exact ih

mutual

theorem advances_statement {loopEnd : Option Label} {scope : Register} {a b : Assembler} {statement : Statement}
    {outline : Outline} (h : LowersStatement loopEnd scope a statement outline b) : a.Advances b := by
  cases h with
  | simple _ grown => exact grown.advances
  | conditional _ _ entered reserved tested chosen =>
      have hreserved := advances_of_newLabels reserved
      have hchosen := advances_bodies chosen
      exact (advances_of_enterScope entered).trans (hreserved.trans (tested.advances.trans hchosen))
  | whileLoop _ entered entryGrown _ repeated againGrown _ =>
      have hentry := entryGrown.advances
      have hbody := advances_block repeated
      have hagain := againGrown.advances
      exact (advances_of_enterScope entered).trans (hentry.trans (hbody.trans hagain))
  | breakLoop =>
      have hsame := Advances.refl a
      exact hsame

theorem advances_block {loopEnd : Option Label} {scope : Register} {a b : Assembler} {statements : List Statement}
    {outlines : List Outline} (h : LowersBlock loopEnd scope a statements outlines b) : a.Advances b := by
  cases h with
  | nil => exact .refl _
  | cons first rest => exact (advances_statement first).trans (advances_block rest)

theorem advances_bodies {loopEnd : Option Label} {scope : Register} {conditionalEnd : Label} {a b : Assembler}
    {clauses : List Clause} {labels : List Label} {bodies : List (List Outline)}
    (h : LowersBodies loopEnd scope conditionalEnd a clauses labels bodies b) : a.Advances b := by
  cases h with
  | nil => exact .refl _
  | guarded first rest =>
      have hfirst := advances_block first
      have hrest := advances_bodies rest
      exact hfirst.trans hrest
  | otherwise first rest =>
      have hfirst := advances_block first
      have hrest := advances_bodies rest
      exact hfirst.trans hrest

end

/-! ## Lowering follows the rules -/

theorem meets_record {α : Type} {step : Assembling α} {a : Assembler} {post : Recorded α → Assembler → Prop}
    (h : Meets step a fun value b => post ⟨value, newCode a b⟩ b) : Meets (record step) a post := by
  unfold Meets at h ⊢
  cases hstep : step a with
  | error error =>
      rw [hstep] at h
      rw [record_of_error hstep]
      exact h
  | ok outcome =>
      rw [hstep] at h
      rw [record_of_ok hstep]
      exact h

/-- What is noted are the instructions that were put behind the code. -/
theorem newCode_eq {a b : Assembler} {code : List PlainInstruction}
    (h : b.code.toList = a.code.toList ++ code.map (@Instruction.ofPlain Label)) : newCode a b = code := by
  unfold newCode
  rw [h, ← Array.length_toList, List.drop_left]
  exact Instruction.filterMap_plain?_map_ofPlain code

section Simple

variable {scope : Register} {a b : Assembler} {accesses : List Access} {code : List PlainInstruction}

theorem meets_outlineTest (hscope : a.InScope scope) (condition : Expression) :
    Meets (outlineTest condition) a fun test b =>
      Grows [scope] a condition.accesses test.code b ∧ test.condition ∈ written test.code := by
  have hgiven : scope ∈ [scope] := List.mem_cons_self
  refine meets_bind (meets_record ?_)
  refine (meets_lowerExpression hscope hgiven condition .start).mono ?_
  rintro register b ⟨code, -, -, grown, hcomputed⟩
  refine meets_pure ?_
  show Grows [scope] a condition.accesses (newCode a b) b ∧ register ∈ written (newCode a b)
  rw [newCode_eq grown.code_eq]
  exact ⟨grown, hcomputed register List.mem_cons_self⟩

theorem meets_lowerDeclaration (hscope : a.InScope scope) (grown : Grows [scope] a accesses code b) (name : String)
    (value : Expression) :
    Meets (lowerDeclaration name value) b fun _ c =>
      ∃ longer, Grows [scope] a (accesses ++ (value.accesses ++ [.declare name])) longer c := by
  have hgiven : scope ∈ [scope] := List.mem_cons_self
  refine (meets_lowerExpression hscope hgiven value grown).bind ?_
  rintro src c ⟨code₁, -, -, grown₁, hsrc⟩
  refine meets_bind (meets_addConstant fun index d added => ?_)
  have hin := grown₁.inScope hscope
  have hscopes := scopes_of_addConstant added
  have hinAdded := hin.of_scopes_eq hscopes
  refine meets_bind (meets_scopeRegister hinAdded ?_)
  refine meets_bind (meets_defineVariable hinAdded fun id scopes defined => ?_)
  refine meets_emit ⟨code₁ ++ [.scopeSet scope index src], ?_⟩
  rw [← List.append_assoc]
  exact .writeScoped grown₁ added hin.current hgiven (hsrc src List.mem_cons_self) (hscopes ▸ defined) (Or.inl rfl)

theorem meets_lowerDeclarations (hscope : a.InScope scope) :
    ∀ (names : List Identifier) (values : List Expression) {accesses : List Access} {code : List PlainInstruction}
      {b : Assembler}, Grows [scope] a accesses code b →
        Meets (lowerDeclarations names values) b fun _ c =>
          ∃ longer, Grows [scope] a (accesses ++ accessesOfDeclaration names values) longer c
  | [], _, accesses, code, b, grown => by
      unfold lowerDeclarations accessesOfDeclaration
      rw [List.append_nil]
      exact meets_pure ⟨code, grown⟩
  | _ :: _, [], accesses, code, b, grown => by
      unfold lowerDeclarations accessesOfDeclaration
      rw [List.append_nil]
      exact meets_pure ⟨code, grown⟩
  | identifier :: names, value :: values, accesses, code, b, grown => by
      unfold lowerDeclarations accessesOfDeclaration
      refine (meets_lowerDeclaration hscope grown identifier.name value).bind ?_
      rintro ⟨⟩ c ⟨longer, grown₁⟩
      rw [← List.append_assoc]
      exact meets_lowerDeclarations hscope names values grown₁

theorem meets_lowerAssignment (hscope : a.InScope scope) (grown : Grows [scope] a accesses code b)
    (target : AssignmentTarget) (value : Expression) :
    Meets (lowerAssignment target value) b fun _ c =>
      ∃ longer, Grows [scope] a (accesses ++ (value.accesses ++ target.accesses)) longer c := by
  have hgiven : scope ∈ [scope] := List.mem_cons_self
  refine (meets_lowerExpression hscope hgiven value grown).bind ?_
  rintro src c ⟨code₁, -, -, grown₁, hsrc⟩
  have hsrcWritten := hsrc src List.mem_cons_self
  rw [← List.append_assoc]
  cases target with
  | name assigned =>
      refine meets_bind (meets_addConstant fun index d added => ?_)
      have hin := grown₁.inScope hscope
      have hscopes := scopes_of_addConstant added
      have hinAdded := hin.of_scopes_eq hscopes
      -- Whether the name is scoped is decided behind the value, in the scopes that the value leaves.
      refine meets_bind (meets_resolveVariable ?_)
      rw [hscopes]
      cases hlookup : c.scopes.lookup assigned with
      | some found =>
          refine meets_bind (meets_scopeRegister hinAdded ?_)
          refine meets_bind (meets_defineVariable hinAdded fun id scopes defined => ?_)
          refine meets_emit ⟨code₁ ++ [.scopeSet scope index src], ?_⟩
          exact .writeScoped grown₁ added hin.current hgiven hsrcWritten (hscopes ▸ defined)
            (Or.inr ⟨rfl, by simp [hlookup]⟩)
      | none =>
          refine meets_emit ⟨code₁ ++ [.setVar src index], ?_⟩
          exact .writeGlobal grown₁ added hlookup hsrcWritten
  | member indexer identifier base location =>
      by_cases hcolon : indexer = .colon
      · simp only [hcolon, if_true]
        exact meets_fail id
      · simp only [hcolon, if_false]
        refine (meets_lowerExpression hscope hgiven base grown₁).bind ?_
        rintro table d ⟨code₂, hcode₂, -, grown₂, htable⟩
        refine meets_bind (meets_addConstant fun key e added => ?_)
        have hlt := lt_size_of_addConstant added
        have hsrc₂ := mem_written_of_shorter hcode₂ hsrcWritten
        have htable₂ := htable table List.mem_cons_self
        refine meets_emit ⟨code₂ ++ [.setField table key src], ?_⟩
        exact grows_setField (grown₂.intern rfl added) (.setField table key src) rfl rfl
          (by simp [Instruction.sources, htable₂, hsrc₂])
          (by simpa [Instruction.constants, Instruction.operands] using hlt)

theorem not_isInternal_of_ofExpressions {location : Option Location} {targets : List Expression}
    {error : CompileError} (h : AssignmentTarget.ofExpressions location targets = .error error) :
    ¬ error.IsInternal := by
  induction targets with
  | nil => exact nomatch h
  | cons target targets ih =>
      unfold AssignmentTarget.ofExpressions at h
      cases hfirst : AssignmentTarget.ofExpression location target with
      | ok first =>
          cases hrest : AssignmentTarget.ofExpressions location targets with
          | ok rest => simp [hfirst, hrest] at h
          | error other =>
              obtain rfl : other = error := by simpa [hfirst, hrest] using h
              exact ih hrest
      | error other =>
          obtain rfl : other = error := by simpa [hfirst] using h
          unfold AssignmentTarget.ofExpression at hfirst
          split at hfirst
          · exact nomatch hfirst
          · exact nomatch hfirst
          · obtain rfl := Except.error.inj hfirst
            exact id
          · obtain rfl := Except.error.inj hfirst
            exact id

/-- What a target stands for does not depend on the place of the assignment. -/
theorem ofExpression_none {location : Option Location} {target : Expression} {meant : AssignmentTarget}
    (h : AssignmentTarget.ofExpression location target = .ok meant) :
    AssignmentTarget.ofExpression none target = .ok meant := by
  unfold AssignmentTarget.ofExpression at h ⊢
  split at h <;> first | exact h | exact nomatch h

theorem meets_lowerAssignments (hscope : a.InScope scope) {location : Option Location} :
    ∀ (targets values : List Expression) {meant : List AssignmentTarget},
      AssignmentTarget.ofExpressions location targets = .ok meant →
        ∀ {accesses : List Access} {code : List PlainInstruction} {b : Assembler}, Grows [scope] a accesses code b →
          Meets (lowerAssignments meant values) b fun _ c =>
            ∃ longer, Grows [scope] a (accesses ++ accessesOfAssignment targets values) longer c
  | [], _, meant, hmeant, accesses, code, b, grown => by
      obtain rfl := Except.ok.inj hmeant
      unfold lowerAssignments accessesOfAssignment
      rw [List.append_nil]
      exact meets_pure ⟨code, grown⟩
  | target :: targets, values, meant, hmeant, accesses, code, b, grown => by
      unfold AssignmentTarget.ofExpressions at hmeant
      cases hfirst : AssignmentTarget.ofExpression location target with
      | error error => simp [hfirst] at hmeant
      | ok first =>
          cases hrest : AssignmentTarget.ofExpressions location targets with
          | error error => simp [hfirst, hrest] at hmeant
          | ok rest =>
              obtain rfl : first :: rest = meant := by simpa [hfirst, hrest] using hmeant
              cases values with
              | nil =>
                  unfold lowerAssignments accessesOfAssignment
                  rw [List.append_nil]
                  exact meets_pure ⟨code, grown⟩
              | cons value values =>
                  unfold lowerAssignments accessesOfAssignment
                  rw [ofExpression_none hfirst, ← List.append_assoc]
                  refine (meets_lowerAssignment hscope grown first value).bind ?_
                  rintro ⟨⟩ c ⟨longer, grown₁⟩
                  exact meets_lowerAssignments hscope targets values hrest grown₁

/-- A simple statement only makes the code grow. -/
theorem meets_lowerStatement_simple {loopEnd : Option Label} (hscope : a.InScope scope) {statement : Statement}
    (hsimple : statement.isSimple = true) :
    Meets (lowerStatement loopEnd statement) a fun _ b =>
      ∃ code, Grows [scope] a statement.accesses code b := by
  have hgiven : scope ∈ [scope] := List.mem_cons_self
  cases statement with
  | declare names values location =>
      unfold lowerStatement
      split
      · exact meets_fail id
      · split
        · exact meets_fail id
        · exact meets_lowerDeclarations hscope names values .start
  | assign targets values location =>
      unfold lowerStatement
      split
      · exact meets_fail id
      · split
        · exact meets_fail id
        · cases hmeant : AssignmentTarget.ofExpressions location targets with
          | error error => exact meets_fail (not_isInternal_of_ofExpressions hmeant)
          | ok meant => exact meets_lowerAssignments hscope targets values hmeant .start
  | call expression location =>
      unfold lowerStatement
      refine (meets_lowerExpression hscope hgiven expression .start).bind ?_
      rintro register b ⟨code, -, -, grown, -⟩
      exact meets_pure ⟨code, grown⟩
  | conditional clauses location => exact nomatch hsimple
  | whileLoop condition body location => exact nomatch hsimple
  | breakLoop location => exact nomatch hsimple
  | unsupported kind location => exact nomatch hsimple

theorem meets_outlineSimple {loopEnd : Option Label} (hscope : a.InScope scope) {statement : Statement}
    (hsimple : statement.isSimple = true) :
    Meets (outlineSimple loopEnd statement) a fun outline b =>
      LowersStatement loopEnd scope a statement outline b := by
  refine meets_bind (meets_record ?_)
  refine (meets_lowerStatement_simple hscope hsimple).mono ?_
  rintro ⟨⟩ b ⟨code, grown⟩
  refine meets_pure ?_
  show LowersStatement loopEnd scope a statement (.simple statement.kind (newCode a b)) b
  rw [newCode_eq grown.code_eq]
  exact .simple hsimple grown

end Simple

/-- New labels can always be had, one for each clause. -/
theorem newLabels_eq_ok (clauses : List Clause) (a : Assembler) :
    ∃ labels b, newLabels clauses a = .ok (labels, b) ∧ labels.length = clauses.length := by
  induction clauses generalizing a with
  | nil => exact ⟨[], a, rfl, rfl⟩
  | cons clause clauses ih =>
      obtain ⟨labels, b, hrest, hlength⟩ := ih (a.withLabels a.labels.create.2)
      refine ⟨a.labels.create.1 :: labels, b, ?_, by simp [hlength]⟩
      unfold newLabels
      rw [bind_of_ok (newLabel_apply a), bind_of_ok hrest]
      rfl

theorem meets_newLabels {clauses : List Clause} {a : Assembler} {post : List Label → Assembler → Prop}
    (h : ∀ labels b, newLabels clauses a = .ok (labels, b) → labels.length = clauses.length → post labels b) :
    Meets (newLabels clauses) a post := by
  obtain ⟨labels, b, hlabels, hlength⟩ := newLabels_eq_ok clauses a
  unfold Meets
  rw [hlabels]
  exact h labels b hlabels hlength

theorem meets_outlineTests {scope : Register} : ∀ (clauses : List Clause) (labels : List Label) {a : Assembler},
    a.InScope scope → labels.length = clauses.length →
      Meets (outlineTests clauses labels) a fun tests b => LowersTests scope a clauses labels tests b
  | [], [], a, _, _ => meets_pure .nil
  | [], _ :: _, _, _, hlength => by simp at hlength
  | _ :: _, [], _, _, hlength => by simp at hlength
  | .guarded opening condition body location :: clauses, label :: labels, a, hscope, hlength => by
      unfold outlineTests
      refine (meets_outlineTest hscope condition).bind ?_
      rintro test b ⟨grown, hcomputed⟩
      have hin := grown.inScope hscope
      refine meets_bind (meets_emit ?_)
      have hnext : (b.pushed (.jumpIf test.condition label)).InScope scope := ⟨hin.wellFormed, hin.current⟩
      refine (meets_outlineTests clauses labels hnext (Nat.succ.inj hlength)).bind ?_
      intro tests c rest
      exact meets_pure (.guarded grown hcomputed rest)
  | .otherwise body location :: clauses, label :: labels, a, hscope, hlength => by
      unfold outlineTests
      refine meets_bind (meets_emit ?_)
      have hnext : (a.pushed (.jump label)).InScope scope := ⟨hscope.wellFormed, hscope.current⟩
      exact (meets_outlineTests clauses labels hnext (Nat.succ.inj hlength)).mono fun _ _ => .otherwise

mutual

/-- Lowering a statement in an open scope follows the rules, or fails with an error that blames the script or its
size. -/
theorem meets_outlineStatement (loopEnd : Option Label) : ∀ (statement : Statement) {scope : Register}
    {a : Assembler}, a.InScope scope →
      Meets (outlineStatement loopEnd statement) a fun outline b =>
        LowersStatement loopEnd scope a statement outline b
  | .declare names values location, scope, a, hscope => by
      unfold outlineStatement
      exact meets_outlineSimple hscope rfl
  | .assign targets values location, scope, a, hscope => by
      unfold outlineStatement
      exact meets_outlineSimple hscope rfl
  | .call expression location, scope, a, hscope => by
      unfold outlineStatement
      exact meets_outlineSimple hscope rfl
  | .conditional clauses location, scope, a, hscope => by
      unfold outlineStatement
      by_cases hlast : clauses.dropLast.any Clause.isOtherwise = true
      · rw [if_pos hlast]
        exact meets_fail id
      · rw [if_neg hlast]
        refine meets_bind (meets_record (meets_enterScope fun inner b entered => ?_))
        have hopening : newCode a b = [.newScope inner (some scope)] :=
          newCode_eq (frame_enterScope entered hscope.current).2.2.2
        have hin := inScope_of_enterScope entered hscope.wellFormed
        refine meets_bind (show Meets newLabel b _ from ?_)
        show Meets _ (b.withLabels b.labels.create.2) _
        refine meets_bind (meets_newLabels fun labels c reserved hlength => ?_)
        obtain ⟨hscopes, -, -, -⟩ := frame_newLabels reserved
        have hinLabels : c.InScope inner := hin.of_scopes_eq hscopes
        refine (meets_outlineTests clauses labels hinLabels hlength).bind ?_
        intro tests d tested
        -- All bodies are lowered in the scope that the tests were lowered in.
        obtain ⟨hwfTests, hrefills⟩ := tested.scopes_frame hinLabels.wellFormed
        have hinTests := hinLabels.of_refills hwfTests hrefills
        refine meets_bind (meets_emit ?_)
        have hinJump : (d.pushed (.jump b.labels.create.1)).InScope inner :=
          ⟨hinTests.wellFormed, hinTests.current⟩
        refine (meets_outlineBodies loopEnd b.labels.create.1 clauses labels hinJump hlength).bind ?_
        intro bodies e chosen
        refine meets_bind (meets_bindLabel ?_)
        refine meets_bind (meets_exitScope ?_)
        refine meets_pure ?_
        rw [hopening]
        exact .conditional (by simpa using hlast) hscope.current entered reserved tested chosen
  | .whileLoop condition statements location, scope, a, hscope => by
      unfold outlineStatement
      refine meets_bind (meets_record (meets_enterScope fun inner b entered => ?_))
      have hopening : newCode a b = [.newScope inner (some scope)] :=
        newCode_eq (frame_enterScope entered hscope.current).2.2.2
      have hin := inScope_of_enterScope entered hscope.wellFormed
      refine meets_bind (show Meets newLabel b _ from ?_)
      show Meets _ (b.withLabels b.labels.create.2) _
      have hinLabel : (b.withLabels b.labels.create.2).InScope inner := ⟨hin.wellFormed, hin.current⟩
      refine (meets_outlineTest hinLabel condition).bind ?_
      rintro entry c ⟨entryGrown, entryComputed⟩
      have hinEntry := entryGrown.inScope hinLabel
      refine meets_bind (meets_emit ?_)
      -- The label for the beginning of a round is new and bound at once.
      refine meets_bind (show Meets labelHere (c.pushed (.jumpIfNot entry.condition b.labels.create.1)) _ from ?_)
      show Meets _ (((c.pushed (.jumpIfNot entry.condition b.labels.create.1)).withLabels c.labels.create.2).bound
        c.labels.create.1) _
      have hinBody : (((c.pushed (.jumpIfNot entry.condition b.labels.create.1)).withLabels
          c.labels.create.2).bound c.labels.create.1).InScope inner := ⟨hinEntry.wellFormed, hinEntry.current⟩
      refine (meets_outlineBlock (some b.labels.create.1) statements hinBody).bind ?_
      intro body d repeated
      obtain ⟨hwfBody, hrefills⟩ := scopes_frame_block repeated hinBody.wellFormed
      refine (meets_outlineTest (hinBody.of_refills hwfBody hrefills) condition).bind ?_
      rintro again e ⟨againGrown, againComputed⟩
      refine meets_bind (meets_emit ?_)
      refine meets_bind (meets_bindLabel ?_)
      refine meets_bind (meets_exitScope ?_)
      refine meets_pure ?_
      rw [hopening]
      have lowered := @LowersStatement.whileLoop loopEnd scope inner a b c d e condition statements location entry again
        body hscope.current entered entryGrown entryComputed repeated againGrown againComputed
      exact lowered
  | .breakLoop location, scope, a, hscope => by
      unfold outlineStatement lowerStatement
      cases loopEnd with
      | none => exact meets_bind (meets_fail id)
      | some exit => exact meets_bind (meets_emit (meets_pure .breakLoop))
  | .unsupported kind location, scope, a, hscope => by
      unfold outlineStatement outlineSimple lowerStatement
      exact meets_bind (meets_record (meets_fail id))

theorem meets_outlineBlock (loopEnd : Option Label) : ∀ (statements : List Statement) {scope : Register}
    {a : Assembler}, a.InScope scope →
      Meets (outlineBlock loopEnd statements) a fun outlines b => LowersBlock loopEnd scope a statements outlines b
  | [], scope, a, hscope => by
      unfold outlineBlock
      exact meets_pure .nil
  | statement :: statements, scope, a, hscope => by
      unfold outlineBlock
      refine (meets_outlineStatement loopEnd statement hscope).bind ?_
      intro outline b first
      obtain ⟨hwf, hrefills, -⟩ := scopes_frame_statement first hscope.wellFormed
      refine (meets_outlineBlock loopEnd statements (hscope.of_refills hwf hrefills)).bind ?_
      intro outlines c rest
      exact meets_pure (.cons first rest)

theorem meets_outlineBodies (loopEnd : Option Label) (conditionalEnd : Label) :
    ∀ (clauses : List Clause) (labels : List Label) {scope : Register} {a : Assembler}, a.InScope scope →
      labels.length = clauses.length →
        Meets (outlineBodies loopEnd conditionalEnd clauses labels) a fun bodies b =>
          LowersBodies loopEnd scope conditionalEnd a clauses labels bodies b
  | [], [], scope, a, _, _ => by
      unfold outlineBodies
      exact meets_pure .nil
  | [], _ :: _, _, _, _, hlength => by simp at hlength
  | _ :: _, [], _, _, _, hlength => by simp at hlength
  | .guarded opening condition statements location :: clauses, label :: labels, scope, a, hscope, hlength => by
      unfold outlineBodies
      refine meets_bind (meets_bindLabel ?_)
      have hinBody : (a.bound label).InScope scope := ⟨hscope.wellFormed, hscope.current⟩
      refine (meets_outlineBlock loopEnd statements hinBody).bind ?_
      intro body b first
      obtain ⟨hwf, hrefills⟩ := scopes_frame_block first hinBody.wellFormed
      have hin := hinBody.of_refills hwf hrefills
      refine meets_bind (meets_emit ?_)
      have hinRest : (b.pushed (.jump conditionalEnd)).InScope scope := ⟨hin.wellFormed, hin.current⟩
      refine (meets_outlineBodies loopEnd conditionalEnd clauses labels hinRest (Nat.succ.inj hlength)).bind ?_
      intro bodies c rest
      exact meets_pure (.guarded first rest)
  | .otherwise statements location :: clauses, label :: labels, scope, a, hscope, hlength => by
      unfold outlineBodies
      refine meets_bind (meets_bindLabel ?_)
      have hinBody : (a.bound label).InScope scope := ⟨hscope.wellFormed, hscope.current⟩
      refine (meets_outlineBlock loopEnd statements hinBody).bind ?_
      intro body b first
      obtain ⟨hwf, hrefills⟩ := scopes_frame_block first hinBody.wellFormed
      have hin := hinBody.of_refills hwf hrefills
      refine (meets_outlineBodies loopEnd conditionalEnd clauses labels hin (Nat.succ.inj hlength)).bind ?_
      intro bodies c rest
      exact meets_pure (.otherwise first rest)

end

/-- Lowering a script follows the rules, or fails with an error that blames the script or its size. -/
theorem meets_outlineChunk (chunk : Chunk) :
    Meets (outlineChunk chunk) .empty fun outline b => LowersChunk chunk outline b := by
  refine meets_bind (meets_record (meets_enterScope fun scope a entered => ?_))
  have hin := inScope_of_enterScope entered ScopeChain.wellFormed_empty
  have hopening : newCode .empty a = [.newScope scope none] :=
    newCode_eq (frame_enterScope entered rfl).2.2.2
  refine (meets_outlineBlock none chunk.body hin).bind ?_
  intro body c lowered
  refine meets_bind (meets_exitScope ?_)
  exact meets_pure ⟨scope, a, c, entered, hopening, lowered, rfl⟩

/-- A script that is lowered has an outline. -/
theorem lowersChunk_of_lowerChunk {chunk : Chunk} {b : Assembler} (h : lowerChunk chunk .empty = .ok ((), b)) :
    ∃ outline, chunk.outline? = some outline ∧ LowersChunk chunk outline b := by
  rw [lowerChunk_apply] at h
  cases hstep : outlineChunk chunk .empty with
  | error error => simp [hstep, Except.map] at h
  | ok result =>
      obtain ⟨outline, c⟩ := result
      obtain rfl : c = b := by simpa [hstep, Except.map] using h
      exact ⟨outline, by simp [Chunk.outline?, hstep], (meets_outlineChunk chunk).of_eq_ok hstep⟩

/-- The only errors of lowering are those that blame the script or its size. -/
theorem not_isInternal_of_lowerChunk {chunk : Chunk} {error : CompileError}
    (h : lowerChunk chunk .empty = .error error) : ¬ error.IsInternal := by
  rw [lowerChunk_apply] at h
  cases hstep : outlineChunk chunk .empty with
  | ok result => simp [hstep, Except.map] at h
  | error other =>
      obtain rfl : other = error := by simpa [hstep, Except.map] using h
      exact (meets_outlineChunk chunk).not_internal hstep

end ScriptBytecode
