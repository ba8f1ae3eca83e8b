import ScriptBytecode.Lowering.Statement
import ScriptBytecode.Proofs.Assembling

/-!
# Outlines of scripts

The outline of a script keeps its statements and puts in the place of every expression the instructions that were
emitted for it. It is made by lowering the script and noting on the way what each part emits; `records_outlineChunk`
says that nothing but the noting is added. An outline has no jumps and no labels: how a script is meant to run can be
said on its outline, and where its instructions stand in the code can be computed from it.
-/

namespace ScriptBytecode

open Assembler

/-- A condition: the instructions that compute it and the register that they leave its value in. -/
structure Test where
  code : List PlainInstruction
  condition : Register

mutual

/-- A statement with its instructions. -/
inductive Outline where
  /-- A declaration, an assignment or a call. -/
  | simple (kind : StatementKind) (code : List PlainInstruction)
  | conditional (opening : List PlainInstruction) (choice : Choice)
  /-- A loop. The test before the first round and the test after each round have instructions of their own. -/
  | whileLoop (opening : List PlainInstruction) (entry : Test) (body : List Outline) (again : Test)
  | breakLoop

/-- The clauses of a conditional. A clause without a condition is the last one. -/
inductive Choice where
  | nothing
  | otherwise (body : List Outline)
  | guarded (test : Test) (body : List Outline) (others : Choice)

end

/-- A script with its instructions. -/
structure ScriptOutline where
  opening : List PlainInstruction
  body : List Outline

/-- The clauses of a conditional put together from their tests and their bodies. -/
def Choice.ofParts : List Clause → List Test → List (List Outline) → Choice
  | .guarded .. :: clauses, test :: tests, body :: bodies => .guarded test body (ofParts clauses tests bodies)
  | .otherwise .. :: _, _, body :: _ => .otherwise body
  | _, _, _ => .nothing

/-! ## Lowering with notes -/

/-- What a step gives, and the plain instructions that it puts behind the code. -/
structure Recorded (α : Type) where
  value : α
  code : List PlainInstruction

/-- The plain instructions that an assembler has behind the code of an earlier one. -/
def newCode (before after : Assembler) : List PlainInstruction :=
  (after.code.toList.drop before.code.size).filterMap Instruction.plain?

/-- Takes a step and notes what it emits. -/
def record {α : Type} (step : Assembling α) : Assembling (Recorded α) := do
  let before ← get
  let value ← step
  let after ← get
  return ⟨value, newCode before after⟩

def outlineTest (condition : Expression) : Assembling Test := do
  let emitted ← record (lowerExpression condition)
  return ⟨emitted.code, emitted.value⟩

def outlineTests : List Clause → List Label → Assembling (List Test)
  | .guarded _ condition _ _ :: clauses, label :: labels => do
      let test ← outlineTest condition
      emit (.jumpIf test.condition label)
      let tests ← outlineTests clauses labels
      return test :: tests
  | .otherwise _ _ :: clauses, label :: labels => do
      emit (.jump label)
      outlineTests clauses labels
  | _, _ => return []

/-- The outline of a statement that has no statements inside. -/
def outlineSimple (loopEnd : Option Label) (statement : Statement) : Assembling Outline := do
  let emitted ← record (lowerStatement loopEnd statement)
  return .simple statement.kind emitted.code

mutual

/-- Lowers a statement and notes its outline. -/
def outlineStatement (loopEnd : Option Label) : Statement → Assembling Outline
  | .declare names values location => outlineSimple loopEnd (.declare names values location)
  | .assign targets values location => outlineSimple loopEnd (.assign targets values location)
  | .call expression location => outlineSimple loopEnd (.call expression location)
  | .conditional clauses location =>
      if clauses.dropLast.any Clause.isOtherwise then fail (.unsupported .elseBeforeLast location)
      else do
        let opening ← record enterScope
        let conditionalEnd ← newLabel
        let labels ← newLabels clauses
        let tests ← outlineTests clauses labels
        emit (.jump conditionalEnd)
        let bodies ← outlineBodies loopEnd conditionalEnd clauses labels
        bindLabel conditionalEnd
        exitScope
        return .conditional opening.code (.ofParts clauses tests bodies)
  | .whileLoop condition body _ => do
      let opening ← record enterScope
      let exit ← newLabel
      let entry ← outlineTest condition
      emit (.jumpIfNot entry.condition exit)
      let start ← labelHere
      let body ← outlineBlock (some exit) body
      let again ← outlineTest condition
      emit (.jumpIf again.condition start)
      bindLabel exit
      exitScope
      return .whileLoop opening.code entry body again
  | .breakLoop location => do
      lowerStatement loopEnd (.breakLoop location)
      return .breakLoop
  | .unsupported kind location => outlineSimple loopEnd (.unsupported kind location)

def outlineBlock (loopEnd : Option Label) : List Statement → Assembling (List Outline)
  | [] => return []
  | statement :: statements => do
      let first ← outlineStatement loopEnd statement
      let rest ← outlineBlock loopEnd statements
      return first :: rest

def outlineBodies (loopEnd : Option Label) (conditionalEnd : Label) :
    List Clause → List Label → Assembling (List (List Outline))
  | .guarded _ _ body _ :: clauses, label :: labels => do
      bindLabel label
      let first ← outlineBlock loopEnd body
      emit (.jump conditionalEnd)
      let rest ← outlineBodies loopEnd conditionalEnd clauses labels
      return first :: rest
  | .otherwise body _ :: clauses, label :: labels => do
      bindLabel label
      let first ← outlineBlock loopEnd body
      let rest ← outlineBodies loopEnd conditionalEnd clauses labels
      return first :: rest
  | _, _ => return []

end

def outlineChunk (chunk : Chunk) : Assembling ScriptOutline := do
  let opening ← record enterScope
  let body ← outlineBlock none chunk.body
  exitScope
  return ⟨opening.code, body⟩

/-- The outline of a script, if it can be lowered. -/
def Chunk.outline? (chunk : Chunk) : Option ScriptOutline :=
  match outlineChunk chunk .empty with
  | .ok (outline, _) => some outline
  | .error _ => none

/-! ## Noting changes nothing -/

/-- A step does what another step does and gives, beside notes, what the other gives. -/
def Records {α β : Type} (forget : α → β) (noting : Assembling α) (step : Assembling β) : Prop :=
  forget <$> noting = step

namespace Records

variable {α β γ δ : Type}

theorem refl (step : Assembling α) : Records id step step :=
  id_map step

theorem bind {forget : α → β} {forget' : γ → δ} {noting : Assembling α} {step : Assembling β}
    {notingNext : α → Assembling γ} {next : β → Assembling δ} (h : Records forget noting step)
    (hnext : ∀ value, Records forget' (notingNext value) (next (forget value))) :
    Records forget' (noting >>= notingNext) (step >>= next) := by
  have hthen : ∀ value, forget' <$> notingNext value = next (forget value) := hnext
  have hfirst : forget <$> noting = step := h
  show forget' <$> (noting >>= notingNext) = step >>= next
  rw [map_bind, ← hfirst, bind_map_left]
  exact bind_congr hthen

/-- The same step on both sides, with notes taken behind it. -/
theorem bind_same {forget : γ → δ} (step : Assembling α) {notingNext : α → Assembling γ}
    {next : α → Assembling δ} (hnext : ∀ value, Records forget (notingNext value) (next value)) :
    Records forget (step >>= notingNext) (step >>= next) :=
  (refl step).bind hnext

theorem pure (forget : α → β) (value : α) : Records forget (Pure.pure value) (Pure.pure (forget value)) :=
  map_pure forget value

theorem fail (forget : α → β) (error : CompileError) : Records forget (Assembler.fail error) (Assembler.fail error) :=
  rfl

end Records

open Assembling

theorem record_of_ok {α : Type} {step : Assembling α} {a b : Assembler} {value : α} (h : step a = .ok (value, b)) :
    record step a = .ok (⟨value, newCode a b⟩, b) := by
  show (get >>= fun before => step >>= _) a = _
  rw [bind_of_ok (show (get : Assembling Assembler) a = .ok (a, a) from rfl), bind_of_ok h]
  rfl

theorem record_of_error {α : Type} {step : Assembling α} {a : Assembler} {error : CompileError}
    (h : step a = .error error) : record step a = .error error := by
  show (get >>= fun before => step >>= _) a = _
  rw [bind_of_ok (show (get : Assembling Assembler) a = .ok (a, a) from rfl), bind_of_error h]

theorem records_record {α : Type} (step : Assembling α) : Records Recorded.value (record step) step := by
  show Recorded.value <$> record step = step
  rw [map_eq_pure_bind]
  funext a
  cases hstep : step a with
  | error error => rw [bind_of_error (record_of_error hstep)]
  | ok outcome =>
      rw [bind_of_ok (record_of_ok hstep)]
      rfl

theorem records_outlineTest (condition : Expression) :
    Records Test.condition (outlineTest condition) (lowerExpression condition) := by
  have h : Records Test.condition (outlineTest condition) (lowerExpression condition >>= Pure.pure) :=
    (records_record _).bind fun emitted => .pure Test.condition ⟨emitted.code, emitted.value⟩
  rwa [bind_pure] at h

/-- Notes that are not needed at all. -/
def noNotes {α : Type} (_ : α) : Unit :=
  ()

theorem records_outlineTests : ∀ (clauses : List Clause) (labels : List Label),
    Records noNotes (outlineTests clauses labels) (lowerTests clauses labels)
  | [], _ => .pure noNotes _
  | .guarded .. :: _, [] => .pure noNotes _
  | .otherwise .. :: _, [] => .pure noNotes _
  | .guarded _ condition _ _ :: clauses, label :: labels => by
      unfold outlineTests lowerTests
      refine (records_outlineTest condition).bind fun test => .bind_same _ fun _ => ?_
      rw [← bind_pure (lowerTests clauses labels)]
      exact (records_outlineTests clauses labels).bind fun tests => .pure noNotes _
  | .otherwise _ _ :: clauses, label :: labels => by
      unfold outlineTests lowerTests
      exact .bind_same _ fun _ => records_outlineTests clauses labels

theorem records_outlineSimple (loopEnd : Option Label) (statement : Statement) :
    Records noNotes (outlineSimple loopEnd statement) (lowerStatement loopEnd statement) := by
  rw [← bind_pure (lowerStatement loopEnd statement)]
  exact (records_record _).bind fun emitted => .pure noNotes _

mutual

theorem records_outlineStatement (loopEnd : Option Label) : ∀ statement : Statement,
    Records noNotes (outlineStatement loopEnd statement) (lowerStatement loopEnd statement)
  | .declare names values location => by
      unfold outlineStatement
      exact records_outlineSimple loopEnd _
  | .assign targets values location => by
      unfold outlineStatement
      exact records_outlineSimple loopEnd _
  | .call expression location => by
      unfold outlineStatement
      exact records_outlineSimple loopEnd _
  | .conditional clauses location => by
      unfold outlineStatement lowerStatement
      split
      · exact .fail noNotes _
      · refine (records_record _).bind fun opening => .bind_same _ fun conditionalEnd => .bind_same _ fun labels => ?_
        refine (records_outlineTests clauses labels).bind fun tests => .bind_same _ fun _ => ?_
        refine (records_outlineBodies loopEnd conditionalEnd clauses labels).bind fun bodies => ?_
        refine .bind_same _ fun _ => ?_
        rw [← bind_pure exitScope]
        exact .bind_same _ fun _ => .pure noNotes _
  | .whileLoop condition body location => by
      unfold outlineStatement lowerStatement
      refine (records_record _).bind fun opening => .bind_same _ fun exit => ?_
      refine (records_outlineTest condition).bind fun entry => .bind_same _ fun _ => .bind_same _ fun start => ?_
      refine (records_outlineBlock (some exit) body).bind fun outlines => ?_
      refine (records_outlineTest condition).bind fun again => .bind_same _ fun _ => .bind_same _ fun _ => ?_
      rw [← bind_pure exitScope]
      exact .bind_same _ fun _ => .pure noNotes _
  | .breakLoop location => by
      unfold outlineStatement
      have h : Records noNotes _ (lowerStatement loopEnd (.breakLoop location) >>= Pure.pure) :=
        .bind_same _ fun _ => .pure noNotes Outline.breakLoop
      rwa [bind_pure] at h
  | .unsupported kind location => by
      unfold outlineStatement
      exact records_outlineSimple loopEnd _

theorem records_outlineBlock (loopEnd : Option Label) : ∀ statements : List Statement,
    Records noNotes (outlineBlock loopEnd statements) (lowerBlock loopEnd statements)
  | [] => by
      unfold outlineBlock lowerBlock
      exact .pure noNotes _
  | statement :: statements => by
      unfold outlineBlock lowerBlock
      refine (records_outlineStatement loopEnd statement).bind fun first => ?_
      rw [← bind_pure (lowerBlock loopEnd statements)]
      exact (records_outlineBlock loopEnd statements).bind fun rest => .pure noNotes _

theorem records_outlineBodies (loopEnd : Option Label) (conditionalEnd : Label) :
    ∀ (clauses : List Clause) (labels : List Label),
      Records noNotes (outlineBodies loopEnd conditionalEnd clauses labels)
        (lowerBodies loopEnd conditionalEnd clauses labels)
  | [], _ => by
      unfold outlineBodies lowerBodies
      exact .pure noNotes _
  | .guarded .. :: _, [] => by
      unfold outlineBodies lowerBodies
      exact .pure noNotes _
  | .otherwise .. :: _, [] => by
      unfold outlineBodies lowerBodies
      exact .pure noNotes _
  | .guarded _ _ body _ :: clauses, label :: labels => by
      unfold outlineBodies lowerBodies
      refine .bind_same _ fun _ => (records_outlineBlock loopEnd body).bind fun first => .bind_same _ fun _ => ?_
      rw [← bind_pure (lowerBodies loopEnd conditionalEnd clauses labels)]
      exact (records_outlineBodies loopEnd conditionalEnd clauses labels).bind fun rest => .pure noNotes _
  | .otherwise body _ :: clauses, label :: labels => by
      unfold outlineBodies lowerBodies
      refine .bind_same _ fun _ => (records_outlineBlock loopEnd body).bind fun first => ?_
      rw [← bind_pure (lowerBodies loopEnd conditionalEnd clauses labels)]
      exact (records_outlineBodies loopEnd conditionalEnd clauses labels).bind fun rest => .pure noNotes _

end

theorem records_outlineChunk (chunk : Chunk) : Records noNotes (outlineChunk chunk) (lowerChunk chunk) := by
  refine (records_record _).bind fun opening => (records_outlineBlock none chunk.body).bind fun body => ?_
  rw [← bind_pure exitScope]
  exact .bind_same _ fun _ => .pure noNotes _

/-- A script is lowered exactly if it has an outline, and fails in the same way otherwise. -/
theorem lowerChunk_apply (chunk : Chunk) (a : Assembler) :
    lowerChunk chunk a = (outlineChunk chunk a).map fun result => ((), result.2) := by
  have h : noNotes <$> outlineChunk chunk = lowerChunk chunk := records_outlineChunk chunk
  rw [← h, map_eq_pure_bind]
  cases hstep : outlineChunk chunk a with
  | error error => rw [bind_of_error hstep]; rfl
  | ok outcome => rw [bind_of_ok hstep]; rfl

end ScriptBytecode
