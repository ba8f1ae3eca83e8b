import Mathlib.Logic.Relation
import ScriptBytecode.Proofs.Layout

/-!
# Machines

A machine says what plain instructions do to a state and how the tests of conditional jumps can come out; nothing else
about a runtime matters to the flow of control. It runs code in two ways. `Reaches` follows a program counter through
the instructions of a program. `Runs` follows the statements of an outline: a conditional tests its conditions in order
and runs at most one body, a loop makes its scope object once and runs its body as long as its tests come out true, and
a break leaves the innermost loop around it.
-/

namespace ScriptBytecode

/-- What plain instructions do to a state, and how the test of a register can come out in a state. -/
structure Machine (σ : Type) where
  effect : PlainInstruction → σ → σ
  outcome : Register → σ → Bool → Prop

namespace Machine

variable {σ : Type}

/-- A machine whose states decide every test. -/
def ofTruth (effect : PlainInstruction → σ → σ) (truthy : Register → σ → Bool) : Machine σ where
  effect := effect
  outcome register s truth := truthy register s = truth

/-- A machine without a state, on which every test can come out either way. -/
def free : Machine Unit where
  effect _ s := s
  outcome _ _ _ := True

/-- A machine that keeps a record of the plain instructions that it has executed. -/
def recording (machine : Machine σ) : Machine (List PlainInstruction × σ) where
  effect instruction s := (s.1 ++ [instruction], machine.effect instruction s.2)
  outcome register s := machine.outcome register s.2

/-- The state behind plain instructions that are executed in order. -/
def perform (machine : Machine σ) (code : List PlainInstruction) (s : σ) : σ :=
  code.foldl (fun s instruction => machine.effect instruction s) s

@[simp] theorem perform_nil (machine : Machine σ) (s : σ) : machine.perform [] s = s := rfl

@[simp] theorem perform_cons (machine : Machine σ) (instruction : PlainInstruction) (code : List PlainInstruction)
    (s : σ) : machine.perform (instruction :: code) s = machine.perform code (machine.effect instruction s) := rfl

theorem perform_append (machine : Machine σ) (code more : List PlainInstruction) (s : σ) :
    machine.perform (code ++ more) s = machine.perform more (machine.perform code s) :=
  List.foldl_append

/-! ## Running a program -/

/-- One step: from a position and a state to the next ones. -/
inductive Step (machine : Machine σ) (code : List (Instruction JumpTarget)) : Nat × σ → Nat × σ → Prop
  | next {pc : Nat} {s : σ} {instruction : Instruction JumpTarget} {plain : PlainInstruction}
      (here : code[pc]? = some instruction) (flow : instruction.flow = .next plain) :
      Step machine code (pc, s) (pc + 1, machine.effect plain s)
  | jump {pc : Nat} {s : σ} {instruction : Instruction JumpTarget} {target : JumpTarget}
      (here : code[pc]? = some instruction) (flow : instruction.flow = .jump target) :
      Step machine code (pc, s) (target.pc.toNat, s)
  | jumpIf {pc : Nat} {s : σ} {instruction : Instruction JumpTarget} {condition : Register} {target : JumpTarget}
      {truth : Bool} (here : code[pc]? = some instruction) (flow : instruction.flow = .jumpIf condition target)
      (outcome : machine.outcome condition s truth) :
      Step machine code (pc, s) (if truth then target.pc.toNat else pc + 1, s)
  | jumpIfNot {pc : Nat} {s : σ} {instruction : Instruction JumpTarget} {condition : Register}
      {target : JumpTarget} {truth : Bool} (here : code[pc]? = some instruction)
      (flow : instruction.flow = .jumpIfNot condition target) (outcome : machine.outcome condition s truth) :
      Step machine code (pc, s) (if truth then pc + 1 else target.pc.toNat, s)

/-- Any number of steps. -/
def Reaches (machine : Machine σ) (code : List (Instruction JumpTarget)) : Nat × σ → Nat × σ → Prop :=
  Relation.ReflTransGen (machine.Step code)

end Machine

namespace Program

variable {σ : Type}

/-- A run from the first instruction to the end, with the plain instructions that it executes and its last state. -/
def RunsTo (program : Program) (machine : Machine σ) (start : σ) (executed : List PlainInstruction)
    (last : σ) : Prop :=
  machine.recording.Reaches program.instructions.toList (0, [], start) (program.length, executed, last)

/-- A path through the program from its first instruction to a position, on which every conditional jump goes either
way, with the plain instructions that stand on it before that position. -/
def Walk (program : Program) (before : List PlainInstruction) (pc : Nat) : Prop :=
  Machine.free.recording.Reaches program.instructions.toList (0, [], ()) (pc, before, ())

end Program

/-! ## Running an outline -/

/-- How a statement ends: control goes on behind it, or leaves the loop around it. -/
inductive Ending where
  | completed
  | left

/-- What can be run: a statement, statements in order, the clauses of a conditional, and a loop from the beginning of a
round on. -/
inductive Phrase where
  | statement (outline : Outline)
  | block (outlines : List Outline)
  | choice (choice : Choice)
  | rounds (body : List Outline) (again : Test)

/-- A run of a phrase from a state to a state. -/
inductive Runs {σ : Type} (machine : Machine σ) : Phrase → σ → Ending → σ → Prop
  | simple {kind : StatementKind} {code : List PlainInstruction} {s : σ} :
      Runs machine (.statement (.simple kind code)) s .completed (machine.perform code s)
  | conditional {opening : List PlainInstruction} {choice : Choice} {s last : σ} {ending : Ending}
      (chosen : Runs machine (.choice choice) (machine.perform opening s) ending last) :
      Runs machine (.statement (.conditional opening choice)) s ending last
  /-- The first test of a loop comes out false. -/
  | skipLoop {opening : List PlainInstruction} {entry again : Test} {body : List Outline} {s : σ}
      (falsy : machine.outcome entry.condition (machine.perform entry.code (machine.perform opening s)) false) :
      Runs machine (.statement (.whileLoop opening entry body again)) s .completed
        (machine.perform entry.code (machine.perform opening s))
  | enterLoop {opening : List PlainInstruction} {entry again : Test} {body : List Outline} {s last : σ}
      {ending : Ending}
      (truthy : machine.outcome entry.condition (machine.perform entry.code (machine.perform opening s)) true)
      (looped : Runs machine (.rounds body again) (machine.perform entry.code (machine.perform opening s)) ending
        last) :
      Runs machine (.statement (.whileLoop opening entry body again)) s ending last
  | breakLoop {s : σ} : Runs machine (.statement .breakLoop) s .left s
  | nil {s : σ} : Runs machine (.block []) s .completed s
  | cons {outline : Outline} {outlines : List Outline} {s middle last : σ} {ending : Ending}
      (first : Runs machine (.statement outline) s .completed middle)
      (rest : Runs machine (.block outlines) middle ending last) :
      Runs machine (.block (outline :: outlines)) s ending last
  /-- Statements behind one that leaves the loop are not run. -/
  | leave {outline : Outline} {outlines : List Outline} {s last : σ}
      (first : Runs machine (.statement outline) s .left last) :
      Runs machine (.block (outline :: outlines)) s .left last
  | nothing {s : σ} : Runs machine (.choice .nothing) s .completed s
  | otherwise {body : List Outline} {s last : σ} {ending : Ending}
      (chosen : Runs machine (.block body) s ending last) :
      Runs machine (.choice (.otherwise body)) s ending last
  /-- The body of the first clause whose test comes out true is run. -/
  | taken {test : Test} {body : List Outline} {others : Choice} {s last : σ} {ending : Ending}
      (truthy : machine.outcome test.condition (machine.perform test.code s) true)
      (chosen : Runs machine (.block body) (machine.perform test.code s) ending last) :
      Runs machine (.choice (.guarded test body others)) s ending last
  | passed {test : Test} {body : List Outline} {others : Choice} {s last : σ} {ending : Ending}
      (falsy : machine.outcome test.condition (machine.perform test.code s) false)
      (chosen : Runs machine (.choice others) (machine.perform test.code s) ending last) :
      Runs machine (.choice (.guarded test body others)) s ending last
  /-- A loop that is left in the middle of a round is complete. -/
  | leaveRound {body : List Outline} {again : Test} {s last : σ} (round : Runs machine (.block body) s .left last) :
      Runs machine (.rounds body again) s .completed last
  | lastRound {body : List Outline} {again : Test} {s middle : σ}
      (round : Runs machine (.block body) s .completed middle)
      (falsy : machine.outcome again.condition (machine.perform again.code middle) false) :
      Runs machine (.rounds body again) s .completed (machine.perform again.code middle)
  | nextRound {body : List Outline} {again : Test} {s middle last : σ} {ending : Ending}
      (round : Runs machine (.block body) s .completed middle)
      (truthy : machine.outcome again.condition (machine.perform again.code middle) true)
      (looped : Runs machine (.rounds body again) (machine.perform again.code middle) ending last) :
      Runs machine (.rounds body again) s ending last

/-- A run of a script, with the plain instructions that it executes and its last state. -/
def ScriptOutline.Executes {σ : Type} (outline : ScriptOutline) (machine : Machine σ) (start : σ)
    (executed : List PlainInstruction) (last : σ) : Prop :=
  Runs machine.recording (.block outline.body) (machine.recording.perform outline.opening ([], start)) .completed
    (executed, last)

end ScriptBytecode
