import Mathlib.Data.Finset.Insert
import ScriptBytecode.Proofs.StatementCode

/-!
# The lexical rule

Which variables of a script belong to a scope is decided by a walk over its tree. The walk keeps the open scopes, each
with the set of its names, and notes what the script does with variables: the scopes that it opens, and for every name
that it reads or writes whether some open scope has it. A declared name goes to the innermost scope, unless some open
scope has it already. The conditions and the bodies of a conditional share one scope, and so do the condition and the
body of a loop. The condition of a loop is walked over twice, since there are two copies of it in the code.

Scopes are numbered in the order in which they are opened.
-/

namespace ScriptBytecode

/-- What a script does with its variables. -/
inductive VariableEvent where
  | openScope (scope : Nat) (parent : Option Nat)
  | readScoped (scope : Nat) (name : String)
  | readGlobal (name : String)
  | writeScoped (scope : Nat) (name : String)
  | writeGlobal (name : String)
deriving DecidableEq

/-- An open scope: its number, and the names that it has. -/
structure OpenScope where
  number : Nat
  names : Finset String

/-- What a walk has noted, the number of scopes that it has opened, the innermost of those that are open, and the ones
around it from the inside out. -/
structure ScopeWalk where
  events : List VariableEvent
  opened : Nat
  current : OpenScope
  around : List OpenScope

namespace ScopeWalk

/-- A walk begins in the scope of the script. -/
def start : ScopeWalk :=
  ⟨[.openScope 0 none], 1, ⟨0, ∅⟩, []⟩

/-- Some open scope has a name. -/
def Knows (walk : ScopeWalk) (name : String) : Prop :=
  ∃ scope ∈ walk.current :: walk.around, name ∈ scope.names

instance (walk : ScopeWalk) (name : String) : Decidable (walk.Knows name) :=
  inferInstanceAs (Decidable (∃ scope ∈ walk.current :: walk.around, name ∈ scope.names))

def note (walk : ScopeWalk) (event : VariableEvent) : ScopeWalk :=
  { walk with events := walk.events ++ [event] }

/-- The innermost scope gets a name, unless some open scope has it. -/
def define (walk : ScopeWalk) (name : String) : ScopeWalk :=
  if walk.Knows name then walk
  else { walk with current := { walk.current with names := insert name walk.current.names } }

def access (walk : ScopeWalk) : Access → ScopeWalk
  | .read name => walk.note (if walk.Knows name then .readScoped walk.current.number name else .readGlobal name)
  | .declare name => (walk.define name).note (.writeScoped walk.current.number name)
  | .assign name => walk.note (if walk.Knows name then .writeScoped walk.current.number name else .writeGlobal name)

def accessAll (walk : ScopeWalk) (accesses : List Access) : ScopeWalk :=
  accesses.foldl access walk

/-- A scope is opened inside the innermost one. -/
def enter (walk : ScopeWalk) : ScopeWalk where
  events := walk.events ++ [.openScope walk.opened (some walk.current.number)]
  opened := walk.opened + 1
  current := ⟨walk.opened, ∅⟩
  around := walk.current :: walk.around

/-- The innermost scope is left. -/
def leave (walk : ScopeWalk) : ScopeWalk :=
  match walk.around with
  | [] => walk
  | outer :: around => { walk with current := outer, around := around }

/-- The conditions of a conditional, in the order of its clauses. -/
def conditions (walk : ScopeWalk) : List Clause → ScopeWalk
  | [] => walk
  | .guarded _ condition _ _ :: clauses => (walk.accessAll condition.accesses).conditions clauses
  | .otherwise .. :: clauses => walk.conditions clauses

mutual

def statement (walk : ScopeWalk) : Statement → ScopeWalk
  | .conditional clauses _ => ((walk.enter.conditions clauses).bodies clauses).leave
  | .whileLoop condition body _ =>
      (((walk.enter.accessAll condition.accesses).block body).accessAll condition.accesses).leave
  | .declare names values _ => walk.accessAll (accessesOfDeclaration names values)
  | .assign targets values _ => walk.accessAll (accessesOfAssignment targets values)
  | .call expression _ => walk.accessAll expression.accesses
  | .breakLoop _ => walk
  | .unsupported .. => walk

def block (walk : ScopeWalk) : List Statement → ScopeWalk
  | [] => walk
  | statement :: statements => (walk.statement statement).block statements

/-- The bodies of a conditional, in the order of its clauses. -/
def bodies (walk : ScopeWalk) : List Clause → ScopeWalk
  | [] => walk
  | .guarded _ _ body _ :: clauses => (walk.block body).bodies clauses
  | .otherwise body _ :: clauses => (walk.block body).bodies clauses

end

end ScopeWalk

/-- What a script does with its variables, in the order of its code. -/
def Chunk.variableEvents (chunk : Chunk) : List VariableEvent :=
  (ScopeWalk.start.block chunk.body).events

/-! ## Scopes around a part of the tree -/

namespace ScopeWalk

variable {walk : ScopeWalk}

theorem around_define (name : String) : (walk.define name).around = walk.around := by
  unfold define
  split
  · rfl
  · rfl

section Knows

variable {name : String}

theorem define_of_knows (h : walk.Knows name) : walk.define name = walk :=
  if_pos h

theorem access_read_of_knows (h : walk.Knows name) :
    walk.access (.read name) = walk.note (.readScoped walk.current.number name) :=
  congrArg walk.note (if_pos h)

theorem access_read_of_not_knows (h : ¬ walk.Knows name) :
    walk.access (.read name) = walk.note (.readGlobal name) :=
  congrArg walk.note (if_neg h)

theorem access_assign_of_knows (h : walk.Knows name) :
    walk.access (.assign name) = walk.note (.writeScoped walk.current.number name) :=
  congrArg walk.note (if_pos h)

theorem access_assign_of_not_knows (h : ¬ walk.Knows name) :
    walk.access (.assign name) = walk.note (.writeGlobal name) :=
  congrArg walk.note (if_neg h)

end Knows

theorem around_accessAll (accesses : List Access) : (walk.accessAll accesses).around = walk.around := by
  unfold accessAll
  induction accesses generalizing walk with
  | nil => rfl
  | cons first accesses ih =>
      rw [List.foldl_cons, ih]
      cases first with
      | read name => rfl
      | declare name => exact around_define name
      | assign name => rfl

theorem accessAll_concat (accesses : List Access) (last : Access) :
    walk.accessAll (accesses ++ [last]) = (walk.accessAll accesses).access last :=
  List.foldl_append

theorem around_conditions (clauses : List Clause) : (walk.conditions clauses).around = walk.around := by
  induction clauses generalizing walk with
  | nil => rfl
  | cons clause clauses ih =>
      cases clause with
      | guarded opening condition body location =>
          show ((walk.accessAll condition.accesses).conditions clauses).around = walk.around
          rw [ih, around_accessAll]
      | otherwise body location => exact ih

theorem around_leave {inner : ScopeWalk} (h : inner.around = walk.enter.around) :
    inner.leave.around = walk.around := by
  have hinner : inner.around = walk.current :: walk.around := h
  simp [leave, hinner]

theorem statement_of_isSimple {statement : Statement} (h : statement.isSimple = true) :
    walk.statement statement = walk.accessAll statement.accesses := by
  unfold ScopeWalk.statement
  cases statement with
  | declare names values location => rfl
  | assign targets values location => rfl
  | call expression location => rfl
  | conditional clauses location => exact nomatch h
  | whileLoop condition body location => exact nomatch h
  | breakLoop location => exact nomatch h
  | unsupported kind location => exact nomatch h

mutual

/-- Behind a statement, the same scopes are around the innermost one. -/
theorem around_statement (walk : ScopeWalk) : ∀ statement : Statement,
    (walk.statement statement).around = walk.around
  | .conditional clauses _ => by
      unfold ScopeWalk.statement
      apply around_leave
      rw [around_bodies, around_conditions]
  | .whileLoop condition body _ => by
      unfold ScopeWalk.statement
      apply around_leave
      rw [around_accessAll, around_block, around_accessAll]
  | .declare .. | .assign .. | .call .. => by
      unfold ScopeWalk.statement
      exact around_accessAll _
  | .breakLoop _ | .unsupported .. => by
      unfold ScopeWalk.statement
      rfl

theorem around_block (walk : ScopeWalk) : ∀ statements : List Statement,
    (walk.block statements).around = walk.around
  | [] => by
      unfold block
      rfl
  | statement :: statements => by
      unfold block
      rw [around_block, around_statement]

theorem around_bodies (walk : ScopeWalk) : ∀ clauses : List Clause,
    (walk.bodies clauses).around = walk.around
  | [] => by
      unfold bodies
      rfl
  | .guarded _ _ body _ :: clauses => by
      unfold bodies
      rw [around_bodies, around_block]
  | .otherwise body _ :: clauses => by
      unfold bodies
      rw [around_bodies, around_block]

end

end ScopeWalk

/-! ## Instructions and events -/

/-- The register of the scope object that an instruction makes. -/
def Instruction.openedScope? {τ : Type} : Instruction τ → Option Register
  | .newScope dst _ => some dst
  | _ => none

/-- The registers of the scope objects that code makes, in the order in which it makes them. -/
def scopeRegisters {τ : Type} (code : List (Instruction τ)) : List Register :=
  code.filterMap Instruction.openedScope?

/-- An instruction does what an event says. A scope is known by the register of its object, which is the one at the
number of the scope, and a name by its place in the pool. -/
inductive Realizes {τ : Type} (pool : ConstantPool) (scopes : List Register) : Instruction τ → VariableEvent → Prop
  | openOutermost {dst : Register} {scope : Nat} (register : scopes[scope]? = some dst) :
      Realizes pool scopes (.newScope dst none) (.openScope scope none)
  | openInner {dst parent : Register} {scope outer : Nat} (register : scopes[scope]? = some dst)
      (parentRegister : scopes[outer]? = some parent) :
      Realizes pool scopes (.newScope dst (some parent)) (.openScope scope (some outer))
  | readScoped {register dst : Register} {index : ConstantIndex} {scope : Nat} {name : String}
      (innermost : scopes[scope]? = some register) (named : pool.get? index.index.toNat = some (.string name)) :
      Realizes pool scopes (.scopeGet register index dst) (.readScoped scope name)
  | readGlobal {dst : Register} {index : ConstantIndex} {name : String}
      (named : pool.get? index.index.toNat = some (.string name)) :
      Realizes pool scopes (.getVar index dst) (.readGlobal name)
  | writeScoped {register src : Register} {index : ConstantIndex} {scope : Nat} {name : String}
      (innermost : scopes[scope]? = some register) (named : pool.get? index.index.toNat = some (.string name)) :
      Realizes pool scopes (.scopeSet register index src) (.writeScoped scope name)
  | writeGlobal {src : Register} {index : ConstantIndex} {name : String}
      (named : pool.get? index.index.toNat = some (.string name)) :
      Realizes pool scopes (.setVar src index) (.writeGlobal name)

section Realizes

variable {τ : Type} {pool larger : ConstantPool} {scopes more : List Register}

/-- What an instruction does stays the same when constants and scopes come to those that there are. -/
theorem Realizes.mono {instruction : Instruction τ} {event : VariableEvent} (hpool : pool.Extends larger)
    (hscopes : scopes <+: more) (h : Realizes pool scopes instruction event) :
    Realizes larger more instruction event := by
  cases h with
  | openOutermost register => exact .openOutermost (getElem?_of_isPrefix hscopes register)
  | openInner register parentRegister =>
      exact .openInner (getElem?_of_isPrefix hscopes register) (getElem?_of_isPrefix hscopes parentRegister)
  | readScoped innermost named => exact .readScoped (getElem?_of_isPrefix hscopes innermost) (hpool.get? named)
  | readGlobal named => exact .readGlobal (hpool.get? named)
  | writeScoped innermost named => exact .writeScoped (getElem?_of_isPrefix hscopes innermost) (hpool.get? named)
  | writeGlobal named => exact .writeGlobal (hpool.get? named)

theorem Realizes.concernsVariables {instruction : Instruction τ} {event : VariableEvent}
    (h : Realizes pool scopes instruction event) : instruction.concernsVariables = true := by
  cases h <;> rfl

@[simp] theorem concernsVariables_ofPlain (instruction : PlainInstruction) :
    (Instruction.ofPlain instruction : Instruction τ).concernsVariables = instruction.concernsVariables := by
  cases instruction with
  | jumpIfNot condition target => exact target.elim
  | jumpIf condition target => exact target.elim
  | jump target => exact target.elim
  | _ => rfl

theorem openedScope?_of_ordinary {instruction : Instruction τ} (h : instruction.concernsVariables = false) :
    instruction.openedScope? = none := by
  cases instruction with
  | newScope dst parent => exact nomatch h
  | _ => rfl

end Realizes

end ScriptBytecode
