import ScriptBytecode.Operand
import ScriptBytecode.Instruction.Opcode

/-!
# Instructions

The type of instructions has a parameter for the places that jumps go to: code under construction jumps to labels,
a finished program to positions. `operands` gives the operands in the order in which documents and listings write
them, and `mapTargetM` replaces the place that a jump goes to.
-/

namespace ScriptBytecode

/-- An instruction whose jumps go to places of type `τ`. -/
inductive Instruction (τ : Type) where
  /-- Loads a constant. -/
  | load (constant : ConstantIndex) (dst : Register)
  /-- Reads a global variable. -/
  | getVar (name : ConstantIndex) (dst : Register)
  /-- Writes a global variable. -/
  | setVar (src : Register) (name : ConstantIndex)
  | call (callee : Register) (arguments : List Register) (dst : Register)
  | jumpIfNot (condition : Register) (target : τ)
  | jumpIf (condition : Register) (target : τ)
  | jump (target : τ)
  | operate (operation : Operation) (lhs rhs dst : Register)
  | setNil (dst : Register)
  | newTable (dst : Register)
  /-- Writes a field whose name is a constant. -/
  | setField (table : Register) (key : ConstantIndex) (src : Register)
  /-- Writes the entry under a computed key. -/
  | setTable (table key src : Register)
  /-- Puts a value behind the list part of a table. -/
  | pushTable (table src : Register)
  /-- Makes a scope object, inside another one if `parent` is given. -/
  | newScope (dst : Register) (parent : Option Register)
  /-- Reads a variable of a scope or of the scopes around it. -/
  | scopeGet (scope : Register) (name : ConstantIndex) (dst : Register)
  /-- Writes a variable of a scope or of the scopes around it. -/
  | scopeSet (scope : Register) (name : ConstantIndex) (src : Register)
  /-- Reads a field whose name is a constant. -/
  | getField (table : Register) (key : ConstantIndex) (dst : Register)
deriving DecidableEq

namespace Instruction

variable {τ σ : Type}

def opcode : Instruction τ → Opcode
  | .load .. => .load
  | .getVar .. => .getVar
  | .setVar .. => .setVar
  | .call .. => .call
  | .jumpIfNot .. => .jumpIfNot
  | .jumpIf .. => .jumpIf
  | .jump .. => .jump
  | .operate operation .. => .operate operation
  | .setNil .. => .setNil
  | .newTable .. => .newTable
  | .setField .. => .setField
  | .setTable .. => .setTable
  | .pushTable .. => .pushTable
  | .newScope .. => .newScope
  | .scopeGet .. => .scopeGet
  | .scopeSet .. => .scopeSet
  | .getField .. => .getField

/-- The operands in the order in which they are written. -/
def operands : Instruction τ → List (Operand τ)
  | .load constant dst => [.constant constant, .register dst]
  | .getVar name dst => [.constant name, .register dst]
  | .setVar src name => [.register src, .constant name]
  | .call callee arguments dst => [.register callee, .registers arguments, .register dst]
  | .jumpIfNot condition target => [.register condition, .target target]
  | .jumpIf condition target => [.register condition, .target target]
  | .jump target => [.target target]
  | .operate _ lhs rhs dst => [.register lhs, .register rhs, .register dst]
  | .setNil dst => [.register dst]
  | .newTable dst => [.register dst]
  | .setField table key src => [.register table, .constant key, .register src]
  | .setTable table key src => [.register table, .register key, .register src]
  | .pushTable table src => [.register table, .register src]
  | .newScope dst none => [.register dst]
  | .newScope dst (some parent) => [.register dst, .register parent]
  | .scopeGet scope name dst => [.register scope, .constant name, .register dst]
  | .scopeSet scope name src => [.register scope, .constant name, .register src]
  | .getField table key dst => [.register table, .constant key, .register dst]

/-- The register that an instruction writes. -/
def dst? : Instruction τ → Option Register
  | .load _ dst => some dst
  | .getVar _ dst => some dst
  | .call _ _ dst => some dst
  | .operate _ _ _ dst => some dst
  | .setNil dst => some dst
  | .newTable dst => some dst
  | .newScope dst _ => some dst
  | .scopeGet _ _ dst => some dst
  | .getField _ _ dst => some dst
  | .setVar .. | .jumpIfNot .. | .jumpIf .. | .jump .. | .setField .. | .setTable .. | .pushTable ..
  | .scopeSet .. => none

/-- The place that an instruction may jump to. -/
def target? : Instruction τ → Option τ
  | .jumpIfNot _ target => some target
  | .jumpIf _ target => some target
  | .jump target => some target
  | .load .. | .getVar .. | .setVar .. | .call .. | .operate .. | .setNil .. | .newTable .. | .setField ..
  | .setTable .. | .pushTable .. | .newScope .. | .scopeGet .. | .scopeSet .. | .getField .. => none

/-- Replaces the place that a jump goes to, or fails as the replacement does. -/
def mapTargetM {ε : Type} (f : τ → Except ε σ) : Instruction τ → Except ε (Instruction σ)
  | .jumpIfNot condition target => (f target).map (.jumpIfNot condition)
  | .jumpIf condition target => (f target).map (.jumpIf condition)
  | .jump target => (f target).map .jump
  | .load constant dst => .ok (.load constant dst)
  | .getVar name dst => .ok (.getVar name dst)
  | .setVar src name => .ok (.setVar src name)
  | .call callee arguments dst => .ok (.call callee arguments dst)
  | .operate operation lhs rhs dst => .ok (.operate operation lhs rhs dst)
  | .setNil dst => .ok (.setNil dst)
  | .newTable dst => .ok (.newTable dst)
  | .setField table key src => .ok (.setField table key src)
  | .setTable table key src => .ok (.setTable table key src)
  | .pushTable table src => .ok (.pushTable table src)
  | .newScope dst parent => .ok (.newScope dst parent)
  | .scopeGet scope name dst => .ok (.scopeGet scope name dst)
  | .scopeSet scope name src => .ok (.scopeSet scope name src)
  | .getField table key dst => .ok (.getField table key dst)

/-- An instruction in a listing: its name and its operands, with a blank before each of them. -/
def listing (instruction : Instruction JumpTarget) : List Char :=
  instruction.opcode.name.toList ++ instruction.operands.flatMap fun operand => ' ' :: operand.listing

end Instruction
end ScriptBytecode
