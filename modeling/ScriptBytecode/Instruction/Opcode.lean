/-!
# Opcodes

Every kind of instruction has a number and a name. Number 20 is reserved and names no instruction.
-/

namespace ScriptBytecode

/-- The operations on two values. -/
inductive Operation where
  | add
  | sub
  | div
  | mul
  | pow
  | mod
  | eq
deriving DecidableEq

/-- The kinds of instructions. -/
inductive Opcode where
  | load
  | getVar
  | setVar
  | call
  | jumpIfNot
  | jumpIf
  | jump
  | operate (operation : Operation)
  | setNil
  | newTable
  | setField
  | setTable
  | pushTable
  | newScope
  | scopeGet
  | scopeSet
  | getField
deriving DecidableEq

namespace Opcode

/-- All opcodes in the order of their numbers. -/
def all : List Opcode :=
  [.load, .getVar, .setVar, .call, .jumpIfNot, .jumpIf, .jump, .operate .add, .operate .sub, .operate .div,
    .operate .mul, .operate .pow, .operate .mod, .operate .eq, .setNil, .newTable, .setField, .setTable,
    .pushTable, .newScope, .scopeGet, .scopeSet, .getField]

def code : Opcode → UInt8
  | .load => 1
  | .getVar => 2
  | .setVar => 3
  | .call => 4
  | .jumpIfNot => 5
  | .jumpIf => 6
  | .jump => 7
  | .operate .add => 8
  | .operate .sub => 9
  | .operate .div => 10
  | .operate .mul => 11
  | .operate .pow => 12
  | .operate .mod => 13
  | .operate .eq => 14
  | .setNil => 15
  | .newTable => 16
  | .setField => 17
  | .setTable => 18
  | .pushTable => 19
  | .newScope => 21
  | .scopeGet => 22
  | .scopeSet => 23
  | .getField => 24

def ofCode? (code : UInt8) : Option Opcode :=
  all.find? fun opcode => opcode.code == code

def name : Opcode → String
  | .load => "LOAD"
  | .getVar => "GETVAR"
  | .setVar => "SETVAR"
  | .call => "CALL"
  | .jumpIfNot => "JUMPIFNOT"
  | .jumpIf => "JUMPIF"
  | .jump => "JUMP"
  | .operate .add => "ADD"
  | .operate .sub => "SUB"
  | .operate .div => "DIV"
  | .operate .mul => "MUL"
  | .operate .pow => "POW"
  | .operate .mod => "MOD"
  | .operate .eq => "EQ"
  | .setNil => "SETNIL"
  | .newTable => "NEWTABLE"
  | .setField => "SETTABLEK"
  | .setTable => "SETTABLE"
  | .pushTable => "PUSHTABLE"
  | .newScope => "NEWSCOPE"
  | .scopeGet => "SCOPEGET"
  | .scopeSet => "SCOPESET"
  | .getField => "GETTABLE"

end Opcode
end ScriptBytecode
