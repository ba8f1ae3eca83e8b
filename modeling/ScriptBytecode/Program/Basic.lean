import ScriptBytecode.Constant.Pool
import ScriptBytecode.Instruction.Basic

/-!
# Programs

A program is a pool of constants and a sequence of instructions. It is valid when its constants can be written to a
document, its jumps go to an instruction or to the end, and the constants that it names are in the pool. `validate`
reports the first fault: constants first, then the instructions in order with the operands of each in order.
-/

namespace ScriptBytecode

structure Program where
  constants : ConstantPool
  instructions : Array (Instruction JumpTarget)

/-- Why a program is not valid. -/
inductive ValidityFault where
  | jumpTarget (target : JumpTarget) (position length : Nat)
  | constantIndex (constant : ConstantIndex) (position size : Nat)
  | nonFiniteConstant (index : UInt32)
deriving DecidableEq

def ValidityFault.message : ValidityFault → String
  | .jumpTarget target position length =>
      s!"Jump target PC{target.pc.toNat} at instruction {position} is out of range (program length {length})"
  | .constantIndex constant position size =>
      s!"Constant k{constant.index.toNat} at instruction {position} is out of range (pool size {size})"
  | .nonFiniteConstant index => s!"Constant k{index.toNat} is not a finite number"

namespace Program

def length (program : Program) : Nat :=
  program.instructions.size

/-- The fault of an operand of the instruction at a position. -/
def operandFault? (program : Program) (position : Nat) : Operand JumpTarget → Option ValidityFault
  | .target target =>
      if program.length < target.pc.toNat then some (.jumpTarget target position program.length) else none
  | .constant constant =>
      if program.constants.size ≤ constant.index.toNat then
        some (.constantIndex constant position program.constants.size)
      else none
  | .register _ => none
  | .registers _ => none

/-- The first fault among the operands of the instructions from a position on. -/
def instructionFault? (program : Program) : Nat → List (Instruction JumpTarget) → Option ValidityFault
  | _, [] => none
  | position, instruction :: instructions =>
      match instruction.operands.findSome? (program.operandFault? position) with
      | some fault => some fault
      | none => program.instructionFault? (position + 1) instructions

/-- The first place from `index` on of a constant that documents cannot hold, as a word. -/
def constantFault? : Nat → List Constant → Option ValidityFault
  | _, [] => none
  | index, constant :: constants =>
      if constant.isEncodable then constantFault? (index + 1) constants
      else some (.nonFiniteConstant (UInt32.ofNat index))

/-- The first fault of a program. -/
def fault? (program : Program) : Option ValidityFault :=
  match constantFault? 0 program.constants.constants.toList with
  | some fault => some fault
  | none => program.instructionFault? 0 program.instructions.toList

def validate (program : Program) : Except ValidityFault Unit :=
  match program.fault? with
  | some fault => .error fault
  | none => .ok ()

/-- The registers that the instructions write, in order. -/
def destinations (program : Program) : List Register :=
  program.instructions.toList.filterMap Instruction.dst?

end Program
end ScriptBytecode
