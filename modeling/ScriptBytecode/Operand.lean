/-!
# Operands

Registers, constants and jump targets are all 32-bit words; each has a type of its own so that none is taken for
another. `Operand` is what an instruction shows of its operands: it is written into listings and, as a `RawOperand`,
into documents, where the kinds of words are no longer told apart.
-/

namespace ScriptBytecode

/-- A register of the machine. -/
structure Register where
  index : UInt32
deriving DecidableEq

/-- The place of a constant in the pool. -/
structure ConstantIndex where
  index : UInt32
deriving DecidableEq

/-- The place of an instruction in a program, where a jump goes. -/
structure JumpTarget where
  pc : UInt32
deriving DecidableEq

/-- A word in a listing, behind the letters of its kind. -/
def listWord (kind : List Char) (word : UInt32) : List Char :=
  kind ++ Nat.toDigits 10 word.toNat

def Register.listing (register : Register) : List Char :=
  listWord ['r'] register.index

def ConstantIndex.listing (constant : ConstantIndex) : List Char :=
  listWord ['k'] constant.index

def JumpTarget.listing (target : JumpTarget) : List Char :=
  listWord ['P', 'C'] target.pc

/-- An operand of an instruction whose jumps go to places of type `τ`. -/
inductive Operand (τ : Type) where
  | register (register : Register)
  | constant (constant : ConstantIndex)
  | target (target : τ)
  | registers (registers : List Register)
deriving DecidableEq

/-- An operand as documents write it. -/
inductive RawOperand where
  | word (value : UInt32)
  | words (values : List UInt32)
deriving DecidableEq

/-- Texts with a blank between each two of them. -/
def joinBlank : List (List Char) → List Char
  | [] => []
  | [text] => text
  | text :: texts => text ++ ' ' :: joinBlank texts

namespace Operand

/-- The words of an operand. -/
def raw : Operand JumpTarget → RawOperand
  | .register r => .word r.index
  | .constant k => .word k.index
  | .target place => .word place.pc
  | .registers rs => .words (rs.map (·.index))

/-- An operand in a listing. -/
def listing : Operand JumpTarget → List Char
  | .register r => r.listing
  | .constant k => k.listing
  | .target place => place.listing
  | .registers rs => '[' :: joinBlank (rs.map Register.listing) ++ [']']

end Operand
end ScriptBytecode
