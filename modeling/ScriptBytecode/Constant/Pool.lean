import ScriptBytecode.Constant.Basic

/-!
# The pool of constants

Instructions name a constant by its place in the pool. Adding a constant that the pool already holds gives the first
place where it stands and leaves the pool as it is. Places are 32-bit words.
-/

namespace ScriptBytecode

/-- The constants of a program in their order. -/
structure ConstantPool where
  constants : Array Constant

namespace ConstantPool

def empty : ConstantPool := ⟨#[]⟩

def size (pool : ConstantPool) : Nat :=
  pool.constants.size

def get? (pool : ConstantPool) (index : Nat) : Option Constant :=
  pool.constants[index]?

/-- The first place of a constant. -/
def find? (pool : ConstantPool) (constant : Constant) : Option Nat :=
  pool.constants.toList.findIdx? fun held => decide (held = constant)

/-- Whether a constant that the pool does not hold would get a place beyond the 32-bit words. -/
def isFull (pool : ConstantPool) : Bool :=
  decide (UInt32.size ≤ pool.size)

/-- The place of a constant, and the pool with that constant in it. -/
def add (pool : ConstantPool) (constant : Constant) : UInt32 × ConstantPool :=
  match pool.find? constant with
  | some index => (UInt32.ofNat index, pool)
  | none => (UInt32.ofNat pool.size, ⟨pool.constants.push constant⟩)

end ConstantPool
end ScriptBytecode
