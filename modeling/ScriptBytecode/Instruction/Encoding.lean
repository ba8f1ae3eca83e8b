import ScriptBytecode.Instruction.Basic

/-!
# Instructions as documents write them

An encoded instruction is a number and a list of words and word lists. Decoding looks at the number first, then at the
count of the operands, then at each operand in turn, and its fault is the first one that it meets.
-/

namespace ScriptBytecode

/-- An instruction as documents write it. -/
structure EncodedInstruction where
  code : UInt8
  data : List RawOperand
deriving DecidableEq

/-- What is wrong with the operands of an encoded instruction. -/
inductive OperandFault where
  | count (expected found : Nat)
  /-- A new scope has a register and perhaps a parent. -/
  | scopeCount (found : Nat)
  | notWord (slot : Nat)
  | notWords (slot : Nat)
  /-- No operand stands in a slot that is read. -/
  | missing (slot : Nat)
deriving DecidableEq

def OperandFault.reason : OperandFault → String
  | .count expected found => s!"expected {expected} operands, found {found}"
  | .scopeCount found => s!"expected 1 or 2 operands, found {found}"
  | .notWord slot => s!"operand {slot} must be an integer"
  | .notWords slot => s!"operand {slot} must be a register list"
  | .missing slot => s!"missing operand {slot}"

/-- Why an encoded instruction is no instruction. -/
inductive DecodeFault where
  | invalidOpcode (code : UInt8)
  | invalidOperand (opcode : Opcode) (position : Nat) (fault : OperandFault)
deriving DecidableEq

def DecodeFault.message : DecodeFault → String
  | .invalidOpcode code => s!"Invalid opcode: {code.toNat}"
  | .invalidOperand opcode position fault =>
      s!"Invalid operand for {opcode.name} at instruction {position}: {fault.reason}"

namespace Instruction

def encode (instruction : Instruction JumpTarget) : EncodedInstruction :=
  ⟨instruction.opcode.code, instruction.operands.map Operand.raw⟩

/-- Refuses operands of another count. -/
def checkCount (expected : Nat) (data : List RawOperand) : Except OperandFault Unit :=
  if data.length = expected then .ok () else .error (.count expected data.length)

/-- The word in a slot. -/
def wordAt (data : List RawOperand) (slot : Nat) : Except OperandFault UInt32 :=
  match data[slot]? with
  | some (.word value) => .ok value
  | some (.words _) => .error (.notWord slot)
  | none => .error (.missing slot)

/-- The list of registers in a slot. -/
def registersAt (data : List RawOperand) (slot : Nat) : Except OperandFault (List Register) :=
  match data[slot]? with
  | some (.words values) => .ok (values.map Register.mk)
  | some (.word _) => .error (.notWords slot)
  | none => .error (.missing slot)

/-- Reads the only operand. -/
def decodeOne {α : Type} (make : UInt32 → α) (data : List RawOperand) : Except OperandFault α := do
  checkCount 1 data
  let a ← wordAt data 0
  return make a

/-- Reads two operands. -/
def decodeTwo {α : Type} (make : UInt32 → UInt32 → α) (data : List RawOperand) : Except OperandFault α := do
  checkCount 2 data
  let a ← wordAt data 0
  let b ← wordAt data 1
  return make a b

/-- Reads three operands. -/
def decodeThree {α : Type} (make : UInt32 → UInt32 → UInt32 → α) (data : List RawOperand) :
    Except OperandFault α := do
  checkCount 3 data
  let a ← wordAt data 0
  let b ← wordAt data 1
  let c ← wordAt data 2
  return make a b c

/-- Reads the callee, the arguments and the destination of a call. -/
def decodeCall (data : List RawOperand) : Except OperandFault (Instruction JumpTarget) := do
  checkCount 3 data
  let callee ← wordAt data 0
  let arguments ← registersAt data 1
  let dst ← wordAt data 2
  return .call ⟨callee⟩ arguments ⟨dst⟩

/-- Reads the register and the parent of a new scope. -/
def decodeScope (data : List RawOperand) : Except OperandFault (Instruction JumpTarget) :=
  match data.length with
  | 1 => do
      let dst ← wordAt data 0
      return .newScope ⟨dst⟩ none
  | 2 => do
      let dst ← wordAt data 0
      let parent ← wordAt data 1
      return .newScope ⟨dst⟩ (some ⟨parent⟩)
  | found => .error (.scopeCount found)

/-- Reads the operands of an instruction of a given kind. -/
def decodeOperands : Opcode → List RawOperand → Except OperandFault (Instruction JumpTarget)
  | .load => decodeTwo fun constant dst => .load ⟨constant⟩ ⟨dst⟩
  | .getVar => decodeTwo fun name dst => .getVar ⟨name⟩ ⟨dst⟩
  | .setVar => decodeTwo fun src name => .setVar ⟨src⟩ ⟨name⟩
  | .call => decodeCall
  | .jumpIfNot => decodeTwo fun condition target => .jumpIfNot ⟨condition⟩ ⟨target⟩
  | .jumpIf => decodeTwo fun condition target => .jumpIf ⟨condition⟩ ⟨target⟩
  | .jump => decodeOne fun target => .jump ⟨target⟩
  | .operate operation => decodeThree fun lhs rhs dst => .operate operation ⟨lhs⟩ ⟨rhs⟩ ⟨dst⟩
  | .setNil => decodeOne fun dst => .setNil ⟨dst⟩
  | .newTable => decodeOne fun dst => .newTable ⟨dst⟩
  | .setField => decodeThree fun table key src => .setField ⟨table⟩ ⟨key⟩ ⟨src⟩
  | .setTable => decodeThree fun table key src => .setTable ⟨table⟩ ⟨key⟩ ⟨src⟩
  | .pushTable => decodeTwo fun table src => .pushTable ⟨table⟩ ⟨src⟩
  | .newScope => decodeScope
  | .scopeGet => decodeThree fun scope name dst => .scopeGet ⟨scope⟩ ⟨name⟩ ⟨dst⟩
  | .scopeSet => decodeThree fun scope name src => .scopeSet ⟨scope⟩ ⟨name⟩ ⟨src⟩
  | .getField => decodeThree fun table key dst => .getField ⟨table⟩ ⟨key⟩ ⟨dst⟩

/-- The instruction that an encoded one stands for. The position is the one that a fault reports. -/
def decode (encoded : EncodedInstruction) (position : Nat) : Except DecodeFault (Instruction JumpTarget) :=
  match Opcode.ofCode? encoded.code with
  | none => .error (.invalidOpcode encoded.code)
  | some opcode =>
      match decodeOperands opcode encoded.data with
      | .ok instruction => .ok instruction
      | .error fault => .error (.invalidOperand opcode position fault)

end Instruction
end ScriptBytecode
