import ScriptBytecode.Assembler.Scope
import ScriptBytecode.CompileError

/-!
# The assembler

The assembler holds a program under construction: its constants, its code with jumps to labels, the places of the
labels, how many registers are in use, and the scopes. Every value gets a register of its own, from the first one on.
`finish` replaces the labels by their places and validates the program.
-/

namespace ScriptBytecode

/-- A program under construction. -/
structure Assembler where
  constants : ConstantPool
  lastRegister : UInt32
  code : Array (Instruction Label)
  labels : LabelTable
  scopes : ScopeChain

/-- A step of the construction, which may fail. -/
abbrev Assembling (α : Type) := StateT Assembler (Except CompileError) α

namespace Assembler

def empty : Assembler := ⟨.empty, 0, #[], .empty, .empty⟩

/-- The place of the next instruction. -/
def position (assembler : Assembler) : UInt32 :=
  UInt32.ofNat assembler.code.size

def fail {α : Type} (error : CompileError) : Assembling α := fun _ =>
  .error error

/-- The place of a constant in the pool. -/
def addConstant (constant : Constant) : Assembling ConstantIndex := fun assembler =>
  if assembler.constants.isFull && (assembler.constants.find? constant).isNone then .error .tooManyConstants
  else
    let (index, constants) := assembler.constants.add constant
    .ok (⟨index⟩, { assembler with constants := constants })

def addString (value : String) : Assembling ConstantIndex :=
  addConstant (.string value)

/-- A register that no value has yet. -/
def allocate : Assembling Register := fun assembler =>
  if assembler.lastRegister.toNat + 1 < UInt32.size then
    let register := assembler.lastRegister + 1
    .ok (⟨register⟩, { assembler with lastRegister := register })
  else .error .tooManyRegisters

/-- Puts an instruction behind the code. -/
def emit (instruction : Instruction Label) : Assembling Unit := fun assembler =>
  .ok ((), { assembler with code := assembler.code.push instruction })

/-- A label for a place that is still to come. -/
def newLabel : Assembling Label := fun assembler =>
  let (label, labels) := assembler.labels.create
  .ok (label, { assembler with labels := labels })

/-- A label for the place of the next instruction. -/
def labelHere : Assembling Label := fun assembler =>
  let (label, labels) := assembler.labels.createAt assembler.position
  .ok (label, { assembler with labels := labels })

/-- Gives a label a place. -/
def bindLabelAt (label : Label) (pc : UInt32) : Assembling Unit := fun assembler =>
  .ok ((), { assembler with labels := assembler.labels.bind label pc })

/-- Gives a label the place of the next instruction. -/
def bindLabel (label : Label) : Assembling Unit := fun assembler =>
  bindLabelAt label assembler.position assembler

/-- Enters a scope, in the script and with a scope object of its own. -/
def enterScope : Assembling Register := do
  let register ← allocate
  fun assembler =>
    let scope := Instruction.newScope register assembler.scopes.currentRegister?
    .ok (register,
      { assembler with
        code := assembler.code.push scope
        scopes := (assembler.scopes.enter register).2 })

/-- Leaves the current scope. Its scope object is no longer used. -/
def exitScope : Assembling Unit := fun assembler =>
  .ok ((), { assembler with scopes := assembler.scopes.exit })

/-- The register of the current scope object. -/
def scopeRegister : Assembling Register := fun assembler =>
  match assembler.scopes.currentRegister? with
  | some register => .ok (register, assembler)
  | none => .error .noScope

/-- The binding of a name in the current scope or around it. -/
def resolveVariable (name : String) : Assembling (Option ResolvedBinding) := fun assembler =>
  .ok (assembler.scopes.lookup name, assembler)

/-- Binds a name where it is bound already, or else in the current scope. -/
def defineVariable (name : String) (register : Register) : Assembling Unit := fun assembler =>
  match assembler.scopes.define name register with
  | some (_, scopes) => .ok ((), { assembler with scopes := scopes })
  | none => .error .noScope

end Assembler

/-- The place of a label that has to have one. -/
def LabelTable.resolve (table : LabelTable) (label : Label) : Except CompileError JumpTarget :=
  match table.target? label with
  | some target => .ok target
  | none => .error (.unresolvedLabel label)

namespace Assembler

/-- Code whose jumps go to the places of their labels. -/
def resolveCode (labels : LabelTable) :
    List (Instruction Label) → Except CompileError (List (Instruction JumpTarget))
  | [] => .ok []
  | instruction :: code =>
      match instruction.mapTargetM labels.resolve with
      | .error error => .error error
      | .ok resolved =>
          match resolveCode labels code with
          | .error error => .error error
          | .ok rest => .ok (resolved :: rest)

/-- The finished program. The first label without a place is reported before any fault of the program. -/
def finish (assembler : Assembler) : Except CompileError Program :=
  match resolveCode assembler.labels assembler.code.toList with
  | .error error => .error error
  | .ok code =>
      let program : Program := ⟨assembler.constants, code.toArray⟩
      match program.validate with
      | .error fault => .error (.invalidProgram fault)
      | .ok () => .ok program

end Assembler
end ScriptBytecode
