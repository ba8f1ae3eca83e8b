import ScriptBytecode.CommandLine.Run

/-!
# The log

With the flag for it a run tells what it did: that the settings were read, that a chunk is compiled, what the finished
program consists of, and what a program that was read consists of. A run that fails tells what it did before.
-/

namespace ScriptBytecode

/-- What a run tells. -/
inductive Event where
  | loadedSettings (file : FileName)
  | compilingChunk (statements : Nat)
  | finishedProgram (instructions constants registers labels : Nat)
  | decodedProgram (instructions constants : Nat)
deriving DecidableEq

/-- The line of an event, behind its time and its origin. -/
def Event.text : Event → String
  | .loadedSettings file => s!"loaded config path={file.text}"
  | .compilingChunk statements => s!"compiling chunk statements={statements}"
  | .finishedProgram instructions constants registers labels =>
      s!"program finished instructions={instructions} constants={constants} registers={registers} labels={labels}"
  | .decodedProgram instructions constants =>
      s!"decoded program instructions={instructions} constants={constants}"

/-- The event that an assembler was finished, if its program is complete. -/
def Assembler.finishEvents (assembler : Assembler) : List Event :=
  match assembler.finish with
  | .error _ => []
  | .ok program =>
      [.finishedProgram program.length program.constants.size assembler.lastRegister.toNat assembler.labels.size]

/-- The events of compiling the text of a syntax tree. -/
def compileEvents (text : String) : List Event :=
  match Chunk.parse text with
  | .error _ => []
  | .ok chunk =>
      let finished :=
        match lowerChunk chunk .empty with
        | .error _ => []
        | .ok ((), assembler) => assembler.finishEvents
      .compilingChunk chunk.body.length :: finished

/-- The events of disassembling the text of a program. -/
def disassembleEvents (text : String) : List Event :=
  match Program.parse text with
  | .error _ => []
  | .ok program => [.decodedProgram program.length program.constants.size]

def commandEvents (view : FileView) : Command → List Event
  | .compile input _ _ =>
      match view.read (.given input) with
      | .error _ => []
      | .ok text => compileEvents text
  | .disassemble input =>
      match view.read (.given input) with
      | .error _ => []
      | .ok text => disassembleEvents text

/-- The events of a run. The settings come first, and nothing follows settings that cannot be read. -/
def invocationEvents (view : FileView) (directory : Names) (invocation : Invocation) : List Event :=
  let file := settingsFile? view directory invocation.settingsFile
  match readSettings view file with
  | .error _ => []
  | .ok _ => file.toList.map .loadedSettings ++ commandEvents view invocation.command

/-- What a command line tells in a directory. -/
def log (view : FileView) (directory : Names) (arguments : List String) : List Event :=
  match Arguments.parse arguments with
  | .run invocation => if invocation.verbose then invocationEvents view directory invocation else []
  | _ => []

end ScriptBytecode
