import ScriptBytecode.CommandLine.Arguments
import ScriptBytecode.Lowering.Statement
import ScriptBytecode.Program.Document
import ScriptBytecode.Program.Listing
import ScriptBytecode.Settings.Basic
import ScriptBytecode.Tree.Document

/-!
# Running commands

`plan` says what a command line does with the files that it can see: it fails, it prints a text, or it writes a text to
a file. The settings are read before the command looks at its input. `FileSystem.run` carries a plan out on a file
system; nothing but the file that a plan writes to is ever changed.
-/

namespace ScriptBytecode

/-- Why a command fails. The causes of one failure are listed from the outermost to the innermost. -/
inductive Cause where
  | message (text : String)
  /-- A text is no document of the wanted kind. -/
  | document (fault : DocumentFault)
  /-- The same, said of a program. -/
  | programDocument (fault : DocumentFault)
  /-- A file holds no settings. -/
  | settings (file : FileName) (fault : SettingsFault)
deriving DecidableEq

def Cause.text : Cause → String
  | .message text => text
  | .document fault => fault.message
  | .programDocument fault => "JSON error: " ++ fault.message
  | .settings file fault => "Failed to parse " ++ file.text ++ ": " ++ fault.message

/-- What a command line does. -/
inductive Plan where
  | inform (notice : Notice)
  | refuseUsage
  | fail (causes : List Cause)
  | print (text : String)
  | write (path : String) (text : String)
deriving DecidableEq

/-- The causes of the failure of a step on a file. -/
def fileFailure (step : String) (file : FileName) (causes : List Cause) : List Cause :=
  .message (step ++ " " ++ file.text) :: causes

/-- Reads a file. -/
def readFile (view : FileView) (file : FileName) : Except (List Cause) String :=
  match view.read file with
  | .ok text => .ok text
  | .error fault => .error (fileFailure "Failed to read" file [.message fault.message])

/-- The settings file of a command: the one it names, or the nearest one. -/
def settingsFile? (view : FileView) (directory : Names) : Option String → Option FileName
  | some path => some (.given path)
  | none => Settings.find view.isPresent directory

def readSettings (view : FileView) (file : Option FileName) : Except (List Cause) Settings :=
  match file with
  | none => .ok .default
  | some file =>
      match readFile view file with
      | .error causes => .error causes
      | .ok text =>
          match Settings.parse text with
          | .ok settings => .ok settings
          | .error fault => .error [.settings file fault]

/-- Compiles the text of a syntax tree and writes the program as a document or as a listing. -/
def compileText (structured : Bool) (text : String) : Except (List Cause) String :=
  match Chunk.parse text with
  | .error fault => .error [.message "Invalid syntax tree", .document fault]
  | .ok chunk =>
      match chunk.compile with
      | .error error => .error [.message error.message]
      | .ok program =>
          if structured then
            match program.indented with
            | .error fault => .error [.message fault.message]
            | .ok document => .ok (document ++ "\n")
          else .ok program.listing

/-- The causes that a text is no program. -/
def programCauses : Program.ReadFault → List Cause
  | .document fault => [.programDocument fault, .document fault]
  | .instruction fault => [.message ("JSON error: " ++ fault.message), .message fault.message]
  | .validity fault => [.message fault.message]

/-- The listing of the program that a text holds. -/
def disassembleText (text : String) : Except (List Cause) String :=
  match Program.parse text with
  | .error fault => .error (programCauses fault)
  | .ok program => .ok program.listing

/-- What a command does. -/
def planCommand (view : FileView) (settings : Settings) : Command → Except (List Cause) Plan
  | .compile input structured output => do
      let file := FileName.given input
      let text ← readFile view file
      match compileText (structured || settings.structuredOutput) text with
      | .error causes => .error (fileFailure "Failed to compile" file causes)
      | .ok rendered =>
          match output with
          | some path => return .write path rendered
          | none => return .print rendered
  | .disassemble input => do
      let file := FileName.given input
      let text ← readFile view file
      match disassembleText text with
      | .error causes => .error (fileFailure "Invalid program" file causes)
      | .ok rendered => return .print rendered

def planInvocation (view : FileView) (directory : Names) (invocation : Invocation) :
    Except (List Cause) Plan := do
  let settings ← readSettings view (settingsFile? view directory invocation.settingsFile)
  planCommand view settings invocation.command

/-- What a command line does in a directory. -/
def plan (view : FileView) (directory : Names) (arguments : List String) : Plan :=
  match Arguments.parse arguments with
  | .usageError => .refuseUsage
  | .notice notice => .inform notice
  | .run invocation =>
      match planInvocation view directory invocation with
      | .ok plan => plan
      | .error causes => .fail causes

/-- How a run ends. -/
inductive Outcome where
  | succeeded (output : String)
  | failed (causes : List Cause)
  | refused
deriving DecidableEq

def Outcome.exitCode : Outcome → Nat
  | .succeeded _ => 0
  | .failed _ => 1
  | .refused => 2

/-- What a run prints. -/
def Outcome.output : Outcome → String
  | .succeeded output => output
  | _ => ""

/-- How the program is called. -/
def usageText : String :=
  "Usage: lumo [-v] [--config FILE] compile FILE [--structured] [-o FILE]\n" ++
    "       lumo [-v] [--config FILE] disasm FILE\n"

def Notice.text : Notice → String
  | .version => "lumo 0.1.0\n"
  | .help => "Compile Lua-like syntax trees to register bytecode\n\n" ++ usageText

/-- The causes that a file cannot be written. -/
def writeFailure (path : String) (fault : FileFault) : List Cause :=
  fileFailure "Failed to write" (.given path) [.message fault.message]

namespace FileSystem

/-- Carries a plan out. -/
def perform (files : FileSystem) (directory : Names) : Plan → Outcome × FileSystem
  | .inform notice => (.succeeded notice.text, files)
  | .refuseUsage => (.refused, files)
  | .fail causes => (.failed causes, files)
  | .print text => (.succeeded text, files)
  | .write path text =>
      match files.write directory path text with
      | .ok changed => (.succeeded "", changed)
      | .error fault => (.failed (writeFailure path fault), files)

/-- Runs a command line in a directory of the file system. -/
def run (files : FileSystem) (directory : Names) (arguments : List String) : Outcome × FileSystem :=
  files.perform directory (plan (files.view directory) directory arguments)

end FileSystem
end ScriptBytecode
