import ScriptBytecode.CommandLine.Log

/-!
# The program

Looks at the files that a command line can ask for, takes the plan of the library, and carries it out.
-/

namespace ScriptBytecode

/-- What was seen of one file. -/
structure SeenFile where
  isPresent : Bool
  content : Except FileFault String

/-- The view of the files that were looked at. -/
def viewOfSeen (seen : List (FileName × SeenFile)) : FileView where
  isPresent file :=
    match seen.lookup file with
    | some found => found.isPresent
    | none => false
  read file :=
    match seen.lookup file with
    | some found => found.content
    | none => .error .notFound

/-- The files that a command line can ask for. -/
def filesToLookAt (directory : Names) (arguments : List String) : List FileName :=
  match Arguments.parse arguments with
  | .run invocation =>
      let input :=
        match invocation.command with
        | .compile input _ _ => input
        | .disassemble input => input
      match invocation.settingsFile with
      | some path => [.given input, .given path]
      | none => .given input :: Settings.candidates directory
  | _ => []

/-- The text of a failure: its first cause, and the others below it. -/
def failureText (causes : List Cause) : String :=
  match causes.map Cause.text with
  | [] => ""
  | [text] => s!"Error: {text}\n"
  | [text, cause] => s!"Error: {text}\n\nCaused by:\n    {cause}\n"
  | text :: causes =>
      let lines := causes.zipIdx.map fun (cause, index) => s!"    {index}: {cause}\n"
      s!"Error: {text}\n\nCaused by:\n" ++ String.join lines

/-- The fault with a number of the operating system. -/
def faultOfCode (code : UInt32) (text : String) : FileFault :=
  if code = 20 then .notDirectory
  else if code = 21 then .isDirectory
  else if code = 36 then .nameTooLong
  else .other text

def faultOfError : IO.Error → FileFault
  | .noFileOrDirectory .. => .notFound
  | .permissionDenied .. => .permissionDenied
  | .inappropriateType _ code text => faultOfCode code text
  | .invalidArgument _ code text => faultOfCode code text
  | error => .other (toString error)

/-- Looks at one file. -/
def lookAt (file : FileName) : IO SeenFile := do
  let path := (← IO.currentDir) / file.text
  let isPresent ← path.pathExists
  let content ← (IO.FS.readBinFile path).toBaseIO
  match content with
  | .error error => return ⟨isPresent, .error (faultOfError error)⟩
  | .ok bytes =>
      match String.fromUTF8? bytes with
      | some text => return ⟨isPresent, .ok text⟩
      | none => return ⟨isPresent, .error .notText⟩

/-- Writes a text to a file. -/
def writeTo (path text : String) : IO (Except FileFault Unit) := do
  let target := (← IO.currentDir) / path
  match ← (IO.FS.writeFile target text).toBaseIO with
  | .ok () => return .ok ()
  | .error error => return .error (faultOfError error)

/-- Ends a run. -/
def report (outcome : Outcome) : IO UInt32 := do
  match outcome with
  | .succeeded output => IO.print output
  | .failed causes => IO.eprint (failureText causes)
  | .refused => IO.eprint usageText
  return UInt32.ofNat outcome.exitCode

/-- Carries a plan out on the real files. -/
def performPlan : Plan → IO Outcome
  | .inform notice => return .succeeded notice.text
  | .refuseUsage => return .refused
  | .fail causes => return .failed causes
  | .print text => return .succeeded text
  | .write path text => do
      match ← writeTo path text with
      | .ok () => return .succeeded ""
      | .error fault => return .failed (writeFailure path fault)

end ScriptBytecode

open ScriptBytecode in
def main (arguments : List String) : IO UInt32 := do
  let directory : Names := ((← IO.currentDir).toString).splitOn "/"
  let mut seen : List (FileName × SeenFile) := []
  for file in filesToLookAt directory arguments do
    seen := seen ++ [(file, ← lookAt file)]
  let view := viewOfSeen seen
  for event in log view directory arguments do
    IO.eprintln event.text
  report (← performPlan (plan view directory arguments))
