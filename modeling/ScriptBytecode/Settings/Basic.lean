import ScriptBytecode.FileSystem
import ScriptBytecode.Settings.Toml.Table

/-!
# Settings

The settings say in which form a compiled program is written. They are read from a file that the command line names,
or from the nearest file with one of the usual names: the working directory is looked at first, then the directories
around it from the inside out, and in each of them the names in their order.
-/

namespace ScriptBytecode

structure Settings where
  /-- Whether a compiled program is written as a document and not as a listing. -/
  structuredOutput : Bool
deriving DecidableEq

/-- Why a text holds no settings. -/
inductive SettingsFault where
  | malformed
  | numberRange
  /-- The output settings are no table. -/
  | notTable
  | notBoolean
  /-- The flag has a value under both of its names. -/
  | repeatedFlag
deriving DecidableEq

def SettingsFault.message : SettingsFault → String
  | .malformed => "invalid document"
  | .numberRange => "number out of range"
  | .notTable => "invalid type, expected struct OutputConfig"
  | .notBoolean => "invalid type, expected a boolean"
  | .repeatedFlag => "duplicate field `structured_output`"

namespace Settings

/-- The settings without a settings file. -/
def default : Settings := ⟨false⟩

/-- The usual names of settings files. -/
def fileNames : List String := ["lumo.toml", ".lumorc.toml"]

def booleanOf : Toml.Tree → Except SettingsFault Bool
  | .scalar (.boolean value) => .ok value
  | _ => .error .notBoolean

/-- The flag in the entries of the output table, under one of its two names but not under both. -/
def flagOfEntries (entries : Toml.Entries) : Except SettingsFault Bool :=
  match entries.lookup "structured_output", entries.lookup "structuredOutput" with
  | none, none => .ok false
  | some value, none => booleanOf value
  | none, some value => booleanOf value
  | some _, some _ => .error .repeatedFlag

/-- The flag in the output settings. They are a table, or the list of its values, of which only the first one is looked
at. A date stands for a table without the flag. -/
def flagOfOutput : Toml.Tree → Except SettingsFault Bool
  | .table _ entries => if Toml.areEntriesInRange entries then flagOfEntries entries else .error .numberRange
  | .array [] => .ok false
  | .array (first :: _) => booleanOf first
  | .tables _ _ => .error .notBoolean
  | .scalar .moment => .ok false
  | .scalar _ => .error .notTable

/-- Reads the text of a settings file. Numbers that nothing asks for must be in range too. -/
def parse (text : String) : Except SettingsFault Settings :=
  match Toml.parse text with
  | none => .error .malformed
  | some entries =>
      if Toml.areEntriesInRange (entries.filter fun entry => entry.1 != "output") then
        match entries.lookup "output" with
        | none => .ok default
        | some output => (flagOfOutput output).map Settings.mk
      else .error .numberRange

/-- The first file with a usual name in a directory. -/
def findIn (isPresent : FileName → Bool) (directory : Names) : Option FileName :=
  (fileNames.map (FileName.found directory)).find? isPresent

/-- The first file with a usual name in the directories from one outwards, which is given by its names from the inside
out. -/
def findFrom (isPresent : FileName → Bool) : Names → Option FileName
  | [] => none
  | name :: outer =>
      match findIn isPresent (name :: outer).reverse with
      | some file => some file
      | none => findFrom isPresent outer

/-- The nearest settings file of a directory. -/
def find (isPresent : FileName → Bool) (directory : Names) : Option FileName :=
  findFrom isPresent directory.reverse

/-- A directory and the directories around it, from the inside out. -/
def directoriesOutwards (directory : Names) : List Names :=
  (List.range directory.length).map fun dropped => directory.take (directory.length - dropped)

/-- All files that can be the settings file of a directory, the nearest first. -/
def candidates (directory : Names) : List FileName :=
  (directoriesOutwards directory).flatMap fun names => fileNames.map (FileName.found names)

end Settings
end ScriptBytecode
