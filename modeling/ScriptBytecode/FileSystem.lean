/-!
# Files

A directory is the list of the names that lead to it; the first of them is the name of the root. A file is named by a
path that was given, which is taken from the working directory on, or by a directory and a name in it. The file system
is a list of directories and a list of files. Not every file is a text, and not every file may be read or written.
-/

namespace ScriptBytecode

/-- The names from the root to a directory or a file, with the name of the root in front. -/
abbrev Names := List String

/-- How a file is named. -/
inductive FileName where
  | given (path : String)
  | found (directory : Names) (name : String)
deriving DecidableEq

def FileName.text : FileName → String
  | .given path => path
  | .found directory name => "/".intercalate (directory ++ [name])

/-- Why a file cannot be read or written. -/
inductive FileFault where
  | notFound
  | notDirectory
  | isDirectory
  | nameTooLong
  | permissionDenied
  /-- The bytes of the file are no text. -/
  | notText
  | other (text : String)
deriving DecidableEq

def FileFault.message : FileFault → String
  | .notFound => "No such file or directory (os error 2)"
  | .notDirectory => "Not a directory (os error 20)"
  | .isDirectory => "Is a directory (os error 21)"
  | .nameTooLong => "File name too long (os error 36)"
  | .permissionDenied => "Permission denied (os error 13)"
  | .notText => "stream did not contain valid UTF-8"
  | .other text => text

/-- What a program can see of the files. -/
structure FileView where
  isPresent : FileName → Bool
  read : FileName → Except FileFault String

/-- What is in a file. -/
inductive FileContent where
  | text (text : String)
  /-- Bytes that are no text. -/
  | binary (bytes : List UInt8)
deriving DecidableEq

/-- What may be done with a file. -/
inductive FileAccess where
  | readWrite
  | readOnly
  | denied
deriving DecidableEq

structure StoredFile where
  content : FileContent
  access : FileAccess
deriving DecidableEq

namespace StoredFile

/-- A file as writing leaves it. -/
def ofText (text : String) : StoredFile := ⟨.text text, .readWrite⟩

def read (file : StoredFile) : Except FileFault String :=
  match file.access, file.content with
  | .denied, _ => .error .permissionDenied
  | _, .text text => .ok text
  | _, .binary _ => .error .notText

end StoredFile

/-- The directories and the files. -/
structure FileSystem where
  directories : List Names
  files : List (Names × StoredFile)

/-- What stands under a name. -/
inductive FileEntry where
  | directory
  | file (file : StoredFile)
  | missing
deriving DecidableEq

/-- The text of a path, cut at its slashes. -/
def pathParts (path : String) : List String :=
  (path.toList.splitOn '/').map String.ofList

/-- The directory around a directory; the root is its own. -/
def parentDirectory : Names → Names
  | [] => []
  | [root] => [root]
  | root :: names => root :: names.dropLast

/-- The most bytes that one name may have. -/
def nameLimit : Nat := 255

/-- The most bytes that a path may have. -/
def pathLimit : Nat := 4095

namespace FileSystem

def entry (files : FileSystem) (names : Names) : FileEntry :=
  match files.files.lookup names with
  | some file => .file file
  | none => if files.directories.contains names then .directory else .missing

/-- Follows the parts of a path from a directory on. Only the last part may be missing or a file, and a name is too long
only when it is looked for. -/
def follow (files : FileSystem) : Names → List String → Except FileFault Names
  | directory, [] => .ok directory
  | directory, part :: parts =>
      if part = "" ∨ part = "." then files.follow directory parts
      else if part = ".." then files.follow (parentDirectory directory) parts
      else if nameLimit < part.utf8ByteSize then .error .nameTooLong
      else
        match files.entry (directory ++ [part]) with
        | .directory => files.follow (directory ++ [part]) parts
        | .file _ => if parts.isEmpty then .ok (directory ++ [part]) else .error .notDirectory
        | .missing => if parts.isEmpty then .ok (directory ++ [part]) else .error .notFound

/-- The directory that a path starts from. A path that starts with a slash starts at the root without a name. -/
def startOf (workingDirectory : Names) (path : String) : Names :=
  if path.startsWith "/" then [""] else workingDirectory

/-- The names that a path leads to. -/
def locate (files : FileSystem) (workingDirectory : Names) : FileName → Except FileFault Names
  | .given path =>
      if pathLimit < path.utf8ByteSize then .error .nameTooLong
      else files.follow (startOf workingDirectory path) (pathParts path)
  | .found directory name => .ok (directory ++ [name])

def read (files : FileSystem) (workingDirectory : Names) (file : FileName) : Except FileFault String :=
  match files.locate workingDirectory file with
  | .error fault => .error fault
  | .ok names =>
      match files.entry names with
      | .file file => file.read
      | .directory => .error .isDirectory
      | .missing => .error .notFound

/-- Whether there is a file or a directory of that name. -/
def isPresent (files : FileSystem) (workingDirectory : Names) (file : FileName) : Bool :=
  match files.locate workingDirectory file with
  | .error _ => false
  | .ok names => decide (files.entry names ≠ .missing)

def view (files : FileSystem) (workingDirectory : Names) : FileView :=
  ⟨files.isPresent workingDirectory, files.read workingDirectory⟩

/-- Puts a file under a name, in the place of the one that is there. -/
def insert (names : Names) (file : StoredFile) : List (Names × StoredFile) → List (Names × StoredFile)
  | [] => [(names, file)]
  | (other, held) :: files =>
      if other = names then (names, file) :: files else (other, held) :: insert names file files

/-- A path with slashes at its end, without them. -/
def dropLastSlashes (parts : List String) : List String :=
  (parts.reverse.dropWhile fun part => part == "").reverse

/-- The names of the file that a path to write to leads to. A path that ends in a slash names a directory, whether or
not there is one; only the directory around it is looked for. -/
def locateToWrite (files : FileSystem) (workingDirectory : Names) (path : String) : Except FileFault Names :=
  let start := startOf workingDirectory path
  if pathLimit < path.utf8ByteSize then .error .nameTooLong
  else if path.endsWith "/" then
    match files.follow start ((dropLastSlashes (pathParts path)).dropLast ++ ["."]) with
    | .error fault => .error fault
    | .ok _ => .error .isDirectory
  else files.follow start (pathParts path)

/-- Writes a text to a file. The file need not exist, but its directory must; a file that exists must be open to it. -/
def write (files : FileSystem) (workingDirectory : Names) (path text : String) :
    Except FileFault FileSystem :=
  match files.locateToWrite workingDirectory path with
  | .error fault => .error fault
  | .ok names =>
      match files.entry names with
      | .directory => .error .isDirectory
      | .file ⟨_, .readOnly⟩ => .error .permissionDenied
      | .file ⟨_, .denied⟩ => .error .permissionDenied
      | _ => .ok { files with files := insert names (.ofText text) files.files }

end FileSystem
end ScriptBytecode
