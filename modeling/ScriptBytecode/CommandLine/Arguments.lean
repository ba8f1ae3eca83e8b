/-!
# The arguments of the command line

Arguments are taken from the left. Options may stand before and behind the name of the command; those that stand behind
it win over those before it. On either side an option is given once at most. An argument that asks for the version or
for help ends the reading, and what stands behind it is not looked at.
-/

namespace ScriptBytecode

/-- What the command line asks for. -/
inductive Command where
  | compile (input : String) (structured : Bool) (output : Option String)
  | disassemble (input : String)
deriving DecidableEq

structure Invocation where
  verbose : Bool
  settingsFile : Option String
  command : Command
deriving DecidableEq

/-- What the program tells about itself. -/
inductive Notice where
  | version
  | help
deriving DecidableEq

/-- What the arguments come to. -/
inductive Arguments where
  | run (invocation : Invocation)
  | notice (notice : Notice)
  | usageError
deriving DecidableEq

/-- The commands without their arguments. -/
inductive CommandName where
  | compile
  | disassemble
deriving DecidableEq

/-- The options on one side of the command name. -/
structure Options where
  verbose : Bool
  settingsFile : Option String
  structured : Bool
  output : Option String
  input : Option String

def Options.none : Options := ⟨false, .none, false, .none, .none⟩

/-- Where on the command line an argument stands. -/
inductive Side where
  | beforeCommand
  | behindCommand (name : CommandName) (before : Options)

/-- The options that are either given or not. -/
inductive Flag where
  | verbose
  | structured
deriving DecidableEq

/-- The options that have a value. -/
inductive ValueOption where
  | settingsFile
  | output
deriving DecidableEq

/-- What an option is. -/
inductive OptionKind where
  | flag (flag : Flag)
  | value (option : ValueOption)
  | notice (notice : Notice)

namespace Side

/-- The option with a long name. -/
def longOption? (side : Side) (name : String) : Option OptionKind :=
  match side, name with
  | _, "verbose" => some (.flag .verbose)
  | _, "config" => some (.value .settingsFile)
  | _, "help" => some (.notice .help)
  | .beforeCommand, "version" => some (.notice .version)
  | .behindCommand .compile _, "structured" => some (.flag .structured)
  | .behindCommand .compile _, "output" => some (.value .output)
  | _, _ => none

/-- The option with a letter. -/
def letterOption? (side : Side) (letter : Char) : Option OptionKind :=
  match side, letter with
  | _, 'v' => some (.flag .verbose)
  | _, 'h' => some (.notice .help)
  | .beforeCommand, 'V' => some (.notice .version)
  | .behindCommand .compile _, 'o' => some (.value .output)
  | _, _ => none

end Side

namespace Options

/-- Sets a flag that is not set yet. -/
def setFlag? (options : Options) : Flag → Option Options
  | .verbose => if options.verbose then .none else some { options with verbose := true }
  | .structured => if options.structured then .none else some { options with structured := true }

/-- Sets an option that is not set yet. Its value is a path, which is not empty. -/
def setValue? (options : Options) (option : ValueOption) (value : String) : Option Options :=
  if value.isEmpty then .none
  else
    match option with
    | .settingsFile =>
        if options.settingsFile.isSome then .none else some { options with settingsFile := some value }
    | .output => if options.output.isSome then .none else some { options with output := some value }

/-- Sets the input file if it is not set yet. -/
def setInput? (options : Options) (input : String) : Option Options :=
  if input.isEmpty || options.input.isSome then .none else some { options with input := some input }

end Options

/-- An argument by its form. -/
inductive ArgumentForm where
  | optionsEnd
  | long (name : String) (value : Option String)
  | letters (letters : List Char)
  | plain

/-- The form of an argument. A single hyphen is no option. -/
def argumentForm (argument : String) : ArgumentForm :=
  match argument.toList with
  | ['-', '-'] => .optionsEnd
  | '-' :: '-' :: rest =>
      let name := String.ofList (rest.takeWhile (· != '='))
      match rest.dropWhile (· != '=') with
      | [] => .long name none
      | _ :: value => .long name (some (String.ofList value))
  | '-' :: c :: rest => .letters (c :: rest)
  | _ => .plain

/-- Whether an argument can be the value of an option before it. -/
def isPlain (argument : String) : Bool :=
  match argumentForm argument with
  | .plain => true
  | _ => false

/-- What the letters of an argument come to. -/
inductive LettersOutcome where
  | read (options : Options)
  /-- The last letter is an option whose value is the next argument. -/
  | awaitsValue (option : ValueOption) (options : Options)
  | notice (notice : Notice)
  | refused

/-- Reads letters behind a hyphen. An option with a value takes the letters behind it as its value, with or without an
equals sign between them. -/
def readOptionLetters (side : Side) (options : Options) : List Char → LettersOutcome
  | [] => .read options
  | letter :: letters =>
      match side.letterOption? letter with
      | none => .refused
      | some (.notice notice) => .notice notice
      | some (.flag flag) =>
          match options.setFlag? flag with
          | some options => readOptionLetters side options letters
          | none => .refused
      | some (.value option) =>
          match letters with
          | [] => .awaitsValue option options
          | '=' :: value => read option (String.ofList value)
          | value => read option (String.ofList value)
where
  read (option : ValueOption) (value : String) : LettersOutcome :=
    match options.setValue? option value with
    | some options => .read options
    | none => .refused

/-- What the options come to when there are no more arguments. -/
def finishArguments (side : Side) (options : Options) : Arguments :=
  match side with
  | .beforeCommand => .usageError
  | .behindCommand name before =>
      match options.input with
      | none => .usageError
      | some input =>
          let verbose := before.verbose || options.verbose
          let settingsFile := options.settingsFile.or before.settingsFile
          match name with
          | .compile => .run ⟨verbose, settingsFile, .compile input options.structured options.output⟩
          | .disassemble => .run ⟨verbose, settingsFile, .disassemble input⟩

/-- Reads arguments behind the end of the options. -/
def readInputs (side : Side) (options : Options) : List String → Arguments
  | [] => finishArguments side options
  | argument :: arguments =>
      match side, options.setInput? argument with
      | .behindCommand .., some options => readInputs side options arguments
      | _, _ => .usageError

def commandNamed? : String → Option CommandName
  | "compile" => some .compile
  | "disasm" => some .disassemble
  | _ => none

/-- The name of the command for help. -/
def helpCommand : String := "help"

/-- Reads the arguments of the command for help: the name of a command at most. -/
def readHelpTopics : List String → Arguments
  | [] => .notice .help
  | [topic] => if topic = helpCommand ∨ (commandNamed? topic).isSome then .notice .help else .usageError
  | _ => .usageError

/-- Reads arguments with the options read before them. -/
def readArguments (side : Side) (options : Options) : List String → Arguments
  | [] => finishArguments side options
  | argument :: arguments =>
      match argumentForm argument with
      | .optionsEnd => readInputs side options arguments
      | .plain =>
          match side with
          | .beforeCommand =>
              match commandNamed? argument with
              | some name => readArguments (.behindCommand name options) .none arguments
              | none => if argument = helpCommand then readHelpTopics arguments else .usageError
          | .behindCommand .. =>
              match options.setInput? argument with
              | some options => readArguments side options arguments
              | none => .usageError
      | .long name value =>
          match side.longOption? name, value with
          | none, _ => .usageError
          | some (.notice notice), none => .notice notice
          | some (.notice _), some _ => .usageError
          | some (.flag flag), none =>
              match options.setFlag? flag with
              | some options => readArguments side options arguments
              | none => .usageError
          | some (.flag _), some _ => .usageError
          | some (.value option), some value =>
              match options.setValue? option value with
              | some options => readArguments side options arguments
              | none => .usageError
          | some (.value option), none =>
              match arguments with
              | [] => .usageError
              | value :: arguments =>
                  match isPlain value, options.setValue? option value with
                  | true, some options => readArguments side options arguments
                  | _, _ => .usageError
      | .letters letters =>
          match readOptionLetters side options letters with
          | .read options => readArguments side options arguments
          | .notice notice => .notice notice
          | .refused => .usageError
          | .awaitsValue option options =>
              match arguments with
              | [] => .usageError
              | value :: arguments =>
                  match isPlain value, options.setValue? option value with
                  | true, some options => readArguments side options arguments
                  | _, _ => .usageError

/-- Reads the arguments of the command line. -/
def Arguments.parse (arguments : List String) : Arguments :=
  readArguments .beforeCommand .none arguments

end ScriptBytecode
