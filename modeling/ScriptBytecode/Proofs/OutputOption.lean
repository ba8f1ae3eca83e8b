import ScriptBytecode.Proofs.CommandLineGrammar

/-!
# Command lines without the output option

An output file is named by one option, in one of the spellings of `OutputOption`. A step that names it can be left out,
or cut down to the flags before its letter (`Takes.none_or_namesOutput`); the steps behind it take the same arguments
whether the output is known or not (`Takes.keepsOutput`). So the command line without the option is accepted too, and
asks for the same without an output file (`exists_omitsOutput`).
-/

namespace ScriptBytecode

/-! ## The spellings of the output option -/

/-- An argument of flags, or no argument if there are none. -/
def flagArgument : List Char → List String
  | [] => []
  | flags => [String.ofList ('-' :: flags)]

/-- The arguments that name an output file, and what is left of them without it. The letter of the option may stand
behind flags, which are left then. -/
inductive OutputOption (path : String) : List String → List String → Prop
  | long : OutputOption path ["--output", path] []
  | joined : OutputOption path ["--output=" ++ path] []
  | letter (flags : List Char) : OutputOption path [String.ofList ('-' :: (flags ++ ['o'])), path] (flagArgument flags)
  | joinedLetter (flags : List Char) :
      OutputOption path [String.ofList ('-' :: (flags ++ 'o' :: path.toList))] (flagArgument flags)
  | equalsLetter (flags : List Char) :
      OutputOption path [String.ofList ('-' :: (flags ++ 'o' :: '=' :: path.toList))] (flagArgument flags)

theorem argumentForm_eq_letters {argument : String} {letters : List Char}
    (h : argumentForm argument = .letters letters) : argument = String.ofList ('-' :: letters) := by
  unfold argumentForm at h
  split at h
  · cases h
  · dsimp only at h
    split at h <;> cases h
  · rename_i heq
    cases h
    rw [← heq, String.ofList_toList]
  · cases h

theorem argumentForm_eq_long {argument name : String} {value : Option String}
    (h : argumentForm argument = .long name value) : argument = "--" ++ name ++ value.elim "" ("=" ++ ·) := by
  unfold argumentForm at h
  split at h
  · cases h
  · rename_i rest _ heq
    have hrest := List.takeWhile_append_dropWhile (p := (· != '=')) (l := rest)
    apply String.toList_inj.mp
    rw [heq]
    dsimp only at h
    split at h
    · rename_i hdrop
      cases h
      rw [hdrop, List.append_nil] at hrest
      simp [hrest]
    · rename_i c behind hdrop
      cases h
      -- The first character that is not taken is the equals sign.
      have hc : c = '=' := by
        have hhead := List.head?_dropWhile_not (· != '=') rest
        rw [hdrop] at hhead
        simpa using hhead
      rw [hdrop, hc] at hrest
      simp [hrest]
  · cases h
  · cases h

theorem argumentForm_ofList_letters {c : Char} (h : c ≠ '-') (letters : List Char) :
    argumentForm (String.ofList ('-' :: c :: letters)) = .letters (c :: letters) := by
  unfold argumentForm
  rw [String.toList_ofList]
  simp [h]

theorem Side.longOption?_eq_output {side : Side} {name : String}
    (h : side.longOption? name = some (.value .output)) :
    name = "output" ∧ ∃ before, side = .behindCommand .compile before := by
  unfold longOption? at h
  split at h <;> cases h
  exact ⟨rfl, _, rfl⟩

/-- The output option is the only one with a letter and a value. -/
theorem Side.letterOption?_eq_value {side : Side} {letter : Char} {option : ValueOption}
    (h : side.letterOption? letter = some (.value option)) :
    letter = 'o' ∧ option = .output ∧ ∃ before, side = .behindCommand .compile before := by
  unfold letterOption? at h
  split at h <;> cases h
  exact ⟨rfl, rfl, _, rfl⟩

theorem Side.letterOption?_eq_flag {side : Side} {letter : Char} {flag : Flag}
    (h : side.letterOption? letter = some (.flag flag)) : letter = 'v' := by
  unfold letterOption? at h
  split at h <;> cases h
  rfl

theorem FlagLetters.accepts {side : Side} {options middle : Options} {flags : List Char} {arguments : List String}
    {invocation : Invocation} (h : FlagLetters side options flags middle)
    (rest : Accepts side middle arguments invocation) :
    Accepts side options (flagArgument flags ++ arguments) invocation := by
  cases h with
  | nil => exact rest
  | @cons _ next _ letter letters flag hletter hset more =>
      have hne : letter ≠ '-' := by
        rw [Side.letterOption?_eq_flag hletter]
        decide
      exact .step (.letters (argumentForm_ofList_letters hne letters) (.cons hletter hset more)) rest

theorem LetterValue.outputOption {letters : List Char} {path : String} (h : LetterValue letters path)
    (flags : List Char) :
    OutputOption path [String.ofList ('-' :: (flags ++ 'o' :: letters))] (flagArgument flags) := by
  cases h with
  | equals value => simpa using @OutputOption.equalsLetter (String.ofList value) flags
  | @direct c value hne => simpa using @OutputOption.joinedLetter (String.ofList (c :: value)) flags

/-! ## Leaving the output option out -/

def Options.withoutOutput (options : Options) : Options :=
  { options with output := .none }

/-- The output file of a command. -/
def Command.output? : Command → Option String
  | .compile _ _ output => output
  | .disassemble _ => none

/-- The same command without an output file. -/
def Command.withoutOutput : Command → Command
  | .compile input structured _ => .compile input structured none
  | .disassemble input => .disassemble input

def Invocation.withoutOutput (invocation : Invocation) : Invocation :=
  { invocation with command := invocation.command.withoutOutput }

theorem Invocation.withoutOutput_eq_self {invocation : Invocation} (h : invocation.command.output? = none) :
    invocation.withoutOutput = invocation := by
  obtain ⟨verbose, settingsFile, command⟩ := invocation
  cases command with
  | compile input structured output =>
      cases h
      rfl
  | disassemble input => rfl

namespace Options

variable {options after : Options}

theorem withoutOutput_eq_self (h : options.output = .none) : options.withoutOutput = options := by
  cases options
  cases h
  rfl

theorem setFlag?_keepsOutput {flag : Flag} (h : options.setFlag? flag = some after) :
    after.output = options.output ∧ options.withoutOutput.setFlag? flag = some after.withoutOutput := by
  cases flag <;> simp only [setFlag?, Option.ite_none_left_eq_some, Option.some.injEq] at h <;>
    obtain ⟨hunset, rfl⟩ := h <;> exact ⟨rfl, if_neg hunset⟩

theorem setInput?_keepsOutput {input : String} (h : options.setInput? input = some after) :
    after.output = options.output ∧ options.withoutOutput.setInput? input = some after.withoutOutput := by
  simp only [setInput?, Option.ite_none_left_eq_some, Option.some.injEq] at h
  obtain ⟨hunset, rfl⟩ := h
  exact ⟨rfl, if_neg hunset⟩

theorem setValue?_settingsFile_keepsOutput {value : String}
    (h : options.setValue? .settingsFile value = some after) :
    after.output = options.output ∧ options.withoutOutput.setValue? .settingsFile value = some after.withoutOutput := by
  simp only [setValue?, Option.ite_none_left_eq_some, Option.some.injEq] at h
  obtain ⟨hvalue, hunset, rfl⟩ := h
  exact ⟨rfl, (if_neg hvalue).trans (if_neg hunset)⟩

/-- The output is set once at most. -/
theorem setValue?_output_eq_some {path : String} (h : options.setValue? .output path = some after) :
    options.output = .none ∧ after.output = some path ∧ after.withoutOutput = options := by
  simp only [setValue?, Option.ite_none_left_eq_some, Option.some.injEq] at h
  obtain ⟨-, hunset, rfl⟩ := h
  have hnone : options.output = .none := by simpa using hunset
  exact ⟨hnone, rfl, withoutOutput_eq_self hnone⟩

/-- Once the output is set, only other options can be. -/
theorem setValue?_keepsOutput {option : ValueOption} {value path : String}
    (h : options.setValue? option value = some after) (houtput : options.output = some path) :
    after.output = options.output ∧ options.withoutOutput.setValue? option value = some after.withoutOutput := by
  cases option with
  | settingsFile => exact setValue?_settingsFile_keepsOutput h
  | output =>
      rw [(setValue?_output_eq_some h).1] at houtput
      cases houtput

end Options

theorem FlagLetters.keepsOutput {side : Side} {options after : Options} {flags : List Char}
    (h : FlagLetters side options flags after) :
    after.output = options.output ∧ FlagLetters side options.withoutOutput flags after.withoutOutput := by
  induction h with
  | nil => exact ⟨rfl, .nil⟩
  | cons hletter hset rest ih =>
      obtain ⟨houtput, hset'⟩ := Options.setFlag?_keepsOutput hset
      exact ⟨ih.1.trans houtput, .cons hletter hset' ih.2⟩

/-- A step behind an output option takes the same arguments without it. -/
theorem Takes.keepsOutput {name : CommandName} {before options after : Options} {side' : Side} {taken : List String}
    {path : String} (h : Takes (.behindCommand name before) options taken side' after)
    (houtput : options.output = some path) :
    side' = .behindCommand name before ∧ after.output = some path ∧
      Takes (.behindCommand name before) options.withoutOutput taken side' after.withoutOutput := by
  cases h with
  | input hform hset =>
      obtain ⟨hkeeps, hset'⟩ := Options.setInput?_keepsOutput hset
      exact ⟨rfl, hkeeps.trans houtput, .input hform hset'⟩
  | flag hform hoption hset =>
      obtain ⟨hkeeps, hset'⟩ := Options.setFlag?_keepsOutput hset
      exact ⟨rfl, hkeeps.trans houtput, .flag hform hoption hset'⟩
  | joined hform hoption hset =>
      obtain ⟨hkeeps, hset'⟩ := Options.setValue?_keepsOutput hset houtput
      exact ⟨rfl, hkeeps.trans houtput, .joined hform hoption hset'⟩
  | value hform hoption hplain hset =>
      obtain ⟨hkeeps, hset'⟩ := Options.setValue?_keepsOutput hset houtput
      exact ⟨rfl, hkeeps.trans houtput, .value hform hoption hplain hset'⟩
  | letters hform hflags =>
      obtain ⟨hkeeps, hflags'⟩ := hflags.keepsOutput
      exact ⟨rfl, hkeeps.trans houtput, .letters hform hflags'⟩
  | joinedLetter hform hflags hletter hvalue hset =>
      obtain ⟨hmiddle, hflags'⟩ := hflags.keepsOutput
      obtain ⟨hkeeps, hset'⟩ := Options.setValue?_keepsOutput hset (hmiddle.trans houtput)
      exact ⟨rfl, hkeeps.trans (hmiddle.trans houtput), .joinedLetter hform hflags' hletter hvalue hset'⟩
  | letterValue hform hflags hletter hplain hset =>
      obtain ⟨hmiddle, hflags'⟩ := hflags.keepsOutput
      obtain ⟨hkeeps, hset'⟩ := Options.setValue?_keepsOutput hset (hmiddle.trans houtput)
      exact ⟨rfl, hkeeps.trans (hmiddle.trans houtput), .letterValue hform hflags' hletter hplain hset'⟩

/-- A step that names the output file spells the output option, and what is left of its arguments leads to the same
options without the output. -/
structure NamesOutput (side : Side) (options : Options) (taken : List String) (after : Options) (path : String)
    (kept : List String) : Prop where
  compiles : ∃ before, side = .behindCommand .compile before
  output : after.output = some path
  spelled : OutputOption path taken kept
  accepts {arguments : List String} {invocation : Invocation}
    (rest : Accepts side after.withoutOutput arguments invocation) : Accepts side options (kept ++ arguments) invocation

/-- The flags before the letter of the option stay; in the other spellings there are none. -/
theorem namesOutput_of_setValue? {side : Side} {options middle after : Options} {taken : List String} {path : String}
    {flags : List Char} (hcompiles : ∃ before, side = .behindCommand .compile before)
    (hflags : FlagLetters side options flags middle) (hset : middle.setValue? .output path = some after)
    (hspelled : OutputOption path taken (flagArgument flags)) :
    NamesOutput side options taken after path (flagArgument flags) := by
  obtain ⟨-, houtput, hwithout⟩ := Options.setValue?_output_eq_some hset
  exact ⟨hcompiles, houtput, hspelled, fun rest => hflags.accepts (hwithout ▸ rest)⟩

/-- A step of a command line without an output file so far. -/
theorem Takes.none_or_namesOutput {side side' : Side} {options after : Options} {taken : List String}
    (h : Takes side options taken side' after) (hnone : options.output = .none) :
    after.output = .none ∨ side' = side ∧ ∃ path kept, NamesOutput side options taken after path kept := by
  cases h with
  | command hform hname => exact .inl rfl
  | input hform hset => exact .inl ((Options.setInput?_keepsOutput hset).1.trans hnone)
  | flag hform hoption hset => exact .inl ((Options.setFlag?_keepsOutput hset).1.trans hnone)
  | @joined _ _ _ _ _ _ option hform hoption hset =>
      cases option with
      | settingsFile => exact .inl ((Options.setValue?_settingsFile_keepsOutput hset).1.trans hnone)
      | output =>
          obtain ⟨rfl, hcompiles⟩ := Side.longOption?_eq_output hoption
          obtain rfl := argumentForm_eq_long hform
          exact .inr ⟨rfl, _, _, namesOutput_of_setValue? hcompiles .nil hset .joined⟩
  | @value _ _ _ _ _ _ option hform hoption hplain hset =>
      cases option with
      | settingsFile => exact .inl ((Options.setValue?_settingsFile_keepsOutput hset).1.trans hnone)
      | output =>
          obtain ⟨rfl, hcompiles⟩ := Side.longOption?_eq_output hoption
          obtain rfl := argumentForm_eq_long hform
          exact .inr ⟨rfl, _, _, namesOutput_of_setValue? hcompiles .nil hset .long⟩
  | letters hform hflags => exact .inl (hflags.keepsOutput.1.trans hnone)
  | joinedLetter hform hflags hletter hvalue hset =>
      obtain ⟨rfl, rfl, hcompiles⟩ := Side.letterOption?_eq_value hletter
      obtain rfl := argumentForm_eq_letters hform
      exact .inr ⟨rfl, _, _, namesOutput_of_setValue? hcompiles hflags hset (hvalue.outputOption _)⟩
  | letterValue hform hflags hletter hplain hset =>
      obtain ⟨rfl, rfl, hcompiles⟩ := Side.letterOption?_eq_value hletter
      obtain rfl := argumentForm_eq_letters hform
      exact .inr ⟨rfl, _, _, namesOutput_of_setValue? hcompiles hflags hset (.letter _)⟩

/-! ## Whole command lines -/

/-- The output file that a command takes from its options. -/
def Side.output? (side : Side) (options : Options) : Option String :=
  match side with
  | .behindCommand .compile _ => options.output
  | _ => none

theorem Side.output?_eq_none {options : Options} (side : Side) (h : options.output = .none) :
    side.output? options = none := by
  unfold output?
  split
  · exact h
  · rfl

theorem finishArguments_withoutOutput {side : Side} {options : Options} {invocation : Invocation}
    (h : finishArguments side options = .run invocation) :
    invocation.command.output? = side.output? options ∧
      finishArguments side options.withoutOutput = .run invocation.withoutOutput := by
  cases side with
  | beforeCommand => cases h
  | behindCommand name before =>
      cases hinput : options.input with
      | none => simp [finishArguments, hinput] at h
      | some input =>
          have hinput' : options.withoutOutput.input = some input := hinput
          cases name with
          | compile =>
              simp only [finishArguments, hinput, Arguments.run.injEq] at h
              subst h
              simp only [finishArguments, hinput']
              exact ⟨rfl, rfl⟩
          | disassemble =>
              simp only [finishArguments, hinput, Arguments.run.injEq] at h
              subst h
              simp only [finishArguments, hinput']
              exact ⟨rfl, rfl⟩

theorem readInputs_withoutOutput {side : Side} {options : Options} {arguments : List String} {invocation : Invocation}
    (h : readInputs side options arguments = .run invocation) :
    invocation.command.output? = side.output? options ∧
      readInputs side options.withoutOutput arguments = .run invocation.withoutOutput := by
  induction arguments generalizing options with
  | nil => exact finishArguments_withoutOutput h
  | cons argument arguments ih =>
      cases side with
      | beforeCommand => simp [readInputs] at h
      | behindCommand name before =>
          cases hset : options.setInput? argument with
          | none => simp [readInputs, hset] at h
          | some after =>
              simp only [readInputs, hset] at h
              obtain ⟨hkeeps, hset'⟩ := Options.setInput?_keepsOutput hset
              obtain ⟨houtput, hread⟩ := ih h
              refine ⟨?_, by simpa only [readInputs, hset'] using hread⟩
              rw [houtput]
              cases name with
              | compile => exact hkeeps
              | disassemble => rfl

/-- Behind an output option nothing else names an output file, and the arguments are read in the same way without it. -/
theorem Accepts.withoutOutput {before options : Options} {arguments : List String} {invocation : Invocation}
    {path : String} (h : Accepts (.behindCommand .compile before) options arguments invocation)
    (houtput : options.output = some path) :
    invocation.command.output? = some path ∧
      Accepts (.behindCommand .compile before) options.withoutOutput arguments invocation.withoutOutput := by
  generalize hside : Side.behindCommand .compile before = side at h
  induction h with
  | finish h =>
      subst hside
      obtain ⟨hfinal, hfinish⟩ := finishArguments_withoutOutput h
      exact ⟨hfinal.trans houtput, .finish hfinish⟩
  | inputs hform h =>
      subst hside
      obtain ⟨hfinal, hinputs⟩ := readInputs_withoutOutput h
      exact ⟨hfinal.trans houtput, .inputs hform hinputs⟩
  | step first rest ih =>
      subst hside
      obtain ⟨rfl, hkeeps, first'⟩ := first.keepsOutput houtput
      obtain ⟨hfinal, rest'⟩ := ih hkeeps rfl
      exact ⟨hfinal, .step first' rest'⟩

/-- `plain` is a command line without the option that names its output file. -/
def OmitsOutput (path : String) (arguments plain : List String) : Prop :=
  ∃ before spelled kept behind, OutputOption path spelled kept ∧ arguments = before ++ (spelled ++ behind) ∧
    plain = before ++ (kept ++ behind)

theorem OmitsOutput.append {path : String} {arguments plain : List String} (h : OmitsOutput path arguments plain)
    (taken : List String) : OmitsOutput path (taken ++ arguments) (taken ++ plain) := by
  obtain ⟨before, spelled, kept, behind, hoption, rfl, rfl⟩ := h
  exact ⟨taken ++ before, spelled, kept, behind, hoption, (List.append_assoc ..).symm, (List.append_assoc ..).symm⟩

theorem Accepts.exists_omitsOutput {side : Side} {options : Options} {arguments : List String} {invocation : Invocation}
    {path : String} (h : Accepts side options arguments invocation) (hnone : options.output = .none)
    (houtput : invocation.command.output? = some path) :
    ∃ plain, OmitsOutput path arguments plain ∧ Accepts side options plain invocation.withoutOutput := by
  induction h with
  | finish h =>
      rw [(finishArguments_withoutOutput h).1, Side.output?_eq_none _ hnone] at houtput
      cases houtput
  | inputs hform h =>
      rw [(readInputs_withoutOutput h).1, Side.output?_eq_none _ hnone] at houtput
      cases houtput
  | @step side side' options after taken arguments invocation first rest ih =>
      rcases first.none_or_namesOutput hnone with hstill | ⟨rfl, named, kept, hnames⟩
      · obtain ⟨plain, homits, haccepts⟩ := ih hstill houtput
        exact ⟨taken ++ plain, homits.append taken, .step first haccepts⟩
      · -- From here on the output file is known, so it is the one of the command.
        obtain ⟨before, rfl⟩ := hnames.compiles
        obtain ⟨hfinal, haccepts⟩ := rest.withoutOutput hnames.output
        obtain rfl : named = path := Option.some.inj (hfinal.symm.trans houtput)
        exact ⟨kept ++ arguments, ⟨[], taken, kept, arguments, hnames.spelled, rfl, rfl⟩, hnames.accepts haccepts⟩

/-- A command line that names an output file has an option for it, and without this option it asks for the same without
an output file. -/
theorem exists_omitsOutput {arguments : List String} {invocation : Invocation} {path : String}
    (h : Arguments.parse arguments = .run invocation) (houtput : invocation.command.output? = some path) :
    ∃ plain, OmitsOutput path arguments plain ∧ Arguments.parse plain = .run invocation.withoutOutput := by
  obtain ⟨plain, homits, haccepts⟩ := (accepts_iff_readArguments.mpr h).exists_omitsOutput rfl houtput
  exact ⟨plain, homits, accepts_iff_readArguments.mp haccepts⟩

end ScriptBytecode
