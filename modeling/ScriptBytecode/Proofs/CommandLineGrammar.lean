import ScriptBytecode.CommandLine.Arguments

/-!
# The grammar of command lines

`Accepts` is the grammar of the command lines that are accepted. `Takes` says what one step of reading takes from the
front of the arguments: the name of a command, an input, an option in one of its spellings with its value, or letters.
The reader accepts exactly the command lines that can be taken apart in this way (`accepts_iff_readArguments`), so what
is done to a command line can be followed along its steps.
-/

namespace ScriptBytecode

/-- Letters that are flags, all of them not set before. -/
inductive FlagLetters (side : Side) : Options → List Char → Options → Prop
  | nil {options : Options} : FlagLetters side options [] options
  | cons {options middle after : Options} {letter : Char} {letters : List Char} {flag : Flag}
      (hletter : side.letterOption? letter = some (.flag flag)) (hset : options.setFlag? flag = some middle)
      (rest : FlagLetters side middle letters after) : FlagLetters side options (letter :: letters) after

/-- The letters behind the letter of an option that are its value. -/
inductive LetterValue : List Char → String → Prop
  | equals (value : List Char) : LetterValue ('=' :: value) (String.ofList value)
  | direct {c : Char} (value : List Char) (h : c ≠ '=') : LetterValue (c :: value) (String.ofList (c :: value))

/-- What one step of reading takes from the front of the arguments. -/
inductive Takes : Side → Options → List String → Side → Options → Prop
  | command {options : Options} {argument : String} {name : CommandName} (hform : argumentForm argument = .plain)
      (hname : commandNamed? argument = some name) :
      Takes .beforeCommand options [argument] (.behindCommand name options) .none
  | input {name : CommandName} {before options after : Options} {argument : String}
      (hform : argumentForm argument = .plain) (hset : options.setInput? argument = some after) :
      Takes (.behindCommand name before) options [argument] (.behindCommand name before) after
  | flag {side : Side} {options after : Options} {argument name : String} {flag : Flag}
      (hform : argumentForm argument = .long name none) (hoption : side.longOption? name = some (.flag flag))
      (hset : options.setFlag? flag = some after) : Takes side options [argument] side after
  | joined {side : Side} {options after : Options} {argument name value : String} {option : ValueOption}
      (hform : argumentForm argument = .long name (some value))
      (hoption : side.longOption? name = some (.value option)) (hset : options.setValue? option value = some after) :
      Takes side options [argument] side after
  | value {side : Side} {options after : Options} {argument name value : String} {option : ValueOption}
      (hform : argumentForm argument = .long name none) (hoption : side.longOption? name = some (.value option))
      (hplain : isPlain value = true) (hset : options.setValue? option value = some after) :
      Takes side options [argument, value] side after
  | letters {side : Side} {options after : Options} {argument : String} {flags : List Char}
      (hform : argumentForm argument = .letters flags) (hflags : FlagLetters side options flags after) :
      Takes side options [argument] side after
  | joinedLetter {side : Side} {options middle after : Options} {argument value : String} {flags letters : List Char}
      {letter : Char} {option : ValueOption} (hform : argumentForm argument = .letters (flags ++ letter :: letters))
      (hflags : FlagLetters side options flags middle) (hletter : side.letterOption? letter = some (.value option))
      (hvalue : LetterValue letters value) (hset : middle.setValue? option value = some after) :
      Takes side options [argument] side after
  | letterValue {side : Side} {options middle after : Options} {argument value : String} {flags : List Char}
      {letter : Char} {option : ValueOption} (hform : argumentForm argument = .letters (flags ++ [letter]))
      (hflags : FlagLetters side options flags middle) (hletter : side.letterOption? letter = some (.value option))
      (hplain : isPlain value = true) (hset : middle.setValue? option value = some after) :
      Takes side options [argument, value] side after

/-- The command lines that are accepted. -/
inductive Accepts : Side → Options → List String → Invocation → Prop
  | finish {side : Side} {options : Options} {invocation : Invocation}
      (h : finishArguments side options = .run invocation) : Accepts side options [] invocation
  | inputs {side : Side} {options : Options} {argument : String} {arguments : List String} {invocation : Invocation}
      (hform : argumentForm argument = .optionsEnd) (h : readInputs side options arguments = .run invocation) :
      Accepts side options (argument :: arguments) invocation
  | step {side side' : Side} {options after : Options} {taken arguments : List String} {invocation : Invocation}
      (first : Takes side options taken side' after) (rest : Accepts side' after arguments invocation) :
      Accepts side options (taken ++ arguments) invocation

theorem FlagLetters.read_append {side : Side} {options after : Options} {flags : List Char}
    (h : FlagLetters side options flags after) (letters : List Char) :
    readOptionLetters side options (flags ++ letters) = readOptionLetters side after letters := by
  induction h with
  | nil => rfl
  | cons hletter hset rest ih => simp only [List.cons_append, readOptionLetters, hletter, hset, ih]

theorem FlagLetters.read {side : Side} {options after : Options} {flags : List Char}
    (h : FlagLetters side options flags after) : readOptionLetters side options flags = .read after := by
  rw [← List.append_nil flags, h.read_append]
  rfl

theorem exists_letterValue (c : Char) (letters : List Char) : ∃ value, LetterValue (c :: letters) value := by
  by_cases h : c = '='
  · subst h
    exact ⟨_, .equals letters⟩
  · exact ⟨_, .direct letters h⟩

/-- The letter of an option with its value behind it is read by setting the option. -/
theorem LetterValue.read {side : Side} {letter : Char} {letters : List Char} {value : String} {option : ValueOption}
    (h : LetterValue letters value) (hletter : side.letterOption? letter = some (.value option)) (options : Options) :
    readOptionLetters side options (letter :: letters) =
      match options.setValue? option value with
      | some after => .read after
      | none => .refused := by
  rw [readOptionLetters, hletter]
  cases h with
  | equals value => rfl
  | direct value h =>
      simp only
      split
      · rename_i hnil
        cases hnil
      · rename_i hequals
        exact absurd (List.cons.inj hequals).1 h
      · rfl

/-- Letters that are not refused are flags, up to the first letter of an option with a value. -/
theorem readOptionLetters_cases (side : Side) (options : Options) (letters : List Char) :
    readOptionLetters side options letters = .refused ∨
      (∃ notice, readOptionLetters side options letters = .notice notice) ∨
      (∃ after, FlagLetters side options letters after) ∨
      ∃ flags letter behind option middle, letters = flags ++ letter :: behind ∧
        FlagLetters side options flags middle ∧ side.letterOption? letter = some (.value option) := by
  induction letters generalizing options with
  | nil => exact .inr (.inr (.inl ⟨options, .nil⟩))
  | cons letter letters ih =>
      cases hletter : side.letterOption? letter with
      | none => exact .inl (by simp only [readOptionLetters, hletter])
      | some kind =>
          cases kind with
          | notice notice => exact .inr (.inl ⟨notice, by simp only [readOptionLetters, hletter]⟩)
          | value option => exact .inr (.inr (.inr ⟨[], letter, letters, option, options, rfl, .nil, hletter⟩))
          | flag flag =>
              cases hset : options.setFlag? flag with
              | none => exact .inl (by simp only [readOptionLetters, hletter, hset])
              | some next =>
                  have hfirst : readOptionLetters side options (letter :: letters) =
                      readOptionLetters side next letters := by
                    simp only [readOptionLetters, hletter, hset]
                  rw [hfirst]
                  rcases ih next with
                    hread | hread | ⟨after, hflags⟩ | ⟨flags, last, behind, option, middle, rfl, hflags, hlast⟩
                  · exact .inl hread
                  · exact .inr (.inl hread)
                  · exact .inr (.inr (.inl ⟨after, .cons hletter hset hflags⟩))
                  · exact .inr (.inr (.inr ⟨letter :: flags, last, behind, option, middle, rfl,
                      .cons hletter hset hflags, hlast⟩))

/-- One step of the reader. -/
theorem Takes.readArguments_append {side side' : Side} {options after : Options} {taken : List String}
    (h : Takes side options taken side' after) (arguments : List String) :
    readArguments side options (taken ++ arguments) = readArguments side' after arguments := by
  rw [readArguments.eq_def side options (taken ++ arguments)]
  cases h with
  | command hform hname => simp only [List.singleton_append, hform, hname]
  | input hform hset => simp only [List.singleton_append, hform, hset]
  | flag hform hoption hset => simp only [List.singleton_append, hform, hoption, hset]
  | joined hform hoption hset => simp only [List.singleton_append, hform, hoption, hset]
  | value hform hoption hplain hset =>
      simp only [List.cons_append, List.nil_append, hform, hoption, hplain, hset]
  | letters hform hflags => simp only [List.singleton_append, hform, hflags.read]
  | joinedLetter hform hflags hletter hvalue hset =>
      simp only [List.singleton_append, hform, hflags.read_append, hvalue.read hletter, hset]
  | letterValue hform hflags hletter hplain hset =>
      simp only [List.cons_append, List.nil_append, hform, hflags.read_append, readOptionLetters, hletter, hplain, hset]

theorem Takes.length_pos {side side' : Side} {options after : Options} {taken : List String}
    (h : Takes side options taken side' after) : 0 < taken.length := by
  cases h <;> exact Nat.succ_pos _

/-- A step takes arguments from the front, and the others are read behind it. -/
def StepsOn (side : Side) (options : Options) (arguments : List String) (invocation : Invocation) : Prop :=
  ∃ taken rest side' after, arguments = taken ++ rest ∧ Takes side options taken side' after ∧
    readArguments side' after rest = .run invocation

section Steps

variable {side : Side} {options : Options} {argument : String} {arguments : List String} {invocation : Invocation}

theorem readHelpTopics_ne_run : readHelpTopics arguments ≠ .run invocation := by
  unfold readHelpTopics
  split
  · simp
  · split <;> simp
  · simp

theorem stepsOn_of_plain (hform : argumentForm argument = .plain)
    (h : readArguments side options (argument :: arguments) = .run invocation) :
    StepsOn side options (argument :: arguments) invocation := by
  rw [readArguments.eq_def] at h
  cases side with
  | beforeCommand =>
      cases hname : commandNamed? argument with
      | none =>
          simp only [hform, hname] at h
          split at h
          · exact absurd h readHelpTopics_ne_run
          · cases h
      | some name =>
          simp only [hform, hname] at h
          exact ⟨[argument], arguments, _, _, rfl, .command hform hname, h⟩
  | behindCommand name before =>
      cases hset : options.setInput? argument with
      | none => simp [hform, hset] at h
      | some after =>
          simp only [hform, hset] at h
          exact ⟨[argument], arguments, _, _, rfl, .input hform hset, h⟩

theorem stepsOn_of_joined {name value : String} (hform : argumentForm argument = .long name (some value))
    (h : readArguments side options (argument :: arguments) = .run invocation) :
    StepsOn side options (argument :: arguments) invocation := by
  rw [readArguments.eq_def] at h
  cases hoption : side.longOption? name with
  | none => simp [hform, hoption] at h
  | some kind =>
      cases kind with
      | notice notice => simp [hform, hoption] at h
      | flag flag => simp [hform, hoption] at h
      | value option =>
          cases hset : options.setValue? option value with
          | none => simp [hform, hoption, hset] at h
          | some after =>
              simp only [hform, hoption, hset] at h
              exact ⟨[argument], arguments, _, _, rfl, .joined hform hoption hset, h⟩

theorem stepsOn_of_long {name : String} (hform : argumentForm argument = .long name none)
    (h : readArguments side options (argument :: arguments) = .run invocation) :
    StepsOn side options (argument :: arguments) invocation := by
  rw [readArguments.eq_def] at h
  cases hoption : side.longOption? name with
  | none => simp [hform, hoption] at h
  | some kind =>
      cases kind with
      | notice notice => simp [hform, hoption] at h
      | flag flag =>
          cases hset : options.setFlag? flag with
          | none => simp [hform, hoption, hset] at h
          | some after =>
              simp only [hform, hoption, hset] at h
              exact ⟨[argument], arguments, _, _, rfl, .flag hform hoption hset, h⟩
      | value option =>
          cases arguments with
          | nil => simp [hform, hoption] at h
          | cons value arguments =>
              cases hplain : isPlain value with
              | false => simp [hform, hoption, hplain] at h
              | true =>
                  cases hset : options.setValue? option value with
                  | none => simp [hform, hoption, hplain, hset] at h
                  | some after =>
                      simp only [hform, hoption, hplain, hset] at h
                      exact ⟨[argument, value], arguments, _, _, rfl, .value hform hoption hplain hset, h⟩

theorem stepsOn_of_letters {letters : List Char} (hform : argumentForm argument = .letters letters)
    (h : readArguments side options (argument :: arguments) = .run invocation) :
    StepsOn side options (argument :: arguments) invocation := by
  rw [readArguments.eq_def] at h
  rcases readOptionLetters_cases side options letters with
    hread | ⟨notice, hread⟩ | ⟨after, hflags⟩ | ⟨flags, letter, behind, option, middle, rfl, hflags, hletter⟩
  · simp [hform, hread] at h
  · simp [hform, hread] at h
  · simp only [hform, hflags.read] at h
    exact ⟨[argument], arguments, side, after, rfl, .letters hform hflags, h⟩
  · simp only [hform, hflags.read_append] at h
    cases behind with
    | cons c behind =>
        obtain ⟨value, hvalue⟩ := exists_letterValue c behind
        rw [hvalue.read hletter] at h
        cases hset : middle.setValue? option value with
        | none => simp [hset] at h
        | some after =>
            simp only [hset] at h
            exact ⟨[argument], arguments, side, after, rfl, .joinedLetter hform hflags hletter hvalue hset, h⟩
    | nil =>
        -- The value of the last letter is the next argument.
        simp only [readOptionLetters, hletter] at h
        cases arguments with
        | nil => simp at h
        | cons value arguments =>
            cases hplain : isPlain value with
            | false => simp [hplain] at h
            | true =>
                cases hset : middle.setValue? option value with
                | none => simp [hplain, hset] at h
                | some after =>
                    simp only [hplain, hset] at h
                    exact ⟨[argument, value], arguments, side, after, rfl,
                      .letterValue hform hflags hletter hplain hset, h⟩

/-- All that the reader does with an argument of a command line that it accepts. -/
theorem readArguments_cons_eq_run (h : readArguments side options (argument :: arguments) = .run invocation) :
    (argumentForm argument = .optionsEnd ∧ readInputs side options arguments = .run invocation) ∨
      StepsOn side options (argument :: arguments) invocation := by
  cases hform : argumentForm argument with
  | optionsEnd =>
      rw [readArguments.eq_def] at h
      exact .inl ⟨rfl, by simpa only [hform] using h⟩
  | plain => exact .inr (stepsOn_of_plain hform h)
  | long name value =>
      cases value with
      | none => exact .inr (stepsOn_of_long hform h)
      | some value => exact .inr (stepsOn_of_joined hform h)
  | letters letters => exact .inr (stepsOn_of_letters hform h)

end Steps

/-- The reader accepts exactly what the grammar has. -/
theorem accepts_iff_readArguments {side : Side} {options : Options} {arguments : List String}
    {invocation : Invocation} :
    Accepts side options arguments invocation ↔ readArguments side options arguments = .run invocation := by
  constructor
  · intro h
    induction h with
    | finish h => rwa [readArguments]
    | inputs hform h =>
        rw [readArguments.eq_def]
        simpa only [hform] using h
    | step first rest ih => rwa [first.readArguments_append]
  · intro h
    -- A step takes one or two arguments, so the induction is on their number.
    induction hlength : arguments.length using Nat.strongRecOn generalizing side options arguments with
    | ind length ih =>
        cases arguments with
        | nil => exact .finish (by simpa only [readArguments] using h)
        | cons argument arguments =>
            rcases readArguments_cons_eq_run h with ⟨hform, h⟩ | ⟨taken, rest, side', after, heq, first, h⟩
            · exact .inputs hform h
            · have hpos := first.length_pos
              have hless : rest.length < length := by
                rw [← hlength, heq, List.length_append]
                omega
              rw [heq]
              exact .step first (ih rest.length hless h rfl)

end ScriptBytecode
