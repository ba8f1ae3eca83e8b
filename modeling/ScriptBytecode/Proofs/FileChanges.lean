import ScriptBytecode.CommandLine.Run
import ScriptBytecode.Proofs.OutputOption

/-!
# Which files a command line changes

Writing a file changes the entry of that file and of no other name, and the path that it was written to leads to it
afterwards (`receives_of_write`). A command is planned without looking at where its output goes: with an output file it
fails for the same causes as without, and writes to the file what it would print (`planInvocation_cases`). Hence a run
changes nothing but its output file, and that only if it succeeds (`run_changes_only_output`).
-/

namespace ScriptBytecode

namespace FileSystem

/-! ## Writing a file -/

theorem lookup_cons_ite (names other : Names) (held : StoredFile) (files : List (Names × StoredFile)) :
    ((other, held) :: files).lookup names = if names = other then some held else files.lookup names := by
  by_cases h : names = other
  · rw [if_pos h, h, List.lookup_cons_self]
  · rw [if_neg h, List.lookup_cons, beq_false_of_ne h]

theorem lookup_insert (target names : Names) (file : StoredFile) (files : List (Names × StoredFile)) :
    (insert target file files).lookup names = if names = target then some file else files.lookup names := by
  induction files with
  | nil => exact lookup_cons_ite names target file []
  | cons first files ih =>
      obtain ⟨other, held⟩ := first
      by_cases hother : other = target
      · -- The file is there and is replaced.
        subst hother
        rw [insert, if_pos rfl, lookup_cons_ite, lookup_cons_ite]
        by_cases hnames : names = other <;> simp only [hnames, if_true, if_false]
      · rw [insert, if_neg hother, lookup_cons_ite, lookup_cons_ite, ih]
        by_cases hnames : names = other
        · rw [if_pos hnames, if_pos hnames, if_neg (hnames ▸ hother)]
        · rw [if_neg hnames, if_neg hnames]

theorem entry_insert (files : FileSystem) (target names : Names) (file : StoredFile) :
    ({ files with files := insert target file files.files } : FileSystem).entry names =
      if names = target then .file file else files.entry names := by
  unfold entry
  rw [lookup_insert]
  by_cases hnames : names = target
  · rw [if_pos hnames, if_pos hnames]
  · rw [if_neg hnames, if_neg hnames]

theorem of_ite_eq_ok {c : Prop} [Decidable c] {names target : Names} {fault : FileFault}
    (h : (if c then Except.ok names else .error fault) = .ok target) : c ∧ names = target := by
  split at h
  · rename_i hc
    exact ⟨hc, Except.ok.inj h⟩
  · cases h

/-- A file at the end of a path does not change where the path leads, for on the way there are directories only. -/
theorem follow_of_entry {files changed : FileSystem} {target directory : Names} {file : StoredFile}
    {parts : List String}
    (hentry : ∀ names, changed.entry names = if names = target then .file file else files.entry names)
    (htarget : files.entry target ≠ .directory) (h : files.follow directory parts = .ok target) :
    changed.follow directory parts = .ok target := by
  induction parts generalizing directory with
  | nil => exact h
  | cons part parts ih =>
      rw [follow] at h ⊢
      by_cases hblank : part = "" ∨ part = "."
      · rw [if_pos hblank] at h ⊢
        exact ih h
      rw [if_neg hblank] at h ⊢
      by_cases hparent : part = ".."
      · rw [if_pos hparent] at h ⊢
        exact ih h
      rw [if_neg hparent] at h ⊢
      by_cases hlong : nameLimit < part.utf8ByteSize
      · rw [if_pos hlong] at h
        cases h
      rw [if_neg hlong] at h ⊢
      by_cases hhere : files.entry (directory ++ [part]) = .directory
      · have hne : directory ++ [part] ≠ target := fun heq => htarget (heq ▸ hhere)
        rw [hentry, if_neg hne, hhere]
        rw [hhere] at h
        exact ih h
      · -- Something else than a directory is the end of the path.
        have hend : parts.isEmpty = true ∧ directory ++ [part] = target := by
          cases hcase : files.entry (directory ++ [part]) with
          | directory => exact absurd hcase hhere
          | file held =>
              rw [hcase] at h
              exact of_ite_eq_ok h
          | missing =>
              rw [hcase] at h
              exact of_ite_eq_ok h
        rw [hentry, if_pos hend.2]
        simp only [hend.1, hend.2, if_true]

/-- A path to write to leads where the same path leads that is read from. -/
theorem locateToWrite_eq_ok {files : FileSystem} {directory target : Names} {path : String}
    (h : files.locateToWrite directory path = .ok target) :
    ¬ pathLimit < path.utf8ByteSize ∧ files.follow (startOf directory path) (pathParts path) = .ok target := by
  unfold locateToWrite at h
  dsimp only at h
  split at h
  · cases h
  · rename_i hlimit
    split at h
    · split at h <;> cases h
    · exact ⟨hlimit, h⟩

/-- A file can stand under a name, and the one that is there may be written. -/
def IsOpen (files : FileSystem) (target : Names) : Prop :=
  files.entry target ≠ .directory ∧ ∀ file, files.entry target = .file file → file.access = .readWrite

/-- A path leads to where a file can be written. -/
def CanReceive (files : FileSystem) (directory : Names) (path : String) : Prop :=
  ∃ target, files.locateToWrite directory path = .ok target ∧ files.IsOpen target

/-- `after` is `before` with a text in the one file that a path leads to, which may be new. -/
structure Receives (before : FileSystem) (directory : Names) (path text : String) (after : FileSystem) : Prop where
  directories : after.directories = before.directories
  entries : ∃ target, before.locateToWrite directory path = .ok target ∧
    ∀ names, after.entry names = if names = target then .file (.ofText text) else before.entry names
  content : after.read directory (.given path) = .ok text

theorem write_eq_ok_iff {files changed : FileSystem} {directory : Names} {path text : String} :
    files.write directory path text = .ok changed ↔
      ∃ target, files.locateToWrite directory path = .ok target ∧ files.IsOpen target ∧
        changed = { files with files := insert target (.ofText text) files.files } := by
  unfold write IsOpen
  cases files.locateToWrite directory path with
  | error fault => simp
  | ok target =>
      cases hentry : files.entry target with
      | directory => simp [hentry]
      | missing => simp [hentry, eq_comm]
      | file file =>
          obtain ⟨content, access⟩ := file
          cases access <;> simp [hentry, eq_comm]

theorem receives_of_write {files changed : FileSystem} {directory : Names} {path text : String}
    (h : files.write directory path text = .ok changed) : files.Receives directory path text changed := by
  obtain ⟨target, htarget, hopen, rfl⟩ := write_eq_ok_iff.mp h
  have hentry := fun names => entry_insert files target names (.ofText text)
  refine ⟨rfl, ⟨target, htarget, hentry⟩, ?_⟩
  obtain ⟨hlimit, hfollow⟩ := locateToWrite_eq_ok htarget
  rw [read, locate, if_neg hlimit, follow_of_entry hentry hopen.1 hfollow]
  simp only [hentry, if_true]
  rfl

end FileSystem

/-! ## Planning a command with and without an output file -/

/-- A text is printed, or written to the output file if there is one. -/
def Plan.deliver (output : Option String) (text : String) : Plan :=
  match output with
  | none => .print text
  | some path => .write path text

/-- With an output file a command fails for the same causes as without, or writes what it would print. -/
theorem planCommand_cases (view : FileView) (settings : Settings) (command : Command) :
    (∃ causes, planCommand view settings command = .error causes ∧
      planCommand view settings command.withoutOutput = .error causes) ∨
    ∃ text, planCommand view settings command = .ok (.deliver command.output? text) ∧
      planCommand view settings command.withoutOutput = .ok (.print text) := by
  cases command with
  | compile input structured output =>
      simp only [Command.withoutOutput, planCommand, bind, Except.bind]
      cases readFile view (.given input) with
      | error causes => exact .inl ⟨causes, rfl, rfl⟩
      | ok source =>
          dsimp only
          cases compileText (structured || settings.structuredOutput) source with
          | error causes => exact .inl ⟨_, rfl, rfl⟩
          | ok text => cases output <;> exact .inr ⟨text, rfl, rfl⟩
  | disassemble input =>
      simp only [Command.withoutOutput, planCommand, bind, Except.bind]
      cases readFile view (.given input) with
      | error causes => exact .inl ⟨causes, rfl, rfl⟩
      | ok source =>
          dsimp only
          cases disassembleText source with
          | error causes => exact .inl ⟨_, rfl, rfl⟩
          | ok text => exact .inr ⟨text, rfl, rfl⟩

theorem planInvocation_cases (view : FileView) (directory : Names) (invocation : Invocation) :
    (∃ causes, planInvocation view directory invocation = .error causes ∧
      planInvocation view directory invocation.withoutOutput = .error causes) ∨
    ∃ text, planInvocation view directory invocation = .ok (.deliver invocation.command.output? text) ∧
      planInvocation view directory invocation.withoutOutput = .ok (.print text) := by
  cases hsettings : readSettings view (settingsFile? view directory invocation.settingsFile) with
  | error causes =>
      exact .inl ⟨causes, by simp [planInvocation, Invocation.withoutOutput, hsettings, bind, Except.bind]⟩
  | ok settings =>
      simpa [planInvocation, Invocation.withoutOutput, hsettings, bind, Except.bind] using
        planCommand_cases view settings invocation.command

namespace FileSystem

/-! ## Running a command line -/

/-- A run of a command line that is accepted, and of one that asks for the same without an output file. -/
theorem run_cases {arguments plain : List String} {invocation : Invocation} (files : FileSystem) (directory : Names)
    (h : Arguments.parse arguments = .run invocation) (hplain : Arguments.parse plain = .run invocation.withoutOutput) :
    (∃ causes, files.run directory arguments = (.failed causes, files) ∧
      files.run directory plain = (.failed causes, files)) ∨
    ∃ text, files.run directory arguments =
        files.perform directory (.deliver invocation.command.output? text) ∧
      files.run directory plain = (.succeeded text, files) := by
  unfold run plan
  rw [h, hplain]
  dsimp only
  rcases planInvocation_cases (files.view directory) directory invocation with
    ⟨causes, hfail, hfail'⟩ | ⟨text, hplan, hplan'⟩
  · exact .inl ⟨causes, by rw [hfail]; rfl, by rw [hfail']; rfl⟩
  · exact .inr ⟨text, by rw [hplan], by rw [hplan']; rfl⟩

/-- A plan that cannot be carried out leaves the files as they are. -/
theorem perform_of_exitCode_ne_zero {files : FileSystem} {directory : Names} {plan : Plan}
    (h : (files.perform directory plan).1.exitCode ≠ 0) :
    (files.perform directory plan).2 = files ∧ (files.perform directory plan).1.output = "" := by
  cases plan with
  | inform notice => exact absurd rfl h
  | refuseUsage => exact ⟨rfl, rfl⟩
  | fail causes => exact ⟨rfl, rfl⟩
  | print text => exact absurd rfl h
  | write path text =>
      simp only [perform] at h ⊢
      cases hwrite : files.write directory path text with
      | error fault => exact ⟨rfl, rfl⟩
      | ok changed =>
          rw [hwrite] at h
          exact absurd rfl h

/-- All that a run with an output file can do once the text for it is known. -/
theorem perform_deliver_some (files : FileSystem) (directory : Names) (path text : String) :
    (∃ causes, files.perform directory (.deliver (some path) text) = (.failed causes, files) ∧
      ¬ files.CanReceive directory path) ∨
    ∃ changed, files.perform directory (.deliver (some path) text) = (.succeeded "", changed) ∧
      files.CanReceive directory path ∧ files.Receives directory path text changed := by
  simp only [Plan.deliver, perform]
  cases hwrite : files.write directory path text with
  | error fault =>
      refine .inl ⟨_, rfl, ?_⟩
      rintro ⟨target, htarget, hopen⟩
      have hok : files.write directory path text = .ok _ := write_eq_ok_iff.mpr ⟨target, htarget, hopen, rfl⟩
      rw [hwrite] at hok
      cases hok
  | ok changed =>
      obtain ⟨target, htarget, hopen, -⟩ := write_eq_ok_iff.mp hwrite
      exact .inr ⟨changed, rfl, ⟨target, htarget, hopen⟩, receives_of_write hwrite⟩

/-- A run without an output file leaves the files as they are. -/
theorem run_of_output?_eq_none {arguments : List String} {invocation : Invocation} (files : FileSystem)
    (directory : Names) (h : Arguments.parse arguments = .run invocation)
    (hnone : invocation.command.output? = none) : (files.run directory arguments).2 = files := by
  have hplain : Arguments.parse arguments = .run invocation.withoutOutput := by
    rw [Invocation.withoutOutput_eq_self hnone]
    exact h
  rcases run_cases files directory h hplain with ⟨causes, hrun, -⟩ | ⟨text, -, hrun⟩
  · rw [hrun]
  · rw [hrun]

/-- What a run does to the files. If it fails, all files are as before and nothing is printed. If the command has no
output file, all files are as before. If it has one, then the command line without the option for it is accepted too.
For every command line that asks for the same without an output file, the run succeeds exactly if that one does and a
file can be written where the path leads; then it prints nothing, and the only change is that the file holds the text which
that one prints. Nothing is said about the path, so it may be the one of the input or of the settings. -/
theorem run_changes_only_output (files : FileSystem) (directory : Names) (arguments : List String)
    (invocation : Invocation) (accepted : Arguments.parse arguments = .run invocation) :
    ((files.run directory arguments).1.exitCode ≠ 0 →
      (files.run directory arguments).2 = files ∧ (files.run directory arguments).1.output = "") ∧
    (invocation.command.output? = none → (files.run directory arguments).2 = files) ∧
    ∀ path, invocation.command.output? = some path →
      (∃ plain, OmitsOutput path arguments plain ∧ Arguments.parse plain = .run invocation.withoutOutput) ∧
      ∀ plain, Arguments.parse plain = .run invocation.withoutOutput →
        ((files.run directory arguments).1.exitCode = 0 ↔
          (files.run directory plain).1.exitCode = 0 ∧ files.CanReceive directory path) ∧
        ((files.run directory arguments).1.exitCode = 0 →
          (files.run directory arguments).1.output = "" ∧
          ∃ text, files.run directory plain = (.succeeded text, files) ∧
            files.Receives directory path text (files.run directory arguments).2) := by
  refine ⟨perform_of_exitCode_ne_zero, run_of_output?_eq_none files directory accepted, ?_⟩
  intro path houtput
  refine ⟨exists_omitsOutput accepted houtput, ?_⟩
  intro plain hplain
  rcases run_cases files directory accepted hplain with ⟨causes, hrun, hrun'⟩ | ⟨text, hrun, hrun'⟩
  · -- Both command lines fail before anything is written.
    rw [hrun, hrun']
    simp [Outcome.exitCode]
  · rw [houtput] at hrun
    rcases perform_deliver_some files directory path text with
      ⟨causes, hperform, hreceive⟩ | ⟨changed, hperform, hreceive, hchanged⟩
    · rw [hrun, hrun', hperform]
      simp [Outcome.exitCode, hreceive]
    · rw [hrun, hrun', hperform]
      exact ⟨⟨fun _ => ⟨rfl, hreceive⟩, fun _ => rfl⟩, fun _ => ⟨rfl, text, rfl, hchanged⟩⟩

/-- A directory with a syntax tree and with settings that ask for documents. The file `old` is no text, and the file
`kept` may not be written. -/
def treeWithSettings : FileSystem where
  directories := [[""], ["", "work"]]
  files :=
    [(["", "work", "tree.json"], .ofText "\x7b\"body\":[]\x7d"),
      (["", "work", "lumo.toml"], .ofText "output.structured_output=true"),
      (["", "work", "old"], ⟨.binary [0xff], .readWrite⟩), (["", "work", "kept"], ⟨.text "", .readOnly⟩)]

/-- The output file may be the file with the syntax tree, the one with the settings, or one that cannot be read. Nothing
is changed if it may not be written. -/
theorem run_changes_only_output_overInput :
    (∃ text, treeWithSettings.run ["", "work"] ["compile", "-v", "tree.json"] = (.succeeded text, treeWithSettings) ∧
      treeWithSettings.Receives ["", "work"] "tree.json" text
        (treeWithSettings.run ["", "work"] ["compile", "-votree.json", "tree.json"]).2) ∧
    (∃ text, treeWithSettings.run ["", "work"] ["compile", "tree.json"] = (.succeeded text, treeWithSettings) ∧
      treeWithSettings.Receives ["", "work"] "lumo.toml" text
        (treeWithSettings.run ["", "work"] ["compile", "tree.json", "--output", "lumo.toml"]).2 ∧
      treeWithSettings.Receives ["", "work"] "old" text
        (treeWithSettings.run ["", "work"] ["compile", "--output=old", "tree.json"]).2) ∧
    (treeWithSettings.run ["", "work"] ["compile", "tree.json", "-okept"]).1 =
        .failed (writeFailure "kept" .permissionDenied) ∧
      (treeWithSettings.run ["", "work"] ["compile", "tree.json", "-okept"]).2 = treeWithSettings := by
  have hreceives : ∀ arguments plain invocation path, Arguments.parse arguments = .run invocation →
      invocation.command.output? = some path → Arguments.parse plain = .run invocation.withoutOutput →
      (treeWithSettings.run ["", "work"] arguments).1.exitCode = 0 →
      ∃ text, treeWithSettings.run ["", "work"] plain = (.succeeded text, treeWithSettings) ∧
        treeWithSettings.Receives ["", "work"] path text (treeWithSettings.run ["", "work"] arguments).2 := by
    intro arguments plain invocation path haccepted houtput hplain hcode
    obtain ⟨-, -, hwrites⟩ := run_changes_only_output treeWithSettings ["", "work"] arguments invocation haccepted
    exact (((hwrites path houtput).2 plain hplain).2 hcode).2
  refine ⟨?_, ?_, ?_⟩
  · exact hreceives _ _ ⟨true, none, .compile "tree.json" false (some "tree.json")⟩ _ (by decide +kernel) rfl
      (by decide +kernel) (by decide +kernel)
  · obtain ⟨text, hplain, hsettings⟩ := hreceives ["compile", "tree.json", "--output", "lumo.toml"]
      ["compile", "tree.json"] ⟨false, none, .compile "tree.json" false (some "lumo.toml")⟩ _ (by decide +kernel) rfl
      (by decide +kernel) (by decide +kernel)
    obtain ⟨same, hsame, hold⟩ := hreceives ["compile", "--output=old", "tree.json"] ["compile", "tree.json"]
      ⟨false, none, .compile "tree.json" false (some "old")⟩ _ (by decide +kernel) rfl (by decide +kernel)
      (by decide +kernel)
    rw [hplain] at hsame
    cases hsame
    exact ⟨text, hplain, hsettings, hold⟩
  · have haccepted : Arguments.parse ["compile", "tree.json", "-okept"] =
        .run ⟨false, none, .compile "tree.json" false (some "kept")⟩ := by decide +kernel
    have hfailed : (treeWithSettings.run ["", "work"] ["compile", "tree.json", "-okept"]).1 =
        .failed (writeFailure "kept" .permissionDenied) := by decide +kernel
    obtain ⟨hunchanged, -⟩ := run_changes_only_output treeWithSettings ["", "work"] _ _ haccepted
    refine ⟨hfailed, (hunchanged ?_).1⟩
    rw [hfailed]
    decide

end FileSystem
end ScriptBytecode
