import ScriptBytecode.Proofs.ControlFlow

/-!
# Registers are written before they are read

No path through a program, whichever way its conditional jumps go, gets to an instruction that reads a register before
it has passed an instruction that writes this register. Inside the code of an expression this is `Grows.covered`; from
one statement to the next it is enough that the register of the open scope has been written, and that no register is
ever unwritten.
-/

namespace ScriptBytecode

/-- The plain instructions that were passed on the way. -/
abbrev Trail := List PlainInstruction × Unit

namespace Trail

/-- A register was written on the way. -/
def Has (trail : Trail) (register : Register) : Prop :=
  register ∈ written trail.1

/-- One trail has all registers of another one, and only a statement inside a loop is left. -/
def Onward (loopEnd : Option Label) (trail : Trail) (ending : Ending) (later : Trail) : Prop :=
  (∀ register, trail.Has register → later.Has register) ∧ (ending = .left → loopEnd.isSome = true)

theorem Onward.refl (loopEnd : Option Label) (trail : Trail) : Onward loopEnd trail .completed trail :=
  ⟨fun _ h => h, fun hleft => nomatch hleft⟩

theorem Onward.trans {loopEnd : Option Label} {first second third : Trail} {ending : Ending}
    (h : ∀ register, first.Has register → second.Has register) (h' : Onward loopEnd second ending third) :
    Onward loopEnd first ending third :=
  ⟨fun register hfirst => h'.1 register (h register hfirst), h'.2⟩

end Trail

/-- The setting in which every instruction is asked to read only registers that were written on the way. -/
def ScriptOutline.trailing (outline : ScriptOutline) (hlength : outline.lines.length < 2 ^ 32) : Setting Trail where
  machine := Machine.free.recording
  lines := outline.lines
  policy := ⟨fun _ instruction trail => ∀ register ∈ instruction.sources, trail.Has register,
    fun register trail => trail.Has register⟩
  last := fun _ => True
  length_lt := hlength

section Trails

variable {trail : Trail}

theorem has_perform_iff {code : List PlainInstruction} {register : Register} :
    Trail.Has (Machine.free.recording.perform code trail) register ↔ trail.Has register ∨ register ∈ written code := by
  induction code generalizing trail with
  | nil => simp [written]
  | cons instruction code ih =>
      rw [Machine.perform_cons, ih]
      show register ∈ written (trail.1 ++ [instruction]) ∨ register ∈ written code ↔
        trail.Has register ∨ register ∈ written ([instruction] ++ code)
      rw [written_append, written_append, List.mem_append, List.mem_append, or_assoc]
      exact Iff.rfl

theorem has_perform (code : List PlainInstruction) (register : Register) (h : trail.Has register) :
    Trail.Has (Machine.free.recording.perform code trail) register :=
  has_perform_iff.mpr (Or.inl h)

variable {script : ScriptOutline} {hlength : script.lines.length < 2 ^ 32} {origin : Option StatementKind}

/-- Code passes if the registers that it is given have been written. -/
theorem passes_of_covered {given : List Register} {code : List PlainInstruction}
    (h : Covered given code) (hgiven : ∀ register ∈ given, trail.Has register) :
    (script.trailing hlength).Passes origin code trail := by
  induction code generalizing given trail with
  | nil => trivial
  | cons instruction code ih =>
      obtain ⟨hsources, hrest⟩ := h
      refine ⟨fun register hsource => hgiven register (hsources register hsource), ih hrest ?_⟩
      intro register hmem
      apply (@has_perform_iff trail [instruction] register).mpr
      rcases List.mem_append.mp hmem with hold | hnew
      · exact Or.inl (hgiven register hold)
      · right
        have hdst : instruction.dst? = some register := Option.mem_toList.mp hnew
        simp [written, hdst]

theorem passes_of_grows {scope : Register} {a b : Assembler} {accesses : List Access} {code : List PlainInstruction}
    (h : Grows [scope] a accesses code b) (hscope : trail.Has scope) :
    (script.trailing hlength).Passes origin code trail := by
  refine passes_of_covered h.covered ?_
  intro register hmem
  rw [List.mem_singleton.mp hmem]
  exact hscope

/-- A scope object is made inside one whose register has been written, and its own register is written then. -/
theorem opens_scope {scope : Register} (inner : Register) (hscope : trail.Has scope) :
    (script.trailing hlength).Passes origin [.newScope inner (some scope)] trail ∧
      Trail.Has (Machine.free.recording.perform [.newScope inner (some scope)] trail) inner := by
  constructor
  · refine ⟨?_, trivial⟩
    intro register hsource
    rw [List.mem_singleton.mp hsource]
    exact hscope
  · exact has_perform_iff.mpr (Or.inr List.mem_cons_self)

end Trails

section Statements

variable {script : ScriptOutline} {hlength : script.lines.length < 2 ^ 32}

/-- What was written before a loop stays written in all its rounds. -/
theorem ensures_onward_rounds (loopEnd : Option Label) {exit : Option Label} {scope : Register} {a b : Assembler}
    {accesses : List Access} {body : List Outline} {again : Test} (grown : Grows [scope] a accesses again.code b)
    (computed : again.condition ∈ written again.code)
    (hbody : ∀ trail : Trail, trail.Has scope →
      (script.trailing hlength).Ensures (.block body) trail (Trail.Onward exit trail))
    {trail : Trail} (hscope : trail.Has scope) :
    (script.trailing hlength).Ensures (.rounds body again) trail (Trail.Onward loopEnd trail) := by
  -- The body may start each round from more registers, but is only asked to keep those from before the loop.
  have hround : ∀ current : Trail, (∀ register, trail.Has register → current.Has register) →
      (script.trailing hlength).Ensures (.block body) current (Trail.Onward exit trail) :=
    fun current hcurrent => (hbody current (hcurrent scope hscope)).mono fun _ _ => .trans hcurrent
  refine Setting.ensures_rounds (fun current => ∀ register, trail.Has register → current.Has register)
    (fun _ hmem => hmem) hround ?_ ?_
  · intro last hleft
    exact ⟨hleft.1, fun hending => nomatch hending⟩
  · intro last hlast
    have hkept : ∀ register, trail.Has register → Trail.Has (Machine.free.recording.perform again.code last) register :=
      fun register hmem => has_perform _ register (hlast.1 register hmem)
    refine ⟨passes_of_grows grown (hlast.1 scope hscope), has_perform_iff.mpr (Or.inr computed), ?_, fun _ => hkept⟩
    intro _
    exact ⟨hkept, fun hending => nomatch hending⟩

mutual

/-- In an open scope whose register has been written, a statement reads no register too early on any path. -/
theorem ensures_onward_statement {loopEnd : Option Label} {scope : Register} {a b : Assembler} {statement : Statement}
    {outline : Outline} (h : LowersStatement loopEnd scope a statement outline b) {trail : Trail}
    (hscope : trail.Has scope) :
    (script.trailing hlength).Ensures (.statement outline) trail (Trail.Onward loopEnd trail) := by
  cases h with
  | simple _ grown =>
      exact Setting.ensures_simple (passes_of_grows grown hscope) (.trans (has_perform _) (.refl loopEnd _))
  | conditional _ _ _ _ tested chosen =>
      obtain ⟨hopening, hinner⟩ := opens_scope _ hscope
      refine Setting.ensures_conditional hopening ?_
      exact (ensures_onward_bodies chosen tested hinner).mono fun _ _ => .trans (has_perform _)
  | @whileLoop _ _ inner _ _ _ _ _ _ _ _ entry _ _ _ _ entryGrown entryComputed repeated againGrown againComputed =>
      obtain ⟨hopening, hinner⟩ := opens_scope inner hscope
      have hentry := has_perform entry.code inner hinner
      have hkept : ∀ register, trail.Has register → Trail.Has (Machine.free.recording.perform entry.code
          (Machine.free.recording.perform [.newScope inner (some scope)] trail)) register :=
        fun register hmem => has_perform _ register (has_perform _ register hmem)
      -- Each test has registers of its own: behind the loop only those of the first one have been written for sure.
      refine Setting.ensures_whileLoop hopening (passes_of_grows entryGrown hinner)
        (has_perform_iff.mpr (Or.inr entryComputed)) ?_ ?_
      · intro _
        exact .trans hkept (.refl loopEnd _)
      · intro _
        have hrounds :=
          ensures_onward_rounds loopEnd againGrown againComputed (fun _ => ensures_onward_block repeated) hentry
        exact hrounds.mono fun _ _ => .trans hkept
  | breakLoop => exact Setting.ensures_breakLoop ⟨fun _ h => h, fun _ => rfl⟩

theorem ensures_onward_block {loopEnd : Option Label} {scope : Register} {a b : Assembler}
    {statements : List Statement} {outlines : List Outline}
    (h : LowersBlock loopEnd scope a statements outlines b) {trail : Trail} (hscope : trail.Has scope) :
    (script.trailing hlength).Ensures (.block outlines) trail (Trail.Onward loopEnd trail) := by
  cases h with
  | nil => exact Setting.ensures_nil (.refl loopEnd trail)
  | cons first rest =>
      refine Setting.ensures_cons (ensures_onward_statement first hscope) ?_ ?_
      · intro middle hfirst
        exact (ensures_onward_block rest (hfirst.1 _ hscope)).mono fun _ _ => .trans hfirst.1
      · intro last hfirst
        exact hfirst

theorem ensures_onward_bodies {loopEnd : Option Label} {scope : Register} {conditionalEnd : Label}
    {a b c d : Assembler} {clauses : List Clause} {labels : List Label} {tests : List Test}
    {bodies : List (List Outline)} (h : LowersBodies loopEnd scope conditionalEnd a clauses labels bodies b)
    (htests : LowersTests scope c clauses labels tests d) {trail : Trail} (hscope : trail.Has scope) :
    (script.trailing hlength).Ensures (.choice (.ofParts clauses tests bodies)) trail
      (Trail.Onward loopEnd trail) := by
  cases h with
  | nil => exact Setting.ensures_nothing (.refl loopEnd trail)
  | guarded first rest =>
      cases htests with
      | @guarded _ _ _ _ _ _ _ _ _ _ test _ grown computed restTests =>
          have hkept := @has_perform trail test.code
          refine Setting.ensures_guarded (passes_of_grows grown hscope) (has_perform_iff.mpr (Or.inr computed)) ?_ ?_
          · intro _
            exact (ensures_onward_block first (hkept _ hscope)).mono fun _ _ => .trans hkept
          · intro _
            exact (ensures_onward_bodies rest restTests (hkept _ hscope)).mono fun _ _ => .trans hkept
  | otherwise first _ => exact Setting.ensures_otherwise (ensures_onward_block first hscope)

end

end Statements

/-- What is asked before a line is asked of every register that its instruction reads. -/
theorem sources_of_allows {script : ScriptOutline} {hlength : script.lines.length < 2 ^ 32} {line : Line} {trail : Trail}
    (h : (script.trailing hlength).policy.Allows line trail) :
    ∀ register ∈ line.instruction.sources, trail.Has register := by
  unfold Policy.Allows at h
  have heq := line.instruction.eq_of_flow
  cases hflow : line.instruction.flow with
  | next plain =>
      rw [hflow] at h heq
      rw [heq, Instruction.sources_ofPlain]
      exact h
  | jump target =>
      rw [hflow] at heq
      rw [heq]
      exact fun register hmem => nomatch hmem
  | jumpIf condition target =>
      rw [hflow] at h heq
      rw [heq]
      intro register hmem
      rw [List.mem_singleton.mp hmem]
      exact h
  | jumpIfNot condition target =>
      rw [hflow] at h heq
      rw [heq]
      intro register hmem
      rw [List.mem_singleton.mp hmem]
      exact h

/-- No register is read before it is written: on every path through the program of a script, whichever way its
conditional jumps go, each register that an instruction reads is the destination of an instruction before it. -/
theorem written_before_read {chunk : Chunk} {program : Program} (h : chunk.compile = .ok program)
    (hlength : program.length < 2 ^ 32) {before : List PlainInstruction} {pc : Nat}
    {instruction : Instruction JumpTarget} (hwalk : program.Walk before pc)
    (hhere : program.instructions[pc]? = some instruction) {register : Register}
    (hread : register ∈ instruction.reads) : ∃ earlier ∈ before, earlier.dst? = some register := by
  obtain ⟨script, b, -, lowered, -, hlines⟩ := instructions_eq_lines h hlength
  obtain ⟨scope, a, c, -, hopening, hblock, -⟩ := lowered
  have hsize : script.lines.length < 2 ^ 32 := (length_lines hlines).trans_lt hlength
  have hpasses : (script.trailing hsize).Passes none script.opening ([], ()) := by
    rw [hopening]
    exact ⟨fun register hmem => (nomatch hmem), trivial⟩
  have hscope : Trail.Has (Machine.free.recording.perform script.opening ([], ())) scope := by
    rw [hopening]
    exact has_perform_iff.mpr (Or.inr List.mem_cons_self)
  have hsafe : ∀ n, (script.trailing hsize).Safe n 0 ([], ()) :=
    Setting.safe_script rfl hpasses (ensures_onward_block hblock hscope) (fun _ _ => trivial)
      fun _ hleft => nomatch hleft.2 rfl
  unfold Program.Walk at hwalk
  rw [hlines] at hwalk
  rw [← Array.getElem?_toList, hlines, List.getElem?_map] at hhere
  obtain ⟨line, hline, rfl⟩ := Option.map_eq_some_iff.mp hhere
  have hallows := (Setting.safe_of_reaches hsafe hwalk 1).1 line hline
  have hwritten := sources_of_allows hallows register (Instruction.mem_reads_iff.mp hread)
  exact List.mem_filterMap.mp hwritten

/-- A path into the loop, up to the test of the conditional inside. -/
theorem written_before_read_leavableLoop :
    ∃ program, leavableLoop.compile = .ok program ∧ program.length < 2 ^ 32 ∧
      program.Walk [.newScope ⟨1⟩ none, .newScope ⟨2⟩ (some ⟨1⟩), .getVar ⟨0⟩ ⟨3⟩, .newScope ⟨4⟩ (some ⟨2⟩),
        .getVar ⟨1⟩ ⟨5⟩] 6 ∧
      program.instructions[6]? = some (.jumpIf ⟨5⟩ ⟨9⟩) ∧
      (⟨5⟩ : Register) ∈ (Instruction.jumpIf ⟨5⟩ ⟨9⟩ : Instruction JumpTarget).reads ∧
      ∃ earlier ∈ ([.newScope ⟨1⟩ none, .newScope ⟨2⟩ (some ⟨1⟩), .getVar ⟨0⟩ ⟨3⟩, .newScope ⟨4⟩ (some ⟨2⟩),
        .getVar ⟨1⟩ ⟨5⟩] : List PlainInstruction), earlier.dst? = some ⟨5⟩ := by
  obtain ⟨program, hcompile, hlength, hcode⟩ := compile_leavableLoop
  have hwalk : program.Walk [.newScope ⟨1⟩ none, .newScope ⟨2⟩ (some ⟨1⟩), .getVar ⟨0⟩ ⟨3⟩, .newScope ⟨4⟩ (some ⟨2⟩),
      .getVar ⟨1⟩ ⟨5⟩] 6 := by
    unfold Program.Walk
    rw [hcode]
    -- The first test comes out true.
    have hentered : ∀ trail, Machine.free.recording.Step leavableLoopCode (3, trail) (4, trail) :=
      fun trail => @Machine.Step.jumpIfNot _ _ _ 3 trail _ _ _ true rfl rfl trivial
    have hopened : Machine.free.recording.Reaches leavableLoopCode (0, [], ()) (3, _, ()) :=
      .tail (.tail (.tail .refl (.next rfl rfl)) (.next rfl rfl)) (.next rfl rfl)
    exact .tail (.tail (.tail hopened (hentered _)) (.next rfl rfl)) (.next rfl rfl)
  have hhere : program.instructions[6]? = some (.jumpIf ⟨5⟩ ⟨9⟩) := by
    rw [← Array.getElem?_toList, hcode]
    rfl
  have hread : (⟨5⟩ : Register) ∈ (Instruction.jumpIf ⟨5⟩ ⟨9⟩ : Instruction JumpTarget).reads := by decide
  exact ⟨program, hcompile, hlength, hwalk, hhere, hread, written_before_read hcompile hlength hwalk hhere hread⟩

end ScriptBytecode
