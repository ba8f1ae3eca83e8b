import ScriptBytecode.Proofs.AllPaths

/-!
# Control flow

A program goes the way of its script. In one direction, every run of a statement of the outline is a run of the program
through the lines of that statement, by induction on the run. In the other direction, all runs of the program stay
inside a statement or get out of it as some run of the statement does, by the rules for all paths. Together a program
reaches its end after the same plain instructions and in the same state as the outline of its script, and it does not
reach its end if the outline does not complete.
-/

namespace ScriptBytecode

variable {σ : Type}

namespace Setting

variable {setting : Setting σ}

/-! ## From the outline to the program -/

/-- Control gets from one position and state to others. -/
def Leads (setting : Setting σ) (position : Nat) (s : σ) (reached : Nat) (last : σ) : Prop :=
  setting.machine.Reaches setting.code (position, s) (reached, last)

theorem Leads.trans {first second third : Nat} {s middle last : σ} (h : setting.Leads first s second middle)
    (h' : setting.Leads second middle third last) : setting.Leads first s third last :=
  Relation.ReflTransGen.trans h h'

section Lines

variable {position : Nat} {s : σ} {origin : Option StatementKind} {rest : List Line}

theorem leads_plain {code : List PlainInstruction}
    (hat : StandsAt setting.lines position (plainLines origin code)) :
    setting.Leads position s (position + code.length) (setting.machine.perform code s) := by
  induction code generalizing position s with
  | nil => exact .refl
  | cons instruction code ih =>
      have hat' : StandsAt setting.lines position ([⟨origin, .ofPlain instruction⟩] ++ plainLines origin code) := hat
      have hstep : setting.machine.Step setting.code (position, s)
          (position + 1, setting.machine.effect instruction s) :=
        .next (code_getElem? hat.getElem?) (Instruction.flow_ofPlain instruction)
      have hothers := @ih _ (setting.machine.effect instruction s) hat'.right
      rw [List.length_cons, Nat.add_comm code.length 1, ← Nat.add_assoc]
      exact Relation.ReflTransGen.head hstep hothers

theorem leads_jump {target : Nat} (hat : StandsAt setting.lines position (⟨origin, .jump (placeAt target)⟩ :: rest))
    (hle : target ≤ setting.lines.length) : setting.Leads position s target s := by
  have hstep : setting.machine.Step setting.code (position, s) ((placeAt target).pc.toNat, s) :=
    .jump (code_getElem? hat.getElem?) rfl
  rw [toNat_placeAt (Nat.lt_of_le_of_lt hle setting.length_lt)] at hstep
  exact Relation.ReflTransGen.single hstep

theorem leads_jumpIf (truth : Bool) {condition : Register} {target : Nat}
    (hat : StandsAt setting.lines position (⟨origin, .jumpIf condition (placeAt target)⟩ :: rest))
    (hle : target ≤ setting.lines.length) (houtcome : setting.machine.outcome condition s truth) :
    setting.Leads position s (if truth then target else position + 1) s := by
  have hstep := Machine.Step.jumpIf (code_getElem? hat.getElem?) rfl houtcome
  rw [toNat_placeAt (Nat.lt_of_le_of_lt hle setting.length_lt)] at hstep
  exact Relation.ReflTransGen.single hstep

theorem leads_jumpIfNot (truth : Bool) {condition : Register} {target : Nat}
    (hat : StandsAt setting.lines position (⟨origin, .jumpIfNot condition (placeAt target)⟩ :: rest))
    (hle : target ≤ setting.lines.length) (houtcome : setting.machine.outcome condition s truth) :
    setting.Leads position s (if truth then position + 1 else target) s := by
  have hstep := Machine.Step.jumpIfNot (code_getElem? hat.getElem?) rfl houtcome
  rw [toNat_placeAt (Nat.lt_of_le_of_lt hle setting.length_lt)] at hstep
  exact Relation.ReflTransGen.single hstep

end Lines

/-- Where control is behind a statement, by the way the statement ends. -/
def exitOf (finish leave : Nat) : Ending → Nat
  | .completed => finish
  | .left => leave

/-- A run of a phrase leads through its lines to where it ends. -/
theorem leads_of_runs {phrase : Phrase} {s last : σ} {ending : Ending}
    (h : Runs setting.machine phrase s ending last) {start finish leave : Nat}
    (hplaced : setting.Placed phrase start finish leave) (hleave : leave ≤ setting.lines.length) :
    setting.Leads start s (exitOf finish leave ending) last := by
  induction h generalizing start finish leave with
  | simple =>
      obtain ⟨hat, hfinish⟩ := hplaced
      subst hfinish
      unfold Outline.render at hat
      exact leads_plain hat
  | conditional _ ih =>
      obtain ⟨hopening, hchoice⟩ := hplaced.conditional
      exact (leads_plain hopening).trans (ih hchoice hleave)
  | skipLoop falsy =>
      have hle := hplaced.le_length.2
      obtain ⟨hopening, hentry, hjump, -⟩ := hplaced.whileLoop
      exact ((leads_plain hopening).trans (leads_plain hentry)).trans (leads_jumpIfNot _ hjump hle falsy)
  | enterLoop truthy _ ih =>
      have hle := hplaced.le_length.2
      obtain ⟨hopening, hentry, hjump, hrounds⟩ := hplaced.whileLoop
      have henter := leads_jumpIfNot _ hjump hle truthy
      exact (((leads_plain hopening).trans (leads_plain hentry)).trans henter).trans (ih hrounds hleave)
  | breakLoop =>
      obtain ⟨hat, -⟩ := hplaced
      unfold Outline.render at hat
      exact leads_jump hat hleave
  | nil =>
      obtain ⟨-, hfinish⟩ := hplaced
      subst hfinish
      exact .refl
  | cons _ _ ihFirst ihRest =>
      obtain ⟨hfirst, hrest⟩ := hplaced.cons
      exact (ihFirst hfirst hleave).trans (ihRest hrest hleave)
  | leave _ ih =>
      have hfirst := ih hplaced.cons.1 hleave
      exact hfirst
  | nothing =>
      have hle := hplaced.le_length.2
      obtain ⟨bodies, htests, -, -⟩ := hplaced
      unfold Choice.renderTests at htests
      exact leads_jump htests hle
  | otherwise _ ih =>
      obtain ⟨bodies, rest, hjump, hbody⟩ := hplaced.otherwise
      exact (leads_jump hjump hbody.le_length.1).trans (ih hbody hleave)
  | @taken _ _ _ _ last ending truthy _ ih =>
      have hle := hplaced.le_length.2
      obtain ⟨bodies, htest, hjump, hbody, hbodyJump, -⟩ := hplaced.guarded
      have htaken := leads_jumpIf _ hjump hbody.le_length.1 truthy
      have hstart := ((leads_plain htest).trans htaken).trans (ih hbody hleave)
      -- A body that is completed jumps to the end; one that leaves the loop has left the conditional, too.
      cases ending with
      | completed => exact hstart.trans (leads_jump hbodyJump hle)
      | left => exact hstart
  | passed falsy _ ih =>
      obtain ⟨bodies, htest, hjump, hbody, -, hothers⟩ := hplaced.guarded
      have hpassed := leads_jumpIf _ hjump hbody.le_length.1 falsy
      exact ((leads_plain htest).trans hpassed).trans (ih hothers hleave)
  | leaveRound _ ih =>
      have hle := hplaced.le_length.2
      -- A break inside the body goes to the end of this loop, wherever the loop around it ends.
      obtain ⟨hbody, -, -⟩ := hplaced
      exact @ih _ _ finish ⟨hbody, rfl⟩ hle
  | lastRound _ falsy ih =>
      obtain ⟨hstartLe, hle⟩ := hplaced.le_length
      obtain ⟨hbody, hagain, hfinish⟩ := hplaced
      have hjump := hagain.right
      rw [length_plainLines] at hjump
      have hround := @ih _ _ finish ⟨hbody, rfl⟩ hle
      have hdone := leads_jumpIf _ hjump hstartLe falsy
      rw [hfinish, ← Nat.add_assoc]
      exact (hround.trans (leads_plain hagain.left)).trans hdone
  | nextRound _ truthy _ ihRound ihRounds =>
      obtain ⟨hstartLe, hle⟩ := hplaced.le_length
      obtain ⟨hbody, hagain, hfinish⟩ := hplaced
      have hjump := hagain.right
      rw [length_plainLines] at hjump
      have hround := @ihRound _ _ finish ⟨hbody, rfl⟩ hle
      have hback := leads_jumpIf _ hjump hstartLe truthy
      have hrounds := ihRounds ⟨hbody, hagain, hfinish⟩ hleave
      exact ((hround.trans (leads_plain hagain.left)).trans hback).trans hrounds

/-- Whatever control gets to from the beginning of the program is allowed. -/
def Fine (setting : Setting σ) (start : σ) : Prop :=
  ∀ (pc : Nat) (s : σ) (line : Line), setting.Leads 0 start pc s → setting.lines[pc]? = some line →
    setting.policy.Allows line s

theorem fine_of_safe {start : σ} (h : ∀ n, setting.Safe n 0 start) : setting.Fine start :=
  fun _ _ line hleads hline => (safe_of_reaches h hleads 1).1 line hline

/-- Code that control gets to passes if whatever control gets to is allowed. -/
theorem passes_of_fine {start : σ} (hfine : setting.Fine start) {position : Nat} {s : σ}
    {origin : Option StatementKind} {code : List PlainInstruction}
    (hat : StandsAt setting.lines position (plainLines origin code)) (hleads : setting.Leads 0 start position s) :
    setting.Passes origin code s := by
  induction code generalizing position s with
  | nil => trivial
  | cons instruction code ih =>
      have hat' : StandsAt setting.lines position (plainLines origin [instruction] ++ plainLines origin code) := hat
      have hallows := hfine position s _ hleads hat.getElem?
      unfold Policy.Allows at hallows
      simp only [Instruction.flow_ofPlain] at hallows
      exact ⟨hallows, ih hat'.right (hleads.trans (leads_plain hat'.left))⟩

/-! ## From the program to the outline

Where nothing is asked on the way, all runs through a phrase are runs of the phrase. -/

theorem passes_of_forall (h : ∀ origin instruction s, setting.policy.plain origin instruction s)
    {origin : Option StatementKind} {code : List PlainInstruction} {s : σ} : setting.Passes origin code s := by
  induction code generalizing s with
  | nil => trivial
  | cons instruction code ih => exact ⟨h origin instruction s, ih⟩

/-- A loop is followed from round to round: from the beginning of a round on, whatever completes the loop completes
the run that has come this far. -/
theorem ensures_runs_rounds (hplain : ∀ origin instruction s, setting.policy.plain origin instruction s)
    (htest : ∀ register s, setting.policy.test register s) {body : List Outline} {again : Test} (s : σ)
    (hbody : ∀ s, setting.Ensures (.block body) s fun ending last => Runs setting.machine (.block body) s ending last) :
    setting.Ensures (.rounds body again) s fun ending last =>
      Runs setting.machine (.rounds body again) s ending last := by
  -- The invariant: a run of the loop from the current state on completes the run from the beginning.
  refine ensures_rounds
    (fun current => ∀ last, Runs setting.machine (.rounds body again) current .completed last →
      Runs setting.machine (.rounds body again) s .completed last)
    (fun _ hrun => hrun) (fun current hcurrent => (hbody current).mono fun ending last hround =>
      (⟨current, hcurrent, hround⟩ : ∃ current,
        (∀ last, Runs setting.machine (.rounds body again) current .completed last →
          Runs setting.machine (.rounds body again) s .completed last) ∧
        Runs setting.machine (.block body) current ending last)) ?_ ?_
  · rintro last ⟨current, hcurrent, hround⟩
    exact hcurrent last (.leaveRound hround)
  · rintro middle ⟨current, hcurrent, hround⟩
    refine ⟨passes_of_forall hplain, htest _ _, ?_, ?_⟩
    · intro falsy
      exact hcurrent _ (.lastRound hround falsy)
    · intro truthy last hrun
      exact hcurrent last (.nextRound hround truthy hrun)

mutual

theorem ensures_runs_statement (hplain : ∀ origin instruction s, setting.policy.plain origin instruction s)
    (htest : ∀ register s, setting.policy.test register s) : ∀ (outline : Outline) (s : σ),
    setting.Ensures (.statement outline) s fun ending last => Runs setting.machine (.statement outline) s ending last
  | .simple kind code, s => ensures_simple (passes_of_forall hplain) .simple
  | .conditional opening choice, s => by
      refine ensures_conditional (passes_of_forall hplain) ?_
      exact (ensures_runs_choice hplain htest choice _).mono fun _ _ => .conditional
  | .whileLoop opening entry body again, s => by
      refine ensures_whileLoop (passes_of_forall hplain) (passes_of_forall hplain) (htest _ _) .skipLoop ?_
      intro truthy
      exact (ensures_runs_rounds hplain htest _ (ensures_runs_block hplain htest body)).mono fun _ _ => .enterLoop truthy
  | .breakLoop, s => ensures_breakLoop .breakLoop

theorem ensures_runs_block (hplain : ∀ origin instruction s, setting.policy.plain origin instruction s)
    (htest : ∀ register s, setting.policy.test register s) : ∀ (outlines : List Outline) (s : σ),
    setting.Ensures (.block outlines) s fun ending last => Runs setting.machine (.block outlines) s ending last
  | [], s => ensures_nil .nil
  | outline :: outlines, s => by
      refine ensures_cons (ensures_runs_statement hplain htest outline s) ?_ ?_
      · intro middle hfirst
        exact (ensures_runs_block hplain htest outlines middle).mono fun _ _ => .cons hfirst
      · intro last hfirst
        exact .leave hfirst

theorem ensures_runs_choice (hplain : ∀ origin instruction s, setting.policy.plain origin instruction s)
    (htest : ∀ register s, setting.policy.test register s) : ∀ (choice : Choice) (s : σ),
    setting.Ensures (.choice choice) s fun ending last => Runs setting.machine (.choice choice) s ending last
  | .nothing, s => ensures_nothing .nothing
  | .otherwise body, s => ensures_otherwise ((ensures_runs_block hplain htest body s).mono fun _ _ => .otherwise)
  | .guarded test body others, s => by
      refine ensures_guarded (passes_of_forall hplain) (htest _ _) ?_ ?_
      · intro truthy
        exact (ensures_runs_block hplain htest body _).mono fun _ _ => .taken truthy
      · intro falsy
        exact (ensures_runs_choice hplain htest others _).mono fun _ _ => .passed falsy

end

end Setting

/-! ## The form of an outline -/

mutual

/-- An outline has the form of a statement: the same statements in the same order, and the same clauses, with one new
scope object before the clauses of a conditional and before the first test of a loop. Breaks stand inside of loops. -/
inductive FollowsStatement : Bool → Statement → Outline → Prop
  | simple {inLoop : Bool} {statement : Statement} {code : List PlainInstruction} (simple : statement.isSimple = true) :
      FollowsStatement inLoop statement (.simple statement.kind code)
  | conditional {inLoop : Bool} {clauses : List Clause} {location : Option Location} {inner scope : Register}
      {choice : Choice} (form : FollowsClauses inLoop clauses choice) :
      FollowsStatement inLoop (.conditional clauses location) (.conditional [.newScope inner (some scope)] choice)
  | whileLoop {inLoop : Bool} {condition : Expression} {statements : List Statement} {location : Option Location}
      {inner scope : Register} {entry again : Test} {body : List Outline}
      (form : FollowsBlock true statements body) :
      FollowsStatement inLoop (.whileLoop condition statements location)
        (.whileLoop [.newScope inner (some scope)] entry body again)
  | breakLoop {location : Option Location} : FollowsStatement true (.breakLoop location) .breakLoop

inductive FollowsBlock : Bool → List Statement → List Outline → Prop
  | nil {inLoop : Bool} : FollowsBlock inLoop [] []
  | cons {inLoop : Bool} {statement : Statement} {statements : List Statement} {outline : Outline}
      {outlines : List Outline} (first : FollowsStatement inLoop statement outline)
      (rest : FollowsBlock inLoop statements outlines) :
      FollowsBlock inLoop (statement :: statements) (outline :: outlines)

inductive FollowsClauses : Bool → List Clause → Choice → Prop
  | nothing {inLoop : Bool} : FollowsClauses inLoop [] .nothing
  | otherwise {inLoop : Bool} {statements : List Statement} {location : Option Location} {body : List Outline}
      (form : FollowsBlock inLoop statements body) :
      FollowsClauses inLoop [.otherwise statements location] (.otherwise body)
  | guarded {inLoop : Bool} {opening : ClauseOpening} {condition : Expression} {statements : List Statement}
      {location : Option Location} {clauses : List Clause} {test : Test} {body : List Outline} {others : Choice}
      (first : FollowsBlock inLoop statements body) (rest : FollowsClauses inLoop clauses others) :
      FollowsClauses inLoop (.guarded opening condition statements location :: clauses) (.guarded test body others)

end

/-- An outline has the form of a script: one new scope object, then the statements. -/
structure ScriptOutline.Follows (outline : ScriptOutline) (chunk : Chunk) : Prop where
  opening : ∃ scope, outline.opening = [.newScope scope none]
  body : FollowsBlock false chunk.body outline.body

mutual

theorem follows_statement {loopEnd : Option Label} {scope : Register} {a b : Assembler} {statement : Statement}
    {outline : Outline} (h : LowersStatement loopEnd scope a statement outline b) :
    FollowsStatement loopEnd.isSome statement outline := by
  cases h with
  | simple hsimple _ => exact .simple hsimple
  | conditional lastOnly _ _ _ tested chosen => exact .conditional (follows_clauses chosen lastOnly tested)
  | whileLoop _ _ _ _ repeated _ _ => exact .whileLoop (follows_block repeated)
  | breakLoop => exact .breakLoop

theorem follows_block {loopEnd : Option Label} {scope : Register} {a b : Assembler} {statements : List Statement}
    {outlines : List Outline} (h : LowersBlock loopEnd scope a statements outlines b) :
    FollowsBlock loopEnd.isSome statements outlines := by
  cases h with
  | nil => exact .nil
  | cons first rest => exact .cons (follows_statement first) (follows_block rest)

theorem follows_clauses {loopEnd : Option Label} {scope : Register} {conditionalEnd : Label} {a b c d : Assembler}
    {clauses : List Clause} {labels : List Label} {tests : List Test} {bodies : List (List Outline)}
    (h : LowersBodies loopEnd scope conditionalEnd a clauses labels bodies b)
    (hlast : clauses.dropLast.any Clause.isOtherwise = false) (htests : LowersTests scope c clauses labels tests d) :
    FollowsClauses loopEnd.isSome clauses (.ofParts clauses tests bodies) := by
  cases h with
  | nil => exact .nothing
  | guarded first rest =>
      cases htests with
      | guarded _ _ restTests =>
          exact .guarded (follows_block first) (follows_clauses rest (any_dropLast_of_cons hlast) restTests)
  | otherwise first _ =>
      obtain rfl := eq_nil_of_otherwise hlast
      exact .otherwise (follows_block first)

end

theorem LowersChunk.follows {chunk : Chunk} {outline : ScriptOutline} {b : Assembler}
    (h : LowersChunk chunk outline b) : outline.Follows chunk := by
  obtain ⟨scope, a, c, -, hopening, hblock, -⟩ := h
  exact ⟨⟨scope, hopening⟩, follows_block hblock⟩

section NoBreak

variable {machine : Machine σ} {s last : σ} {ending : Ending}

/-- A loop is never left to a place outside of the loop around it. -/
theorem completed_of_rounds {body : List Outline} {again : Test}
    (h : Runs machine (.rounds body again) s ending last) : ending = .completed := by
  -- The induction is on the run, for which the phrase has to be a variable.
  generalize hphrase : Phrase.rounds body again = phrase at h
  induction h with
  | leaveRound => rfl
  | lastRound => rfl
  | nextRound _ _ _ _ ih => exact ih hphrase
  | _ => exact nomatch hphrase

mutual

theorem completed_of_statement {statement : Statement} {outline : Outline}
    (h : FollowsStatement false statement outline) {s last : σ} {ending : Ending}
    (hruns : Runs machine (.statement outline) s ending last) : ending = .completed := by
  cases h with
  | simple =>
      cases hruns
      rfl
  | conditional clauses =>
      cases hruns with
      | conditional chosen => exact completed_of_choice clauses chosen
  | whileLoop =>
      cases hruns with
      | skipLoop => rfl
      | enterLoop _ looped => exact completed_of_rounds looped

theorem completed_of_block {statements : List Statement} {outlines : List Outline}
    (h : FollowsBlock false statements outlines) {s last : σ} {ending : Ending}
    (hruns : Runs machine (.block outlines) s ending last) : ending = .completed := by
  cases h with
  | nil =>
      cases hruns
      rfl
  | cons first rest =>
      cases hruns with
      | cons _ hrest => exact completed_of_block rest hrest
      | leave hfirst => exact nomatch completed_of_statement first hfirst

theorem completed_of_choice {clauses : List Clause} {choice : Choice}
    (h : FollowsClauses false clauses choice) {s last : σ} {ending : Ending}
    (hruns : Runs machine (.choice choice) s ending last) : ending = .completed := by
  cases h with
  | nothing =>
      cases hruns
      rfl
  | otherwise body =>
      cases hruns with
      | otherwise chosen => exact completed_of_block body chosen
  | guarded body others =>
      cases hruns with
      | taken _ chosen => exact completed_of_block body chosen
      | passed _ chosen => exact completed_of_choice others chosen

end

end NoBreak

/-! ## Whole programs -/

/-- The setting in which a program runs and nothing is asked but that it ends as its outline can end. -/
def ScriptOutline.unasked (outline : ScriptOutline) (machine : Machine σ) (hlength : outline.lines.length < 2 ^ 32)
    (last : σ → Prop) : Setting σ where
  machine := machine
  lines := outline.lines
  policy := ⟨fun _ _ _ => True, fun _ _ => True⟩
  last := last
  length_lt := hlength

/-- The program of a script reaches its end in just the states in which the outline of the script can be completed. -/
theorem reaches_end_iff {outline : ScriptOutline} {chunk : Chunk} (hfollows : outline.Follows chunk)
    (hlength : outline.lines.length < 2 ^ 32) (machine : Machine σ) (start last : σ) :
    machine.Reaches (outline.lines.map (·.instruction)) (0, start) (outline.lines.length, last) ↔
      Runs machine (.block outline.body) (machine.perform outline.opening start) .completed last := by
  constructor
  · -- At the end of the program it is asked that the outline could have been completed in this state.
    intro hreaches
    let setting := outline.unasked machine hlength fun last =>
      Runs machine (.block outline.body) (machine.perform outline.opening start) .completed last
    have hplain : ∀ origin instruction s, setting.policy.plain origin instruction s := fun _ _ _ => trivial
    have htest : ∀ register s, setting.policy.test register s := fun _ _ => trivial
    have hbody := Setting.ensures_runs_block hplain htest outline.body (setting.machine.perform outline.opening start)
    have hsafe : ∀ n, setting.Safe n 0 start :=
      Setting.safe_script rfl (Setting.passes_of_forall hplain) hbody (fun _ hruns => hruns)
        fun _ hruns => nomatch completed_of_block hfollows.body hruns
    exact (Setting.safe_of_reaches hsafe hreaches 1).2.1 rfl
  · intro hruns
    let setting := outline.unasked machine hlength fun _ => True
    obtain ⟨hopening, hblock⟩ := Setting.placed_script (show setting.lines = outline.lines from rfl)
    have hopened : setting.Leads 0 start outline.opening.length (setting.machine.perform outline.opening start) := by
      have hleads := @Setting.leads_plain σ setting 0 start none outline.opening hopening
      rwa [Nat.zero_add] at hleads
    exact hopened.trans (Setting.leads_of_runs hruns hblock (Nat.zero_le _))

/-- Lowering preserves the flow of control: whatever plain instructions do to a state and however tests come out in a
state, the program of a script reaches its end after the same plain instructions and in the same state as its outline,
and only if its outline is completed. -/
theorem runsTo_iff_executes {chunk : Chunk} {program : Program} (h : chunk.compile = .ok program)
    (hlength : program.length < 2 ^ 32) :
    ∃ outline, chunk.outline? = some outline ∧ outline.Follows chunk ∧
      ∀ (σ : Type) (effect : PlainInstruction → σ → σ) (truthy : Register → σ → Bool) (start : σ)
        (executed : List PlainInstruction) (last : σ),
        program.RunsTo (.ofTruth effect truthy) start executed last ↔
          outline.Executes (.ofTruth effect truthy) start executed last := by
  obtain ⟨outline, b, houtline, lowered, -, hlines⟩ := instructions_eq_lines h hlength
  refine ⟨outline, houtline, lowered.follows, ?_⟩
  intro σ effect truthy start executed last
  have hsize := length_lines hlines
  unfold Program.RunsTo
  rw [hlines, ← hsize]
  exact reaches_end_iff lowered.follows (hsize ▸ hlength) _ _ _

theorem runsTo_iff_executes_leavableLoop :
    ∃ program, leavableLoop.compile = .ok program ∧ program.length < 2 ^ 32 ∧
      ∃ outline, leavableLoop.outline? = some outline ∧ outline.Follows leavableLoop ∧
        ∀ (σ : Type) (effect : PlainInstruction → σ → σ) (truthy : Register → σ → Bool) (start : σ)
          (executed : List PlainInstruction) (last : σ),
          program.RunsTo (.ofTruth effect truthy) start executed last ↔
            outline.Executes (.ofTruth effect truthy) start executed last := by
  obtain ⟨program, hcompile, hlength, -⟩ := compile_leavableLoop
  exact ⟨program, hcompile, hlength, runsTo_iff_executes hcompile hlength⟩

end ScriptBytecode
