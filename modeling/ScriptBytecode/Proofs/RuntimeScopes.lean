import ScriptBytecode.Proofs.ScopedCode

/-!
# Scopes at run time

Names are resolved in the order in which a script is lowered, and its program is executed in another order. The two
agree on a name if every path to an access has passed a write of the name. That is not so for every script: where one
clause of a conditional declares a name, a later clause is lowered for the scope of that name, but no path to the later
clause has passed the declaration.

The main result says that there is no other way to miss a name: the accesses of a program find their names on all paths
if and only if the script has no stray access. In one direction the rules for all paths apply, with at least the names
that are held in the scope objects. In the other direction one path to each reached statement is enough; it goes through
every loop at most once and has at most the names that are held.
-/

namespace ScriptBytecode

open Assembler Assembling

/-- The kind of the innermost statement that the instruction at a position of a script's program was emitted for. -/
def Chunk.origin? (chunk : Chunk) (pc : Nat) : Option StatementKind :=
  chunk.outline?.bind fun outline => outline.lines[pc]?.bind (·.origin)

/-- On every path through a program, whichever way its conditional jumps go, each read of a scoped name and each write of
one for an assignment finds the name from the addressed scope object outwards. -/
def Chunk.FindsItsNames (chunk : Chunk) (program : Program) : Prop :=
  ∀ (pc : Nat) (heap : ScopeHeap) (instruction : Instruction JumpTarget),
    (ScopeHeap.machine program.constants).Reaches program.instructions.toList (0, .empty) (pc, heap) →
      program.instructions[pc]? = some instruction → heap.Serves program.constants (chunk.origin? pc) instruction

/-! ## New scope objects -/

theorem serves_newScope {τ : Type} {heap : ScopeHeap} {pool : ConstantPool} {origin : Option StatementKind}
    {inner : Register} {parent : Option Register} : heap.Serves pool origin (.newScope inner parent : Instruction τ) :=
  fun _ _ haccess => nomatch haccess

theorem mirrors_script (fit : Fit) (pool : ConstantPool) (scope : Register)
    (hsuits : fit.Suits (fun _ => false) []) :
    ScopeHeap.Mirrors fit ((ScopeHeap.machine pool).perform [.newScope scope none] .empty) [(scope, [])] := by
  have hnone : (ScopeHeap.empty.make scope none).finds 0 = fun _ => false := by
    funext name
    simp [ScopeHeap.finds, ScopeHeap.make, ScopeHeap.empty, nearest?]
  refine ⟨0, Nat.one_pos, if_pos rfl, ?_, trivial⟩
  show fit.Suits ((ScopeHeap.empty.make scope none).finds 0) []
  rw [hnone]
  exact hsuits

section Statements

variable {pool : ConstantPool} {script : ScriptOutline} {hlength : script.lines.length < 2 ^ 32}

theorem mirrors_newScope (pool : ConstantPool) {fit : Fit} {scope inner : Register} {outer : List Frame}
    {known held : List String} {a b : Assembler} {heap : ScopeHeap} (standing : Standing scope outer known a)
    (entered : enterScope a = .ok (inner, b)) (hmirrors : heap.Mirrors fit ((scope, held) :: outer)) :
    ScopeHeap.Mirrors fit ((ScopeHeap.machine pool).perform [.newScope inner (some scope)] heap)
      ((inner, held) :: (scope, held) :: outer) := by
  refine ScopeHeap.mirrors_make hmirrors ?_
  intro frame hframe
  refine (standing.enter entered held).2 frame.1 ?_
  rcases List.mem_cons.mp hframe with rfl | houter
  · exact List.mem_cons_self
  · exact List.mem_cons_of_mem scope (List.mem_map_of_mem houter)

/-! ## Scripts without stray accesses -/

/-- Behind a statement the scope objects have what is held there, if control gets there, and what is held behind the
loop that a break leaves. -/
def Settled (loopEnd : Option Label) (beyond : List Frame) (reached : Bool) (frames : List Frame) :
    Ending → ScopeHeap → Prop
  | .completed, heap => reached = true ∧ heap.Mirrors .atLeast frames
  | .left, heap => loopEnd.isSome = true ∧ heap.Mirrors .atLeast beyond

/-- All rounds of a loop begin with at least what is held before the loop. -/
theorem ensures_settled_rounds (loopEnd : Option Label) (beyond : List Frame) {exit : Label} {inner : Register}
    {outer : List Frame} {held : List String} {round : Knowledge} {a b : Assembler} {condition : Expression}
    {body : List Outline} {again : Test} (standing : Standing inner outer round.known a)
    (grown : Grows [inner] a condition.accesses again.code b) (hpool : b.constants.Extends pool)
    (hagain : round.accesses condition.accesses = some round) (hheld : ∀ name ∈ held, name ∈ round.held)
    (hbody : ∀ heap : ScopeHeap, heap.Mirrors .atLeast ((inner, held) :: outer) →
      (script.scoped pool hlength).Ensures (.block body) heap
        (Settled (some exit) outer round.reached ((inner, round.held) :: outer)))
    {heap : ScopeHeap} (hmirrors : heap.Mirrors .atLeast ((inner, held) :: outer)) :
    (script.scoped pool hlength).Ensures (.rounds body again) heap (Settled loopEnd beyond true outer) := by
  refine Setting.ensures_rounds (fun heap => heap.Mirrors .atLeast ((inner, held) :: outer)) hmirrors hbody ?_ ?_
  · intro last hleft
    exact ⟨rfl, hleft.2⟩
  · rintro last ⟨hreached, hlast⟩
    obtain ⟨hpasses, hafter⟩ := standing.passes grown hpool (suits_of_expression condition (some .whileLoop)) hreached
      hagain hlast
    exact ⟨hpasses, trivial, fun _ => ⟨rfl, hafter.tail⟩, fun _ => hafter.expectLess hheld⟩

mutual

/-- A statement without stray accesses finds its names on all paths. -/
theorem ensures_settled_statement {loopEnd : Option Label} {scope : Register} {a b : Assembler}
    {statement : Statement} {outline : Outline} (h : LowersStatement loopEnd scope a statement outline b)
    {outer beyond : List Frame} (hbeyond : beyond <:+ outer) {knowledge next : Knowledge}
    (hnext : knowledge.statement statement = some next) (standing : Standing scope outer knowledge.known a)
    (hpool : b.constants.Extends pool) (hreached : knowledge.reached = true) {heap : ScopeHeap}
    (hmirrors : heap.Mirrors .atLeast ((scope, knowledge.held) :: outer)) :
    (script.scoped pool hlength).Ensures (.statement outline) heap
      (Settled loopEnd beyond next.reached ((scope, next.held) :: outer)) := by
  cases h with
  | simple hsimple grown =>
      rw [Knowledge.statement_of_isSimple hsimple] at hnext
      obtain ⟨hpasses, hafter⟩ := standing.passes grown hpool (suits_of_statement hsimple) hreached hnext hmirrors
      have hstays := (Knowledge.grown_accesses hnext).2.trans hreached
      exact Setting.ensures_simple hpasses ⟨hstays, hafter⟩
  | conditional _ _ entered reserved tested chosen =>
      rw [Knowledge.statement] at hnext
      obtain ⟨reached, hclauses, rfl⟩ := Option.map_eq_some_iff.mp hnext
      obtain ⟨hscopes, -, hconstants, hregister⟩ := frame_newLabels reserved
      have hstanding := (standing.enter entered knowledge.held).1.congr hscopes hconstants hregister
      have hopened := mirrors_newScope pool standing entered hmirrors
      have hadvances := advances_bodies chosen
      -- The bodies are lowered behind all tests, and the tests declare nothing.
      refine Setting.ensures_conditional ⟨serves_newScope, trivial⟩ ?_
      exact ensures_settled_bodies chosen tested (hbeyond.trans (List.suffix_cons _ _)) hclauses
        ((hstanding.tests tested).congr rfl rfl rfl) hstanding hpool (hadvances.constants.trans hpool) hreached hopened
  | @whileLoop _ _ _ _ _ _ _ _ condition _ _ _ _ _ _ entered entryGrown _ repeated againGrown _ =>
      obtain ⟨hentry, ⟨round, hround, hagain⟩, rfl⟩ := Knowledge.whileLoop_eq_some_iff.mp hnext
      have hpoolBody := againGrown.advances.constants.trans hpool
      have hpoolEntry := (advances_block repeated).constants.trans hpoolBody
      obtain ⟨hstanding, hstandingBody⟩ := standing.loop entered entryGrown next.held
      have hopened := mirrors_newScope pool standing entered hmirrors
      obtain ⟨hpasses, hafter⟩ := hstanding.passes entryGrown hpoolEntry
        (suits_of_expression condition (some .whileLoop)) hreached hentry hopened
      refine Setting.ensures_whileLoop ⟨serves_newScope, trivial⟩ hpasses trivial
        (fun _ => ⟨hreached, hafter.tail⟩) fun _ => ?_
      rw [hreached]
      exact ensures_settled_rounds loopEnd beyond (hstandingBody.block repeated hround) againGrown hpool hagain
        (Knowledge.held_of_block hround)
        (fun _ => ensures_settled_block repeated (List.suffix_refl _) hround hstandingBody hpoolBody hreached) hafter
  | breakLoop =>
      -- The objects of the scopes that the break leaves no longer matter.
      exact Setting.ensures_breakLoop ⟨rfl, hmirrors.drop (hbeyond.trans (List.suffix_cons _ _))⟩

theorem ensures_settled_block {loopEnd : Option Label} {scope : Register} {a b : Assembler}
    {statements : List Statement} {outlines : List Outline}
    (h : LowersBlock loopEnd scope a statements outlines b) {outer beyond : List Frame} (hbeyond : beyond <:+ outer)
    {knowledge next : Knowledge} (hnext : knowledge.block statements = some next)
    (standing : Standing scope outer knowledge.known a) (hpool : b.constants.Extends pool)
    (hreached : knowledge.reached = true) {heap : ScopeHeap}
    (hmirrors : heap.Mirrors .atLeast ((scope, knowledge.held) :: outer)) :
    (script.scoped pool hlength).Ensures (.block outlines) heap
      (Settled loopEnd beyond next.reached ((scope, next.held) :: outer)) := by
  cases h with
  | nil =>
      rw [Knowledge.block] at hnext
      obtain rfl := Option.some.inj hnext
      exact Setting.ensures_nil ⟨hreached, hmirrors⟩
  | cons first rest =>
      obtain ⟨middle, hfirst, hrest⟩ := Knowledge.block_cons_eq_some_iff.mp hnext
      have hpoolFirst := (advances_block rest).constants.trans hpool
      refine Setting.ensures_cons
        (ensures_settled_statement first hbeyond hfirst standing hpoolFirst hreached hmirrors) ?_ ?_
      · rintro heap ⟨hmiddle, hheap⟩
        exact ensures_settled_block rest hbeyond hrest (standing.statement first hfirst) hpool hmiddle hheap
      · intro heap hleft
        exact hleft

theorem ensures_settled_bodies {loopEnd : Option Label} {scope : Register} {conditionalEnd : Label}
    {a b c d : Assembler} {clauses : List Clause} {labels : List Label} {tests : List Test}
    {bodies : List (List Outline)} (h : LowersBodies loopEnd scope conditionalEnd a clauses labels bodies b)
    (htests : LowersTests scope c clauses labels tests d) {outer beyond : List Frame} (hbeyond : beyond <:+ outer)
    {knowledge : Knowledge} {known : List String} {reached : Bool}
    (hclauses : knowledge.clauses known clauses = some reached) (standing : Standing scope outer known a)
    (standingTests : Standing scope outer knowledge.known c) (hpool : b.constants.Extends pool)
    (hpoolTests : d.constants.Extends pool) (hreached : knowledge.reached = true) {heap : ScopeHeap}
    (hmirrors : heap.Mirrors .atLeast ((scope, knowledge.held) :: outer)) :
    (script.scoped pool hlength).Ensures (.choice (.ofParts clauses tests bodies)) heap
      (Settled loopEnd beyond reached outer) := by
  cases h with
  | nil =>
      rw [Knowledge.clauses] at hclauses
      obtain rfl := Option.some.inj hclauses
      exact Setting.ensures_nothing ⟨hreached, hmirrors.tail⟩
  | @guarded _ _ _ label _ b' _ _ _ _ _ _ _ _ _ first rest =>
      cases htests with
      | @guarded _ c' _ _ _ _ _ _ _ _ test _ grown _ restTests =>
          obtain ⟨htested, next, others, hfirst, hothers, rfl⟩ := Knowledge.clauses_guarded_eq_some_iff.mp hclauses
          have hpoolFirst := (advances_bodies rest).constants.trans hpool
          have hpoolTest := restTests.advances.constants.trans hpoolTests
          have hstandingFirst : Standing scope outer (knowledge.knowing known).known (a.bound label) :=
            standing.congr rfl rfl rfl
          -- The clauses behind know what this one declares, although they are executed in its place.
          have hstandingRest : Standing scope outer next.known (b'.pushed (.jump conditionalEnd)) :=
            (hstandingFirst.block first hfirst).congr rfl rfl rfl
          have hstandingTests : Standing scope outer knowledge.known (c'.pushed (.jumpIf test.condition label)) :=
            (standingTests.expression grown).congr rfl rfl rfl
          obtain ⟨hpasses, hafter⟩ := standingTests.passes grown hpoolTest
            (suits_of_expression _ (some .conditional)) hreached htested hmirrors
          refine Setting.ensures_guarded hpasses trivial ?_ ?_
          · intro _
            refine (ensures_settled_block first hbeyond hfirst hstandingFirst hpoolFirst hreached hafter).mono ?_
            rintro (_ | _) heap hsettled
            · exact ⟨by simp [hsettled.1], hsettled.2.tail⟩
            · exact hsettled
          · intro _
            refine (ensures_settled_bodies rest restTests hbeyond hothers hstandingRest hstandingTests hpool hpoolTests
              hreached hafter).mono ?_
            rintro (_ | _) heap hsettled
            · exact ⟨by simp [hsettled.1], hsettled.2⟩
            · exact hsettled
  | @otherwise _ _ _ label _ _ _ _ _ _ _ _ _ first rest =>
      obtain ⟨next, hfirst, rfl⟩ := Knowledge.clauses_otherwise_eq_some_iff.mp hclauses
      have hpoolFirst := (advances_bodies rest).constants.trans hpool
      have hstandingFirst : Standing scope outer (knowledge.knowing known).known (a.bound label) :=
        standing.congr rfl rfl rfl
      refine Setting.ensures_otherwise ?_
      refine (ensures_settled_block first hbeyond hfirst hstandingFirst hpoolFirst hreached hmirrors).mono ?_
      rintro (_ | _) heap hsettled
      · exact ⟨hsettled.1, hsettled.2.tail⟩
      · exact hsettled

end

/-! ## Scripts whose names are found -/

/-- The condition of a clause or of a loop that is reached has no stray accesses if all its names are found. -/
theorem found_test (hfine : (script.scoped pool hlength).Fine .empty) {scope : Register} {outer : List Frame}
    {knowledge : Knowledge} {a b : Assembler} {condition : Expression} {code : List PlainInstruction}
    {origin : Option StatementKind} (standing : Standing scope outer knowledge.known a)
    (grown : Grows [scope] a condition.accesses code b) (hpool : b.constants.Extends pool)
    (hreached : knowledge.reached = true) {position : Nat} {heap : ScopeHeap}
    (hat : StandsAt script.lines position (plainLines origin code))
    (hleads : (script.scoped pool hlength).Leads 0 .empty position heap)
    (hmirrors : heap.Mirrors .atMost ((scope, knowledge.held) :: outer)) :
    knowledge.accesses condition.accesses = some knowledge ∧ ∃ last : ScopeHeap,
      (script.scoped pool hlength).Leads 0 .empty (position + code.length) last ∧
        last.Mirrors .atMost ((scope, knowledge.held) :: outer) := by
  have hpasses := Setting.passes_of_fine hfine hat hleads
  obtain ⟨next, hnext, hafter⟩ := standing.accesses_of_passes grown hpool (suits_of_expression condition origin) hreached
    hmirrors hpasses
  obtain ⟨htested, rfl⟩ := Knowledge.accesses_expression_eq_some_iff.mp hnext
  exact ⟨htested, _, hleads.trans (Setting.leads_plain hat), hafter⟩

mutual

/-- A statement that is reached has no stray accesses if all its names are found. If control gets behind it, then on a
path on which nothing is found there but what is held. -/
theorem found_statement (hfine : (script.scoped pool hlength).Fine .empty) {loopEnd : Option Label} {scope : Register}
    {a b : Assembler} {statement : Statement} {outline : Outline}
    (h : LowersStatement loopEnd scope a statement outline b) {outer : List Frame} {knowledge : Knowledge}
    (standing : Standing scope outer knowledge.known a) (hpool : b.constants.Extends pool)
    (hreached : knowledge.reached = true) {start finish leave : Nat} {heap : ScopeHeap}
    (hplaced : (script.scoped pool hlength).Placed (.statement outline) start finish leave)
    (hleads : (script.scoped pool hlength).Leads 0 .empty start heap)
    (hmirrors : heap.Mirrors .atMost ((scope, knowledge.held) :: outer)) :
    ∃ next, knowledge.statement statement = some next ∧ (next.reached = true → ∃ last : ScopeHeap,
      (script.scoped pool hlength).Leads 0 .empty finish last ∧
        last.Mirrors .atMost ((scope, next.held) :: outer)) := by
  cases h with
  | simple hsimple grown =>
      obtain ⟨hat, hfinish⟩ := hplaced
      unfold Outline.render at hat
      have hpasses := Setting.passes_of_fine hfine hat hleads
      obtain ⟨next, hnext, hafter⟩ := standing.accesses_of_passes grown hpool (suits_of_statement hsimple) hreached
        hmirrors hpasses
      rw [Knowledge.statement_of_isSimple hsimple]
      refine ⟨next, hnext, fun _ => ⟨_, ?_, hafter⟩⟩
      rw [hfinish]
      exact hleads.trans (Setting.leads_plain hat)
  | @conditional _ _ inner _ _ _ d _ _ _ _ _ _ _ _ entered reserved tested chosen =>
      obtain ⟨hopening, hchoice⟩ := hplaced.conditional
      obtain ⟨hscopes, -, hconstants, hregister⟩ := frame_newLabels reserved
      have hstanding := (standing.enter entered knowledge.held).1.congr hscopes hconstants hregister
      have hopened := mirrors_newScope pool standing entered hmirrors
      have hadvances := advances_bodies chosen
      obtain ⟨reached, hclauses, hbehind⟩ := found_bodies hfine chosen tested
        ((hstanding.tests tested).congr rfl rfl rfl) hstanding hpool (hadvances.constants.trans hpool) hreached hchoice
        (hleads.trans (Setting.leads_plain hopening)) hopened
      rw [Knowledge.statement, hclauses, Option.map_some]
      exact ⟨_, rfl, hbehind⟩
  | @whileLoop _ _ _ _ _ _ _ _ condition _ _ _ _ _ _ entered entryGrown _ repeated againGrown _ =>
      have hle := hplaced.le_length.2
      obtain ⟨hopening, hentryAt, hjump, hbodyAt, hagainAt, hfinish⟩ := hplaced.whileLoop
      have hpoolBody := againGrown.advances.constants.trans hpool
      have hpoolEntry := (advances_block repeated).constants.trans hpoolBody
      obtain ⟨hstanding, hstandingBody⟩ := standing.loop entered entryGrown knowledge.held
      have hopened := mirrors_newScope pool standing entered hmirrors
      obtain ⟨hentry, tested, htested, hafter⟩ := found_test hfine hstanding entryGrown hpoolEntry hreached hentryAt
        (hleads.trans (Setting.leads_plain hopening)) hopened
      -- One path goes on behind the loop without a round, another one makes the first round.
      have hskipped := htested.trans (Setting.leads_jumpIfNot false hjump hle trivial)
      have hentered := htested.trans (Setting.leads_jumpIfNot true hjump hle trivial)
      obtain ⟨round, hround, hbehind⟩ := found_block hfine repeated hstandingBody hpoolBody hreached ⟨hbodyAt, rfl⟩
        hentered hafter
      have hagain : round.accesses condition.accesses = some round := by
        -- If every path leaves the round before its end, the second test is not reached.
        cases hroundReached : round.reached with
        | true =>
            obtain ⟨last, hlast, hlastMirrors⟩ := hbehind hroundReached
            exact (found_test hfine (hstandingBody.block repeated hround) againGrown hpool hroundReached hagainAt.left
              hlast hlastMirrors).1
        | false =>
            obtain ⟨next, hnext, -⟩ := Knowledge.accesses_of_not_reached hroundReached
            exact (Knowledge.accesses_expression_eq_some_iff.mp hnext).1
      exact ⟨knowledge, Knowledge.whileLoop_eq_some_iff.mpr ⟨hentry, ⟨round, hround, hagain⟩, rfl⟩,
        fun _ => ⟨tested, hskipped, hafter.tail⟩⟩
  | breakLoop =>
      rw [Knowledge.statement]
      exact ⟨_, rfl, fun hreached => nomatch hreached⟩

theorem found_block (hfine : (script.scoped pool hlength).Fine .empty) {loopEnd : Option Label} {scope : Register}
    {a b : Assembler} {statements : List Statement} {outlines : List Outline}
    (h : LowersBlock loopEnd scope a statements outlines b) {outer : List Frame} {knowledge : Knowledge}
    (standing : Standing scope outer knowledge.known a) (hpool : b.constants.Extends pool)
    (hreached : knowledge.reached = true) {start finish leave : Nat} {heap : ScopeHeap}
    (hplaced : (script.scoped pool hlength).Placed (.block outlines) start finish leave)
    (hleads : (script.scoped pool hlength).Leads 0 .empty start heap)
    (hmirrors : heap.Mirrors .atMost ((scope, knowledge.held) :: outer)) :
    ∃ next, knowledge.block statements = some next ∧ (next.reached = true → ∃ last : ScopeHeap,
      (script.scoped pool hlength).Leads 0 .empty finish last ∧
        last.Mirrors .atMost ((scope, next.held) :: outer)) := by
  cases h with
  | nil =>
      obtain ⟨-, hfinish⟩ := hplaced
      rw [Knowledge.block]
      refine ⟨knowledge, rfl, fun _ => ⟨heap, ?_, hmirrors⟩⟩
      rw [hfinish]
      exact hleads
  | cons first rest =>
      obtain ⟨hfirstPlaced, hrestPlaced⟩ := hplaced.cons
      have hpoolFirst := (advances_block rest).constants.trans hpool
      obtain ⟨middle, hfirst, hbehind⟩ :=
        found_statement hfine first standing hpoolFirst hreached hfirstPlaced hleads hmirrors
      have hstandingRest := standing.statement first hfirst
      rw [Knowledge.block, hfirst, Option.bind_some]
      cases hmiddle : middle.reached with
      | true =>
          obtain ⟨last, hlast, hlastMirrors⟩ := hbehind hmiddle
          exact found_block hfine rest hstandingRest hpool hmiddle hrestPlaced hlast hlastMirrors
      | false =>
          obtain ⟨next, hnext, hnot⟩ := Knowledge.block_of_not_reached _ hmiddle
          exact ⟨next, hnext, fun hyes => nomatch hnot.symm.trans hyes⟩

theorem found_bodies (hfine : (script.scoped pool hlength).Fine .empty) {loopEnd : Option Label} {scope : Register}
    {conditionalEnd : Label} {a b c d : Assembler} {clauses : List Clause} {labels : List Label} {tests : List Test}
    {bodies : List (List Outline)} (h : LowersBodies loopEnd scope conditionalEnd a clauses labels bodies b)
    (htests : LowersTests scope c clauses labels tests d) {outer : List Frame} {knowledge : Knowledge}
    {known : List String} (standing : Standing scope outer known a)
    (standingTests : Standing scope outer knowledge.known c) (hpool : b.constants.Extends pool)
    (hpoolTests : d.constants.Extends pool) (hreached : knowledge.reached = true) {start finish leave : Nat}
    {heap : ScopeHeap}
    (hplaced : (script.scoped pool hlength).Placed (.choice (.ofParts clauses tests bodies)) start finish leave)
    (hleads : (script.scoped pool hlength).Leads 0 .empty start heap)
    (hmirrors : heap.Mirrors .atMost ((scope, knowledge.held) :: outer)) :
    ∃ reached, knowledge.clauses known clauses = some reached ∧ (reached = true → ∃ last : ScopeHeap,
      (script.scoped pool hlength).Leads 0 .empty finish last ∧ last.Mirrors .atMost outer) := by
  cases h with
  | nil =>
      have hle := hplaced.le_length.2
      obtain ⟨bodies, hjump, -, -⟩ := hplaced
      unfold Choice.ofParts Choice.renderTests at hjump
      rw [Knowledge.clauses]
      exact ⟨_, rfl, fun _ => ⟨heap, hleads.trans (Setting.leads_jump hjump hle), hmirrors.tail⟩⟩
  | @guarded _ _ _ label _ b' _ _ _ _ _ _ _ _ _ first rest =>
      cases htests with
      | @guarded _ c' _ _ _ _ _ _ _ _ test _ grown _ restTests =>
          have hle := hplaced.le_length.2
          obtain ⟨bodies, htestAt, hjump, hbodyPlaced, hbodyJump, hothersPlaced⟩ := hplaced.guarded
          have hpoolFirst := (advances_bodies rest).constants.trans hpool
          have hpoolTest := restTests.advances.constants.trans hpoolTests
          have hstandingFirst : Standing scope outer (knowledge.knowing known).known (a.bound label) :=
            standing.congr rfl rfl rfl
          have hstandingTests : Standing scope outer knowledge.known (c'.pushed (.jumpIf test.condition label)) :=
            (standingTests.expression grown).congr rfl rfl rfl
          obtain ⟨htested, middle, hmiddle, hafter⟩ := found_test hfine standingTests grown hpoolTest hreached htestAt
            hleads hmirrors
          have htaken := hmiddle.trans (Setting.leads_jumpIf true hjump hbodyPlaced.le_length.1 trivial)
          have hpassed := hmiddle.trans (Setting.leads_jumpIf false hjump hbodyPlaced.le_length.1 trivial)
          obtain ⟨next, hfirst, hbehind⟩ :=
            found_block hfine first hstandingFirst hpoolFirst hreached hbodyPlaced htaken hafter
          have hstandingRest : Standing scope outer next.known (b'.pushed (.jump conditionalEnd)) :=
            (hstandingFirst.block first hfirst).congr rfl rfl rfl
          obtain ⟨others, hothers, hbehindOthers⟩ := found_bodies hfine rest restTests hstandingRest hstandingTests hpool
            hpoolTests hreached hothersPlaced hpassed hafter
          refine ⟨next.reached || others,
            Knowledge.clauses_guarded_eq_some_iff.mpr ⟨htested, next, others, hfirst, hothers, rfl⟩, ?_⟩
          -- Control gets behind the conditional through this body or through a later one.
          intro hor
          rcases Bool.or_eq_true_iff.mp hor with hnext | hrest
          · obtain ⟨last, hlast, hlastMirrors⟩ := hbehind hnext
            exact ⟨last, hlast.trans (Setting.leads_jump hbodyJump hle), hlastMirrors.tail⟩
          · exact hbehindOthers hrest
  | @otherwise _ _ _ label _ _ _ _ _ _ _ _ _ first rest =>
      obtain ⟨bodies, others, hjump, hbodyPlaced⟩ := Setting.Placed.otherwise hplaced
      have hpoolFirst := (advances_bodies rest).constants.trans hpool
      have hstandingFirst : Standing scope outer (knowledge.knowing known).known (a.bound label) :=
        standing.congr rfl rfl rfl
      obtain ⟨next, hfirst, hbehind⟩ := found_block hfine first hstandingFirst hpoolFirst hreached hbodyPlaced
        (hleads.trans (Setting.leads_jump hjump hbodyPlaced.le_length.1)) hmirrors
      refine ⟨next.reached, Knowledge.clauses_otherwise_eq_some_iff.mpr ⟨next, hfirst, rfl⟩, ?_⟩
      intro hnext
      obtain ⟨last, hlast, hlastMirrors⟩ := hbehind hnext
      exact ⟨last, hlast, hlastMirrors.tail⟩

end

end Statements

/-! ## Whole programs -/

theorem scopedAccess?_ofPlain {τ : Type} (origin : Option StatementKind) (instruction : PlainInstruction) :
    (Instruction.ofPlain instruction : Instruction τ).scopedAccess? origin = instruction.scopedAccess? origin := by
  cases instruction with
  | jumpIfNot condition target => exact target.elim
  | jumpIf condition target => exact target.elim
  | jump target => exact target.elim
  | _ => rfl

/-- What is asked before a line is that its instruction finds the name that it counts on. -/
theorem allows_iff_serves {script : ScriptOutline} {pool : ConstantPool} {hlength : script.lines.length < 2 ^ 32}
    {line : Line} {heap : ScopeHeap} :
    (script.scoped pool hlength).policy.Allows line heap ↔ heap.Serves pool line.origin line.instruction := by
  unfold Policy.Allows
  have heq := line.instruction.eq_of_flow
  cases hflow : line.instruction.flow with
  | next plain =>
      rw [hflow] at heq
      rw [heq]
      unfold ScopeHeap.Serves
      rw [scopedAccess?_ofPlain]
      exact Iff.rfl
  | jump target =>
      rw [hflow] at heq
      rw [heq]
      exact iff_of_true trivial fun _ _ haccess => nomatch haccess
  | jumpIf condition target =>
      rw [hflow] at heq
      rw [heq]
      exact iff_of_true trivial fun _ _ haccess => nomatch haccess
  | jumpIfNot condition target =>
      rw [hflow] at heq
      rw [heq]
      exact iff_of_true trivial fun _ _ haccess => nomatch haccess

theorem findsItsNames_iff_fine {chunk : Chunk} {program : Program} {script : ScriptOutline}
    (houtline : chunk.outline? = some script)
    (hlines : program.instructions.toList = script.lines.map (·.instruction))
    (hlength : script.lines.length < 2 ^ 32) :
    chunk.FindsItsNames program ↔ (script.scoped program.constants hlength).Fine .empty := by
  have horigin : ∀ {pc : Nat} {line : Line}, script.lines[pc]? = some line → chunk.origin? pc = line.origin := by
    intro pc line hline
    simp [Chunk.origin?, houtline, hline]
  have hcode : ∀ pc : Nat, program.instructions[pc]? = script.lines[pc]?.map (·.instruction) := by
    intro pc
    rw [← Array.getElem?_toList, hlines, List.getElem?_map]
  unfold Chunk.FindsItsNames
  rw [hlines]
  constructor
  · intro h pc heap line hleads hline
    have hhere : program.instructions[pc]? = some line.instruction := (hcode pc).trans (congrArg _ hline)
    have hserves := h pc heap line.instruction hleads hhere
    rw [horigin hline] at hserves
    exact allows_iff_serves.mpr hserves
  · intro h pc heap instruction hreaches hhere
    rw [hcode] at hhere
    obtain ⟨line, hline, rfl⟩ := Option.map_eq_some_iff.mp hhere
    rw [horigin hline]
    exact allows_iff_serves.mp (h pc heap line hreaches hline)

/-- The assembler right behind the beginning of a script. -/
theorem standing_script {scope : Register} {a : Assembler} (entered : enterScope .empty = .ok (scope, a)) :
    Standing scope [] Knowledge.initial.known a := by
  have hin := inScope_of_enterScope entered ScopeChain.wellFormed_empty
  obtain ⟨-, hconstants, hscopes, -⟩ := frame_enterScope entered rfl
  obtain ⟨c, allocated, rfl⟩ := enterScope_eq_ok_iff.mp entered
  refine ⟨hin, hconstants ▸ ConstantPool.sound_empty, ?_, ?_⟩
  · intro name
    have hstack := ScopeChain.stack_enter ScopeChain.wellFormed_empty scope
    rw [show ScopeChain.empty.stack = [] from ScopeChain.stackFrom_none] at hstack
    rw [hscopes]
    show (∃ shown ∈ (ScopeChain.empty.enter scope).2.stack, name ∈ shown.2) ↔ name ∈ []
    rw [hstack]
    simp
  · intro register hmem
    rw [List.map_nil] at hmem
    rw [List.mem_singleton.mp hmem, (toNat_allocate allocated).1]
    exact Nat.le_refl _

section Scripts

variable {chunk : Chunk} {script : ScriptOutline} {b : Assembler}

theorem fine_of_not_hasStrayAccess (lowered : LowersChunk chunk script b) (hlength : script.lines.length < 2 ^ 32)
    (h : chunk.hasStrayAccess = false) : (script.scoped b.constants hlength).Fine .empty := by
  obtain ⟨scope, a, c, entered, hopening, hblock, rfl⟩ := lowered
  obtain ⟨next, hnext⟩ := chunk.hasStrayAccess_eq_false_iff.mp h
  refine Setting.fine_of_safe ?_
  have hopened := mirrors_script .atLeast c.constants scope fun _ hmem => nomatch hmem
  rw [← hopening] at hopened
  have hpasses : (script.scoped c.constants hlength).Passes none script.opening .empty := by
    rw [hopening]
    exact ⟨serves_newScope, trivial⟩
  exact Setting.safe_script rfl hpasses
    (ensures_settled_block hblock (List.suffix_refl []) hnext (standing_script entered) (.refl _) rfl hopened)
    (fun _ _ => trivial) fun _ hleft => nomatch hleft.1

theorem not_hasStrayAccess_of_fine (lowered : LowersChunk chunk script b) (hlength : script.lines.length < 2 ^ 32)
    (hfine : (script.scoped b.constants hlength).Fine .empty) : chunk.hasStrayAccess = false := by
  obtain ⟨scope, a, c, entered, hopening, hblock, rfl⟩ := lowered
  let setting := script.scoped c.constants hlength
  obtain ⟨hopeningAt, hplaced⟩ := Setting.placed_script (show setting.lines = script.lines from rfl)
  have hleads : setting.Leads 0 .empty script.opening.length (setting.machine.perform script.opening .empty) := by
    have hopened := @Setting.leads_plain _ setting 0 .empty none script.opening hopeningAt
    rwa [Nat.zero_add] at hopened
  have hmirrors := mirrors_script .atMost c.constants scope fun _ hfound => nomatch hfound
  rw [← hopening] at hmirrors
  obtain ⟨next, hnext, -⟩ := found_block hfine hblock (standing_script entered) (.refl _) rfl hplaced hleads hmirrors
  exact chunk.hasStrayAccess_eq_false_iff.mpr ⟨next, hnext⟩

end Scripts

/-- The paths through a program are those through the lines of its script. -/
theorem exists_fine_iff {chunk : Chunk} {program : Program} (h : chunk.compile = .ok program)
    (hlength : program.length < 2 ^ 32) :
    ∃ script b, ∃ hsize : script.lines.length < 2 ^ 32, LowersChunk chunk script b ∧
      (chunk.FindsItsNames program ↔ (script.scoped b.constants hsize).Fine .empty) := by
  obtain ⟨script, b, houtline, lowered, hconstants, hlines⟩ := instructions_eq_lines h hlength
  have hsize : script.lines.length < 2 ^ 32 := (length_lines hlines).trans_lt hlength
  refine ⟨script, b, hsize, lowered, ?_⟩
  rw [findsItsNames_iff_fine houtline hlines hsize, hconstants]

/-- The accesses of a program find their names on all paths if and only if its script has no stray access. -/
theorem findsItsNames_iff_not_hasStrayAccess {chunk : Chunk} {program : Program} (h : chunk.compile = .ok program)
    (hlength : program.length < 2 ^ 32) : chunk.FindsItsNames program ↔ chunk.hasStrayAccess = false := by
  obtain ⟨script, b, hsize, lowered, hfine⟩ := exists_fine_iff h hlength
  rw [hfine]
  exact ⟨not_hasStrayAccess_of_fine lowered hsize, fine_of_not_hasStrayAccess lowered hsize⟩

/-- A loop that reads and writes a name from outside and a name of its own. -/
def handedOn : Chunk :=
  ⟨[.declare [⟨"x", none⟩] [.boolean true none] none,
    .whileLoop (.identifier ⟨"x", none⟩)
      [.declare [⟨"y", none⟩] [.identifier ⟨"x", none⟩] none,
        .assign [.identifier ⟨"x", none⟩] [.identifier ⟨"y", none⟩] none] none]⟩

def handedOnCode : List (Instruction JumpTarget) :=
  [.newScope ⟨1⟩ none, .load ⟨0⟩ ⟨2⟩, .scopeSet ⟨1⟩ ⟨1⟩ ⟨2⟩, .newScope ⟨3⟩ (some ⟨1⟩), .scopeGet ⟨3⟩ ⟨1⟩ ⟨4⟩,
    .jumpIfNot ⟨4⟩ ⟨12⟩, .scopeGet ⟨3⟩ ⟨1⟩ ⟨5⟩, .scopeSet ⟨3⟩ ⟨2⟩ ⟨5⟩, .scopeGet ⟨3⟩ ⟨2⟩ ⟨6⟩, .scopeSet ⟨3⟩ ⟨1⟩ ⟨6⟩,
    .scopeGet ⟨3⟩ ⟨1⟩ ⟨7⟩, .jumpIf ⟨7⟩ ⟨6⟩]

theorem compile_handedOn :
    ∃ program, handedOn.compile = .ok program ∧ program.length < 2 ^ 32 ∧
      program.instructions.toList = handedOnCode :=
  exists_program_of_code (by decide +kernel) (by decide)

theorem findsItsNames_handedOn :
    ∃ program, handedOn.compile = .ok program ∧ program.instructions.toList = handedOnCode ∧
      program.length < 2 ^ 32 ∧ handedOn.FindsItsNames program := by
  obtain ⟨program, hcompile, hlength, hcode⟩ := compile_handedOn
  exact ⟨program, hcompile, hcode, hlength,
    (findsItsNames_iff_not_hasStrayAccess hcompile hlength).mpr (by decide +kernel)⟩

/-- The second clause reads a name that only the first one declares. -/
def crossedClauses : Chunk :=
  ⟨[.conditional [.guarded .ifThen (.identifier ⟨"a", none⟩)
      [.declare [⟨"x", none⟩] [.boolean true none] none] none,
    .guarded .elseIf (.identifier ⟨"b", none⟩)
      [.call (.call (.identifier ⟨"print", none⟩) [.identifier ⟨"x", none⟩] none) none] none] none]⟩

def crossedClausesCode : List (Instruction JumpTarget) :=
  [.newScope ⟨1⟩ none, .newScope ⟨2⟩ (some ⟨1⟩), .getVar ⟨0⟩ ⟨3⟩, .jumpIf ⟨3⟩ ⟨7⟩, .getVar ⟨1⟩ ⟨4⟩,
    .jumpIf ⟨4⟩ ⟨10⟩, .jump ⟨14⟩, .load ⟨2⟩ ⟨5⟩, .scopeSet ⟨2⟩ ⟨3⟩ ⟨5⟩, .jump ⟨14⟩, .getVar ⟨4⟩ ⟨6⟩,
    .scopeGet ⟨2⟩ ⟨3⟩ ⟨7⟩, .call ⟨6⟩ [⟨7⟩] ⟨8⟩, .jump ⟨14⟩]

theorem compile_crossedClauses :
    ∃ program, crossedClauses.compile = .ok program ∧ program.length < 2 ^ 32 ∧
      program.instructions.toList = crossedClausesCode :=
  exists_program_of_code (by decide +kernel) (by decide)

theorem not_findsItsNames_crossedClauses :
    ∃ program, crossedClauses.compile = .ok program ∧ program.instructions.toList = crossedClausesCode ∧
      ¬ crossedClauses.FindsItsNames program := by
  obtain ⟨program, hcompile, hlength, hcode⟩ := compile_crossedClauses
  obtain ⟨script, b, hsize, lowered, hfine⟩ := exists_fine_iff hcompile hlength
  refine ⟨program, hcompile, hcode, fun hfinds => ?_⟩
  have hstray : crossedClauses.hasStrayAccess = true := by decide +kernel
  have hnone := not_hasStrayAccess_of_fine lowered hsize (hfine.mp hfinds)
  exact nomatch hstray.symm.trans hnone

end ScriptBytecode
