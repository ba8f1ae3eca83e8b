import ScriptBytecode.Proofs.Machine

/-!
# What holds on all paths

To show that something holds wherever control gets to in a program it is enough to follow the statements of its
outline. `Setting.Ensures` says of a statement that every run from a given state is fine as far as it stays inside the
statement, and where it gets out it does so as a postcondition says; there is one rule for each form of statement, and
the rule for loops asks for an invariant. The rules do not depend on what is asked on the way: that is the `Policy`.

The property is stated for runs of at most `n` steps for every `n`, so runs that never end are covered.
-/

namespace ScriptBytecode

variable {σ : Type}

/-! ## Segments of a program -/

/-- A list of lines stands in a program at a position. -/
def StandsAt (lines : List Line) (position : Nat) (segment : List Line) : Prop :=
  ∃ before after, lines = before ++ segment ++ after ∧ before.length = position

namespace StandsAt

variable {lines segment more : List Line} {position : Nat}

theorem whole (lines : List Line) : StandsAt lines 0 lines :=
  ⟨[], [], by simp, rfl⟩

theorem left (h : StandsAt lines position (segment ++ more)) : StandsAt lines position segment := by
  obtain ⟨before, after, hlines, hlength⟩ := h
  exact ⟨before, more ++ after, by simp [hlines], hlength⟩

theorem right (h : StandsAt lines position (segment ++ more)) :
    StandsAt lines (position + segment.length) more := by
  obtain ⟨before, after, hlines, hlength⟩ := h
  exact ⟨before ++ segment, after, by simp [hlines], by simp [hlength]⟩

theorem le_length (h : StandsAt lines position segment) : position + segment.length ≤ lines.length := by
  obtain ⟨before, after, hlines, hlength⟩ := h
  have htotal := congrArg List.length hlines
  simp only [List.length_append] at htotal
  omega

theorem getElem? {line : Line} (h : StandsAt lines position (line :: segment)) : lines[position]? = some line := by
  obtain ⟨before, after, hlines, hlength⟩ := h
  rw [hlines, ← hlength]
  simp

end StandsAt

/-- A position inside a program that is not too long is the target of the jumps to it. -/
theorem toNat_placeAt {position : Nat} (h : position < 2 ^ 32) : (placeAt position).pc.toNat = position := by
  show (UInt32.ofNat position).toNat = position
  rw [UInt32.toNat_ofNat']
  exact Nat.mod_eq_of_lt h

/-! ## Steps from a known instruction -/

namespace Machine

variable {machine : Machine σ} {code : List (Instruction JumpTarget)} {pc : Nat} {s : σ} {next : Nat × σ}

theorem Step.flow_cases {instruction : Instruction JumpTarget} (h : machine.Step code (pc, s) next)
    (hhere : code[pc]? = some instruction) :
    match instruction.flow with
    | .next plain => next = (pc + 1, machine.effect plain s)
    | .jump target => next = (target.pc.toNat, s)
    | .jumpIf condition target =>
        ∃ truth, machine.outcome condition s truth ∧ next = (if truth then target.pc.toNat else pc + 1, s)
    | .jumpIfNot condition target =>
        ∃ truth, machine.outcome condition s truth ∧ next = (if truth then pc + 1 else target.pc.toNat, s) := by
  cases h with
  | next here flow =>
      obtain rfl := Option.some.inj (hhere.symm.trans here)
      rw [flow]
  | jump here flow =>
      obtain rfl := Option.some.inj (hhere.symm.trans here)
      rw [flow]
  | @jumpIf _ _ _ _ _ truth here flow outcome =>
      obtain rfl := Option.some.inj (hhere.symm.trans here)
      rw [flow]
      exact ⟨truth, outcome, rfl⟩
  | @jumpIfNot _ _ _ _ _ truth here flow outcome =>
      obtain rfl := Option.some.inj (hhere.symm.trans here)
      rw [flow]
      exact ⟨truth, outcome, rfl⟩

end Machine

/-! ## Settings -/

/-- What is asked of a state before a plain instruction of a given origin, and before the test of a register. -/
structure Policy (σ : Type) where
  plain : Option StatementKind → PlainInstruction → σ → Prop
  test : Register → σ → Prop

/-- What a policy asks of a state before a line. -/
def Policy.Allows (policy : Policy σ) (line : Line) (s : σ) : Prop :=
  match line.instruction.flow with
  | .next instruction => policy.plain line.origin instruction s
  | .jump _ => True
  | .jumpIf condition _ => policy.test condition s
  | .jumpIfNot condition _ => policy.test condition s

/-- A machine, the program that it runs, what is asked on the way, and what is asked at the end of the program. -/
structure Setting (σ : Type) where
  machine : Machine σ
  lines : List Line
  policy : Policy σ
  last : σ → Prop
  length_lt : lines.length < 2 ^ 32

namespace Setting

variable (setting : Setting σ)

/-- The instructions of the program. -/
def code : List (Instruction JumpTarget) :=
  setting.lines.map (·.instruction)

/-- Everything that is asked holds on all runs of less than `n` steps from a position and a state. -/
def Safe : Nat → Nat → σ → Prop
  | 0, _, _ => True
  | n + 1, pc, s =>
      (∀ line, setting.lines[pc]? = some line → setting.policy.Allows line s) ∧
        (pc = setting.lines.length → setting.last s) ∧
          ∀ next, setting.machine.Step setting.code (pc, s) next → Safe n next.1 next.2

variable {setting}

theorem Safe.mono {n m pc : Nat} {s : σ} (h : setting.Safe n pc s) (hle : m ≤ n) : setting.Safe m pc s := by
  induction m generalizing n pc s with
  | zero => trivial
  | succ m ih =>
      obtain ⟨n, rfl⟩ : ∃ k, n = k + 1 := ⟨n - 1, by omega⟩
      obtain ⟨hline, hlast, hstep⟩ := h
      exact ⟨hline, hlast, fun next hnext => ih (hstep next hnext) (by omega)⟩

theorem safe_of_reaches {pc : Nat} {s : σ} {reached : Nat × σ} (h : ∀ n, setting.Safe n pc s)
    (hreaches : setting.machine.Reaches setting.code (pc, s) reached) :
    ∀ n, setting.Safe n reached.1 reached.2 := by
  induction hreaches with
  | refl => exact h
  | tail _ hstep ih => exact fun n => (ih (n + 1)).2.2 _ hstep

/-- At a line it is enough that the line is allowed and that all its steps lead to runs that are fine. -/
theorem safe_of_line {n pc : Nat} {s : σ} {line : Line} (hline : setting.lines[pc]? = some line)
    (hallows : setting.policy.Allows line s)
    (hstep : ∀ m < n, ∀ next, setting.machine.Step setting.code (pc, s) next → setting.Safe m next.1 next.2) :
    setting.Safe n pc s := by
  cases n with
  | zero => trivial
  | succ n =>
      have hlt : pc < setting.lines.length := (List.getElem?_eq_some_iff.mp hline).1
      refine ⟨?_, fun hend => absurd hend (Nat.ne_of_lt hlt), hstep n (Nat.lt_succ_self n)⟩
      intro other hother
      obtain rfl := Option.some.inj (hline.symm.trans hother)
      exact hallows

theorem code_getElem? {pc : Nat} {line : Line} (h : setting.lines[pc]? = some line) :
    setting.code[pc]? = some line.instruction := by
  simp [code, h]

section Lines

variable {n position : Nat} {s : σ} {origin : Option StatementKind} {rest : List Line}

theorem safe_jump {target : JumpTarget}
    (hat : StandsAt setting.lines position (⟨origin, .jump target⟩ :: rest))
    (htarget : setting.Safe n target.pc.toNat s) : setting.Safe n position s := by
  refine safe_of_line hat.getElem? trivial ?_
  intro m hm next hstep
  obtain rfl : next = _ := hstep.flow_cases (code_getElem? hat.getElem?)
  exact htarget.mono (Nat.le_of_lt hm)

/-- A conditional jump. Where it jumps, one step less is left. -/
theorem safe_jumpIf {condition : Register} {target : JumpTarget}
    (hat : StandsAt setting.lines position (⟨origin, .jumpIf condition target⟩ :: rest))
    (htest : setting.policy.test condition s)
    (htrue : ∀ m < n, setting.machine.outcome condition s true → setting.Safe m target.pc.toNat s)
    (hfalse : setting.machine.outcome condition s false → setting.Safe n (position + 1) s) :
    setting.Safe n position s := by
  refine safe_of_line hat.getElem? htest ?_
  intro m hm next hstep
  obtain ⟨truth, houtcome, rfl⟩ := hstep.flow_cases (code_getElem? hat.getElem?)
  cases truth with
  | true => exact htrue m hm houtcome
  | false => exact (hfalse houtcome).mono (Nat.le_of_lt hm)

theorem safe_jumpIfNot {condition : Register} {target : JumpTarget}
    (hat : StandsAt setting.lines position (⟨origin, .jumpIfNot condition target⟩ :: rest))
    (htest : setting.policy.test condition s)
    (htrue : setting.machine.outcome condition s true → setting.Safe n (position + 1) s)
    (hfalse : setting.machine.outcome condition s false → setting.Safe n target.pc.toNat s) :
    setting.Safe n position s := by
  refine safe_of_line hat.getElem? htest ?_
  intro m hm next hstep
  obtain ⟨truth, houtcome, rfl⟩ := hstep.flow_cases (code_getElem? hat.getElem?)
  cases truth with
  | true => exact (htrue houtcome).mono (Nat.le_of_lt hm)
  | false => exact (hfalse houtcome).mono (Nat.le_of_lt hm)

end Lines

variable (setting)

/-- What is asked before each of some plain instructions holds when they are executed in order. -/
def Passes (origin : Option StatementKind) : List PlainInstruction → σ → Prop
  | [], _ => True
  | instruction :: code, s =>
      setting.policy.plain origin instruction s ∧ Passes origin code (setting.machine.effect instruction s)

variable {setting}

theorem passes_append {origin : Option StatementKind} {code more : List PlainInstruction} {s : σ} :
    setting.Passes origin (code ++ more) s ↔
      setting.Passes origin code s ∧ setting.Passes origin more (setting.machine.perform code s) := by
  induction code generalizing s with
  | nil => simp [Passes]
  | cons instruction code ih => simp [Passes, ih, and_assoc]

theorem safe_plain {n position : Nat} {s : σ} {origin : Option StatementKind} {code : List PlainInstruction}
    (hat : StandsAt setting.lines position (plainLines origin code)) (hpasses : setting.Passes origin code s)
    (hrest : setting.Safe n (position + code.length) (setting.machine.perform code s)) :
    setting.Safe n position s := by
  induction code generalizing position s with
  | nil => exact hrest
  | cons instruction code ih =>
      obtain ⟨hfirst, hothers⟩ := hpasses
      have hat' : StandsAt setting.lines position ([⟨origin, .ofPlain instruction⟩] ++ plainLines origin code) := hat
      have hnext : setting.Safe n (position + 1) (setting.machine.effect instruction s) := by
        refine ih hat'.right hothers ?_
        rw [List.length_cons, Nat.add_comm code.length 1, ← Nat.add_assoc] at hrest
        exact hrest
      refine safe_of_line hat.getElem? ?_ ?_
      · show match (Instruction.ofPlain instruction : Instruction JumpTarget).flow with
          | .next plain => setting.policy.plain origin plain s
          | .jump _ => True
          | .jumpIf condition _ => setting.policy.test condition s
          | .jumpIfNot condition _ => setting.policy.test condition s
        rw [Instruction.flow_ofPlain]
        exact hfirst
      · intro m hm next hstep
        have hcases := hstep.flow_cases (code_getElem? hat.getElem?)
        simp only [Instruction.flow_ofPlain] at hcases
        subst hcases
        exact hnext.mono (Nat.le_of_lt hm)

/-! ## Rules for statements -/

variable (setting)

/-- A phrase stands in the program from a position on: control is at `finish` when it is completed and at `leave` when
it leaves the loop around it. -/
def Placed : Phrase → Nat → Nat → Nat → Prop
  | .statement outline, start, finish, leave =>
      StandsAt setting.lines start (outline.render leave start) ∧ finish = start + outline.size
  | .block outlines, start, finish, leave =>
      StandsAt setting.lines start (renderBlock leave start outlines) ∧ finish = start + sizeOfBlock outlines
  | .choice choice, start, finish, leave =>
      ∃ bodies, StandsAt setting.lines start (choice.renderTests finish bodies) ∧
        StandsAt setting.lines bodies (choice.renderBodies leave finish bodies) ∧
          finish = bodies + choice.bodiesSize
  | .rounds body again, start, finish, _ =>
      StandsAt setting.lines start (renderBlock finish start body) ∧
        StandsAt setting.lines (start + sizeOfBlock body)
          (plainLines (some .whileLoop) again.code ++ [⟨some .whileLoop, .jumpIf again.condition (placeAt start)⟩]) ∧
          finish = start + sizeOfBlock body + (again.code.length + 1)

/-- Runs from behind a phrase, and from where the loop around it is left to, are fine if they start as a postcondition
says. -/
structure Continues (n finish leave : Nat) (post : Ending → σ → Prop) : Prop where
  completed : ∀ s, post .completed s → setting.Safe n finish s
  left : ∀ s, post .left s → setting.Safe n leave s

/-- Wherever a phrase stands, its runs from a state are fine and get out of it only as a postcondition says. -/
def Ensures (phrase : Phrase) (s : σ) (post : Ending → σ → Prop) : Prop :=
  ∀ n start finish leave : Nat, setting.Placed phrase start finish leave → leave ≤ setting.lines.length →
    setting.Continues n finish leave post → setting.Safe n start s

variable {setting}

section Placed

variable {start finish leave : Nat}

theorem Placed.conditional {opening : List PlainInstruction} {choice : Choice}
    (h : setting.Placed (.statement (.conditional opening choice)) start finish leave) :
    StandsAt setting.lines start (plainLines (some .conditional) opening) ∧
      setting.Placed (.choice choice) (start + opening.length) finish leave := by
  obtain ⟨hat, hfinish⟩ := h
  unfold Outline.render at hat
  unfold Outline.size at hfinish
  have htests := hat.left.right
  have hbodies := hat.right
  simp only [List.length_append, length_plainLines, length_renderTests, ← Nat.add_assoc] at htests hbodies hfinish
  subst hfinish
  exact ⟨hat.left.left, _, htests, hbodies, rfl⟩

theorem Placed.whileLoop {opening : List PlainInstruction} {entry again : Test} {body : List Outline}
    (h : setting.Placed (.statement (.whileLoop opening entry body again)) start finish leave) :
    StandsAt setting.lines start (plainLines (some .whileLoop) opening) ∧
      StandsAt setting.lines (start + opening.length) (plainLines (some .whileLoop) entry.code) ∧
        StandsAt setting.lines (start + opening.length + entry.code.length)
          [⟨some .whileLoop, .jumpIfNot entry.condition (placeAt finish)⟩] ∧
          setting.Placed (.rounds body again) (start + opening.length + entry.code.length + 1) finish leave := by
  obtain ⟨hat, hfinish⟩ := h
  unfold Outline.render at hat
  unfold Outline.size at hfinish
  have hentry := hat.left.left.right
  have hbody := hat.left.right
  have hagain := hat.right
  simp only [List.length_append, length_plainLines, List.length_singleton, length_renderBlock, ← Nat.add_assoc]
    at hentry hbody hagain hfinish
  have hjump := hentry.right
  rw [length_plainLines] at hjump
  subst hfinish
  exact ⟨hat.left.left.left, hentry.left, hjump, hbody, hagain, by omega⟩

theorem Placed.cons {outline : Outline} {outlines : List Outline}
    (h : setting.Placed (.block (outline :: outlines)) start finish leave) :
    setting.Placed (.statement outline) start (start + outline.size) leave ∧
      setting.Placed (.block outlines) (start + outline.size) finish leave := by
  obtain ⟨hat, hfinish⟩ := h
  unfold renderBlock at hat
  unfold sizeOfBlock at hfinish
  have hrest := hat.right
  rw [length_render] at hrest
  exact ⟨⟨hat.left, rfl⟩, hrest, by omega⟩

theorem Placed.otherwise {body : List Outline} (h : setting.Placed (.choice (.otherwise body)) start finish leave) :
    ∃ bodies rest, StandsAt setting.lines start (⟨some .conditional, .jump (placeAt bodies)⟩ :: rest) ∧
      setting.Placed (.block body) bodies finish leave := by
  obtain ⟨bodies, htests, hbodies, hfinish⟩ := h
  unfold Choice.renderTests at htests
  unfold Choice.renderBodies at hbodies
  unfold Choice.bodiesSize at hfinish
  exact ⟨bodies, _, htests, hbodies, hfinish⟩

theorem Placed.guarded {test : Test} {body : List Outline} {others : Choice}
    (h : setting.Placed (.choice (.guarded test body others)) start finish leave) :
    ∃ bodies, StandsAt setting.lines start (plainLines (some .conditional) test.code) ∧
      StandsAt setting.lines (start + test.code.length)
        [⟨some .conditional, .jumpIf test.condition (placeAt bodies)⟩] ∧
        setting.Placed (.block body) bodies (bodies + sizeOfBlock body) leave ∧
          StandsAt setting.lines (bodies + sizeOfBlock body) [⟨some .conditional, .jump (placeAt finish)⟩] ∧
            setting.Placed (.choice others) (start + test.code.length + 1) finish leave := by
  obtain ⟨bodies, htests, hbodies, hfinish⟩ := h
  unfold Choice.renderTests at htests
  unfold Choice.renderBodies at hbodies
  unfold Choice.bodiesSize at hfinish
  have hjump := htests.left.right
  have hothers := htests.right
  have hbodyJump := hbodies.left.right
  have hothersBodies := hbodies.right
  simp only [List.length_append, length_plainLines, List.length_singleton, length_renderBlock, ← Nat.add_assoc]
    at hjump hothers hbodyJump hothersBodies
  exact ⟨bodies, htests.left.left, hjump, ⟨hbodies.left.left, rfl⟩, hbodyJump, _, hothers, hothersBodies, by omega⟩

/-- Phrases end inside the program or right behind it. -/
theorem Placed.le_length : ∀ {phrase : Phrase}, setting.Placed phrase start finish leave →
    start ≤ setting.lines.length ∧ finish ≤ setting.lines.length
  | .statement outline, ⟨hat, hfinish⟩ => by
      have hend := hat.le_length
      rw [length_render] at hend
      exact ⟨by omega, by omega⟩
  | .block outlines, ⟨hat, hfinish⟩ => by
      have hend := hat.le_length
      rw [length_renderBlock] at hend
      exact ⟨by omega, by omega⟩
  | .choice choice, ⟨bodies, htests, hbodies, hfinish⟩ => by
      have hstart := htests.le_length
      have hend := hbodies.le_length
      rw [length_renderBodies] at hend
      exact ⟨by omega, by omega⟩
  | .rounds body again, ⟨hbody, hagain, hfinish⟩ => by
      have hend := hagain.le_length
      simp only [List.length_append, length_plainLines, List.length_singleton] at hend
      exact ⟨by omega, by omega⟩

end Placed

variable {post weaker : Ending → σ → Prop} {s : σ}

theorem safe_placeAt {n position : Nat} (hle : position ≤ setting.lines.length) (h : setting.Safe n position s) :
    setting.Safe n (placeAt position).pc.toNat s := by
  rw [toNat_placeAt (Nat.lt_of_le_of_lt hle setting.length_lt)]
  exact h

theorem Ensures.mono {phrase : Phrase} (h : setting.Ensures phrase s post)
    (himp : ∀ ending last, post ending last → weaker ending last) : setting.Ensures phrase s weaker := by
  intro n start finish leave hplaced hleave hcontinues
  exact h n _ _ _ hplaced hleave
    ⟨fun s hs => hcontinues.completed s (himp _ s hs), fun s hs => hcontinues.left s (himp _ s hs)⟩

theorem ensures_simple {kind : StatementKind} {code : List PlainInstruction}
    (hpasses : setting.Passes (some kind) code s) (hpost : post .completed (setting.machine.perform code s)) :
    setting.Ensures (.statement (.simple kind code)) s post := by
  intro n start finish leave hplaced _ hcontinues
  obtain ⟨hat, hfinish⟩ := hplaced
  subst hfinish
  unfold Outline.render at hat
  exact safe_plain hat hpasses (hcontinues.completed _ hpost)

theorem ensures_breakLoop (hpost : post .left s) : setting.Ensures (.statement .breakLoop) s post := by
  intro n start finish leave hplaced hleave hcontinues
  obtain ⟨hat, -⟩ := hplaced
  unfold Outline.render at hat
  exact safe_jump hat (safe_placeAt hleave (hcontinues.left s hpost))

theorem ensures_nil (hpost : post .completed s) : setting.Ensures (.block []) s post := by
  intro n start finish leave hplaced _ hcontinues
  obtain ⟨-, hfinish⟩ := hplaced
  subst hfinish
  exact hcontinues.completed s hpost

theorem ensures_cons {outline : Outline} {outlines : List Outline} {middle : Ending → σ → Prop}
    (hfirst : setting.Ensures (.statement outline) s middle)
    (hrest : ∀ s, middle .completed s → setting.Ensures (.block outlines) s post)
    (hleft : ∀ s, middle .left s → post .left s) : setting.Ensures (.block (outline :: outlines)) s post := by
  intro n start finish leave hplaced hleave hcontinues
  obtain ⟨hfirstPlaced, hrestPlaced⟩ := hplaced.cons
  refine hfirst n _ _ _ hfirstPlaced hleave ⟨?_, fun s hs => hcontinues.left s (hleft s hs)⟩
  intro s hs
  exact hrest s hs n _ _ _ hrestPlaced hleave hcontinues

theorem ensures_conditional {opening : List PlainInstruction} {choice : Choice}
    (hopening : setting.Passes (some .conditional) opening s)
    (hchoice : setting.Ensures (.choice choice) (setting.machine.perform opening s) post) :
    setting.Ensures (.statement (.conditional opening choice)) s post := by
  intro n start finish leave hplaced hleave hcontinues
  obtain ⟨hopeningAt, hchoicePlaced⟩ := hplaced.conditional
  exact safe_plain hopeningAt hopening (hchoice n _ _ _ hchoicePlaced hleave hcontinues)

theorem ensures_nothing (hpost : post .completed s) : setting.Ensures (.choice .nothing) s post := by
  intro n start finish leave hplaced _ hcontinues
  have hle := hplaced.le_length.2
  obtain ⟨bodies, htests, -, -⟩ := hplaced
  unfold Choice.renderTests at htests
  exact safe_jump htests (safe_placeAt hle (hcontinues.completed s hpost))

theorem ensures_otherwise {body : List Outline} (hbody : setting.Ensures (.block body) s post) :
    setting.Ensures (.choice (.otherwise body)) s post := by
  intro n start finish leave hplaced hleave hcontinues
  obtain ⟨bodies, rest, hjump, hbodyPlaced⟩ := hplaced.otherwise
  exact safe_jump hjump (safe_placeAt hbodyPlaced.le_length.1 (hbody n _ _ _ hbodyPlaced hleave hcontinues))

theorem ensures_guarded {test : Test} {body : List Outline} {others : Choice}
    (htest : setting.Passes (some .conditional) test.code s)
    (hcondition : setting.policy.test test.condition (setting.machine.perform test.code s))
    (htrue : setting.machine.outcome test.condition (setting.machine.perform test.code s) true →
      setting.Ensures (.block body) (setting.machine.perform test.code s) post)
    (hfalse : setting.machine.outcome test.condition (setting.machine.perform test.code s) false →
      setting.Ensures (.choice others) (setting.machine.perform test.code s) post) :
    setting.Ensures (.choice (.guarded test body others)) s post := by
  intro n start finish leave hplaced hleave hcontinues
  have hle := hplaced.le_length.2
  obtain ⟨bodies, htestAt, hjump, hbodyPlaced, hbodyJump, hothers⟩ := hplaced.guarded
  refine safe_plain htestAt htest ?_
  refine safe_jumpIf hjump hcondition ?_ ?_
  · -- The body ends with a jump past the other bodies.
    intro m hm houtcome
    have hbody : setting.Safe n bodies (setting.machine.perform test.code s) := by
      refine htrue houtcome n _ _ _ hbodyPlaced hleave ⟨?_, hcontinues.left⟩
      intro s hs
      exact safe_jump hbodyJump (safe_placeAt hle (hcontinues.completed s hs))
    exact (safe_placeAt hbodyPlaced.le_length.1 hbody).mono (Nat.le_of_lt hm)
  · intro houtcome
    exact hfalse houtcome n _ _ _ hothers hleave hcontinues

/-- A loop from the beginning of a round on, with an invariant that holds at the beginning of every round. -/
theorem ensures_rounds {body : List Outline} {again : Test} (invariant : σ → Prop) {round : Ending → σ → Prop}
    (hstart : invariant s) (hround : ∀ s, invariant s → setting.Ensures (.block body) s round)
    (hleft : ∀ s, round .left s → post .completed s)
    (hagain : ∀ s, round .completed s → setting.Passes (some .whileLoop) again.code s ∧
      setting.policy.test again.condition (setting.machine.perform again.code s) ∧
      (setting.machine.outcome again.condition (setting.machine.perform again.code s) false →
        post .completed (setting.machine.perform again.code s)) ∧
      (setting.machine.outcome again.condition (setting.machine.perform again.code s) true →
        invariant (setting.machine.perform again.code s))) :
    setting.Ensures (.rounds body again) s post := by
  intro n start finish leave hplaced _ hcontinues
  obtain ⟨hstartLe, hfinishLe⟩ := hplaced.le_length
  obtain ⟨hbody, hagainAt, hfinish⟩ := hplaced
  have hjump := hagainAt.right
  rw [length_plainLines] at hjump
  -- The induction is on the number of steps: the jump back to the body takes one.
  have hrounds : ∀ m ≤ n, ∀ s, invariant s → setting.Safe m start s := by
    intro m
    induction m with
    | zero => exact fun _ _ _ => trivial
    | succ m ih =>
        intro hm s hs
        refine hround s hs (m + 1) _ _ _ ⟨hbody, rfl⟩ hfinishLe ⟨?_, ?_⟩
        · -- The round was completed: the second test decides whether there is another one.
          intro s hcompleted
          obtain ⟨hpasses, htest, hdone, hnext⟩ := hagain s hcompleted
          refine safe_plain hagainAt.left hpasses ?_
          refine safe_jumpIf hjump htest ?_ ?_
          · intro k hk houtcome
            have hback := ih (by omega) _ (hnext houtcome)
            exact (safe_placeAt hstartLe hback).mono (by omega)
          · intro houtcome
            have hdoneSafe := (hcontinues.completed _ (hdone houtcome)).mono hm
            rw [hfinish, ← Nat.add_assoc] at hdoneSafe
            exact hdoneSafe
        · -- The round was left, and with it the loop.
          intro s hs
          exact (hcontinues.completed s (hleft s hs)).mono hm
  exact hrounds n (Nat.le_refl n) s hstart

theorem ensures_whileLoop {opening : List PlainInstruction} {entry again : Test} {body : List Outline}
    (hopening : setting.Passes (some .whileLoop) opening s)
    (hentry : setting.Passes (some .whileLoop) entry.code (setting.machine.perform opening s))
    (hcondition : setting.policy.test entry.condition
      (setting.machine.perform entry.code (setting.machine.perform opening s)))
    (hskip : setting.machine.outcome entry.condition
        (setting.machine.perform entry.code (setting.machine.perform opening s)) false →
      post .completed (setting.machine.perform entry.code (setting.machine.perform opening s)))
    (henter : setting.machine.outcome entry.condition
        (setting.machine.perform entry.code (setting.machine.perform opening s)) true →
      setting.Ensures (.rounds body again)
        (setting.machine.perform entry.code (setting.machine.perform opening s)) post) :
    setting.Ensures (.statement (.whileLoop opening entry body again)) s post := by
  intro n start finish leave hplaced hleave hcontinues
  have hle := hplaced.le_length.2
  obtain ⟨hopeningAt, hentryAt, hjump, hrounds⟩ := hplaced.whileLoop
  refine safe_plain hopeningAt hopening ?_
  refine safe_plain hentryAt hentry ?_
  refine safe_jumpIfNot hjump hcondition ?_ ?_
  · intro houtcome
    exact henter houtcome n _ _ _ hrounds hleave hcontinues
  · intro houtcome
    exact safe_placeAt hle (hcontinues.completed _ (hskip houtcome))

/-! ## Whole programs -/

theorem placed_script {outline : ScriptOutline} (hlines : setting.lines = outline.lines) :
    StandsAt setting.lines 0 (plainLines none outline.opening) ∧
      setting.Placed (.block outline.body) outline.opening.length setting.lines.length 0 := by
  have hwhole : StandsAt setting.lines 0 outline.lines := hlines ▸ StandsAt.whole setting.lines
  unfold ScriptOutline.lines at hwhole
  have hblock := hwhole.right
  rw [length_plainLines, Nat.zero_add] at hblock
  refine ⟨hwhole.left, hblock, ?_⟩
  rw [hlines, ScriptOutline.lines, List.length_append, length_plainLines, length_renderBlock]

/-- Nothing is executed at the end of a program. -/
theorem safe_end (n : Nat) (hlast : setting.last s) : setting.Safe n setting.lines.length s := by
  have hnone : setting.lines[setting.lines.length]? = none := List.getElem?_eq_none (Nat.le_refl _)
  have hstuck : setting.code[setting.lines.length]? = none := by simp [code]
  cases n with
  | zero => trivial
  | succ n =>
      refine ⟨?_, fun _ => hlast, ?_⟩
      · intro line hline
        exact nomatch hnone.symm.trans hline
      · intro next hstep
        cases hstep with
        | next here _ => exact nomatch hstuck.symm.trans here
        | jump here _ => exact nomatch hstuck.symm.trans here
        | jumpIf here _ _ => exact nomatch hstuck.symm.trans here
        | jumpIfNot here _ _ => exact nomatch hstuck.symm.trans here

/-- All runs of a program are fine if its statements ensure it and no statement leaves a loop that is not there. -/
theorem safe_script {outline : ScriptOutline} (hlines : setting.lines = outline.lines)
    (hopening : setting.Passes none outline.opening s)
    (hbody : setting.Ensures (.block outline.body) (setting.machine.perform outline.opening s) post)
    (hlast : ∀ s, post .completed s → setting.last s) (hleft : ∀ s, ¬ post .left s) (n : Nat) :
    setting.Safe n 0 s := by
  obtain ⟨hopeningAt, hblock⟩ := placed_script hlines
  refine safe_plain hopeningAt hopening ?_
  rw [Nat.zero_add]
  refine hbody n _ _ _ hblock (Nat.zero_le _) ⟨?_, fun s hs => absurd hs (hleft s)⟩
  intro s hs
  exact safe_end n (hlast s hs)

end Setting
end ScriptBytecode
