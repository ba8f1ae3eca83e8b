import ScriptBytecode.Proofs.StatementCode

/-!
# Stray accesses

All clauses of a conditional share one scope, but at most one of them is executed. A name that one clause declares is
known when the clauses behind it are lowered, and yet nothing holds it when they are executed. An access to such a name
is a stray access.

`Knowledge.block` goes through statements in the order in which they are lowered and looks for stray accesses. It keeps
the names that are known, the names among them that are held on every path to where it is, and whether there is such a
path at all: what stands behind a break is lowered, but not executed.
-/

namespace ScriptBytecode

/-- The names that are known at a place of a script, the names that are held there on every path, and whether control
gets there. -/
structure Knowledge where
  known : List String
  held : List String
  reached : Bool

namespace Knowledge

/-- What is known at the beginning of a script. -/
def initial : Knowledge := ⟨[], [], true⟩

/-- The same place with other names known. -/
def knowing (knowledge : Knowledge) (known : List String) : Knowledge :=
  { knowledge with known := known }

/-- Whether an access to a name can miss it. -/
def strays (knowledge : Knowledge) (name : String) : Bool :=
  knowledge.reached && decide (name ∈ knowledge.known) && !decide (name ∈ knowledge.held)

/-- What is known behind an access that is not stray. -/
def access (knowledge : Knowledge) : Access → Option Knowledge
  | .read name | .assign name => if knowledge.strays name then none else some knowledge
  | .declare name =>
      some { knowledge with known := name :: knowledge.known, held := name :: knowledge.held }

def accesses : Knowledge → List Access → Option Knowledge
  | knowledge, [] => some knowledge
  | knowledge, access :: accesses => (knowledge.access access).bind fun next => next.accesses accesses

mutual

/-- What is known behind a statement without stray accesses. -/
def statement : Knowledge → Statement → Option Knowledge
  | knowledge, .declare names values location => knowledge.accesses (Statement.declare names values location).accesses
  | knowledge, .assign targets values location => knowledge.accesses (Statement.assign targets values location).accesses
  | knowledge, .call expression location => knowledge.accesses (Statement.call expression location).accesses
  | knowledge, .conditional clauses _ =>
      (knowledge.clauses knowledge.known clauses).map fun reached => { knowledge with reached := reached }
  | knowledge, .whileLoop condition body _ =>
      (knowledge.accesses condition.accesses).bind fun _ =>
        (knowledge.block body).bind fun round =>
          (round.accesses condition.accesses).map fun _ => knowledge
  | knowledge, .breakLoop _ => some { knowledge with reached := false }
  | knowledge, .unsupported _ _ => some knowledge

def block : Knowledge → List Statement → Option Knowledge
  | knowledge, [] => some knowledge
  | knowledge, statement :: statements => (knowledge.statement statement).bind fun next => next.block statements

/-- Whether control gets behind a conditional whose clauses have no stray accesses. Each clause knows what the clauses
before it declare, but holds only what was held before the conditional. -/
def clauses : Knowledge → List String → List Clause → Option Bool
  | knowledge, _, [] => some knowledge.reached
  | knowledge, known, .guarded _ condition body _ :: clauses =>
      (knowledge.accesses condition.accesses).bind fun _ =>
        ((knowledge.knowing known).block body).bind fun next =>
          (knowledge.clauses next.known clauses).map fun reached => next.reached || reached
  | knowledge, known, .otherwise body _ :: _ =>
      ((knowledge.knowing known).block body).map (·.reached)

end

end Knowledge

/-- Whether a script has an access that can miss the name that it was lowered for. -/
def Chunk.hasStrayAccess (chunk : Chunk) : Bool :=
  (Knowledge.initial.block chunk.body).isNone

theorem Chunk.hasStrayAccess_eq_false_iff (chunk : Chunk) :
    chunk.hasStrayAccess = false ↔ ∃ next, Knowledge.initial.block chunk.body = some next := by
  unfold hasStrayAccess
  rw [Option.isNone_eq_false_iff, Option.isSome_iff_exists]

/-! ## Accesses of expressions -/

/-- An access that only reads. -/
def Access.IsRead : Access → Prop
  | .read _ => True
  | .declare _ | .assign _ => False

mutual

theorem isRead_of_expression : ∀ (expression : Expression), ∀ access ∈ expression.accesses, access.IsRead
  | .identifier identifier => by simp [Expression.accesses, Access.IsRead]
  | .number .. => by simp [Expression.accesses]
  | .string .. => by simp [Expression.accesses]
  | .boolean .. => by simp [Expression.accesses]
  | .nil .. => by simp [Expression.accesses]
  | .unsupported .. => by simp [Expression.accesses]
  | .binary _ left right _ => by
      unfold Expression.accesses
      exact List.forall_mem_append.mpr ⟨isRead_of_expression left, isRead_of_expression right⟩
  | .call callee arguments _ => by
      unfold Expression.accesses
      exact List.forall_mem_append.mpr ⟨isRead_of_expression callee, isRead_of_arguments arguments⟩
  | .stringCall callee argument _ => by
      unfold Expression.accesses
      exact List.forall_mem_append.mpr ⟨isRead_of_expression callee, isRead_of_expression argument⟩
  | .tableCall callee argument _ => by
      unfold Expression.accesses
      exact List.forall_mem_append.mpr ⟨isRead_of_expression callee, isRead_of_expression argument⟩
  | .table fields _ => by
      unfold Expression.accesses
      exact isRead_of_fields fields
  | .member _ _ base _ => by
      unfold Expression.accesses
      exact isRead_of_expression base

theorem isRead_of_arguments : ∀ (arguments : List Expression), ∀ access ∈ accessesOfArguments arguments, access.IsRead
  | [] => by simp [accessesOfArguments]
  | argument :: arguments => by
      unfold accessesOfArguments
      exact List.forall_mem_append.mpr ⟨isRead_of_expression argument, isRead_of_arguments arguments⟩

theorem isRead_of_fields : ∀ (fields : List TableField), ∀ access ∈ accessesOfFields fields, access.IsRead
  | [] => by simp [accessesOfFields]
  | .keyed key value :: fields => by
      unfold accessesOfFields
      refine List.forall_mem_append.mpr ⟨?_, isRead_of_fields fields⟩
      exact List.forall_mem_append.mpr ⟨isRead_of_expression key, isRead_of_expression value⟩
  | .named _ value :: fields => by
      unfold accessesOfFields
      exact List.forall_mem_append.mpr ⟨isRead_of_expression value, isRead_of_fields fields⟩
  | .positional value :: fields => by
      unfold accessesOfFields
      exact List.forall_mem_append.mpr ⟨isRead_of_expression value, isRead_of_fields fields⟩

end

/-- What an access does fits the statement that it stands in: names are declared by declarations and assigned to by
assignments. -/
def Access.Suits (origin : Option StatementKind) : Access → Prop
  | .read _ => True
  | .declare _ => origin ≠ some .assign
  | .assign _ => origin = some .assign

theorem Access.IsRead.suits {access : Access} (h : access.IsRead) (origin : Option StatementKind) :
    access.Suits origin := by
  cases access with
  | read name => trivial
  | declare name => exact h.elim
  | assign name => exact h.elim

theorem suits_of_expression (expression : Expression) (origin : Option StatementKind) :
    ∀ access ∈ expression.accesses, access.Suits origin :=
  fun access hmem => (isRead_of_expression expression access hmem).suits origin

theorem suits_of_declaration : ∀ (names : List Identifier) (values : List Expression),
    ∀ access ∈ accessesOfDeclaration names values, access.Suits (some .declare)
  | [], _ => by simp [accessesOfDeclaration]
  | _ :: _, [] => by simp [accessesOfDeclaration]
  | name :: names, value :: values => by
      unfold accessesOfDeclaration
      refine List.forall_mem_append.mpr ⟨?_, suits_of_declaration names values⟩
      refine List.forall_mem_append.mpr ⟨suits_of_expression value _, ?_⟩
      simp [Access.Suits]

theorem suits_of_target (target : AssignmentTarget) : ∀ access ∈ target.accesses, access.Suits (some .assign) := by
  cases target with
  | name assigned => simp [AssignmentTarget.accesses, Access.Suits]
  | member indexer identifier base location => exact suits_of_expression base _

theorem suits_of_assignment : ∀ (targets values : List Expression),
    ∀ access ∈ accessesOfAssignment targets values, access.Suits (some .assign)
  | [], _ => by simp [accessesOfAssignment]
  | _ :: _, [] => by simp [accessesOfAssignment]
  | target :: targets, value :: values => by
      unfold accessesOfAssignment
      refine List.forall_mem_append.mpr ⟨?_, suits_of_assignment targets values⟩
      refine List.forall_mem_append.mpr ⟨suits_of_expression value _, ?_⟩
      cases AssignmentTarget.ofExpression none target with
      | ok meant => exact suits_of_target meant
      | error error => exact fun access hmem => (nomatch hmem)

theorem suits_of_statement {statement : Statement} (h : statement.isSimple = true) :
    ∀ access ∈ statement.accesses, access.Suits (some statement.kind) := by
  cases statement with
  | declare names values location => exact suits_of_declaration names values
  | assign targets values location => exact suits_of_assignment targets values
  | call expression location => exact suits_of_expression expression _
  | conditional clauses location => exact nomatch h
  | whileLoop condition body location => exact nomatch h
  | breakLoop location => exact nomatch h
  | unsupported kind location => exact nomatch h

/-! ## What the search keeps -/

namespace Knowledge

variable {knowledge next : Knowledge}

theorem statement_of_isSimple {simple : Statement} (h : simple.isSimple = true) :
    knowledge.statement simple = knowledge.accesses simple.accesses := by
  cases simple with
  | declare names values location => rw [statement]
  | assign targets values location => rw [statement]
  | call expression location => rw [statement]
  | conditional clauses location => exact nomatch h
  | whileLoop condition body location => exact nomatch h
  | breakLoop location => exact nomatch h
  | unsupported kind location => exact nomatch h

/-- An access that is not stray leaves the knowledge as it is or, if it declares a name, adds this name. -/
theorem access_eq_some_iff {access : Access} :
    knowledge.access access = some next ↔
      match access with
      | .read name | .assign name => knowledge.strays name = false ∧ knowledge = next
      | .declare name => next = { knowledge with known := name :: knowledge.known, held := name :: knowledge.held } := by
  cases access with
  | read name => cases hstrays : knowledge.strays name <;> simp [Knowledge.access, hstrays]
  | assign name => cases hstrays : knowledge.strays name <;> simp [Knowledge.access, hstrays]
  | declare name => simp [Knowledge.access, eq_comm]

/-- Names stay known and held, and those that are declared become known. -/
structure Grown (knowledge : Knowledge) (declared : String → Prop) (next : Knowledge) : Prop where
  known : ∀ name, name ∈ next.known ↔ name ∈ knowledge.known ∨ declared name
  held : ∀ name ∈ knowledge.held, name ∈ next.held

theorem grown_access {access : Access} (h : knowledge.access access = some next) :
    knowledge.Grown (fun name => access = .declare name) next ∧ next.reached = knowledge.reached := by
  rw [access_eq_some_iff] at h
  cases access with
  | read name =>
      obtain ⟨-, rfl⟩ := h
      exact ⟨⟨by simp, fun _ hmem => hmem⟩, rfl⟩
  | assign name =>
      obtain ⟨-, rfl⟩ := h
      exact ⟨⟨by simp, fun _ hmem => hmem⟩, rfl⟩
  | declare name =>
      subst h
      refine ⟨⟨fun other => ?_, fun other hmem => List.mem_cons_of_mem name hmem⟩, rfl⟩
      simp [or_comm, eq_comm]

theorem grown_accesses {accesses : List Access} (h : knowledge.accesses accesses = some next) :
    knowledge.Grown (fun name => .declare name ∈ accesses) next ∧ next.reached = knowledge.reached := by
  induction accesses generalizing knowledge with
  | nil =>
      obtain rfl := Option.some.inj h
      exact ⟨⟨by simp, fun _ hmem => hmem⟩, rfl⟩
  | cons access accesses ih =>
      obtain ⟨middle, hfirst, hrest⟩ := Option.bind_eq_some_iff.mp h
      obtain ⟨hgrown, hreached⟩ := grown_access hfirst
      obtain ⟨hgrown', hreached'⟩ := ih hrest
      refine ⟨⟨fun name => ?_, fun name hmem => hgrown'.held name (hgrown.held name hmem)⟩, hreached'.trans hreached⟩
      rw [hgrown'.known, hgrown.known, List.mem_cons, or_assoc, eq_comm]

theorem eq_of_accesses_isRead {accesses : List Access} (hread : ∀ access ∈ accesses, access.IsRead)
    (h : knowledge.accesses accesses = some next) : next = knowledge := by
  induction accesses generalizing knowledge with
  | nil => exact (Option.some.inj h).symm
  | cons access accesses ih =>
      obtain ⟨middle, hfirst, hrest⟩ := Option.bind_eq_some_iff.mp h
      rw [ih (fun other hmem => hread other (List.mem_cons_of_mem access hmem)) hrest]
      rw [access_eq_some_iff] at hfirst
      cases access with
      | read name => exact hfirst.2.symm
      | assign name => exact (hread _ List.mem_cons_self).elim
      | declare name => exact (hread _ List.mem_cons_self).elim

/-- The condition of a clause or of a loop has no stray accesses if it leaves the knowledge as it is. -/
theorem accesses_expression_eq_some_iff {condition : Expression} :
    knowledge.accesses condition.accesses = some next ↔
      knowledge.accesses condition.accesses = some knowledge ∧ next = knowledge := by
  constructor
  · intro h
    obtain rfl := eq_of_accesses_isRead (isRead_of_expression condition) h
    exact ⟨h, rfl⟩
  · rintro ⟨h, rfl⟩
    exact h

theorem whileLoop_eq_some_iff {condition : Expression} {body : List Statement} {location : Option Location} :
    knowledge.statement (.whileLoop condition body location) = some next ↔
      knowledge.accesses condition.accesses = some knowledge ∧
        (∃ round, knowledge.block body = some round ∧ round.accesses condition.accesses = some round) ∧
          next = knowledge := by
  rw [Knowledge.statement]
  constructor
  · intro h
    obtain ⟨tested, htested, hbody⟩ := Option.bind_eq_some_iff.mp h
    obtain ⟨round, hround, hagain⟩ := Option.bind_eq_some_iff.mp hbody
    obtain ⟨after, hafter, rfl⟩ := Option.map_eq_some_iff.mp hagain
    exact ⟨(accesses_expression_eq_some_iff.mp htested).1,
      ⟨round, hround, (accesses_expression_eq_some_iff.mp hafter).1⟩, rfl⟩
  · rintro ⟨htested, ⟨round, hround, hagain⟩, rfl⟩
    rw [htested, Option.bind_some, hround, Option.bind_some, hagain, Option.map_some]

theorem clauses_guarded_eq_some_iff {known : List String} {opening : ClauseOpening} {condition : Expression}
    {body : List Statement} {location : Option Location} {others : List Clause} {reached : Bool} :
    knowledge.clauses known (.guarded opening condition body location :: others) = some reached ↔
      knowledge.accesses condition.accesses = some knowledge ∧
        ∃ next rest, (knowledge.knowing known).block body = some next ∧
          knowledge.clauses next.known others = some rest ∧ reached = (next.reached || rest) := by
  rw [Knowledge.clauses]
  constructor
  · intro h
    obtain ⟨tested, htested, hbody⟩ := Option.bind_eq_some_iff.mp h
    obtain ⟨next, hnext, hothers⟩ := Option.bind_eq_some_iff.mp hbody
    obtain ⟨rest, hrest, rfl⟩ := Option.map_eq_some_iff.mp hothers
    exact ⟨(accesses_expression_eq_some_iff.mp htested).1, next, rest, hnext, hrest, rfl⟩
  · rintro ⟨htested, next, rest, hnext, hrest, rfl⟩
    rw [htested, Option.bind_some, hnext, Option.bind_some, hrest, Option.map_some]

theorem clauses_otherwise_eq_some_iff {known : List String} {body : List Statement} {location : Option Location}
    {others : List Clause} {reached : Bool} :
    knowledge.clauses known (.otherwise body location :: others) = some reached ↔
      ∃ next, (knowledge.knowing known).block body = some next ∧ reached = next.reached := by
  rw [Knowledge.clauses, Option.map_eq_some_iff]
  simp only [eq_comm]

theorem block_cons_eq_some_iff {statement : Statement} {statements : List Statement} :
    knowledge.block (statement :: statements) = some next ↔
      ∃ middle, knowledge.statement statement = some middle ∧ middle.block statements = some next := by
  rw [Knowledge.block, Option.bind_eq_some_iff]

theorem grown_statement {statement : Statement} (h : knowledge.statement statement = some next) :
    knowledge.Grown (fun name => .declare name ∈ statement.accesses) next := by
  have hsame : ∀ reached, knowledge.Grown (fun name => Access.declare name ∈ []) { knowledge with reached := reached } :=
    fun reached => ⟨by simp, fun _ hmem => hmem⟩
  cases statement with
  | declare names values location =>
      rw [Knowledge.statement] at h
      exact (grown_accesses h).1
  | assign targets values location =>
      rw [Knowledge.statement] at h
      exact (grown_accesses h).1
  | call expression location =>
      rw [Knowledge.statement] at h
      exact (grown_accesses h).1
  | conditional clauses location =>
      rw [Knowledge.statement] at h
      obtain ⟨reached, -, rfl⟩ := Option.map_eq_some_iff.mp h
      exact hsame reached
  | whileLoop condition body location =>
      obtain ⟨-, -, rfl⟩ := whileLoop_eq_some_iff.mp h
      exact hsame next.reached
  | breakLoop location =>
      rw [Knowledge.statement] at h
      obtain rfl := Option.some.inj h
      exact hsame false
  | unsupported kind location =>
      rw [Knowledge.statement] at h
      obtain rfl := Option.some.inj h
      exact hsame knowledge.reached

theorem held_of_block {statements : List Statement} (h : knowledge.block statements = some next) :
    ∀ name ∈ knowledge.held, name ∈ next.held := by
  induction statements generalizing knowledge with
  | nil =>
      rw [Knowledge.block] at h
      obtain rfl := Option.some.inj h
      exact fun _ hmem => hmem
  | cons statement statements ih =>
      obtain ⟨middle, hfirst, hrest⟩ := block_cons_eq_some_iff.mp h
      exact fun name hmem => ih hrest name ((grown_statement hfirst).held name hmem)

/-! Where control does not get to, no access is stray. -/

theorem accesses_of_not_reached {accesses : List Access} (h : knowledge.reached = false) :
    ∃ next, knowledge.accesses accesses = some next ∧ next.reached = false := by
  induction accesses generalizing knowledge with
  | nil => exact ⟨knowledge, rfl, h⟩
  | cons access accesses ih =>
      have hfirst : ∃ next, knowledge.access access = some next ∧ next.reached = false := by
        cases access with
        | read name => exact ⟨knowledge, by simp [Knowledge.access, strays, h], h⟩
        | assign name => exact ⟨knowledge, by simp [Knowledge.access, strays, h], h⟩
        | declare name => exact ⟨_, rfl, h⟩
      obtain ⟨middle, haccess, hmiddle⟩ := hfirst
      obtain ⟨next, hrest, hnext⟩ := ih hmiddle
      exact ⟨next, Option.bind_eq_some_iff.mpr ⟨middle, haccess, hrest⟩, hnext⟩

mutual

theorem statement_of_not_reached : ∀ (statement : Statement) {knowledge : Knowledge}, knowledge.reached = false →
    ∃ next, knowledge.statement statement = some next ∧ next.reached = false
  | .declare names values location, knowledge, h => by
      rw [Knowledge.statement]
      exact accesses_of_not_reached h
  | .assign targets values location, knowledge, h => by
      rw [Knowledge.statement]
      exact accesses_of_not_reached h
  | .call expression location, knowledge, h => by
      rw [Knowledge.statement]
      exact accesses_of_not_reached h
  | .conditional clauses location, knowledge, h => by
      -- No clause is reached, so control does not get behind the conditional.
      rw [Knowledge.statement, clauses_of_not_reached clauses h]
      exact ⟨_, rfl, rfl⟩
  | .whileLoop condition body location, knowledge, h => by
      obtain ⟨_, hentry, -⟩ := accesses_of_not_reached h
      obtain ⟨round, hbody, hround⟩ := block_of_not_reached body h
      obtain ⟨_, hagain, -⟩ := accesses_of_not_reached hround
      rw [Knowledge.statement, hentry, Option.bind_some, hbody, Option.bind_some, hagain]
      exact ⟨knowledge, rfl, h⟩
  | .breakLoop location, knowledge, h => by
      rw [Knowledge.statement]
      exact ⟨_, rfl, rfl⟩
  | .unsupported kind location, knowledge, h => by
      rw [Knowledge.statement]
      exact ⟨knowledge, rfl, h⟩

theorem block_of_not_reached : ∀ (statements : List Statement) {knowledge : Knowledge}, knowledge.reached = false →
    ∃ next, knowledge.block statements = some next ∧ next.reached = false
  | [], knowledge, h => by
      rw [Knowledge.block]
      exact ⟨knowledge, rfl, h⟩
  | statement :: statements, knowledge, h => by
      obtain ⟨middle, hfirst, hmiddle⟩ := statement_of_not_reached statement h
      rw [Knowledge.block, hfirst, Option.bind_some]
      exact block_of_not_reached statements hmiddle

theorem clauses_of_not_reached : ∀ (clauses : List Clause) {knowledge : Knowledge} {known : List String},
    knowledge.reached = false → knowledge.clauses known clauses = some false
  | [], knowledge, known, h => by rw [Knowledge.clauses, h]
  | .guarded opening condition body location :: clauses, knowledge, known, h => by
      obtain ⟨_, htest, -⟩ := accesses_of_not_reached h
      have hreached : (knowledge.knowing known).reached = false := h
      obtain ⟨next, hbody, hnext⟩ := block_of_not_reached body hreached
      rw [Knowledge.clauses, htest, Option.bind_some, hbody, Option.bind_some, clauses_of_not_reached clauses h,
        Option.map_some, hnext]
      rfl
  | .otherwise body location :: clauses, knowledge, known, h => by
      have hreached : (knowledge.knowing known).reached = false := h
      obtain ⟨next, hbody, hnext⟩ := block_of_not_reached body hreached
      rw [Knowledge.clauses, hbody, Option.map_some, hnext]

end

end Knowledge
end ScriptBytecode
