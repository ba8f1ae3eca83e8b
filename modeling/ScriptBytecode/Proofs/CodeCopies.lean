import ScriptBytecode.Proofs.ExpressionCode

/-!
# Copies of code

An expression that is lowered twice in one scope gives two pieces of code that differ in their registers, since every
value has a register of its own. `Relocation` says where the registers of the first piece went: each register that was
allocated for it was moved by one offset. Constants have their places from the first time, and the scope is the same.

What the two pieces may also differ in is how a name is read. `Copies` follows two steps side by side and keeps track of
this: the second piece is the first one with its registers moved exactly if the same of the names that are read are
bound both times (`Resembles`). The main statement, `copies_lowerExpression`, is that lowering an expression twice is
such a pair of steps.
-/

namespace ScriptBytecode

/-! ## Moving registers -/

/-- Replaces the registers of values in an instruction. The registers of scopes stay. -/
def Instruction.mapValues {τ : Type} (f : Register → Register) : Instruction τ → Instruction τ
  | .load constant dst => .load constant (f dst)
  | .getVar name dst => .getVar name (f dst)
  | .setVar src name => .setVar (f src) name
  | .call callee arguments dst => .call (f callee) (arguments.map f) (f dst)
  | .jumpIfNot condition target => .jumpIfNot (f condition) target
  | .jumpIf condition target => .jumpIf (f condition) target
  | .jump target => .jump target
  | .operate operation lhs rhs dst => .operate operation (f lhs) (f rhs) (f dst)
  | .setNil dst => .setNil (f dst)
  | .newTable dst => .newTable (f dst)
  | .setField table key src => .setField (f table) key (f src)
  | .setTable table key src => .setTable (f table) (f key) (f src)
  | .pushTable table src => .pushTable (f table) (f src)
  | .newScope dst parent => .newScope dst parent
  | .scopeGet scope name dst => .scopeGet scope name (f dst)
  | .scopeSet scope name src => .scopeSet scope name (f src)
  | .getField table key dst => .getField (f table) key (f dst)

/-- Moves the registers behind `first` up to `last`, and no others. -/
def Register.moved (first last offset : UInt32) (register : Register) : Register :=
  if first < register.index ∧ register.index ≤ last then ⟨register.index + offset⟩ else register

/-- What two pieces of code from one scope have in common: the registers that were allocated for the first one, how far
they are moved for the second one, the scope, and the pool that the second one finds. -/
structure Relocation where
  first : UInt32
  last : UInt32
  offset : UInt32
  scope : Register
  pool : ConstantPool

namespace Relocation

/-- Where a register of the first piece is in the second one. -/
def register (m : Relocation) : Register → Register :=
  Register.moved m.first m.last m.offset

/-- The first piece goes no further than this: the registers are among those that are moved, and the constants are among
those that the second piece finds. -/
structure Fits (m : Relocation) (a : Assembler) : Prop where
  registers : a.lastRegister ≤ m.last
  pool : a.constants.Extends m.pool

/-- Two assemblers in the scope, on the way through the first piece and through the second one. -/
structure Apart (m : Relocation) (a b : Assembler) : Prop where
  registers : b.lastRegister = a.lastRegister + m.offset
  behind : m.first ≤ a.lastRegister
  pool : b.constants = m.pool
  inScope : a.InScope m.scope ∧ b.InScope m.scope

/-- Registers have moved on, and the scopes are the same. -/
theorem Apart.of_frame {m : Relocation} {a b c d : Assembler} (h : m.Apart a b)
    (hregisters : d.lastRegister = c.lastRegister + m.offset) (hbehind : m.first ≤ c.lastRegister)
    (hpool : d.constants = b.constants) (hscopes : c.scopes = a.scopes ∧ d.scopes = b.scopes) : m.Apart c d where
  registers := hregisters
  behind := hbehind
  pool := hpool.trans h.pool
  inScope := ⟨h.inScope.1.of_scopes_eq hscopes.1, h.inScope.2.of_scopes_eq hscopes.2⟩

end Relocation

/-! ## Pieces of code -/

/-- The second piece of code is the first one with its registers moved, exactly if a condition holds. -/
structure Resembles (m : Relocation) (condition : Prop) (first second : List (Instruction Label)) : Prop where
  length_eq : second.length = first.length
  eq_map : condition → second = first.map (.mapValues m.register)
  /-- No other way of moving registers helps. -/
  of_eq_map : ∀ f, second = first.map (.mapValues f) → condition

namespace Resembles

variable {m : Relocation} {condition other : Prop} {first second third fourth : List (Instruction Label)}

theorem nil (h : condition) : Resembles m condition [] [] :=
  ⟨rfl, fun _ => rfl, fun _ _ => h⟩

theorem append (h : Resembles m condition first second) (h' : Resembles m other third fourth) :
    Resembles m (condition ∧ other) (first ++ third) (second ++ fourth) where
  length_eq := by rw [List.length_append, List.length_append, h.length_eq, h'.length_eq]
  eq_map := by
    rintro ⟨hfirst, hsecond⟩
    rw [List.map_append, ← h.eq_map hfirst, ← h'.eq_map hsecond]
  of_eq_map := by
    intro f hsame
    rw [List.map_append] at hsame
    have hlength : second.length = (first.map (Instruction.mapValues f)).length := by
      rw [List.length_map, h.length_eq]
    obtain ⟨hfirst, hsecond⟩ := List.append_inj hsame hlength
    exact ⟨h.of_eq_map f hfirst, h'.of_eq_map f hsecond⟩

theorem single (instruction : Instruction Label) (h : condition) :
    Resembles m condition [instruction] [instruction.mapValues m.register] :=
  ⟨rfl, fun _ => rfl, fun _ _ => h⟩

/-- Two instructions that differ in more than their registers. -/
theorem unlike {instruction another : Instruction Label} (h : ¬ condition)
    (hkind : ∀ f, another ≠ instruction.mapValues f) : Resembles m condition [instruction] [another] where
  length_eq := rfl
  eq_map := fun hcondition => absurd hcondition h
  of_eq_map := fun f hsame => absurd (List.head_eq_of_cons_eq hsame) (hkind f)

end Resembles

/-- Of the names that are read, two assemblers have the same in their scopes. -/
def ReadAlike (accesses : List Access) (a b : Assembler) : Prop :=
  ∀ name, .read name ∈ accesses → ((b.scopes.lookup name).isSome ↔ (a.scopes.lookup name).isSome)

theorem readAlike_congr {accesses : List Access} {a b c d : Assembler}
    (h : c.scopes = a.scopes ∧ d.scopes = b.scopes) : ReadAlike accesses c d ↔ ReadAlike accesses a b := by
  unfold ReadAlike
  rw [h.1, h.2]

theorem readAlike_append {accesses more : List Access} {a b : Assembler} :
    ReadAlike (accesses ++ more) a b ↔ ReadAlike accesses a b ∧ ReadAlike more a b := by
  constructor
  · intro h
    constructor
    · exact fun name hmem => h name (List.mem_append_left _ hmem)
    · exact fun name hmem => h name (List.mem_append_right _ hmem)
  · rintro ⟨hfirst, hsecond⟩ name hmem
    rcases List.mem_append.mp hmem with hleft | hright
    · exact hfirst name hleft
    · exact hsecond name hright

theorem readAlike_singleton {name : String} {a b : Assembler} :
    ReadAlike [.read name] a b ↔ ((b.scopes.lookup name).isSome ↔ (a.scopes.lookup name).isSome) := by
  constructor
  · intro h
    exact h name List.mem_cons_self
  · intro h other hmem
    obtain rfl := Access.read.inj (List.mem_singleton.mp hmem)
    exact h

/-- One piece of code leads from `a` to `c` and another one from `b` to `d`. -/
structure Copied (m : Relocation) (accesses : List Access) (a b c d : Assembler) : Prop where
  apart : m.Apart c d
  scopes : c.scopes = a.scopes ∧ d.scopes = b.scopes
  code : ∃ first second, c.code.toList = a.code.toList ++ first ∧ d.code.toList = b.code.toList ++ second ∧
    Resembles m (ReadAlike accesses a b) first second

namespace Copied

variable {m : Relocation} {accesses more : List Access} {a b c d e f : Assembler}

theorem trans (h : Copied m accesses a b c d) (h' : Copied m more c d e f) : Copied m (accesses ++ more) a b e f where
  apart := h'.apart
  scopes := ⟨h'.scopes.1.trans h.scopes.1, h'.scopes.2.trans h.scopes.2⟩
  code := by
    obtain ⟨first, second, hfirst, hsecond, hresembles⟩ := h.code
    obtain ⟨third, fourth, hthird, hfourth, hresembles'⟩ := h'.code
    refine ⟨first ++ third, second ++ fourth, ?_, ?_, ?_⟩
    · rw [hthird, hfirst, List.append_assoc]
    · rw [hfourth, hsecond, List.append_assoc]
    · rw [readAlike_congr h.scopes] at hresembles'
      rw [readAlike_append]
      exact hresembles.append hresembles'

/-- Steps that emit nothing. -/
theorem silent (h : m.Apart c d) (hscopes : c.scopes = a.scopes ∧ d.scopes = b.scopes)
    (hcode : c.code = a.code ∧ d.code = b.code) : Copied m [] a b c d where
  apart := h
  scopes := hscopes
  code := by
    refine ⟨[], [], ?_, ?_, .nil fun _ hmem => nomatch hmem⟩
    · rw [hcode.1, List.append_nil]
    · rw [hcode.2, List.append_nil]

theorem pushed {instruction another : Instruction Label} (h : m.Apart a b)
    (hresembles : Resembles m (ReadAlike accesses a b) [instruction] [another]) :
    Copied m accesses a b (a.pushed instruction) (b.pushed another) where
  apart := h.of_frame h.registers h.behind rfl ⟨rfl, rfl⟩
  scopes := ⟨rfl, rfl⟩
  code := ⟨[instruction], [another], Assembler.pushed_code_toList a _, Assembler.pushed_code_toList b _, hresembles⟩

end Copied

/-! ## Steps side by side -/

open Assembler Assembling

/-- A step and its copy: whatever the first one comes to, the second one comes to with its registers moved. -/
structure Copies {α : Type} (m : Relocation) (step other : Assembling α) (accesses : List Access) (image : α → α) :
    Prop where
  fits : ∀ {a c : Assembler} {value : α}, step a = .ok (value, c) → m.Fits c → m.Fits a
  copied : ∀ {a b c d : Assembler} {value result : α}, m.Apart a b → m.Fits c → step a = .ok (value, c) →
    other b = .ok (result, d) → result = image value ∧ Copied m accesses a b c d

namespace Copies

variable {α β : Type} {m : Relocation} {step other : Assembling α} {next following : α → Assembling β}
  {accesses more : List Access} {image : α → α} {last : β → β}

theorem bind (h : Copies m step other accesses image)
    (hnext : ∀ value, Copies m (next value) (following (image value)) more last) :
    Copies m (step >>= next) (other >>= following) (accesses ++ more) last where
  fits := by
    intro a e value hstep hfits
    obtain ⟨middle, c, hfirst, hrest⟩ := bind_eq_ok_iff.mp hstep
    exact h.fits hfirst ((hnext middle).fits hrest hfits)
  copied := by
    intro a b e f value result hapart hfits hstep hother
    obtain ⟨middle, c, hfirst, hrest⟩ := bind_eq_ok_iff.mp hstep
    obtain ⟨centre, d, hfirst', hrest'⟩ := bind_eq_ok_iff.mp hother
    -- How far the first copy goes is known at its end only, and from there for all that comes before.
    obtain ⟨rfl, hcopied⟩ := h.copied hapart ((hnext middle).fits hrest hfits) hfirst hfirst'
    obtain ⟨hresult, hcopied'⟩ := (hnext middle).copied hcopied.apart hfits hrest hrest'
    exact ⟨hresult, hcopied.trans hcopied'⟩

/-- Steps behind which nothing is read. -/
theorem bind_nil (h : Copies m step other accesses image)
    (hnext : ∀ value, Copies m (next value) (following (image value)) [] last) :
    Copies m (step >>= next) (other >>= following) accesses last := by
  have hboth := h.bind hnext
  rwa [List.append_nil] at hboth

theorem pure {value result : α} (h : result = image value) :
    Copies m (Pure.pure value) (Pure.pure result) [] image where
  fits := by
    intro a c result hpure hfits
    obtain ⟨-, rfl⟩ := Prod.mk.inj (pure_eq_ok_iff.mp hpure)
    exact hfits
  copied := by
    intro a b c d first second hapart _ hpure hpure'
    obtain ⟨rfl, rfl⟩ := Prod.mk.inj (pure_eq_ok_iff.mp hpure)
    obtain ⟨rfl, rfl⟩ := Prod.mk.inj (pure_eq_ok_iff.mp hpure')
    exact ⟨h, .silent hapart ⟨rfl, rfl⟩ ⟨rfl, rfl⟩⟩

theorem fail (error failure : CompileError) :
    Copies m (Assembler.fail error) (Assembler.fail failure) accesses image where
  fits := fun hfail => nomatch hfail
  copied := fun _ _ hfail => nomatch hfail

end Copies

section Operations

variable {m : Relocation}

/-- A constant has the place that it got the first time. -/
theorem copies_addConstant (constant : Constant) : Copies m (addConstant constant) (addConstant constant) [] id where
  fits := by
    intro a c index hadd hfits
    have hextends := extends_of_addConstant hadd
    obtain ⟨-, -, rfl⟩ := addConstant_eq_ok_iff.mp hadd
    exact ⟨hfits.registers, hextends.trans hfits.pool⟩
  copied := by
    intro a b c d index place hapart hfits hadd hadd'
    obtain ⟨-, rfl, rfl⟩ := addConstant_eq_ok_iff.mp hadd
    obtain ⟨-, rfl, rfl⟩ := addConstant_eq_ok_iff.mp hadd'
    have hagain : b.constants.add constant = ((a.constants.add constant).1, b.constants) := by
      apply ConstantPool.add_of_extends
      rw [hapart.pool]
      exact hfits.pool
    rw [hagain]
    exact ⟨rfl, .silent (hapart.of_frame hapart.registers hapart.behind rfl ⟨rfl, rfl⟩) ⟨rfl, rfl⟩ ⟨rfl, rfl⟩⟩

theorem copies_allocate : Copies m allocate allocate [] m.register where
  fits := by
    intro a c register allocated hfits
    have hnext := (toNat_allocate allocated).2
    have hlast := UInt32.le_iff_toNat_le.mp hfits.registers
    obtain ⟨-, -, rfl⟩ := allocate_eq_ok_iff.mp allocated
    exact ⟨UInt32.le_iff_toNat_le.mpr (by omega), hfits.pool⟩
  copied := by
    intro a b c d register other hapart hfits allocated allocated'
    have hnext := (toNat_allocate allocated).2
    have hbehind := UInt32.le_iff_toNat_le.mp hapart.behind
    obtain ⟨-, rfl, rfl⟩ := allocate_eq_ok_iff.mp allocated
    obtain ⟨-, rfl, rfl⟩ := allocate_eq_ok_iff.mp allocated'
    have hless : m.first < a.lastRegister + 1 := by
      rw [UInt32.lt_iff_toNat_lt, hnext]
      omega
    have hmoved : b.lastRegister + 1 = a.lastRegister + 1 + m.offset := by
      rw [hapart.registers, UInt32.add_assoc, UInt32.add_assoc, UInt32.add_comm m.offset]
    constructor
    · show _ = Register.moved _ _ _ _
      unfold Register.moved
      rw [if_pos ⟨hless, hfits.registers⟩, hmoved]
    · exact .silent (hapart.of_frame hmoved (UInt32.le_of_lt hless) rfl ⟨rfl, rfl⟩) ⟨rfl, rfl⟩ ⟨rfl, rfl⟩

theorem copies_emit {instruction other : Instruction Label} (h : other = instruction.mapValues m.register) :
    Copies m (emit instruction) (emit other) [] id where
  fits := by
    intro a c _ hemit hfits
    obtain ⟨-, rfl⟩ := Prod.mk.inj (Except.ok.inj hemit)
    exact ⟨hfits.registers, hfits.pool⟩
  copied := by
    intro a b c d _ _ hapart _ hemit hemit'
    obtain ⟨-, rfl⟩ := Prod.mk.inj (Except.ok.inj hemit)
    obtain ⟨-, rfl⟩ := Prod.mk.inj (Except.ok.inj hemit')
    subst h
    exact ⟨rfl, .pushed hapart (.single instruction fun _ hmem => nomatch hmem)⟩

/-- Results that get registers of their own. -/
theorem copies_result {make other : Register → Instruction Label}
    (h : ∀ dst, other (m.register dst) = (make dst).mapValues m.register) :
    Copies m (do let dst ← allocate; emit (make dst); return dst)
      (do let dst ← allocate; emit (other dst); return dst) [] m.register :=
  copies_allocate.bind fun dst => (copies_emit (h dst)).bind fun _ => .pure rfl

end Operations

/-! ## Expressions -/

/-- The instruction that reads a variable into a register. -/
inductive ReadsVariable (a : Assembler) (name : String) (index : ConstantIndex) (dst : Register) :
    Instruction Label → Prop
  | free (free : a.scopes.lookup name = none) : ReadsVariable a name index dst (.getVar index dst)
  | bound {scope : Register} (bound : (a.scopes.lookup name).isSome)
      (current : a.scopes.currentRegister? = some scope) :
      ReadsVariable a name index dst (.scopeGet scope index dst)

theorem exists_of_lowerName {name : String} {a e : Assembler} {dst : Register} (h : lowerName name a = .ok (dst, e)) :
    ∃ index c d instruction, addString name a = .ok (index, c) ∧ allocate c = .ok (dst, d) ∧
      ReadsVariable a name index dst instruction ∧ e = d.pushed instruction := by
  unfold lowerName at h
  obtain ⟨index, c, hadd, hread⟩ := bind_eq_ok_iff.mp h
  have hscopes := scopes_of_addConstant hadd
  have hresolve : resolveVariable name c = .ok (a.scopes.lookup name, c) := by
    rw [← hscopes]
    rfl
  rw [bind_of_ok hresolve] at hread
  cases hlookup : a.scopes.lookup name with
  | none =>
      rw [hlookup] at hread
      obtain ⟨_, d, allocated, hemit⟩ := bind_eq_ok_iff.mp hread
      obtain ⟨rfl, rfl⟩ := Prod.mk.inj (Except.ok.inj hemit)
      exact ⟨index, c, d, _, hadd, allocated, .free hlookup, rfl⟩
  | some found =>
      rw [hlookup] at hread
      obtain ⟨scope, _, hscope, hrest⟩ := bind_eq_ok_iff.mp hread
      unfold scopeRegister at hscope
      rw [hscopes] at hscope
      cases hcurrent : a.scopes.currentRegister? with
      | none =>
          rw [hcurrent] at hscope
          exact nomatch hscope
      | some current =>
          rw [hcurrent] at hscope
          obtain ⟨rfl, rfl⟩ := Prod.mk.inj (Except.ok.inj hscope)
          obtain ⟨_, d, allocated, hemit⟩ := bind_eq_ok_iff.mp hrest
          obtain ⟨rfl, rfl⟩ := Prod.mk.inj (Except.ok.inj hemit)
          exact ⟨index, c, d, _, hadd, allocated, .bound (Option.isSome_of_eq_some hlookup) hcurrent, rfl⟩

section Lowering

variable {m : Relocation}

/-- Reading a name twice gives two instructions of one kind if the name is bound both times or neither time. -/
theorem resembles_reads {name : String} {index : ConstantIndex} {dst : Register} {a b : Assembler}
    {instruction another : Instruction Label} (h : m.Apart a b) (hread : ReadsVariable a name index dst instruction)
    (hread' : ReadsVariable b name index (m.register dst) another) :
    Resembles m (ReadAlike [.read name] a b) [instruction] [another] := by
  rw [readAlike_singleton]
  cases hread with
  | free hfree =>
      cases hread' with
      | free hfree' =>
          apply Resembles.single (.getVar index dst)
          rw [hfree, hfree']
      | bound hbound' _ =>
          refine .unlike ?_ fun f hsame => nomatch hsame
          rw [hfree]
          exact fun hsame => nomatch hsame.mp hbound'
  | @bound scope hbound hcurrent =>
      obtain rfl : m.scope = scope := Option.some.inj (h.inScope.1.current.symm.trans hcurrent)
      cases hread' with
      | free hfree' =>
          refine .unlike ?_ fun f hsame => nomatch hsame
          rw [hfree']
          exact fun hsame => nomatch hsame.mpr hbound
      | @bound scope' hbound' hcurrent' =>
          obtain rfl : m.scope = scope' := Option.some.inj (h.inScope.2.current.symm.trans hcurrent')
          exact .single (.scopeGet m.scope index dst) (iff_of_true hbound' hbound)

theorem copies_lowerName (name : String) : Copies m (lowerName name) (lowerName name) [.read name] m.register where
  fits := by
    intro a e dst hread hfits
    obtain ⟨index, c, d, instruction, hadd, allocated, -, rfl⟩ := exists_of_lowerName hread
    have hallocated : m.Fits d := ⟨hfits.registers, hfits.pool⟩
    exact (copies_addConstant _).fits hadd (copies_allocate.fits allocated hallocated)
  copied := by
    intro a b e f dst other hapart hfits hread hread'
    obtain ⟨index, c, d, instruction, hadd, allocated, reads, rfl⟩ := exists_of_lowerName hread
    obtain ⟨place, c', d', another, hadd', allocated', reads', rfl⟩ := exists_of_lowerName hread'
    have hfits' : m.Fits d := ⟨hfits.registers, hfits.pool⟩
    obtain ⟨rfl, hadded⟩ := (copies_addConstant _).copied hapart (copies_allocate.fits allocated hfits') hadd hadd'
    obtain ⟨rfl, hallocated⟩ := copies_allocate.copied hadded.apart hfits' allocated allocated'
    have hbefore := hadded.trans hallocated
    have hresembles := resembles_reads hapart reads reads'
    rw [← readAlike_congr hbefore.scopes] at hresembles
    exact ⟨rfl, hbefore.trans (.pushed hallocated.apart hresembles)⟩

theorem copies_lowerConstant (constant : Constant) :
    Copies m (lowerConstant constant) (lowerConstant constant) [] m.register :=
  (copies_addConstant constant).bind fun _ => copies_result fun _ => rfl

mutual

theorem copies_lowerExpression : ∀ expression : Expression,
    Copies m (lowerExpression expression) (lowerExpression expression) expression.accesses m.register
  | .identifier identifier => by
      rw [lowerExpression, Expression.accesses]
      exact copies_lowerName identifier.name
  | .number value location => by
      rw [lowerExpression, Expression.accesses]
      split
      · exact copies_lowerConstant _
      · exact .fail _ _
  | .string value _ => by
      rw [lowerExpression, Expression.accesses]
      exact copies_lowerConstant _
  | .boolean value _ => by
      rw [lowerExpression, Expression.accesses]
      exact copies_lowerConstant _
  | .nil _ => by
      rw [lowerExpression, Expression.accesses]
      exact copies_result fun _ => rfl
  | .binary operator left right location => by
      rw [lowerExpression, Expression.accesses]
      split
      · exact .fail _ _
      · apply (copies_lowerExpression left).bind
        intro lhs
        apply (copies_lowerExpression right).bind_nil
        intro rhs
        exact copies_result fun _ => rfl
  | .call callee arguments _ => by
      rw [lowerExpression, Expression.accesses]
      apply (copies_lowerExpression callee).bind
      intro function
      apply (copies_lowerArguments arguments).bind_nil
      intro registers
      exact copies_result fun _ => rfl
  | .stringCall callee argument _ => by
      rw [lowerExpression, Expression.accesses]
      apply (copies_lowerExpression callee).bind
      intro function
      apply (copies_lowerExpression argument).bind_nil
      intro register
      exact copies_result fun _ => rfl
  | .tableCall callee argument _ => by
      rw [lowerExpression, Expression.accesses]
      apply (copies_lowerExpression callee).bind
      intro function
      apply (copies_lowerExpression argument).bind_nil
      intro register
      exact copies_result fun _ => rfl
  | .table fields _ => by
      rw [lowerExpression, Expression.accesses]
      apply copies_allocate.bind
      intro dst
      apply (copies_emit rfl).bind
      intro _
      exact (copies_lowerFields dst fields).bind_nil fun _ => .pure rfl
  | .member indexer identifier base location => by
      rw [lowerExpression, Expression.accesses]
      split
      · exact .fail _ _
      · apply (copies_lowerExpression base).bind_nil
        intro table
        exact (copies_addConstant _).bind fun key => copies_result fun _ => rfl
  | .unsupported kind location => by
      rw [lowerExpression, Expression.accesses]
      exact .fail _ _

theorem copies_lowerArguments : ∀ arguments : List Expression,
    Copies m (lowerArguments arguments) (lowerArguments arguments) (accessesOfArguments arguments)
      (List.map m.register)
  | [] => by
      rw [lowerArguments, accessesOfArguments]
      exact .pure rfl
  | argument :: arguments => by
      rw [lowerArguments, accessesOfArguments]
      apply (copies_lowerExpression argument).bind
      intro register
      apply (copies_lowerArguments arguments).bind_nil
      intro registers
      exact .pure rfl

theorem copies_lowerFields (table : Register) : ∀ fields : List TableField,
    Copies m (lowerFields table fields) (lowerFields (m.register table) fields) (accessesOfFields fields) id
  | [] => by
      rw [lowerFields, lowerFields, accessesOfFields]
      exact .pure rfl
  | .keyed key value :: fields => by
      rw [lowerFields, lowerFields, accessesOfFields, List.append_assoc]
      apply (copies_lowerExpression key).bind
      intro keyRegister
      apply (copies_lowerExpression value).bind
      intro src
      exact (copies_emit rfl).bind fun _ => copies_lowerFields table fields
  | .named key value :: fields => by
      rw [lowerFields, lowerFields, accessesOfFields]
      apply (copies_addConstant _).bind
      intro index
      apply (copies_lowerExpression value).bind
      intro src
      exact (copies_emit rfl).bind fun _ => copies_lowerFields table fields
  | .positional value :: fields => by
      rw [lowerFields, lowerFields, accessesOfFields]
      apply (copies_lowerExpression value).bind
      intro src
      exact (copies_emit rfl).bind fun _ => copies_lowerFields table fields

end

end Lowering
end ScriptBytecode
