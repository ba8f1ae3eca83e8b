import ScriptBytecode.Proofs.ScopeObjects
import ScriptBytecode.Proofs.StrayAccess

/-!
# Accesses to scoped names in straight-line code

The code of an expression or of a simple statement, as scope objects see it: `Enacts` says for each instruction which
access it was emitted for. If the objects have at least the names that are held, code without stray accesses finds all
the names that it was lowered for. If they have at most the names that are held, code that finds all these names has no
stray accesses. In both cases the objects keep up with what is held.
-/

namespace ScriptBytecode

open Assembler Assembling

/-- The scope register and the name of an instruction that counts on finding the name: one that reads a scoped name, or
one that writes it for an assignment. -/
def Instruction.scopedAccess? {τ : Type} (origin : Option StatementKind) :
    Instruction τ → Option (Register × ConstantIndex)
  | .scopeGet scope name _ => some (scope, name)
  | .scopeSet scope name _ => if origin = some .assign then some (scope, name) else none
  | _ => none

/-- An instruction finds the name that it counts on, if it counts on one. -/
def ScopeHeap.Serves {τ : Type} (heap : ScopeHeap) (pool : ConstantPool) (origin : Option StatementKind)
    (instruction : Instruction τ) : Prop :=
  ∀ scope name, instruction.scopedAccess? origin = some (scope, name) → heap.Finds pool scope name

/-! ## What instructions are emitted for -/

/-- An instruction and the accesses that it was emitted for, one at most, where some names are known. -/
inductive Enacts (pool : ConstantPool) (scope : Register) (knows : String → Prop) :
    List Access → PlainInstruction → Prop
  | ordinary {instruction : PlainInstruction} (ordinary : instruction.concernsVariables = false) :
      Enacts pool scope knows [] instruction
  | readScoped {name : String} {index : ConstantIndex} {dst : Register} (named : pool.name? index = some name)
      (known : knows name) : Enacts pool scope knows [.read name] (.scopeGet scope index dst)
  | readGlobal {name : String} {index : ConstantIndex} {dst : Register} (unknown : ¬ knows name) :
      Enacts pool scope knows [.read name] (.getVar index dst)
  | declare {name : String} {index : ConstantIndex} {src : Register} (named : pool.name? index = some name) :
      Enacts pool scope knows [.declare name] (.scopeSet scope index src)
  | assignScoped {name : String} {index : ConstantIndex} {src : Register} (named : pool.name? index = some name)
      (known : knows name) : Enacts pool scope knows [.assign name] (.scopeSet scope index src)
  | assignGlobal {name : String} {index : ConstantIndex} {src : Register} (unknown : ¬ knows name) :
      Enacts pool scope knows [.assign name] (.setVar src index)

/-- Code with the accesses that its instructions were emitted for. -/
inductive EnactsAll (pool : ConstantPool) (scope : Register) (knows : String → Prop) :
    List Access → List PlainInstruction → Prop
  | nil : EnactsAll pool scope knows [] []
  | push {accesses more : List Access} {code : List PlainInstruction} {instruction : PlainInstruction}
      (before : EnactsAll pool scope knows accesses code)
      (last : Enacts pool scope (fun name => knows name ∨ .declare name ∈ accesses) more instruction) :
      EnactsAll pool scope knows (accesses ++ more) (code ++ [instruction])

/-- A name that is added to a sound pool is found at its place in every later pool. -/
theorem name?_of_addString {a b : Assembler} {name : String} {index : ConstantIndex} {pool : ConstantPool}
    (added : addString name a = .ok (index, b)) (hsound : a.constants.Sound) (hpool : b.constants.Extends pool) :
    pool.name? index = some name := by
  have hget := hpool.get? (get?_of_addConstant hsound.size_le added).1
  unfold ConstantPool.name?
  rw [hget]

/-- Growing code carries out its accesses in order. -/
theorem enactsAll_of_grows {scope : Register} {a b : Assembler} {accesses : List Access} {code : List PlainInstruction}
    (h : Grows [scope] a accesses code b) (hwf : a.scopes.WellFormed) (hsound : a.constants.Sound)
    {pool : ConstantPool} (hpool : b.constants.Extends pool) : EnactsAll pool scope a.scopes.Knows accesses code := by
  induction h with
  | start => exact .nil
  | intern _ _ added ih => exact ih ((extends_of_addConstant added).trans hpool)
  | act _ ordinary _ _ _ ih =>
      have hpushed := EnactsAll.push (ih hpool) (.ordinary ordinary)
      rwa [List.append_nil] at hpushed
  | compute _ ordinary allocated _ _ _ ih =>
      have hpushed := EnactsAll.push (ih ((advances_of_allocate allocated).constants.trans hpool)) (.ordinary ordinary)
      rwa [List.append_nil] at hpushed
  | @readScoped _ _ _ _ _ name _ _ _ grown added bound _ scopeGiven allocated ih =>
      have hpool' := (advances_of_allocate allocated).constants.trans hpool
      have hknown := ((grown.scopes_frame hwf).2.2 name).mp ((ScopeChain.lookup_isSome_iff _ _).mp bound)
      obtain rfl := List.mem_singleton.mp scopeGiven
      refine .push (ih ((extends_of_addConstant added).trans hpool')) (.readScoped ?_ hknown)
      exact name?_of_addString added (grown.advances.sound hsound) hpool'
  | @readGlobal _ _ _ _ _ name _ _ grown added free allocated ih =>
      have hpool' := (advances_of_allocate allocated).constants.trans hpool
      refine .push (ih ((extends_of_addConstant added).trans hpool')) (.readGlobal ?_)
      -- A name that is known would have been found.
      intro hknown
      have hbound := (ScopeChain.lookup_isSome_iff _ name).mpr (((grown.scopes_frame hwf).2.2 name).mpr hknown)
      rw [free] at hbound
      exact nomatch hbound
  | @writeScoped _ _ _ _ name _ _ _ _ _ _ grown added _ scopeGiven _ _ meant ih =>
      have hnamed := name?_of_addString added (grown.advances.sound hsound) hpool
      have hbefore := ih ((extends_of_addConstant added).trans hpool)
      obtain rfl := List.mem_singleton.mp scopeGiven
      rcases meant with rfl | ⟨rfl, hbound⟩
      · exact .push hbefore (.declare hnamed)
      · have hknown := ((grown.scopes_frame hwf).2.2 name).mp ((ScopeChain.lookup_isSome_iff _ _).mp hbound)
        exact .push hbefore (.assignScoped hnamed hknown)
  | @writeGlobal _ _ _ _ name _ _ grown added free _ ih =>
      refine .push (ih ((extends_of_addConstant added).trans hpool)) (.assignGlobal ?_)
      intro hknown
      have hbound := (ScopeChain.lookup_isSome_iff _ name).mpr (((grown.scopes_frame hwf).2.2 name).mpr hknown)
      rw [free] at hbound
      exact nomatch hbound

/-! ## One instruction -/

theorem execute_of_ordinary {instruction : PlainInstruction} (h : instruction.concernsVariables = false)
    (pool : ConstantPool) (heap : ScopeHeap) :
    ScopeHeap.execute pool instruction heap = heap.forget instruction.dst? := by
  cases instruction with
  | newScope dst parent => exact nomatch h
  | scopeSet scope name src => exact nomatch h
  | _ => rfl

theorem scopedAccess?_of_ordinary {τ : Type} {instruction : Instruction τ} (h : instruction.concernsVariables = false)
    (origin : Option StatementKind) : instruction.scopedAccess? origin = none := by
  cases instruction with
  | scopeGet scope name dst => exact nomatch h
  | scopeSet scope name src => exact nomatch h
  | _ => rfl

namespace Knowledge

variable {knowledge next : Knowledge} {name : String}

theorem held_of_not_strays (hreached : knowledge.reached = true) (hknown : name ∈ knowledge.known)
    (h : knowledge.strays name = false) : name ∈ knowledge.held := by
  simpa [strays, hreached, hknown] using h

theorem not_strays_of_held (h : name ∈ knowledge.held) : knowledge.strays name = false := by
  simp [strays, h]

theorem not_strays_of_unknown (h : name ∉ knowledge.known) : knowledge.strays name = false := by
  simp [strays, h]

theorem accesses_single_eq_some_iff {access : Access} :
    knowledge.accesses [access] = some next ↔
      match access with
      | .read name | .assign name => knowledge.strays name = false ∧ knowledge = next
      | .declare name =>
          next = { knowledge with known := name :: knowledge.known, held := name :: knowledge.held } := by
  have hsingle : knowledge.accesses [access] = knowledge.access access := by simp [accesses]
  rw [hsingle]
  exact access_eq_some_iff

theorem accesses_append (knowledge : Knowledge) (accesses more : List Access) :
    knowledge.accesses (accesses ++ more) = (knowledge.accesses accesses).bind fun next => next.accesses more := by
  induction accesses generalizing knowledge with
  | nil => rfl
  | cons access accesses ih => simp [Knowledge.accesses, ih, Option.bind_assoc]

end Knowledge

section Instructions

variable {pool : ConstantPool} {scope : Register} {knows : String → Prop} {accesses : List Access}
  {instruction : PlainInstruction} {knowledge next : Knowledge} {outer : List Frame} {heap : ScopeHeap}
  {origin : Option StatementKind}

/-- The scope objects keep up with what is held. -/
theorem Enacts.mirrors {fit : Fit} (h : Enacts pool scope knows accesses instruction)
    (hknows : ∀ name, knows name ↔ name ∈ knowledge.known) (hreached : knowledge.reached = true)
    (hnext : knowledge.accesses accesses = some next)
    (hfresh : ∀ frame ∈ (scope, knowledge.held) :: outer, instruction.dst? ≠ some frame.1)
    (hmirrors : heap.Mirrors fit ((scope, knowledge.held) :: outer)) :
    (ScopeHeap.execute pool instruction heap).Mirrors fit ((scope, next.held) :: outer) := by
  have hforget := ScopeHeap.mirrors_forget hmirrors hfresh
  cases h with
  | ordinary hordinary =>
      obtain rfl := Option.some.inj hnext
      rw [execute_of_ordinary hordinary]
      exact hforget
  | readScoped =>
      rw [Knowledge.accesses_single_eq_some_iff] at hnext
      obtain ⟨-, rfl⟩ := hnext
      exact hforget
  | readGlobal =>
      rw [Knowledge.accesses_single_eq_some_iff] at hnext
      obtain ⟨-, rfl⟩ := hnext
      exact hforget
  | @declare name _ _ named =>
      rw [Knowledge.accesses_single_eq_some_iff] at hnext
      subst hnext
      obtain ⟨id, hholds, hset⟩ := ScopeHeap.mirrors_setName hmirrors fun _ => fit.declare name
      simp only [ScopeHeap.execute, hholds, named]
      exact hset
  | assignScoped named known =>
      rw [Knowledge.accesses_single_eq_some_iff] at hnext
      obtain ⟨hstrays, rfl⟩ := hnext
      have hheld := Knowledge.held_of_not_strays hreached ((hknows _).mp known) hstrays
      obtain ⟨id, hholds, hset⟩ := ScopeHeap.mirrors_setName hmirrors fun _ => fit.assign hheld
      simp only [ScopeHeap.execute, hholds, named]
      exact hset
  | assignGlobal =>
      rw [Knowledge.accesses_single_eq_some_iff] at hnext
      obtain ⟨-, rfl⟩ := hnext
      exact hforget

/-- An instruction whose access is not stray finds its name among those that are held. -/
theorem Enacts.serves (h : Enacts pool scope knows accesses instruction)
    (hsuits : ∀ access ∈ accesses, access.Suits origin) (hknows : ∀ name, knows name ↔ name ∈ knowledge.known)
    (hreached : knowledge.reached = true) (hnext : knowledge.accesses accesses = some next)
    (hmirrors : heap.Mirrors .atLeast ((scope, knowledge.held) :: outer)) : heap.Serves pool origin instruction := by
  obtain ⟨id, -, hholds, hfound, -⟩ := hmirrors
  intro register index haccess
  cases h with
  | ordinary hordinary =>
      rw [scopedAccess?_of_ordinary hordinary] at haccess
      exact nomatch haccess
  | readScoped named known =>
      obtain ⟨rfl, rfl⟩ := Prod.mk.inj (Option.some.inj haccess)
      rw [Knowledge.accesses_single_eq_some_iff] at hnext
      have hheld := Knowledge.held_of_not_strays hreached ((hknows _).mp known) hnext.1
      exact ⟨id, _, hholds, named, hfound _ hheld⟩
  | readGlobal => exact nomatch haccess
  | declare =>
      -- A declaration does not count on finding its name.
      have hnot : origin ≠ some .assign := hsuits _ List.mem_cons_self
      rw [Instruction.scopedAccess?, if_neg hnot] at haccess
      exact nomatch haccess
  | assignScoped named known =>
      have hassign : origin = some .assign := hsuits _ List.mem_cons_self
      rw [Instruction.scopedAccess?, if_pos hassign] at haccess
      obtain ⟨rfl, rfl⟩ := Prod.mk.inj (Option.some.inj haccess)
      rw [Knowledge.accesses_single_eq_some_iff] at hnext
      have hheld := Knowledge.held_of_not_strays hreached ((hknows _).mp known) hnext.1
      exact ⟨id, _, hholds, named, hfound _ hheld⟩
  | assignGlobal => exact nomatch haccess

/-- A name that is found where only names that are held can be found is held. -/
theorem held_of_finds {name : String} {index : ConstantIndex} (named : pool.name? index = some name)
    (hmirrors : heap.Mirrors .atMost ((scope, knowledge.held) :: outer)) (h : heap.Finds pool scope index) :
    name ∈ knowledge.held := by
  obtain ⟨id, -, hholds, hfound, -⟩ := hmirrors
  obtain ⟨other, text, hholds', named', hfinds⟩ := h
  obtain rfl := Option.some.inj (hholds.symm.trans hholds')
  obtain rfl := Option.some.inj (named.symm.trans named')
  exact hfound _ hfinds

/-- An instruction that finds its name where only names that are held can be found was emitted for an access that is not
stray. -/
theorem Enacts.access_of_serves (h : Enacts pool scope knows accesses instruction)
    (hsuits : ∀ access ∈ accesses, access.Suits origin) (hknows : ∀ name, knows name ↔ name ∈ knowledge.known)
    (hmirrors : heap.Mirrors .atMost ((scope, knowledge.held) :: outer)) (hserves : heap.Serves pool origin instruction) :
    ∃ next, knowledge.accesses accesses = some next := by
  cases h with
  | ordinary => exact ⟨knowledge, rfl⟩
  | readScoped named _ =>
      have hheld := held_of_finds named hmirrors (hserves _ _ rfl)
      exact ⟨knowledge, Knowledge.accesses_single_eq_some_iff.mpr ⟨Knowledge.not_strays_of_held hheld, rfl⟩⟩
  | readGlobal unknown =>
      have hunknown := Knowledge.not_strays_of_unknown ((hknows _).not.mp unknown)
      exact ⟨knowledge, Knowledge.accesses_single_eq_some_iff.mpr ⟨hunknown, rfl⟩⟩
  | declare => exact ⟨_, rfl⟩
  | assignScoped named _ =>
      have hassign : origin = some .assign := hsuits _ List.mem_cons_self
      have hheld := held_of_finds named hmirrors (hserves _ _ (if_pos hassign))
      exact ⟨knowledge, Knowledge.accesses_single_eq_some_iff.mpr ⟨Knowledge.not_strays_of_held hheld, rfl⟩⟩
  | assignGlobal unknown =>
      have hunknown := Knowledge.not_strays_of_unknown ((hknows _).not.mp unknown)
      exact ⟨knowledge, Knowledge.accesses_single_eq_some_iff.mpr ⟨hunknown, rfl⟩⟩

end Instructions

/-! ## Code -/

/-- The setting in which every instruction is asked to find the name that it counts on. -/
def ScriptOutline.scoped (script : ScriptOutline) (pool : ConstantPool) (hlength : script.lines.length < 2 ^ 32) :
    Setting ScopeHeap where
  machine := ScopeHeap.machine pool
  lines := script.lines
  policy := ⟨fun origin instruction heap => heap.Serves pool origin instruction, fun _ _ => True⟩
  last _ := True
  length_lt := hlength

/-- Code does not write the registers of the open scopes. -/
def Spares (code : List PlainInstruction) (scope : Register) (outer : List Frame) : Prop :=
  ∀ register ∈ scope :: outer.map Prod.fst, register ∉ written code

theorem Spares.of_push {code : List PlainInstruction} {instruction : PlainInstruction} {scope : Register}
    {outer : List Frame} (h : Spares (code ++ [instruction]) scope outer) :
    Spares code scope outer ∧
      ∀ held, ∀ frame ∈ (scope, held) :: outer, instruction.dst? ≠ some frame.1 := by
  constructor
  · intro register hmem hwritten
    refine h register hmem ?_
    rw [written_append]
    exact List.mem_append_left _ hwritten
  · intro held frame hframe hdst
    have hmem : frame.1 ∈ scope :: outer.map Prod.fst := by
      rcases List.mem_cons.mp hframe with rfl | houter
      · exact List.mem_cons_self
      · exact List.mem_cons_of_mem scope (List.mem_map_of_mem houter)
    exact h frame.1 hmem (mem_written_push code hdst)

section Code

variable {pool : ConstantPool} {scope : Register} {knows : String → Prop} {accesses : List Access}
  {code : List PlainInstruction} {knowledge next : Knowledge} {outer : List Frame} {heap : ScopeHeap}
  {origin : Option StatementKind} {script : ScriptOutline} {hlength : script.lines.length < 2 ^ 32}

theorem EnactsAll.passes (h : EnactsAll pool scope knows accesses code)
    (hsuits : ∀ access ∈ accesses, access.Suits origin) (hknows : ∀ name, knows name ↔ name ∈ knowledge.known)
    (hreached : knowledge.reached = true) (hnext : knowledge.accesses accesses = some next)
    (hspares : Spares code scope outer) (hmirrors : heap.Mirrors .atLeast ((scope, knowledge.held) :: outer)) :
    (script.scoped pool hlength).Passes origin code heap ∧
      ScopeHeap.Mirrors .atLeast ((ScopeHeap.machine pool).perform code heap) ((scope, next.held) :: outer) := by
  induction h generalizing next with
  | nil =>
      obtain rfl := Option.some.inj hnext
      exact ⟨trivial, hmirrors⟩
  | push _ last ih =>
      rw [Knowledge.accesses_append] at hnext
      obtain ⟨middle, hbefore, hlast⟩ := Option.bind_eq_some_iff.mp hnext
      obtain ⟨hsuitsBefore, hsuitsLast⟩ := List.forall_mem_append.mp hsuits
      obtain ⟨hsparesBefore, hfresh⟩ := hspares.of_push
      obtain ⟨hpasses, hmirrorsBefore⟩ := ih hsuitsBefore hbefore hsparesBefore
      obtain ⟨hgrown, hreachedBefore⟩ := Knowledge.grown_accesses hbefore
      -- The last instruction was emitted where the declarations before it are known, too.
      have hknowsBefore := fun name => (or_congr_left (hknows name)).trans (hgrown.known name).symm
      rw [hreached] at hreachedBefore
      rw [Machine.perform_append]
      refine ⟨Setting.passes_append.mpr ⟨hpasses, ?_, trivial⟩, ?_⟩
      · exact last.serves hsuitsLast hknowsBefore hreachedBefore hlast hmirrorsBefore
      · exact last.mirrors hknowsBefore hreachedBefore hlast (hfresh middle.held) hmirrorsBefore

theorem EnactsAll.accesses_of_passes (h : EnactsAll pool scope knows accesses code)
    (hsuits : ∀ access ∈ accesses, access.Suits origin) (hknows : ∀ name, knows name ↔ name ∈ knowledge.known)
    (hreached : knowledge.reached = true) (hspares : Spares code scope outer)
    (hmirrors : heap.Mirrors .atMost ((scope, knowledge.held) :: outer))
    (hpasses : (script.scoped pool hlength).Passes origin code heap) :
    ∃ next, knowledge.accesses accesses = some next ∧
      ScopeHeap.Mirrors .atMost ((ScopeHeap.machine pool).perform code heap) ((scope, next.held) :: outer) := by
  induction h with
  | nil => exact ⟨knowledge, rfl, hmirrors⟩
  | push _ last ih =>
      obtain ⟨hpassesBefore, hserves, -⟩ := Setting.passes_append.mp hpasses
      obtain ⟨hsuitsBefore, hsuitsLast⟩ := List.forall_mem_append.mp hsuits
      obtain ⟨hsparesBefore, hfresh⟩ := hspares.of_push
      obtain ⟨middle, hbefore, hmirrorsBefore⟩ := ih hsuitsBefore hsparesBefore hpassesBefore
      obtain ⟨hgrown, hreachedBefore⟩ := Knowledge.grown_accesses hbefore
      have hknowsBefore := fun name => (or_congr_left (hknows name)).trans (hgrown.known name).symm
      rw [hreached] at hreachedBefore
      obtain ⟨next, hlast⟩ := last.access_of_serves hsuitsLast hknowsBefore hmirrorsBefore hserves
      refine ⟨next, ?_, ?_⟩
      · rw [Knowledge.accesses_append, hbefore, Option.bind_some, hlast]
      · rw [Machine.perform_append]
        exact last.mirrors hknowsBefore hreachedBefore hlast (hfresh middle.held) hmirrorsBefore

end Code

/-! ## Lowering in open scopes -/

/-- The assembler is in a scope where some names are known, and the registers of the open scopes are in use. -/
structure Standing (scope : Register) (outer : List Frame) (known : List String) (a : Assembler) : Prop where
  inScope : a.InScope scope
  sound : a.constants.Sound
  knows : ∀ name, a.scopes.Knows name ↔ name ∈ known
  inUse : ∀ register ∈ scope :: outer.map Prod.fst, register.index.toNat ≤ a.lastRegister.toNat

namespace Standing

variable {scope : Register} {outer : List Frame} {known later : List String} {a b : Assembler}

/-- Only the scopes, the constants and the registers matter. -/
theorem congr (h : Standing scope outer known a) (hscopes : b.scopes = a.scopes) (hconstants : b.constants = a.constants)
    (hregister : b.lastRegister = a.lastRegister) : Standing scope outer known b where
  inScope := h.inScope.of_scopes_eq hscopes
  sound := hconstants ▸ h.sound
  knows := hscopes ▸ h.knows
  inUse := hregister ▸ h.inUse

theorem advance (h : Standing scope outer known a) (hadvances : a.Advances b) (hwf : b.scopes.WellFormed)
    (hrefills : a.scopes.Refills b.scopes) (hknows : ∀ name, b.scopes.Knows name ↔ name ∈ later) :
    Standing scope outer later b where
  inScope := h.inScope.of_refills hwf hrefills
  sound := hadvances.sound h.sound
  knows := hknows
  inUse register hmem := Nat.le_trans (h.inUse register hmem) hadvances.registers

theorem grows {accesses : List Access} {code : List PlainInstruction} (h : Standing scope outer known a)
    (grown : Grows [scope] a accesses code b)
    (hlater : ∀ name, name ∈ later ↔ name ∈ known ∨ .declare name ∈ accesses) : Standing scope outer later b := by
  obtain ⟨hwf, hrefills, hknows⟩ := grown.scopes_frame h.inScope.wellFormed
  refine h.advance grown.advances hwf hrefills ?_
  intro name
  rw [hknows, hlater, h.knows]

/-- The code of an expression does not change what is known. -/
theorem expression {condition : Expression} {code : List PlainInstruction} (h : Standing scope outer known a)
    (grown : Grows [scope] a condition.accesses code b) : Standing scope outer known b := by
  refine h.grows grown ?_
  intro name
  refine (or_iff_left ?_).symm
  exact fun hmem => isRead_of_expression condition _ hmem

theorem spares {accesses : List Access} {code : List PlainInstruction} (h : Standing scope outer known a)
    (grown : Grows [scope] a accesses code b) : Spares code scope outer := by
  intro register hmem hwritten
  have hold := h.inUse register hmem
  have hnew := (grown.writesInOrder.lt_of_mem hwritten).1
  omega

section Code

variable {pool : ConstantPool} {accesses : List Access} {code : List PlainInstruction} {knowledge next : Knowledge}
  {heap : ScopeHeap} {origin : Option StatementKind} {script : ScriptOutline} {hlength : script.lines.length < 2 ^ 32}

/-- Code without stray accesses finds its names. -/
theorem passes (h : Standing scope outer knowledge.known a) (grown : Grows [scope] a accesses code b)
    (hpool : b.constants.Extends pool) (hsuits : ∀ access ∈ accesses, access.Suits origin)
    (hreached : knowledge.reached = true) (hnext : knowledge.accesses accesses = some next)
    (hmirrors : heap.Mirrors .atLeast ((scope, knowledge.held) :: outer)) :
    (script.scoped pool hlength).Passes origin code heap ∧
      ScopeHeap.Mirrors .atLeast ((ScopeHeap.machine pool).perform code heap) ((scope, next.held) :: outer) :=
  (enactsAll_of_grows grown h.inScope.wellFormed h.sound hpool).passes hsuits h.knows hreached hnext (h.spares grown)
    hmirrors

/-- Code that finds its names has no stray accesses. -/
theorem accesses_of_passes (h : Standing scope outer knowledge.known a) (grown : Grows [scope] a accesses code b)
    (hpool : b.constants.Extends pool) (hsuits : ∀ access ∈ accesses, access.Suits origin)
    (hreached : knowledge.reached = true) (hmirrors : heap.Mirrors .atMost ((scope, knowledge.held) :: outer))
    (hpasses : (script.scoped pool hlength).Passes origin code heap) :
    ∃ next, knowledge.accesses accesses = some next ∧
      ScopeHeap.Mirrors .atMost ((ScopeHeap.machine pool).perform code heap) ((scope, next.held) :: outer) :=
  (enactsAll_of_grows grown h.inScope.wellFormed h.sound hpool).accesses_of_passes hsuits h.knows hreached
    (h.spares grown) hmirrors hpasses

end Code

theorem tests {clauses : List Clause} {labels : List Label} {tests : List Test} (h : Standing scope outer known a)
    (tested : LowersTests scope a clauses labels tests b) : Standing scope outer known b := by
  induction tested with
  | nil => exact h
  | guarded grown _ _ ih => exact ih ((h.expression grown).congr rfl rfl rfl)
  | otherwise _ ih => exact ih (h.congr rfl rfl rfl)

/-- In a new scope the same names are known. Its register is not that of another open scope. -/
theorem enter {inner : Register} (h : Standing scope outer known a) (entered : enterScope a = .ok (inner, b))
    (held : List String) :
    Standing inner ((scope, held) :: outer) known b ∧ ∀ register ∈ scope :: outer.map Prod.fst, register ≠ inner := by
  have hin := inScope_of_enterScope entered h.inScope.wellFormed
  obtain ⟨-, -, hscopes, -⟩ := frame_enterScope entered h.inScope.current
  have hstack := ScopeChain.stack_enter h.inScope.wellFormed inner
  obtain ⟨c, allocated, rfl⟩ := enterScope_eq_ok_iff.mp entered
  have hregister : inner.index.toNat = a.lastRegister.toNat + 1 := by
    obtain ⟨hindex, hnext⟩ := toNat_allocate allocated
    rw [hindex, hnext]
  have hadvances := advances_of_allocate allocated
  have hlast : (c.opened inner).lastRegister.toNat = a.lastRegister.toNat + 1 := (toNat_allocate allocated).2
  constructor
  · refine ⟨hin, hadvances.sound h.sound, ?_, ?_⟩
    · intro name
      rw [hscopes, ← h.knows]
      unfold ScopeChain.Knows
      rw [hstack]
      simp
    · intro register hmem
      rcases List.mem_cons.mp hmem with rfl | hold
      · omega
      · have hle := h.inUse register hold
        omega
  · intro register hmem heq
    have hle := h.inUse register hmem
    rw [heq] at hle
    omega

/-- The assembler before the first test of a loop, and before its body. -/
theorem loop {inner : Register} {c : Assembler} {condition : Expression} {entry : Test}
    (h : Standing scope outer known a) (entered : enterScope a = .ok (inner, b))
    (entryGrown : Grows [inner] (b.withLabels b.labels.create.2) condition.accesses entry.code c)
    (held : List String) :
    Standing inner ((scope, held) :: outer) known (b.withLabels b.labels.create.2) ∧
      Standing inner ((scope, held) :: outer) known
        (((c.pushed (.jumpIfNot entry.condition b.labels.create.1)).withLabels c.labels.create.2).bound
          c.labels.create.1) := by
  have hentry : Standing inner ((scope, held) :: outer) known (b.withLabels b.labels.create.2) :=
    (h.enter entered held).1.congr rfl rfl rfl
  exact ⟨hentry, (hentry.expression entryGrown).congr rfl rfl rfl⟩

/-- What is known behind a statement. -/
theorem statement {loopEnd : Option Label} {lowered : Statement} {outline : Outline} {knowledge next : Knowledge}
    (h : Standing scope outer knowledge.known a) (hlowers : LowersStatement loopEnd scope a lowered outline b)
    (hnext : knowledge.statement lowered = some next) : Standing scope outer next.known b := by
  obtain ⟨hwf, hrefills, hknows⟩ := scopes_frame_statement hlowers h.inScope.wellFormed
  refine h.advance (advances_statement hlowers) hwf hrefills ?_
  intro name
  rw [hknows, h.knows, (Knowledge.grown_statement hnext).known]

theorem block {loopEnd : Option Label} {statements : List Statement} {outlines : List Outline}
    {knowledge next : Knowledge} (h : Standing scope outer knowledge.known a)
    (hlowers : LowersBlock loopEnd scope a statements outlines b) (hnext : knowledge.block statements = some next) :
    Standing scope outer next.known b := by
  induction statements generalizing a outlines knowledge with
  | nil =>
      cases hlowers
      rw [Knowledge.block] at hnext
      obtain rfl := Option.some.inj hnext
      exact h
  | cons statement statements ih =>
      cases hlowers with
      | cons first rest =>
          rw [Knowledge.block] at hnext
          obtain ⟨middle, hfirst, hrest⟩ := Option.bind_eq_some_iff.mp hnext
          exact ih (h.statement first hfirst) rest hrest

end Standing

end ScriptBytecode
