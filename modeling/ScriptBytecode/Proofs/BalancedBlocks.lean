import ScriptBytecode.Proofs.SoleBindings

/-!
# Blocks leave no names behind

A block enters a scope, defines names, runs through inner blocks and leaves the scope again. What it defines for the first
time is bound in its own scopes and can no longer be seen behind it. What it defines anew is found where it was found
before, with the register of the last definition in the block (`perform_block`).

`BlockEffect` is what balanced operations do as seen from outside. The names of one scope may grow while they are carried
out, the one that was current at their start; a whole block has no such scope left when it ends.
-/

namespace ScriptBytecode

/-! ## Balanced operations -/

namespace ScopeUse

/-- Enters a scope, carries operations out and leaves the scope. -/
def block (register : Register) (body : List ScopeUse) : List ScopeUse :=
  .enter register :: (body ++ [.exit])

/-- Definitions and blocks, one after the other, with definitions and blocks inside the blocks. -/
inductive Balanced : List ScopeUse → Prop
  | nil : Balanced []
  | define {rest : List ScopeUse} (name : String) (register : Register) (after : Balanced rest) :
      Balanced (.define name register :: rest)
  | block {body rest : List ScopeUse} (register : Register) (inner : Balanced body) (after : Balanced rest) :
      Balanced (block register body ++ rest)

/-- The register of an operation that defines a name. -/
def definition? (name : String) : ScopeUse → Option Register
  | .define other register => if other = name then some register else none
  | .enter _ => none
  | .exit => none

/-- The register of the last operation that defines a name. -/
def lastDefinition? (name : String) (uses : List ScopeUse) : Option Register :=
  (uses.filterMap (definition? name)).getLast?

theorem lastDefinition?_append (name : String) (uses uses' : List ScopeUse) :
    lastDefinition? name (uses ++ uses') = (lastDefinition? name uses').or (lastDefinition? name uses) := by
  unfold lastDefinition?
  rw [List.filterMap_append, List.getLast?_append]

/-- Entering and leaving define nothing. -/
theorem lastDefinition?_block (name : String) (register : Register) (body : List ScopeUse) :
    lastDefinition? name (block register body) = lastDefinition? name body := by
  have hfilter : (block register body).filterMap (definition? name) = body.filterMap (definition? name) := by
    rw [block, List.filterMap_cons_none rfl, List.filterMap_append, List.filterMap_cons_none rfl, List.filterMap_nil,
      List.append_nil]
  rw [lastDefinition?, hfilter, lastDefinition?]

end ScopeUse

namespace ScopeChain

open ScopeUse

variable {chain : ScopeChain}

theorem perform_block_eq (chain : ScopeChain) (register : Register) (body : List ScopeUse) :
    chain.perform (block register body) = ((chain.enter register).2.perform body).exit := by
  rw [block, perform_cons, perform_append]
  rfl

theorem wellFormed_perform (hwf : chain.WellFormed) (uses : List ScopeUse) : (chain.perform uses).WellFormed := by
  induction uses generalizing chain with
  | nil => exact hwf
  | cons use uses ih => exact ih (wellFormed_apply hwf use)

/-! ## Look-ups from a scope and from the one around it -/

/-- A scope that is found, as seen from one scope further in. -/
def further (found : ResolvedBinding) : ResolvedBinding :=
  { found with hops := found.hops + 1 }

theorem further_injective : Function.Injective further := by
  intro found other h
  have hhops := congrArg ResolvedBinding.hops h
  have hscope := congrArg ResolvedBinding.scope h
  have hregister := congrArg ResolvedBinding.register h
  obtain ⟨scope, hops, register⟩ := found
  simp only [further] at hhops hscope hregister
  rw [hscope, Nat.succ.inj hhops, hregister]

theorem lookupAlong_succ (name : String) (hops : Nat) (path : List Nat) :
    chain.lookupAlong name (hops + 1) path = (chain.lookupAlong name hops path).map further := by
  induction path generalizing hops with
  | nil => rfl
  | cons id path ih =>
      cases hbinding : chain.binding? id name with
      | none => rw [lookupAlong_cons_of_none hbinding, lookupAlong_cons_of_none hbinding, ih]
      | some register =>
          rw [lookupAlong_cons_of_some hbinding, lookupAlong_cons_of_some hbinding]
          rfl

/-- Behind the scope that is left, names are looked up along the rest of its path. -/
theorem lookup_exit (hwf : chain.WellFormed) {id : Nat} {scope : Scope} (hcurrent : chain.current = some id)
    (hget : chain.get? id = some scope) (name : String) :
    chain.exit.lookup name = chain.lookupAlong name 0 (chain.path scope.parent) := by
  have hexit := exit_eq hcurrent hget
  have hpath : chain.exit.path scope.parent = chain.path scope.parent := by
    apply path_congr hwf
    · intro outer hparent
      exact Nat.lt_trans (hwf.parent_lt hget hparent) (hwf.current_lt hcurrent)
    · rw [hexit]
    · intro other _
      rw [get?_exit]
  have hcurrent' : chain.exit.current = scope.parent := by rw [hexit]
  unfold lookup
  rw [hcurrent', hpath]
  refine lookupAlong_congr fun other _ => ?_
  rw [binding?, get?_exit, binding?]

/-- A name that the current scope does not bind is looked up from the scope around it. -/
theorem lookup_of_binding?_eq_none (hwf : chain.WellFormed) {id : Nat} {name : String}
    (hcurrent : chain.current = some id) (hbinding : chain.binding? id name = none) :
    chain.lookup name = (chain.exit.lookup name).map further := by
  obtain ⟨scope, hget⟩ := exists_get?_of_lt (hwf.current_lt hcurrent)
  rw [lookup_exit hwf hcurrent hget, ← lookupAlong_succ]
  unfold lookup
  rw [hcurrent, path_some hwf hget, lookupAlong_cons_of_none hbinding]

/-- A name that the current scope binds is found there. -/
theorem lookup_of_binding?_eq_some (hwf : chain.WellFormed) {id : Nat} {name : String} {register : Register}
    (hcurrent : chain.current = some id) (hbinding : chain.binding? id name = some register) :
    chain.lookup name = some ⟨id, 0, register⟩ := by
  obtain ⟨scope, hget⟩ := exists_get?_of_lt (hwf.current_lt hcurrent)
  unfold lookup
  rw [hcurrent, path_some hwf hget, lookupAlong_cons_of_some hbinding]

/-- A new scope binds nothing, so names are found where they were found before. -/
theorem lookup_enter (hwf : chain.WellFormed) (register : Register) (name : String) :
    (chain.enter register).2.lookup name = (chain.lookup name).map further := by
  have hwf' := wellFormed_enter hwf register
  have hself := get?_enter_self chain register
  have hcurrent : (chain.enter register).2.current = some chain.scopes.size := rfl
  have hbinding : (chain.enter register).2.binding? chain.scopes.size name = none := by
    rw [binding?, hself]
    rfl
  have hpath : (chain.enter register).2.path chain.current = chain.path chain.current := by
    apply path_congr hwf
    · intro id
      exact hwf.current_lt
    · rw [size_enter]
      exact Nat.le_succ _
    · intro id hlt
      rw [get?_enter_of_lt register hlt]
  rw [lookup_of_binding?_eq_none hwf' hcurrent hbinding, lookup_exit hwf' hcurrent hself, hpath]
  congr 1
  refine lookupAlong_congr fun id hid => ?_
  obtain ⟨scope, hget⟩ := get?_of_mem_pathWithin hid
  rw [binding?, get?_enter_of_lt register (lt_size_of_get? hget), binding?]

/-! ## What balanced operations do -/

/-- Outside the current scope only names are defined that the scope has already. -/
theorem names_define {name : String} {register : Register} {id other : Nat} {defined : ScopeChain} {scope later : Scope}
    (h : chain.define name register = some (id, defined)) (hget : chain.get? other = some scope)
    (hlater : defined.get? other = some later) (hne : chain.current ≠ some other) : later.names = scope.names := by
  rw [get?_define h, hget] at hlater
  by_cases hid : id = other
  · subst hid
    rw [if_pos rfl] at hlater
    obtain rfl := Option.some.inj hlater
    rw [Scope.names_insert]
    apply Set.insert_eq_of_mem
    obtain ⟨⟨current, hcurrent, hid⟩, -⟩ := define_eq_some_iff.mp h
    cases hlookup : chain.lookup name with
    | none =>
        rw [hlookup] at hid
        exact absurd (hid ▸ hcurrent) hne
    | some found =>
        obtain rfl : id = found.scope := by simpa [hlookup] using hid
        obtain ⟨-, holder, hholder, hname⟩ := mem_of_lookupAlong hlookup
        rw [hget] at hholder
        obtain rfl := Option.some.inj hholder
        exact hname
  · rw [if_neg hid] at hlater
    rw [Option.some.inj hlater]

/-- What operations do to a chain if they leave as many scopes as they enter. All scopes stay in their places, and at most
the names of the scope `growing` become more. A name that is found before is found in the same scope afterwards, with the
register of the last definition. -/
structure BlockEffect (growing : Option Nat) (uses : List ScopeUse) (chain after : ScopeChain) : Prop where
  current : after.current = chain.current
  scopes : ∀ {id : Nat} {scope : Scope}, chain.get? id = some scope →
    ∃ later, after.get? id = some later ∧ scope.Keeps later ∧ (growing ≠ some id → later.names = scope.names)
  lookup : ∀ {name : String} {found : ResolvedBinding}, chain.lookup name = some found →
    after.lookup name = some { found with register := (lastDefinition? name uses).getD found.register }

namespace BlockEffect

variable {growing : Option Nat} {uses uses' : List ScopeUse} {middle after : ScopeChain}

theorem refl (growing : Option Nat) (chain : ScopeChain) : BlockEffect growing [] chain chain where
  current := rfl
  scopes := fun hget => ⟨_, hget, ⟨rfl, rfl, rfl⟩, fun _ => rfl⟩
  lookup := fun hfound => hfound

theorem trans (h : BlockEffect growing uses chain middle) (h' : BlockEffect growing uses' middle after) :
    BlockEffect growing (uses ++ uses') chain after where
  current := h'.current.trans h.current
  scopes := by
    intro id scope hget
    obtain ⟨later, hlater, hkeeps, hnames⟩ := h.scopes hget
    obtain ⟨last, hlast, hkeeps', hnames'⟩ := h'.scopes hlater
    refine ⟨last, hlast, ⟨?_, ?_, ?_⟩, fun hid => (hnames' hid).trans (hnames hid)⟩
    · exact hkeeps'.parent.trans hkeeps.parent
    · exact hkeeps'.register.trans hkeeps.register
    · exact hkeeps'.depth.trans hkeeps.depth
  lookup := by
    intro name found hfound
    rw [h'.lookup (h.lookup hfound), lastDefinition?_append]
    cases lastDefinition? name uses' <;> rfl

/-- If no names become more, those of no other scope do. -/
theorem mono (h : BlockEffect none uses chain after) : BlockEffect growing uses chain after where
  current := h.current
  scopes := by
    intro id scope hget
    obtain ⟨later, hlater, hkeeps, hnames⟩ := h.scopes hget
    exact ⟨later, hlater, hkeeps, fun _ => hnames (by simp)⟩
  lookup := h.lookup

/-- A definition adds its name to the current scope, or to no scope. -/
theorem define (hwf : chain.WellFormed) (name : String) (register : Register) :
    BlockEffect chain.current [.define name register] chain ((ScopeUse.define name register).apply chain) := by
  cases hdefine : chain.define name register with
  | none =>
      -- No scope is open, so nothing is found and nothing is changed.
      have hcurrent : chain.current = none := by
        rw [← Option.not_isSome_iff_eq_none, ← define_isSome_iff, hdefine]
        simp
      have happly : (ScopeUse.define name register).apply chain = chain := by
        simp [ScopeUse.apply, hdefine]
      rw [happly]
      refine ⟨rfl, (refl _ chain).scopes, fun hfound => ?_⟩
      simp [ScopeChain.lookup, hcurrent, path_none, lookupAlong] at hfound
  | some result =>
      obtain ⟨id, defined⟩ := result
      rw [apply_define hdefine]
      refine ⟨current_define hdefine, ?_, ?_⟩
      · intro other scope hget
        obtain ⟨later, hlater, hkeeps⟩ := get?_define_eq_some hdefine hget
        exact ⟨later, hlater, hkeeps, fun hne => names_define hdefine hget hlater hne⟩
      · intro other found hfound
        by_cases hname : other = name
        · subst hname
          obtain ⟨⟨current, -, hid⟩, -⟩ := define_eq_some_iff.mp hdefine
          obtain rfl : id = found.scope := by simpa [hfound] using hid
          rw [lookup_define_self hwf hdefine, hfound]
          simp [lastDefinition?, definition?]
        · rw [lookup_define_of_ne hwf hdefine hname, hfound]
          simp [lastDefinition?, definition?, Ne.symm hname]

/-- A block leaves the scope that its operations have added names to. -/
theorem block {register : Register} (hwf : chain.WellFormed) (hwf' : middle.WellFormed)
    (h : BlockEffect (some chain.scopes.size) uses (chain.enter register).2 middle) :
    BlockEffect none (ScopeUse.block register uses) chain middle.exit := by
  have hcurrent : middle.current = some chain.scopes.size := h.current
  obtain ⟨top, htop, hkeeps, -⟩ := h.scopes (get?_enter_self chain register)
  constructor
  · rw [exit_eq hcurrent htop]
    exact hkeeps.parent
  · intro id scope hget
    have hlt := lt_size_of_get? hget
    obtain ⟨later, hlater, hkeeps', hnames⟩ := h.scopes ((get?_enter_of_lt register hlt).trans hget)
    refine ⟨later, by rwa [get?_exit], hkeeps', fun _ => hnames ?_⟩
    intro hsame
    exact Nat.ne_of_gt hlt (Option.some.inj hsame)
  · intro name found hfound
    have hinside := h.lookup (by rw [lookup_enter hwf, hfound]; rfl)
    -- The name is found further out than in the scope of the block, so this scope does not bind it.
    have hbinding : middle.binding? chain.scopes.size name = none := by
      cases hbound : middle.binding? chain.scopes.size name with
      | none => rfl
      | some held =>
          rw [lookup_of_binding?_eq_some hwf' hcurrent hbound] at hinside
          obtain ⟨scope, hget⟩ := get?_of_mem_pathWithin (mem_of_lookupAlong hfound).1
          have hscope := congrArg ResolvedBinding.scope (Option.some.inj hinside)
          exact absurd hscope (Nat.ne_of_gt (lt_size_of_get? hget))
    rw [lookup_of_binding?_eq_none hwf' hcurrent hbinding] at hinside
    rw [lastDefinition?_block]
    exact Option.map_injective further_injective hinside

/-- Names that are not found before are not found afterwards, unless the names of some scope become more. -/
theorem lookup_eq_none (h : BlockEffect none uses chain after) (hwf : chain.WellFormed) {name : String}
    (hnone : chain.lookup name = none) : after.lookup name = none := by
  have hlinks : ∀ id, id < chain.scopes.size → (after.get? id).map (·.parent) = (chain.get? id).map (·.parent) := by
    intro id hlt
    obtain ⟨scope, hget⟩ := exists_get?_of_lt hlt
    obtain ⟨later, hlater, hkeeps, -⟩ := h.scopes hget
    rw [hlater, hget, Option.map_some, Option.map_some, hkeeps.parent]
  have hsize : chain.scopes.size ≤ after.scopes.size := by
    by_contra hlt
    obtain ⟨scope, hget⟩ := exists_get?_of_lt (Nat.lt_of_not_le hlt)
    obtain ⟨later, hlater, -⟩ := h.scopes hget
    exact Nat.lt_irrefl _ (lt_size_of_get? hlater)
  have hstack : after.stack = chain.stack := by
    unfold stack
    rw [h.current]
    apply stackFrom_congr hwf (fun id => hwf.current_lt) hsize hlinks
    intro id hid
    obtain ⟨scope, hget⟩ := get?_of_mem_pathWithin hid
    obtain ⟨later, hlater, hkeeps, hnames⟩ := h.scopes hget
    rw [view, view, hlater, hget, Option.map_some, Option.map_some, hkeeps.register, hnames (by simp)]
  rw [← Option.not_isSome_iff_eq_none, lookup_isSome_iff] at hnone ⊢
  unfold Knows at hnone ⊢
  rwa [hstack]

end BlockEffect

/-- Operations that leave what they enter add names to the scope that is current at their start, and to no other. -/
theorem blockEffect_perform {uses : List ScopeUse} (h : Balanced uses) (hwf : chain.WellFormed) :
    BlockEffect chain.current uses chain (chain.perform uses) := by
  induction h generalizing chain with
  | nil => exact .refl _ _
  | define name register _ ih =>
      have hfirst := BlockEffect.define hwf name register
      have hrest := ih (wellFormed_apply hwf (.define name register))
      rw [hfirst.current] at hrest
      exact hfirst.trans hrest
  | @block body rest register _ _ ihInner ihRest =>
      have hwfEnter := wellFormed_enter hwf register
      have hwfBody := wellFormed_perform hwfEnter body
      have hblock := BlockEffect.block hwf hwfBody (ihInner hwfEnter)
      have hrest := ihRest (wellFormed_exit hwfBody)
      rw [hblock.current] at hrest
      rw [perform_append, perform_block_eq]
      exact hblock.mono.trans hrest

/-- Behind a block the chain is in the scope that it was in before, every scope is in its place and has the names that it
had, and no name is visible that was not. A visible name is found in the same scope, with the register of its last
definition in the block. -/
theorem perform_block (hreach : chain.Reachable) (register : Register) {body : List ScopeUse} (hbody : Balanced body) :
    (chain.perform (block register body)).current = chain.current ∧
      (∀ id scope, chain.get? id = some scope →
        ∃ later, (chain.perform (block register body)).get? id = some later ∧ later.parent = scope.parent ∧
          later.register = scope.register ∧ later.depth = scope.depth ∧ later.names = scope.names) ∧
      (∀ name, chain.lookup name = none → (chain.perform (block register body)).lookup name = none) ∧
      ∀ name found, chain.lookup name = some found →
        (chain.perform (block register body)).lookup name =
          some ⟨found.scope, found.hops, (lastDefinition? name body).getD found.register⟩ := by
  have hwf := hreach.wellFormed
  have hwfEnter := wellFormed_enter hwf register
  have hblock := BlockEffect.block hwf (wellFormed_perform hwfEnter body) (blockEffect_perform hbody hwfEnter)
  rw [perform_block_eq]
  refine ⟨hblock.current, ?_, fun name => hblock.lookup_eq_none hwf, ?_⟩
  · intro id scope hget
    obtain ⟨later, hlater, hkeeps, hnames⟩ := hblock.scopes hget
    exact ⟨later, hlater, hkeeps.parent, hkeeps.register, hkeeps.depth, hnames (by simp)⟩
  · intro name found hfound
    rw [hblock.lookup hfound, lastDefinition?_block]

/-- The outermost scope has a name. -/
def declared : ScopeChain :=
  empty.perform [.enter ⟨1⟩, .define "x" ⟨2⟩]

/-- A name is defined, a known one is defined anew in an inner block, and the first one once more. -/
def redefining : List ScopeUse :=
  .define "y" ⟨4⟩ :: (block ⟨5⟩ [.define "x" ⟨6⟩, .define "z" ⟨7⟩] ++ [.define "y" ⟨8⟩])

theorem balanced_redefining : Balanced redefining :=
  .define _ _ (.block _ (.define _ _ (.define _ _ .nil)) (.define _ _ .nil))

theorem perform_block_redefining :
    declared.Reachable ∧ Balanced redefining ∧
      (declared.perform (block ⟨3⟩ redefining)).lookup "x" = some ⟨0, 0, ⟨6⟩⟩ ∧
      (declared.perform (block ⟨3⟩ redefining)).lookup "y" = none := by
  have hreach : declared.Reachable := Reachable.empty.perform _
  obtain ⟨-, -, hhidden, hvisible⟩ := perform_block hreach ⟨3⟩ balanced_redefining
  refine ⟨hreach, balanced_redefining, ?_, hhidden "y" (by decide)⟩
  rw [hvisible "x" ⟨0, 0, ⟨2⟩⟩ (by decide)]
  decide

end ScopeChain
end ScriptBytecode
