import ScriptBytecode.Proofs.ScopeStack

/-!
# Chains of scopes that can be reached

`ScopeUse` lists the operations on a chain of scopes, and a chain is reachable if operations lead to it from the empty one,
whether they leave more scopes than they entered or come back to where no scope is open. Scopes that were left stay in the
chain and can still be looked up from.

A reachable chain is well-formed, and the depth of a scope says how many scopes are around it (`Measured`). So the walk
outwards from any scope meets scopes of the chain only and ends at one without a parent (`ParentPath`), and a look-up finds
the first scope of this walk that binds the name.
-/

namespace ScriptBytecode

/-- A scope later on, when all that can be different is what its names are bound to. -/
structure Scope.Keeps (scope later : Scope) : Prop where
  parent : later.parent = scope.parent
  register : later.register = scope.register
  depth : later.depth = scope.depth

/-- The operations on a chain of scopes. -/
inductive ScopeUse where
  | enter (register : Register)
  | exit
  | define (name : String) (register : Register)

/-- The chain after an operation. A definition changes nothing if no scope is open. -/
def ScopeUse.apply : ScopeUse → ScopeChain → ScopeChain
  | .enter register, chain => (chain.enter register).2
  | .exit, chain => chain.exit
  | .define name register, chain => ((chain.define name register).map (·.2)).getD chain

namespace ScopeChain

variable {chain : ScopeChain}

/-- The chain after operations, one after the other. -/
def perform (chain : ScopeChain) (uses : List ScopeUse) : ScopeChain :=
  uses.foldl (fun chain use => use.apply chain) chain

theorem perform_nil (chain : ScopeChain) : chain.perform [] = chain := rfl

theorem perform_cons (chain : ScopeChain) (use : ScopeUse) (uses : List ScopeUse) :
    chain.perform (use :: uses) = (use.apply chain).perform uses := rfl

theorem perform_append (chain : ScopeChain) (uses uses' : List ScopeUse) :
    chain.perform (uses ++ uses') = (chain.perform uses).perform uses' :=
  List.foldl_append

/-- A chain that operations lead to from the empty one. -/
inductive Reachable : ScopeChain → Prop
  | empty : Reachable .empty
  | step {chain : ScopeChain} (use : ScopeUse) (before : Reachable chain) : Reachable (use.apply chain)

theorem Reachable.perform (h : chain.Reachable) (uses : List ScopeUse) : (chain.perform uses).Reachable := by
  induction uses generalizing chain with
  | nil => exact h
  | cons use uses ih => exact ih (h.step use)

/-- A definition is carried out if and only if a scope is open. -/
theorem define_isSome_iff {name : String} {register : Register} :
    (chain.define name register).isSome ↔ chain.current.isSome := by
  unfold define
  cases chain.current <;> simp

theorem apply_define {name : String} {register : Register} {id : Nat} {defined : ScopeChain}
    (h : chain.define name register = some (id, defined)) : (ScopeUse.define name register).apply chain = defined := by
  simp [ScopeUse.apply, h]

/-- A property that entering, leaving and defining keep is kept by every operation. -/
theorem apply_cases {P : ScopeChain → Prop} (use : ScopeUse) (h : P chain)
    (henter : ∀ register, P (chain.enter register).2) (hexit : P chain.exit)
    (hdefine : ∀ {name register id defined}, chain.define name register = some (id, defined) → P defined) :
    P (use.apply chain) := by
  cases use with
  | enter register => exact henter register
  | exit => exact hexit
  | define name register =>
      cases hdefined : chain.define name register with
      | none => simpa [ScopeUse.apply, hdefined] using h
      | some result =>
          rw [apply_define hdefined]
          exact hdefine hdefined

theorem wellFormed_apply (hwf : chain.WellFormed) (use : ScopeUse) : (use.apply chain).WellFormed :=
  apply_cases use hwf (wellFormed_enter hwf) (wellFormed_exit hwf) (wellFormed_define hwf)

theorem Reachable.wellFormed (h : chain.Reachable) : chain.WellFormed := by
  induction h with
  | empty => exact wellFormed_empty
  | step use _ ih => exact wellFormed_apply ih use

/-! ## Depths -/

/-- A scope without a parent has depth 0, and any other scope is one deeper than its parent. -/
structure Measured (chain : ScopeChain) : Prop where
  root : ∀ {id : Nat} {scope : Scope}, chain.get? id = some scope → scope.parent = none → scope.depth = 0
  inner : ∀ {id : Nat} {scope : Scope} {outer : Nat}, chain.get? id = some scope → scope.parent = some outer →
    ∃ around, chain.get? outer = some around ∧ scope.depth = around.depth + 1

theorem measured_empty : empty.Measured :=
  ⟨fun h => by simp [get?, empty] at h, fun h => by simp [get?, empty] at h⟩

theorem measured_enter (hwf : chain.WellFormed) (h : chain.Measured) (register : Register) :
    (chain.enter register).2.Measured := by
  -- Scopes of the chain keep their depths; what is new is the scope with the largest number.
  have hcases : ∀ {id : Nat} {scope : Scope}, (chain.enter register).2.get? id = some scope →
      chain.get? id = some scope ∨
        scope = ⟨chain.current, [], register, (chain.currentScope?.map (·.depth + 1)).getD 0⟩ := by
    intro id scope hget
    have hlt := lt_size_of_get? hget
    rw [size_enter] at hlt
    rcases Nat.lt_succ_iff_lt_or_eq.mp hlt with hold | rfl
    · left
      rwa [get?_enter_of_lt register hold] at hget
    · right
      rw [get?_enter_self] at hget
      exact (Option.some.inj hget).symm
  constructor
  · intro id scope hget hparent
    rcases hcases hget with hold | rfl
    · exact h.root hold hparent
    · have hnone : chain.currentScope? = none := by
        unfold currentScope?
        rw [show chain.current = none from hparent]
        rfl
      rw [hnone]
      rfl
  · intro id scope outer hget hparent
    rcases hcases hget with hold | rfl
    · obtain ⟨around, haround, hdepth⟩ := h.inner hold hparent
      refine ⟨around, ?_, hdepth⟩
      rwa [get?_enter_of_lt register (lt_size_of_get? haround)]
    · have hcurrent : chain.current = some outer := hparent
      have hlt := hwf.current_lt hcurrent
      obtain ⟨around, haround⟩ := exists_get?_of_lt hlt
      refine ⟨around, ?_, ?_⟩
      · rwa [get?_enter_of_lt register hlt]
      · simp [currentScope?, hcurrent, haround]

theorem measured_exit (h : chain.Measured) : chain.exit.Measured where
  root := get?_exit chain ▸ h.root
  inner := get?_exit chain ▸ h.inner

/-- A definition leaves every scope in its place. -/
theorem get?_define_eq_some {name : String} {register : Register} {id : Nat} {defined : ScopeChain}
    (h : chain.define name register = some (id, defined)) {other : Nat} {scope : Scope}
    (hget : chain.get? other = some scope) : ∃ later, defined.get? other = some later ∧ scope.Keeps later := by
  rw [get?_define h, hget]
  by_cases hid : id = other
  · rw [if_pos hid]
    exact ⟨_, rfl, rfl, rfl, rfl⟩
  · rw [if_neg hid]
    exact ⟨_, rfl, rfl, rfl, rfl⟩

theorem measured_define {name : String} {register : Register} {id : Nat} {defined : ScopeChain} (h : chain.Measured)
    (hdefine : chain.define name register = some (id, defined)) : defined.Measured := by
  -- Every scope after the definition was one before it.
  have hformer : ∀ {other : Nat} {scope : Scope}, defined.get? other = some scope →
      ∃ former, chain.get? other = some former ∧ former.Keeps scope := by
    intro other scope hget
    have hlt := lt_size_of_get? hget
    rw [size_define hdefine] at hlt
    obtain ⟨former, hformer⟩ := exists_get?_of_lt hlt
    obtain ⟨later, hlater, hkeeps⟩ := get?_define_eq_some hdefine hformer
    rw [hget] at hlater
    obtain rfl := Option.some.inj hlater
    exact ⟨former, hformer, hkeeps⟩
  constructor
  · intro other scope hget hparent
    obtain ⟨former, hget', hkeeps⟩ := hformer hget
    rw [hkeeps.depth]
    exact h.root hget' (hkeeps.parent.symm.trans hparent)
  · intro other scope outer hget hparent
    obtain ⟨former, hget', hkeeps⟩ := hformer hget
    obtain ⟨around, haround, hdeeper⟩ := h.inner hget' (hkeeps.parent.symm.trans hparent)
    obtain ⟨later, hlater, hkeeps'⟩ := get?_define_eq_some hdefine haround
    exact ⟨later, hlater, by rw [hkeeps.depth, hdeeper, hkeeps'.depth]⟩

theorem Reachable.measured (h : chain.Reachable) : chain.Measured := by
  induction h with
  | empty => exact measured_empty
  | step use before ih =>
      exact apply_cases use ih (measured_enter before.wellFormed ih) (measured_exit ih) (measured_define ih)

/-! ## The walk outwards -/

/-- The walk from a scope along the parents, over scopes of the chain only, to a scope that has none. -/
inductive ParentPath (chain : ScopeChain) : Nat → List Nat → Prop
  | root {id : Nat} {scope : Scope} (get : chain.get? id = some scope) (last : scope.parent = none) :
      ParentPath chain id [id]
  | inner {id outer : Nat} {scope : Scope} {path : List Nat} (get : chain.get? id = some scope)
      (parent : scope.parent = some outer) (rest : ParentPath chain outer path) : ParentPath chain id (id :: path)

/-- The walk can be made from every scope, and it is the path that look-ups take. -/
theorem parentPath_path (hwf : chain.WellFormed) {start : Nat} (h : start < chain.scopes.size) :
    chain.ParentPath start (chain.path (some start)) := by
  induction start using Nat.strong_induction_on with
  | _ start ih =>
      obtain ⟨scope, hget⟩ := exists_get?_of_lt h
      rw [path_some hwf hget]
      cases hparent : scope.parent with
      | none =>
          rw [path_none]
          exact .root hget hparent
      | some outer =>
          have hlt := hwf.parent_lt hget hparent
          exact .inner hget hparent (ih outer hlt (Nat.lt_trans hlt h))

namespace ParentPath

variable {start : Nat} {path other : List Nat}

theorem unique (h : chain.ParentPath start path) (h' : chain.ParentPath start other) : path = other := by
  induction h generalizing other with
  | root get last =>
      cases h' with
      | root => rfl
      | inner get' parent =>
          rw [get] at get'
          obtain rfl := Option.some.inj get'
          rw [last] at parent
          cases parent
  | inner get parent _ ih =>
      cases h' with
      | root get' last =>
          rw [get] at get'
          obtain rfl := Option.some.inj get'
          rw [parent] at last
          cases last
      | inner get' parent' rest =>
          rw [get] at get'
          obtain rfl := Option.some.inj get'
          rw [parent] at parent'
          obtain rfl := Option.some.inj parent'
          rw [ih rest]

/-- What is left of a walk at a scope that it meets is the walk from there. -/
theorem suffix (h : chain.ParentPath start path) {before after : List Nat} {id : Nat}
    (hpath : path = before ++ id :: after) : chain.ParentPath id (id :: after) := by
  induction h generalizing before with
  | root get last =>
      obtain ⟨rfl, hrest⟩ | ⟨rest, rfl, hrest⟩ := List.cons_eq_append_iff.mp hpath
      · obtain ⟨rfl, rfl⟩ := List.cons.inj hrest
        exact .root get last
      · simp at hrest
  | inner get parent rest ih =>
      obtain ⟨rfl, hrest⟩ | ⟨before, rfl, hrest⟩ := List.cons_eq_append_iff.mp hpath
      · obtain ⟨rfl, rfl⟩ := List.cons.inj hrest
        exact .inner get parent rest
      · exact ih hrest

/-- A scope is as deep as the walk from it is long. -/
theorem length_eq (h : chain.ParentPath start path) (hmeasured : chain.Measured) {scope : Scope}
    (hget : chain.get? start = some scope) : path.length = scope.depth + 1 := by
  induction h generalizing scope with
  | root get last =>
      rw [get] at hget
      obtain rfl := Option.some.inj hget
      rw [hmeasured.root get last]
      rfl
  | inner get parent _ ih =>
      rw [get] at hget
      obtain rfl := Option.some.inj hget
      obtain ⟨around, haround, hdepth⟩ := hmeasured.inner get parent
      rw [List.length_cons, ih haround, hdepth]

end ParentPath

/-! ## Look-ups -/

/-- The register that a scope binds a name to. -/
def binding? (chain : ScopeChain) (id : Nat) (name : String) : Option Register :=
  (chain.get? id).bind (·.find? name)

section Along

variable {name : String} {hops : Nat}

theorem lookupAlong_cons_of_none {id : Nat} (h : chain.binding? id name = none) (path : List Nat) :
    chain.lookupAlong name hops (id :: path) = chain.lookupAlong name (hops + 1) path := by
  unfold lookupAlong
  rw [show (chain.get? id).bind (·.find? name) = none from h]
  cases path <;> rfl

theorem lookupAlong_cons_of_some {id : Nat} {register : Register} (h : chain.binding? id name = some register)
    (path : List Nat) : chain.lookupAlong name hops (id :: path) = some ⟨id, hops, register⟩ := by
  unfold lookupAlong
  rw [show (chain.get? id).bind (·.find? name) = some register from h]

theorem lookupAlong_eq_none_iff {path : List Nat} :
    chain.lookupAlong name hops path = none ↔ ∀ id ∈ path, chain.binding? id name = none := by
  induction path generalizing hops with
  | nil => simp [lookupAlong]
  | cons id path ih =>
      cases hbinding : chain.binding? id name with
      | none => rw [lookupAlong_cons_of_none hbinding, ih, List.forall_mem_cons, and_iff_right hbinding]
      | some register => simp [lookupAlong_cons_of_some hbinding, hbinding]

/-- A look-up finds the first scope of the path that binds the name, and counts the scopes before it. -/
theorem lookupAlong_eq_some_iff {path : List Nat} {found : ResolvedBinding} :
    chain.lookupAlong name hops path = some found ↔
      ∃ before after, path = before ++ found.scope :: after ∧ (∀ id ∈ before, chain.binding? id name = none) ∧
        chain.binding? found.scope name = some found.register ∧ found.hops = hops + before.length := by
  induction path generalizing hops with
  | nil => simp [lookupAlong]
  | cons id path ih =>
      cases hbinding : chain.binding? id name with
      | none =>
          rw [lookupAlong_cons_of_none hbinding, ih]
          constructor
          · rintro ⟨before, after, rfl, hbefore, hfound, hhops⟩
            refine ⟨id :: before, after, rfl, List.forall_mem_cons.mpr ⟨hbinding, hbefore⟩, hfound, ?_⟩
            rw [hhops, List.length_cons]
            omega
          · rintro ⟨before, after, hpath, hbefore, hfound, hhops⟩
            obtain ⟨rfl, hrest⟩ | ⟨before, rfl, rfl⟩ := List.cons_eq_append_iff.mp hpath
            · -- The first scope does not bind the name, so it is not the one that is found.
              obtain ⟨rfl, -⟩ := List.cons.inj hrest
              rw [hbinding] at hfound
              cases hfound
            · refine ⟨before, after, rfl, (List.forall_mem_cons.mp hbefore).2, hfound, ?_⟩
              rw [hhops, List.length_cons]
              omega
      | some register =>
          rw [lookupAlong_cons_of_some hbinding, Option.some.injEq]
          constructor
          · rintro rfl
            exact ⟨[], path, rfl, by simp, hbinding, rfl⟩
          · rintro ⟨before, after, hpath, hbefore, hfound, hhops⟩
            obtain ⟨rfl, hrest⟩ | ⟨before, rfl, -⟩ := List.cons_eq_append_iff.mp hpath
            · obtain ⟨rfl, -⟩ := List.cons.inj hrest
              rw [hbinding] at hfound
              obtain rfl := Option.some.inj hfound
              exact congrArg (ResolvedBinding.mk _ · _) hhops.symm
            · rw [(List.forall_mem_cons.mp hbefore).1] at hbinding
              cases hbinding

end Along

/-- The scopes of a reachable chain are ordered by their numbers and measured by their depths. From each of them the walk
outwards ends, and a look-up gives the nearest scope on it that binds the name, with as many hops as this scope is less
deep. -/
theorem lookupFrom_finds_nearest (hreach : chain.Reachable) :
    (∀ id scope, chain.get? id = some scope →
      (scope.parent = none → scope.depth = 0) ∧
        ∀ outer, scope.parent = some outer →
          outer < id ∧ ∃ around, chain.get? outer = some around ∧ scope.depth = around.depth + 1) ∧
      (∀ id, chain.current = some id → id < chain.scopes.size) ∧
      ∀ start, start < chain.scopes.size → ∀ name, ∃ path, chain.ParentPath start path ∧
        (chain.lookupFrom start name = none ↔ ∀ id ∈ path, chain.binding? id name = none) ∧
        ∀ found, chain.lookupFrom start name = some found ↔
          ∃ before after scope outer, path = before ++ found.scope :: after ∧
            (∀ id ∈ before, chain.binding? id name = none) ∧
            chain.binding? found.scope name = some found.register ∧
            chain.get? start = some scope ∧ chain.get? found.scope = some outer ∧
            outer.depth ≤ scope.depth ∧ found.hops = scope.depth - outer.depth := by
  have hwf := hreach.wellFormed
  have hmeasured := hreach.measured
  refine ⟨fun id scope hget => ⟨hmeasured.root hget, fun outer hparent =>
    ⟨hwf.parent_lt hget hparent, hmeasured.inner hget hparent⟩⟩, fun id => hwf.current_lt, ?_⟩
  intro start hstart name
  have hpath := parentPath_path hwf hstart
  refine ⟨_, hpath, lookupAlong_eq_none_iff, fun found => ?_⟩
  obtain ⟨scope, hget⟩ := exists_get?_of_lt hstart
  -- The walk from the scope that is found is the rest of the walk from the start, so the depths say where it begins.
  have hdepths : ∀ {before after : List Nat} {outer : Scope}, chain.path (some start) = before ++ found.scope :: after →
      chain.get? found.scope = some outer → scope.depth = before.length + outer.depth := by
    intro before after outer hsplit hfound
    have hlong := hpath.length_eq hmeasured hget
    have hshort := (hpath.suffix hsplit).length_eq hmeasured hfound
    rw [hsplit, List.length_append] at hlong
    omega
  unfold lookupFrom
  rw [lookupAlong_eq_some_iff]
  constructor
  · rintro ⟨before, after, hsplit, hbefore, hbinding, hhops⟩
    obtain ⟨outer, hfound, -⟩ := Option.bind_eq_some_iff.mp hbinding
    have hdepth := hdepths hsplit hfound
    exact ⟨before, after, scope, outer, hsplit, hbefore, hbinding, hget, hfound, by omega, by omega⟩
  · rintro ⟨before, after, scope', outer, hsplit, hbefore, hbinding, hget', hfound, -, hhops⟩
    rw [hget] at hget'
    obtain rfl := Option.some.inj hget'
    have hdepth := hdepths hsplit hfound
    exact ⟨before, after, hsplit, hbefore, hbinding, by omega⟩

/-- Two scopes are left, the chain is left once more, and two scopes are entered anew. -/
def reentered : ScopeChain :=
  empty.perform [.enter ⟨1⟩, .define "x" ⟨2⟩, .enter ⟨3⟩, .define "y" ⟨4⟩, .exit, .exit, .exit, .enter ⟨5⟩, .enter ⟨6⟩,
    .define "x" ⟨7⟩]

/-- From a scope that was left, a name of the scope around it is found. -/
theorem lookupFrom_finds_nearest_reentered :
    reentered.Reachable ∧ reentered.lookupFrom 1 "x" = some ⟨0, 1, ⟨2⟩⟩ ∧
      ∃ path, reentered.ParentPath 1 path ∧ 0 ∈ path ∧ reentered.binding? 0 "x" = some ⟨2⟩ := by
  have hreach : reentered.Reachable := Reachable.empty.perform _
  have hlookup : reentered.lookupFrom 1 "x" = some ⟨0, 1, ⟨2⟩⟩ := by decide
  obtain ⟨path, hpath, -, hfound⟩ := (lookupFrom_finds_nearest hreach).2.2 1 (by decide) "x"
  obtain ⟨before, after, scope, outer, rfl, -, hbinding, -⟩ := (hfound ⟨0, 1, ⟨2⟩⟩).mp hlookup
  exact ⟨hreach, hlookup, _, hpath, List.mem_append_right before List.mem_cons_self, hbinding⟩

end ScopeChain
end ScriptBytecode
