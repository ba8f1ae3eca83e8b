import Mathlib.Data.List.Basic
import Mathlib.Data.Set.Insert
import ScriptBytecode.Assembler.Scope

/-!
# Open scopes as a stack of name sets

`ScopeChain.stack` is what can be seen of a scope chain from the current scope: for every scope from the current one
outwards, the register of its scope object and the set of the names that it binds. Entering a scope pushes an empty
set, leaving it pops one, and defining a name adds the name to the set on top unless some set has it already. Scopes
that were left, and the registers that names are bound to, do not show.

The numbers of the scopes fall along every path outwards (`ScopeChain.WellFormed`); this is why a path never needs
more steps than there are scopes.
-/

namespace ScriptBytecode

theorem lookup_insertBinding (name other : String) (register : Register) (bindings : List (String × Register)) :
    (insertBinding name register bindings).lookup other =
      if other = name then some register else bindings.lookup other := by
  induction bindings with
  | nil =>
      by_cases h : other = name
      · simp [insertBinding, h]
      · simp [insertBinding, List.lookup_cons, h, beq_eq_false_iff_ne.mpr h]
  | cons binding bindings ih =>
      obtain ⟨key, held⟩ := binding
      unfold insertBinding
      -- The bindings are in the order of their names: the new one comes before `key`, in its place or further on.
      by_cases h : other = name
      · subst h
        split
        · simp
        · split
          · simp
          · rename_i hkey
            simp [List.lookup_cons, beq_eq_false_iff_ne.mpr hkey, ih]
      · have hne : (other == name) = false := beq_eq_false_iff_ne.mpr h
        split
        · simp [List.lookup_cons, hne]
        · split
          · rename_i hkey
            subst hkey
            simp [List.lookup_cons, hne]
          · simp [List.lookup_cons, ih, h]

namespace Scope

/-- The names that a scope binds. -/
def names (scope : Scope) : Set String :=
  {name | (scope.find? name).isSome}

theorem names_insert (scope : Scope) (name : String) (register : Register) :
    (scope.insert name register).names = Insert.insert name scope.names := by
  ext other
  by_cases h : other = name
  · simp [names, Scope.insert, find?, lookup_insertBinding, h]
  · simp [names, Scope.insert, find?, lookup_insertBinding, h]

end Scope

namespace ScopeChain

/-- The numbers of scopes fall towards the outermost one, and the current scope is one of the scopes. -/
structure WellFormed (chain : ScopeChain) : Prop where
  parent_lt : ∀ {id : Nat} {scope : Scope} {outer : Nat},
    chain.get? id = some scope → scope.parent = some outer → outer < id
  current_lt : ∀ {id : Nat}, chain.current = some id → id < chain.scopes.size

theorem wellFormed_empty : empty.WellFormed :=
  ⟨fun h => by simp [get?, empty] at h, fun h => by simp [empty] at h⟩

/-- What shows of a scope: the register of its object and its names. -/
def view (chain : ScopeChain) (id : Nat) : Option (Register × Set String) :=
  (chain.get? id).map fun scope => (scope.register, scope.names)

/-- What shows of the scopes from a given one outwards. -/
def stackFrom (chain : ScopeChain) (start : Option Nat) : List (Register × Set String) :=
  (chain.path start).filterMap chain.view

/-- What shows of the open scopes, from the current one outwards. -/
def stack (chain : ScopeChain) : List (Register × Set String) :=
  chain.stackFrom chain.current

variable {chain : ScopeChain}

/-! ## Paths -/

theorem pathWithin_none (bound : Nat) : chain.pathWithin bound none = [] := by
  cases bound <;> rfl

theorem pathWithin_some {bound id : Nat} {scope : Scope} (hget : chain.get? id = some scope) :
    chain.pathWithin (bound + 1) (some id) = id :: chain.pathWithin bound scope.parent := by
  simp [pathWithin, hget]

/-- A path does not depend on the bound, as long as the bound is above the number that the path starts at. -/
theorem pathWithin_eq (hwf : chain.WellFormed) {bound other : Nat} {start : Option Nat}
    (hbound : ∀ id, start = some id → id < bound) (hother : ∀ id, start = some id → id < other) :
    chain.pathWithin bound start = chain.pathWithin other start := by
  induction bound generalizing other start with
  | zero =>
      cases start with
      | none => rw [pathWithin_none, pathWithin_none]
      | some id => exact absurd (hbound id rfl) (Nat.not_lt_zero id)
  | succ bound ih =>
      cases start with
      | none => rw [pathWithin_none, pathWithin_none]
      | some id =>
          have hlt := hbound id rfl
          have hltOther := hother id rfl
          obtain ⟨other, rfl⟩ : ∃ n, other = n + 1 := ⟨other - 1, by omega⟩
          cases hget : chain.get? id with
          | none => simp [pathWithin, hget]
          | some scope =>
              rw [pathWithin_some hget, pathWithin_some hget]
              congr 1
              -- The next scope has a smaller number, so what is left of either bound is still above it.
              apply ih
              · intro outer houter
                have := hwf.parent_lt hget houter
                omega
              · intro outer houter
                have := hwf.parent_lt hget houter
                omega

theorem lt_size_of_get? {id : Nat} {scope : Scope} (h : chain.get? id = some scope) : id < chain.scopes.size :=
  (Array.getElem?_eq_some_iff.mp h).1

/-- Numbers below the size are those of the scopes of the chain. -/
theorem exists_get?_of_lt {id : Nat} (h : id < chain.scopes.size) : ∃ scope, chain.get? id = some scope :=
  ⟨chain.scopes[id], Array.getElem?_eq_getElem h⟩

theorem path_none : chain.path none = [] :=
  pathWithin_none _

theorem path_some (hwf : chain.WellFormed) {id : Nat} {scope : Scope} (hget : chain.get? id = some scope) :
    chain.path (some id) = id :: chain.path scope.parent := by
  have hlt := lt_size_of_get? hget
  unfold path
  obtain ⟨bound, hbound⟩ : ∃ n, chain.scopes.size = n + 1 := ⟨chain.scopes.size - 1, by omega⟩
  rw [hbound, pathWithin_some hget]
  congr 1
  apply pathWithin_eq hwf
  · intro outer houter
    have := hwf.parent_lt hget houter
    omega
  · intro outer houter
    have := hwf.parent_lt hget houter
    omega

theorem le_of_mem_pathWithin (hwf : chain.WellFormed) {bound start id : Nat}
    (h : id ∈ chain.pathWithin bound (some start)) : id ≤ start := by
  induction bound generalizing start with
  | zero => simp [pathWithin] at h
  | succ bound ih =>
      cases hget : chain.get? start with
      | none => simp [pathWithin, hget] at h
      | some scope =>
          rw [pathWithin_some hget] at h
          rcases List.mem_cons.mp h with rfl | hrest
          · exact Nat.le_refl _
          · cases hparent : scope.parent with
            | none => simp [hparent, pathWithin_none] at hrest
            | some outer =>
                rw [hparent] at hrest
                exact Nat.le_of_lt (Nat.lt_of_le_of_lt (ih hrest) (hwf.parent_lt hget hparent))

/-- The scopes around a scope have smaller numbers. -/
theorem lt_of_mem_path_parent (hwf : chain.WellFormed) {id other : Nat} {scope : Scope}
    (hget : chain.get? id = some scope) (h : other ∈ chain.path scope.parent) : other < id := by
  cases hparent : scope.parent with
  | none => simp [hparent, path_none] at h
  | some outer =>
      rw [hparent] at h
      exact Nat.lt_of_le_of_lt (le_of_mem_pathWithin hwf h) (hwf.parent_lt hget hparent)

/-- Paths look at the links between scopes only. -/
theorem pathWithin_congr {other : ScopeChain} (hwf : chain.WellFormed) {bound : Nat} {start : Option Nat}
    (hlinks : ∀ id, id < chain.scopes.size → (other.get? id).map (·.parent) = (chain.get? id).map (·.parent))
    (hstart : ∀ id, start = some id → id < chain.scopes.size) :
    other.pathWithin bound start = chain.pathWithin bound start := by
  induction bound generalizing start with
  | zero => rfl
  | succ bound ih =>
      cases start with
      | none => rw [pathWithin_none, pathWithin_none]
      | some id =>
          have hlt := hstart id rfl
          obtain ⟨scope, hget⟩ := exists_get?_of_lt hlt
          have hlink := hlinks id hlt
          rw [hget] at hlink
          obtain ⟨renewed, hrenewed, hparent⟩ := Option.map_eq_some_iff.mp hlink
          rw [pathWithin_some hget, pathWithin_some hrenewed, hparent]
          congr 1
          apply ih
          intro outer houter
          exact Nat.lt_trans (hwf.parent_lt hget houter) hlt

theorem get?_of_mem_pathWithin {bound id : Nat} {start : Option Nat}
    (h : id ∈ chain.pathWithin bound start) : ∃ scope, chain.get? id = some scope := by
  induction bound generalizing start with
  | zero => simp [pathWithin] at h
  | succ bound ih =>
      cases start with
      | none => simp [pathWithin] at h
      | some first =>
          cases hget : chain.get? first with
          | none => simp [pathWithin, hget] at h
          | some scope =>
              rw [pathWithin_some hget] at h
              rcases List.mem_cons.mp h with rfl | hrest
              · exact ⟨scope, hget⟩
              · exact ih hrest

/-- A path stays the same when the links stay the same, also if there are more scopes. -/
theorem path_congr {other : ScopeChain} (hwf : chain.WellFormed) {start : Option Nat}
    (hstart : ∀ id, start = some id → id < chain.scopes.size) (hsize : chain.scopes.size ≤ other.scopes.size)
    (hlinks : ∀ id, id < chain.scopes.size → (other.get? id).map (·.parent) = (chain.get? id).map (·.parent)) :
    other.path start = chain.path start := by
  unfold path
  rw [pathWithin_congr hwf hlinks hstart]
  apply pathWithin_eq hwf
  · intro id hid
    exact Nat.lt_of_lt_of_le (hstart id hid) hsize
  · exact hstart

/-- Two chains with the same links between their scopes show the same from a scope outwards if they show the same of
every scope on the way. -/
theorem stackFrom_congr {other : ScopeChain} (hwf : chain.WellFormed) {start : Option Nat}
    (hstart : ∀ id, start = some id → id < chain.scopes.size) (hsize : chain.scopes.size ≤ other.scopes.size)
    (hlinks : ∀ id, id < chain.scopes.size → (other.get? id).map (·.parent) = (chain.get? id).map (·.parent))
    (hview : ∀ id ∈ chain.path start, other.view id = chain.view id) :
    other.stackFrom start = chain.stackFrom start := by
  unfold stackFrom
  rw [path_congr hwf hstart hsize hlinks]
  exact List.filterMap_congr hview

/-! ## The stack and the steps of the chain -/

theorem stackFrom_none : chain.stackFrom none = [] := by
  simp [stackFrom, path_none]

theorem stackFrom_some (hwf : chain.WellFormed) {id : Nat} {scope : Scope} (hget : chain.get? id = some scope) :
    chain.stackFrom (some id) = (scope.register, scope.names) :: chain.stackFrom scope.parent := by
  unfold stackFrom
  rw [path_some hwf hget, List.filterMap_cons]
  simp [view, hget]

/-- A chain that is in a scope shows the scope on top of what is around it. -/
theorem stack_of_current (hwf : chain.WellFormed) {id : Nat} (hcurrent : chain.current = some id) :
    ∃ scope, chain.get? id = some scope ∧
      chain.stack = (scope.register, scope.names) :: chain.stackFrom scope.parent := by
  obtain ⟨scope, hget⟩ := exists_get?_of_lt (hwf.current_lt hcurrent)
  refine ⟨scope, hget, ?_⟩
  unfold stack
  rw [hcurrent]
  exact stackFrom_some hwf hget

theorem currentRegister?_eq (hwf : chain.WellFormed) : chain.currentRegister? = chain.stack.head?.map (·.1) := by
  cases hcurrent : chain.current with
  | none => simp [currentRegister?, currentScope?, stack, hcurrent, stackFrom_none]
  | some id =>
      obtain ⟨scope, hget, hstack⟩ := stack_of_current hwf hcurrent
      rw [hstack]
      simp [currentRegister?, currentScope?, hcurrent, hget]

theorem get?_enter_of_lt (register : Register) {id : Nat} (h : id < chain.scopes.size) :
    (chain.enter register).2.get? id = chain.get? id := by
  simp [enter, get?, Array.getElem?_push, Nat.ne_of_lt h]

/-- The new scope is inside the current one. It has no names yet. -/
theorem get?_enter_self (chain : ScopeChain) (register : Register) :
    (chain.enter register).2.get? chain.scopes.size =
      some ⟨chain.current, [], register, (chain.currentScope?.map (·.depth + 1)).getD 0⟩ := by
  cases hscope : chain.currentScope? <;> simp [enter, get?, hscope]

theorem size_enter (chain : ScopeChain) (register : Register) :
    (chain.enter register).2.scopes.size = chain.scopes.size + 1 := by
  simp [enter]

theorem wellFormed_enter (hwf : chain.WellFormed) (register : Register) :
    (chain.enter register).2.WellFormed := by
  constructor
  · intro id scope outer hget hparent
    have hlt := lt_size_of_get? hget
    rw [size_enter] at hlt
    by_cases hold : id < chain.scopes.size
    · rw [get?_enter_of_lt register hold] at hget
      exact hwf.parent_lt hget hparent
    · -- The new scope has the largest number, and the scope around it is the one that was current.
      obtain rfl : id = chain.scopes.size := by omega
      rw [get?_enter_self] at hget
      obtain rfl := Option.some.inj hget
      exact hwf.current_lt hparent
  · intro id hcurrent
    rw [size_enter]
    obtain rfl : chain.scopes.size = id := by simpa [enter] using hcurrent
    exact Nat.lt_succ_self _

/-- Entering a scope pushes its register with no names. -/
theorem stack_enter (hwf : chain.WellFormed) (register : Register) :
    (chain.enter register).2.stack = (register, ∅) :: chain.stack := by
  have htop := stackFrom_some (wellFormed_enter hwf register) (get?_enter_self chain register)
  have hnames (depth : Nat) : Scope.names ⟨chain.current, [], register, depth⟩ = ∅ := by
    ext name
    simp [Scope.names, Scope.find?]
  have hrest : (chain.enter register).2.stackFrom chain.current = chain.stack := by
    apply stackFrom_congr hwf
    · intro id hcurrent
      exact hwf.current_lt hcurrent
    · rw [size_enter]
      exact Nat.le_succ _
    · intro id hlt
      rw [get?_enter_of_lt register hlt]
    · intro id hmem
      obtain ⟨scope, hget⟩ := get?_of_mem_pathWithin hmem
      unfold view
      rw [get?_enter_of_lt register (lt_size_of_get? hget)]
  rw [hnames, hrest] at htop
  exact htop

theorem wellFormed_exit (hwf : chain.WellFormed) : chain.exit.WellFormed := by
  cases hscope : chain.currentScope? with
  | none => simpa [exit, hscope] using hwf
  | some scope =>
      simp only [exit, hscope]
      refine ⟨hwf.parent_lt, ?_⟩
      intro outer hparent
      obtain ⟨id, hcurrent, hget⟩ := Option.bind_eq_some_iff.mp hscope
      exact Nat.lt_trans (hwf.parent_lt hget hparent) (hwf.current_lt hcurrent)

theorem exit_eq {id : Nat} {scope : Scope} (hcurrent : chain.current = some id) (hget : chain.get? id = some scope) :
    chain.exit = { chain with current := scope.parent } := by
  simp [exit, currentScope?, hcurrent, hget]

theorem get?_exit (chain : ScopeChain) : chain.exit.get? = chain.get? := by
  unfold exit
  split <;> rfl

/-- Leaving a scope pops it. -/
theorem stack_exit (hwf : chain.WellFormed) : chain.exit.stack = chain.stack.tail := by
  cases hcurrent : chain.current with
  | none => simp [exit, currentScope?, hcurrent, stack, stackFrom_none]
  | some id =>
      obtain ⟨scope, hget, hstack⟩ := stack_of_current hwf hcurrent
      rw [hstack, List.tail_cons, exit_eq hcurrent hget]
      apply stackFrom_congr hwf
      · intro outer hparent
        exact Nat.lt_trans (hwf.parent_lt hget hparent) (hwf.current_lt hcurrent)
      · exact Nat.le_refl _
      · intro other _
        rfl
      · intro other _
        rfl

/-! ## Looking up and defining names -/

theorem lookupAlong_isSome_iff (name : String) (hops : Nat) (path : List Nat) :
    (chain.lookupAlong name hops path).isSome ↔ ∃ shown ∈ path.filterMap chain.view, name ∈ shown.2 := by
  induction path generalizing hops with
  | nil => simp [lookupAlong]
  | cons id path ih =>
      unfold lookupAlong
      cases hget : chain.get? id with
      | none => simp [view, hget, ih]
      | some scope =>
          cases hfind : scope.find? name with
          | none => simp [view, hget, ih, hfind, Scope.names]
          | some register => simp [view, hget, hfind, Scope.names]

/-- Some open scope has a name. -/
def Knows (chain : ScopeChain) (name : String) : Prop :=
  ∃ shown ∈ chain.stack, name ∈ shown.2

/-- A name is found if some open scope has it. -/
theorem lookup_isSome_iff (chain : ScopeChain) (name : String) :
    (chain.lookup name).isSome ↔ chain.Knows name :=
  lookupAlong_isSome_iff name 0 (chain.path chain.current)

theorem mem_of_lookupAlong {name : String} {hops : Nat} {path : List Nat} {found : ResolvedBinding}
    (h : chain.lookupAlong name hops path = some found) :
    found.scope ∈ path ∧ ∃ scope, chain.get? found.scope = some scope ∧ name ∈ scope.names := by
  induction path generalizing hops with
  | nil => simp [lookupAlong] at h
  | cons id path ih =>
      unfold lookupAlong at h
      cases hfind : (chain.get? id).bind (·.find? name) with
      | none =>
          rw [hfind] at h
          obtain ⟨hmem, hscope⟩ := ih h
          exact ⟨List.mem_cons_of_mem _ hmem, hscope⟩
      | some register =>
          rw [hfind] at h
          obtain rfl := Option.some.inj h
          obtain ⟨scope, hget, hregister⟩ := Option.bind_eq_some_iff.mp hfind
          exact ⟨List.mem_cons_self, scope, hget, by simp [Scope.names, hregister]⟩

/-- The scope that a definition writes to: the one that has the name, or else the current one. -/
theorem define_eq_some_iff {name : String} {register : Register} {id : Nat} {defined : ScopeChain} :
    chain.define name register = some (id, defined) ↔
      (∃ current, chain.current = some current ∧ id = ((chain.lookup name).map (·.scope)).getD current) ∧
        defined = { chain with scopes := chain.scopes.modify id fun scope => scope.insert name register } := by
  unfold define
  cases chain.current with
  | none => simp
  | some current =>
      cases chain.lookup name with
      | none =>
          simp only [Option.some.injEq, Prod.mk.injEq, Option.map_none, Option.getD_none, exists_eq_left']
          constructor
          · rintro ⟨rfl, rfl⟩
            exact ⟨rfl, rfl⟩
          · rintro ⟨rfl, rfl⟩
            exact ⟨rfl, rfl⟩
      | some found =>
          simp only [Option.some.injEq, Prod.mk.injEq, Option.map_some, Option.getD_some, exists_eq_left']
          constructor
          · rintro ⟨rfl, rfl⟩
            exact ⟨rfl, rfl⟩
          · rintro ⟨rfl, rfl⟩
            exact ⟨rfl, rfl⟩

section Define

variable {name : String} {register : Register} {id : Nat} {defined : ScopeChain}

theorem get?_define (h : chain.define name register = some (id, defined)) (other : Nat) :
    defined.get? other =
      if id = other then (chain.get? other).map (·.insert name register) else chain.get? other := by
  obtain ⟨-, rfl⟩ := define_eq_some_iff.mp h
  simp [get?, Array.getElem?_modify]

theorem links_define (h : chain.define name register = some (id, defined)) (other : Nat) :
    (defined.get? other).map (·.parent) = (chain.get? other).map (·.parent) := by
  rw [get?_define h]
  by_cases hid : id = other
  · rw [if_pos hid, Option.map_map]
    rfl
  · rw [if_neg hid]

theorem view_define (h : chain.define name register = some (id, defined)) (other : Nat) :
    defined.view other =
      if id = other then (chain.view other).map fun shown => (shown.1, insert name shown.2)
      else chain.view other := by
  unfold view
  rw [get?_define h]
  by_cases hid : id = other
  · simp only [if_pos hid, Option.map_map]
    congr 1
    funext scope
    exact Prod.ext rfl (Scope.names_insert scope name register)
  · simp only [if_neg hid]

theorem wellFormed_define (hwf : chain.WellFormed) (h : chain.define name register = some (id, defined)) :
    defined.WellFormed := by
  constructor
  · intro other scope outer hget hparent
    have hlink := links_define h other
    rw [hget, Option.map_some, hparent] at hlink
    obtain ⟨former, hformer, hformerParent⟩ := Option.map_eq_some_iff.mp hlink.symm
    exact hwf.parent_lt hformer hformerParent
  · intro other hcurrent
    obtain ⟨-, rfl⟩ := define_eq_some_iff.mp h
    simpa using hwf.current_lt hcurrent

theorem size_define (h : chain.define name register = some (id, defined)) :
    defined.scopes.size = chain.scopes.size := by
  obtain ⟨-, rfl⟩ := define_eq_some_iff.mp h
  simp

theorem current_define (h : chain.define name register = some (id, defined)) :
    defined.current = chain.current := by
  obtain ⟨-, rfl⟩ := define_eq_some_iff.mp h
  rfl

/-- Defining a name that some open scope has changes nothing that shows. -/
theorem stack_define_of_mem (hwf : chain.WellFormed) (h : chain.define name register = some (id, defined))
    (hbound : chain.Knows name) : defined.stack = chain.stack := by
  obtain ⟨found, hfound⟩ := Option.isSome_iff_exists.mp ((lookup_isSome_iff chain name).mpr hbound)
  obtain ⟨hmem, scope, hget, hname⟩ := mem_of_lookupAlong hfound
  obtain ⟨⟨current, -, hid⟩, -⟩ := define_eq_some_iff.mp h
  obtain rfl : id = found.scope := by simpa [hfound] using hid
  unfold stack
  rw [current_define h]
  apply stackFrom_congr hwf
  · intro other hcurrent
    exact hwf.current_lt hcurrent
  · exact Nat.le_of_eq (size_define h).symm
  · intro other _
    exact links_define h other
  · intro other _
    rw [view_define h]
    by_cases hother : found.scope = other
    · -- The scope that was found has the name already.
      subst hother
      simp [view, hget, Set.insert_eq_of_mem hname]
    · rw [if_neg hother]

/-- Defining a name that no open scope has adds it to the current scope. -/
theorem stack_define_of_not_mem (hwf : chain.WellFormed) (h : chain.define name register = some (id, defined))
    (hfree : ¬ chain.Knows name) :
    ∃ top names rest, chain.stack = (top, names) :: rest ∧ defined.stack = (top, insert name names) :: rest := by
  have hnone : chain.lookup name = none := by
    cases hlookup : chain.lookup name with
    | none => rfl
    | some found => exact absurd ((lookup_isSome_iff chain name).mp (by simp [hlookup])) hfree
  obtain ⟨⟨current, hcurrent, hid⟩, -⟩ := define_eq_some_iff.mp h
  obtain rfl : id = current := by simpa [hnone] using hid
  obtain ⟨scope, hget, hstack⟩ := stack_of_current hwf hcurrent
  refine ⟨scope.register, scope.names, chain.stackFrom scope.parent, hstack, ?_⟩
  have hgetDefined : defined.get? id = some (scope.insert name register) := by
    rw [get?_define h, if_pos rfl, hget]
    rfl
  unfold stack
  rw [current_define h, hcurrent, stackFrom_some (wellFormed_define hwf h) hgetDefined, Scope.names_insert]
  -- The scopes further out have smaller numbers, so the definition did not reach them.
  have hrest : defined.stackFrom scope.parent = chain.stackFrom scope.parent := by
    apply stackFrom_congr hwf
    · intro outer hparent
      exact Nat.lt_trans (hwf.parent_lt hget hparent) (hwf.current_lt hcurrent)
    · exact Nat.le_of_eq (size_define h).symm
    · intro other _
      exact links_define h other
    · intro other hmem
      rw [view_define h, if_neg (Nat.ne_of_gt (lt_of_mem_path_parent hwf hget hmem))]
  have hparent : (scope.insert name register).parent = scope.parent := rfl
  rw [hparent, hrest]
  rfl

/-- Afterwards the name is known, and every other name as before. -/
theorem knows_define_iff (hwf : chain.WellFormed) (h : chain.define name register = some (id, defined))
    (other : String) : defined.Knows other ↔ chain.Knows other ∨ other = name := by
  by_cases hknown : chain.Knows name
  · have hstack := stack_define_of_mem hwf h hknown
    have hother : other = name → chain.Knows other := fun hname => hname ▸ hknown
    unfold Knows at hother ⊢
    rw [hstack]
    exact ⟨Or.inl, fun hor => hor.elim (fun hold => hold) hother⟩
  · obtain ⟨top, names, rest, hstack, hdefined⟩ := stack_define_of_not_mem hwf h hknown
    unfold Knows
    rw [hstack, hdefined]
    simp only [List.exists_mem_cons_iff, Set.mem_insert_iff]
    constructor
    · rintro ((hname | htop) | hrest)
      · exact Or.inr hname
      · exact Or.inl (Or.inl htop)
      · exact Or.inl (Or.inr hrest)
    · rintro ((htop | hrest) | hname)
      · exact Or.inl (Or.inr htop)
      · exact Or.inr hrest
      · exact Or.inl (Or.inl hname)

end Define

/-! ## What the lowering of statements does to the open scopes -/

/-- The same scopes are open, and at most the innermost one has other names. -/
def Refills (chain other : ScopeChain) : Prop :=
  ∃ names, other.stack = chain.stack.modifyHead fun shown => (shown.1, names)

namespace Refills

variable {other last : ScopeChain}

theorem of_stack_eq (h : other.stack = chain.stack) : chain.Refills other := by
  cases hstack : chain.stack with
  | nil => exact ⟨∅, by simp [h, hstack]⟩
  | cons shown rest => exact ⟨shown.2, by simp [h, hstack]⟩

theorem trans (h : chain.Refills other) (h' : other.Refills last) : chain.Refills last := by
  obtain ⟨names, hother⟩ := h
  obtain ⟨names', hlast⟩ := h'
  refine ⟨names', ?_⟩
  rw [hlast, hother, List.modifyHead_modifyHead]
  rfl

theorem currentRegister?_eq (h : chain.Refills other) (hwf : chain.WellFormed) (hwf' : other.WellFormed) :
    other.currentRegister? = chain.currentRegister? := by
  obtain ⟨names, hother⟩ := h
  rw [ScopeChain.currentRegister?_eq hwf, ScopeChain.currentRegister?_eq hwf', hother]
  cases chain.stack <;> rfl

/-- Leaving a scope shows again what showed before it was entered. -/
theorem stack_exit_eq {register : Register} (h : (chain.enter register).2.Refills other)
    (hwf : chain.WellFormed) (hwf' : other.WellFormed) : other.exit.stack = chain.stack := by
  obtain ⟨names, hother⟩ := h
  rw [stack_exit hwf', hother, stack_enter hwf register]
  rfl

end Refills

theorem refills_define {name : String} {register : Register} {id : Nat} {defined : ScopeChain}
    (hwf : chain.WellFormed) (h : chain.define name register = some (id, defined)) : chain.Refills defined := by
  by_cases hknown : chain.Knows name
  · exact .of_stack_eq (stack_define_of_mem hwf h hknown)
  · obtain ⟨top, names, rest, hstack, hdefined⟩ := stack_define_of_not_mem hwf h hknown
    exact ⟨insert name names, by rw [hstack, hdefined]; rfl⟩

/-- Definitions change names, and no register of an open scope. -/
theorem registers_define {name : String} {register : Register} {id : Nat} {defined : ScopeChain}
    (hwf : chain.WellFormed) (h : chain.define name register = some (id, defined)) :
    defined.stack.map (·.1) = chain.stack.map (·.1) := by
  obtain ⟨names, hstack⟩ := refills_define hwf h
  rw [hstack]
  cases chain.stack <;> rfl

end ScopeChain
end ScriptBytecode
