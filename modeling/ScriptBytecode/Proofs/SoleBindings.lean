import Mathlib.Data.List.Pairwise
import ScriptBytecode.Proofs.ScopeHistories

/-!
# No open scope shadows another one

A definition writes to the scope where the name is found, so the open scopes of a reachable chain have no name in common
(`Unshadowed`). This holds along the path of the current scope only: a name that a scope has can be defined in a scope
around it after the scope was left.

A definition changes one binding of one scope. Look-ups of other names do not notice it, wherever they start.
-/

namespace ScriptBytecode
namespace ScopeChain

variable {chain : ScopeChain}

/-! ## Open scopes have no name in common -/

/-- No name is in the name sets of two open scopes. -/
def Unshadowed (chain : ScopeChain) : Prop :=
  chain.stack.Pairwise fun inner outer => ∀ name ∈ inner.2, name ∉ outer.2

theorem unshadowed_empty : empty.Unshadowed := by
  unfold Unshadowed stack
  rw [show empty.current = none from rfl, stackFrom_none]
  exact List.Pairwise.nil

theorem unshadowed_enter (hwf : chain.WellFormed) (h : chain.Unshadowed) (register : Register) :
    (chain.enter register).2.Unshadowed := by
  unfold Unshadowed
  rw [stack_enter hwf register]
  refine List.Pairwise.cons (fun outer _ name hname => ?_) h
  cases hname

theorem unshadowed_exit (hwf : chain.WellFormed) (h : chain.Unshadowed) : chain.exit.Unshadowed := by
  unfold Unshadowed
  rw [stack_exit hwf]
  exact h.tail

theorem unshadowed_define {name : String} {register : Register} {id : Nat} {defined : ScopeChain}
    (hwf : chain.WellFormed) (h : chain.Unshadowed) (hdefine : chain.define name register = some (id, defined)) :
    defined.Unshadowed := by
  unfold Unshadowed
  by_cases hknown : chain.Knows name
  · rw [stack_define_of_mem hwf hdefine hknown]
    exact h
  · -- The name goes to the innermost scope, and no other scope has it.
    obtain ⟨top, names, rest, hstack, hdefined⟩ := stack_define_of_not_mem hwf hdefine hknown
    rw [Unshadowed, hstack] at h
    rw [hdefined]
    obtain ⟨htop, hrest⟩ := List.pairwise_cons.mp h
    refine List.Pairwise.cons (fun outer houter other hother => ?_) hrest
    rcases Set.mem_insert_iff.mp hother with rfl | hold
    · intro hname
      apply hknown
      unfold Knows
      rw [hstack]
      exact ⟨outer, List.mem_cons_of_mem _ houter, hname⟩
    · exact htop outer houter other hold

theorem Reachable.unshadowed (h : chain.Reachable) : chain.Unshadowed := by
  induction h with
  | empty => exact unshadowed_empty
  | step use before ih =>
      have hwf := before.wellFormed
      exact apply_cases use ih (unshadowed_enter hwf ih) (unshadowed_exit hwf ih) (unshadowed_define hwf ih)

theorem binding?_isSome_iff {id : Nat} {name : String} :
    (chain.binding? id name).isSome ↔ ∃ scope, chain.get? id = some scope ∧ name ∈ scope.names := by
  unfold binding?
  cases chain.get? id <;> simp [Scope.names]

/-- Two open scopes that bind one name are the same. -/
theorem Unshadowed.eq_of_binding? (h : chain.Unshadowed) {id other : Nat} {name : String}
    (hid : id ∈ chain.path chain.current) (hother : other ∈ chain.path chain.current)
    (hbinding : (chain.binding? id name).isSome) (hbinding' : (chain.binding? other name).isSome) : id = other := by
  have hpairs : (chain.path chain.current).Pairwise fun inner outer =>
      ¬ ((chain.binding? inner name).isSome ∧ (chain.binding? outer name).isSome) := by
    refine (List.pairwise_filterMap.mp h).imp ?_
    rintro inner outer hdisjoint ⟨hinner, houter⟩
    obtain ⟨scope, hget, hname⟩ := binding?_isSome_iff.mp hinner
    obtain ⟨scope', hget', hname'⟩ := binding?_isSome_iff.mp houter
    have hsets := hdisjoint (scope.register, scope.names) (by rw [view, hget]; rfl) (scope'.register, scope'.names)
      (by rw [view, hget']; rfl)
    exact hsets name hname hname'
  -- It does not matter which of the two scopes is further in.
  have hsymm : Std.Symm fun inner outer : Nat =>
      ¬ ((chain.binding? inner name).isSome ∧ (chain.binding? outer name).isSome) :=
    ⟨fun _ _ hnot hboth => hnot hboth.symm⟩
  by_contra hne
  exact hpairs.forall hid hother hne ⟨hbinding, hbinding'⟩

/-! ## What a definition changes -/

section Define

variable {name : String} {register : Register} {id : Nat} {defined : ScopeChain}

/-- A definition writes to a scope of the path that starts at the current one. -/
theorem mem_path_of_define (hwf : chain.WellFormed) (h : chain.define name register = some (id, defined)) :
    id ∈ chain.path chain.current := by
  obtain ⟨⟨current, hcurrent, rfl⟩, -⟩ := define_eq_some_iff.mp h
  cases hlookup : chain.lookup name with
  | some found => exact (mem_of_lookupAlong hlookup).1
  | none =>
      obtain ⟨scope, hget⟩ := exists_get?_of_lt (hwf.current_lt hcurrent)
      rw [hcurrent, path_some hwf hget]
      exact List.mem_cons_self

theorem binding?_define_self (hwf : chain.WellFormed) (h : chain.define name register = some (id, defined)) :
    defined.binding? id name = some register := by
  obtain ⟨scope, hget⟩ := get?_of_mem_pathWithin (mem_path_of_define hwf h)
  unfold binding?
  rw [get?_define h, if_pos rfl, hget]
  simp [Scope.find?, Scope.insert, lookup_insertBinding]

theorem binding?_define_of_ne_scope (h : chain.define name register = some (id, defined)) {other : Nat}
    (hne : other ≠ id) (searched : String) : defined.binding? other searched = chain.binding? other searched := by
  unfold binding?
  rw [get?_define h, if_neg hne.symm]

theorem binding?_define_of_ne_name (h : chain.define name register = some (id, defined)) (other : Nat)
    {searched : String} (hne : searched ≠ name) : defined.binding? other searched = chain.binding? other searched := by
  by_cases hid : other = id
  · subst hid
    unfold binding?
    rw [get?_define h, if_pos rfl]
    cases chain.get? other with
    | none => rfl
    | some scope => simp [Scope.find?, Scope.insert, lookup_insertBinding, hne]
  · exact binding?_define_of_ne_scope h hid searched

theorem path_define (hwf : chain.WellFormed) (h : chain.define name register = some (id, defined)) {start : Option Nat}
    (hstart : ∀ first, start = some first → first < chain.scopes.size) : defined.path start = chain.path start :=
  path_congr hwf hstart (Nat.le_of_eq (size_define h).symm) fun other _ => links_define h other

theorem lookupAlong_congr {other : ScopeChain} {searched : String} {hops : Nat} {path : List Nat}
    (h : ∀ id ∈ path, other.binding? id searched = chain.binding? id searched) :
    other.lookupAlong searched hops path = chain.lookupAlong searched hops path := by
  induction path generalizing hops with
  | nil => rfl
  | cons id path ih =>
      obtain ⟨hid, hpath⟩ := List.forall_mem_cons.mp h
      cases hbinding : chain.binding? id searched with
      | none => rw [lookupAlong_cons_of_none hbinding, lookupAlong_cons_of_none (hid.trans hbinding), ih hpath]
      | some register => rw [lookupAlong_cons_of_some hbinding, lookupAlong_cons_of_some (hid.trans hbinding)]

/-- Look-ups of other names do not notice a definition. -/
theorem lookupAlong_define_of_ne (hwf : chain.WellFormed) (h : chain.define name register = some (id, defined))
    {start : Option Nat} (hstart : ∀ first, start = some first → first < chain.scopes.size) {searched : String}
    (hne : searched ≠ name) (hops : Nat) :
    defined.lookupAlong searched hops (defined.path start) = chain.lookupAlong searched hops (chain.path start) := by
  rw [path_define hwf h hstart]
  exact lookupAlong_congr fun other _ => binding?_define_of_ne_name h other hne

theorem lookup_define_of_ne (hwf : chain.WellFormed) (h : chain.define name register = some (id, defined))
    {searched : String} (hne : searched ≠ name) : defined.lookup searched = chain.lookup searched := by
  unfold lookup
  rw [current_define h]
  exact lookupAlong_define_of_ne hwf h (fun first => hwf.current_lt) hne 0

/-- Afterwards the name is found where it was found before, or else in the current scope. -/
theorem lookup_define_self (hwf : chain.WellFormed) (h : chain.define name register = some (id, defined)) :
    defined.lookup name = some ⟨id, ((chain.lookup name).map (·.hops)).getD 0, register⟩ := by
  have hself := binding?_define_self hwf h
  have hdefined : defined.lookup name = defined.lookupAlong name 0 (chain.path chain.current) := by
    unfold lookup
    rw [current_define h, path_define hwf h fun first hfirst => hwf.current_lt hfirst]
  obtain ⟨⟨current, hcurrent, hid⟩, -⟩ := define_eq_some_iff.mp h
  rw [hdefined]
  cases hlookup : chain.lookup name with
  | none =>
      obtain rfl : id = current := by simpa [hlookup] using hid
      obtain ⟨scope, hget⟩ := exists_get?_of_lt (hwf.current_lt hcurrent)
      rw [hcurrent, path_some hwf hget, lookupAlong_cons_of_some hself]
      rfl
  | some found =>
      obtain rfl : id = found.scope := by simpa [hlookup] using hid
      obtain ⟨before, after, hsplit, hbefore, hfound, hhops⟩ := lookupAlong_eq_some_iff.mp hlookup
      refine lookupAlong_eq_some_iff.mpr ⟨before, after, hsplit, ?_, hself, hhops⟩
      -- Scopes before the one that is found do not bind the name, so they are not the one that was written.
      intro other hother
      have hne : other ≠ found.scope := by
        rintro rfl
        rw [hbefore _ hother] at hfound
        cases hfound
      rw [binding?_define_of_ne_scope h hne]
      exact hbefore other hother

end Define

/-- No two open scopes of a reachable chain bind one name. A definition writes to the scope where the name is found, or
else to the current one. Afterwards the name is found there with its new register; other names are found as before from
every scope, and no other scope is changed. -/
theorem define_never_shadows (hreach : chain.Reachable) :
    (∀ current path, chain.current = some current → chain.ParentPath current path → ∀ name, ∀ id ∈ path,
      ∀ other ∈ path, (chain.binding? id name).isSome → (chain.binding? other name).isSome → id = other) ∧
      ∀ current, chain.current = some current → ∀ name register, ∃ id defined,
        chain.define name register = some (id, defined) ∧
          id = ((chain.lookup name).map (·.scope)).getD current ∧
          (∃ hops, defined.lookup name = some ⟨id, hops, register⟩) ∧
          (∀ start, start < chain.scopes.size → ∀ other, other ≠ name →
            defined.lookupFrom start other = chain.lookupFrom start other) ∧
          defined.current = chain.current ∧
          defined.get? id = (chain.get? id).map (·.insert name register) ∧
          ∀ other, other ≠ id → defined.get? other = chain.get? other := by
  have hwf := hreach.wellFormed
  constructor
  · intro current path hcurrent hpath name id hid other hother
    obtain rfl := hpath.unique (parentPath_path hwf (hwf.current_lt hcurrent))
    rw [← hcurrent] at hid hother
    exact hreach.unshadowed.eq_of_binding? hid hother
  · intro current hcurrent name register
    obtain ⟨⟨id, defined⟩, hdefine⟩ : ∃ result, chain.define name register = some result :=
      Option.isSome_iff_exists.mp (define_isSome_iff.mpr (by rw [hcurrent]; rfl))
    obtain ⟨⟨current', hcurrent', hid⟩, -⟩ := define_eq_some_iff.mp hdefine
    rw [hcurrent] at hcurrent'
    obtain rfl := Option.some.inj hcurrent'
    refine ⟨id, defined, hdefine, hid, ⟨_, lookup_define_self hwf hdefine⟩, ?_, current_define hdefine, ?_, ?_⟩
    · intro start hstart other hne
      refine lookupAlong_define_of_ne hwf hdefine ?_ hne 0
      rintro first ⟨⟩
      exact hstart
    · rw [get?_define hdefine, if_pos rfl]
    · intro other hne
      rw [get?_define hdefine, if_neg hne.symm]

/-- A scope was left that has a name, and then the scope around it got the name as well. -/
def overlapping : ScopeChain :=
  empty.perform [.enter ⟨1⟩, .enter ⟨2⟩, .define "x" ⟨3⟩, .exit, .define "x" ⟨4⟩, .enter ⟨5⟩]

/-- The scope that was left keeps its binding, and a definition further in goes to the outermost scope. -/
theorem define_never_shadows_overlapping :
    overlapping.Reachable ∧ overlapping.current = some 2 ∧ overlapping.binding? 1 "x" = some ⟨3⟩ ∧
      ∃ defined hops, overlapping.define "x" ⟨6⟩ = some (0, defined) ∧ defined.lookup "x" = some ⟨0, hops, ⟨6⟩⟩ ∧
        defined.binding? 1 "x" = some ⟨3⟩ := by
  have hreach : overlapping.Reachable := Reachable.empty.perform _
  have hleft : overlapping.binding? 1 "x" = some ⟨3⟩ := by decide
  obtain ⟨id, defined, hdefine, hid, ⟨hops, hlookup⟩, -, -, -, hothers⟩ :=
    (define_never_shadows hreach).2 2 rfl "x" ⟨6⟩
  obtain rfl : id = 0 := hid.trans (by decide)
  refine ⟨hreach, rfl, hleft, defined, hops, hdefine, hlookup, ?_⟩
  unfold binding?
  rw [hothers 1 (by decide)]
  exact hleft

end ScopeChain
end ScriptBytecode
