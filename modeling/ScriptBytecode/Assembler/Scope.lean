import ScriptBytecode.Operand

/-!
# Scopes

The scopes of a script are kept in the order in which they were entered; a scope that was left stays where it is. Each
scope knows the scope around it by its number, and the chain knows the scope that it is in. A name is looked up in the
scope and then in the scopes around it, from the inside out.
-/

namespace ScriptBytecode

/-- A scope: the number of the scope around it, the registers of the names bound in it in the order of the names, the
register of its scope object, and how many scopes are around it. -/
structure Scope where
  parent : Option Nat
  bindings : List (String × Register)
  register : Register
  depth : Nat

/-- Binds a name, in place of its binding if there is one. -/
def insertBinding (name : String) (register : Register) : List (String × Register) → List (String × Register)
  | [] => [(name, register)]
  | (other, held) :: bindings =>
      if name < other then (name, register) :: (other, held) :: bindings
      else if name = other then (name, register) :: bindings
      else (other, held) :: insertBinding name register bindings

namespace Scope

def find? (scope : Scope) (name : String) : Option Register :=
  scope.bindings.lookup name

def insert (scope : Scope) (name : String) (register : Register) : Scope :=
  { scope with bindings := insertBinding name register scope.bindings }

end Scope

/-- What a look-up finds: the number of the scope that binds the name, how many scopes lie between, and the register
that the name was bound to last. -/
structure ResolvedBinding where
  scope : Nat
  hops : Nat
  register : Register
deriving DecidableEq

/-- All scopes that were entered, and the number of the one that is current. -/
structure ScopeChain where
  scopes : Array Scope
  current : Option Nat

namespace ScopeChain

def empty : ScopeChain := ⟨#[], none⟩

def get? (chain : ScopeChain) (id : Nat) : Option Scope :=
  chain.scopes[id]?

def currentScope? (chain : ScopeChain) : Option Scope :=
  chain.current.bind chain.get?

def currentRegister? (chain : ScopeChain) : Option Register :=
  chain.currentScope?.map (·.register)

/-- How many scopes are around the current one. -/
def depth (chain : ScopeChain) : Nat :=
  match chain.currentScope? with
  | some scope => scope.depth
  | none => 0

/-- Enters a new scope inside the current one. -/
def enter (chain : ScopeChain) (register : Register) : Nat × ScopeChain :=
  let depth :=
    match chain.currentScope? with
    | some scope => scope.depth + 1
    | none => 0
  let id := chain.scopes.size
  (id, ⟨chain.scopes.push ⟨chain.current, [], register, depth⟩, some id⟩)

/-- Goes back to the scope around the current one. -/
def exit (chain : ScopeChain) : ScopeChain :=
  match chain.currentScope? with
  | some scope => { chain with current := scope.parent }
  | none => chain

/-- The scopes from a given one outwards, at most as many as the first argument says. -/
def pathWithin (chain : ScopeChain) : Nat → Option Nat → List Nat
  | 0, _ => []
  | _ + 1, none => []
  | bound + 1, some id =>
      match chain.get? id with
      | some scope => id :: chain.pathWithin bound scope.parent
      | none => []

/-- The scopes from a given one outwards. There are no more of them than scopes in the chain. -/
def path (chain : ScopeChain) (start : Option Nat) : List Nat :=
  chain.pathWithin chain.scopes.size start

/-- The first scope of a path that binds a name, with the number of scopes before it. -/
def lookupAlong (chain : ScopeChain) (name : String) : Nat → List Nat → Option ResolvedBinding
  | _, [] => none
  | hops, id :: ids =>
      match (chain.get? id).bind (·.find? name) with
      | some register => some ⟨id, hops, register⟩
      | none => chain.lookupAlong name (hops + 1) ids

def lookupFrom (chain : ScopeChain) (start : Nat) (name : String) : Option ResolvedBinding :=
  chain.lookupAlong name 0 (chain.path (some start))

/-- Looks a name up from the current scope outwards. -/
def lookup (chain : ScopeChain) (name : String) : Option ResolvedBinding :=
  chain.lookupAlong name 0 (chain.path chain.current)

/-- Binds a name in the scope where it is found, or else in the current one. Without a scope there is nowhere to bind
it. -/
def define (chain : ScopeChain) (name : String) (register : Register) : Option (Nat × ScopeChain) :=
  match chain.current with
  | none => none
  | some current =>
      let id :=
        match chain.lookup name with
        | some found => found.scope
        | none => current
      some (id, { chain with scopes := chain.scopes.modify id fun scope => scope.insert name register })

end ScopeChain
end ScriptBytecode
