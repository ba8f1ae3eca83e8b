import Mathlib.Logic.Function.Basic
import ScriptBytecode.Proofs.ScopeObjects

/-!
# What instructions do and what expressions mean

A runtime has values of some type and keeps its tables in some form. What it does for arithmetic, calls and tables is
left to it: each of these may change everything but the registers. On top of it stand two meanings that do not refer to
each other. `Runtime.run` executes plain instructions one after the other on registers and a store, with names and
constants from a pool. `Runtime.evaluate` evaluates an expression, without code, registers or a pool: operands from left
to right, a callee before the arguments and these before the call, a table before its fields and a key before its value.
-/

namespace ScriptBytecode

/-- The operator that an operation of the machine computes. -/
def Operation.operator : Operation → BinaryOperator
  | .add => .add
  | .sub => .sub
  | .div => .div
  | .mul => .mul
  | .pow => .pow
  | .mod => .mod
  | .eq => .eq

/-- What programs work on besides registers: the global variables, the scope objects with the values of their names, and
the tables in the form that the runtime keeps them. The number of a scope object is how many objects are older. -/
structure Store (ν ω : Type) where
  globals : String → ν
  objects : List ScopeObject
  contents : Nat → String → ν
  tables : ω

/-- Values, and what a runtime does with them where the code leaves it the choice. -/
structure Runtime (ν ω : Type) where
  constant : Constant → ν
  nil : ν
  /-- The value that stands for the scope object with a number. -/
  scope : Nat → ν
  /-- The number of the scope object that a value stands for. -/
  scopeNumber? : ν → Option Nat
  /-- Reads a name from a value that stands for no scope object, or whose object and those around it lack the name. -/
  readMissing : ν → String → Store ν ω → ν × Store ν ω
  /-- Writes a name to a value that stands for no scope object. -/
  writeMissing : ν → String → ν → Store ν ω → Store ν ω
  operate : BinaryOperator → ν → ν → Store ν ω → ν × Store ν ω
  call : ν → List ν → Store ν ω → ν × Store ν ω
  newTable : Store ν ω → ν × Store ν ω
  getEntry : ν → ν → Store ν ω → ν × Store ν ω
  setEntry : ν → ν → ν → Store ν ω → Store ν ω
  /-- Puts a value behind the list part of a table. -/
  append : ν → ν → Store ν ω → Store ν ω

variable {ν ω : Type}

/-! ## Variables -/

namespace Store

def setGlobal (store : Store ν ω) (name : String) (value : ν) : Store ν ω :=
  { store with globals := Function.update store.globals name value }

/-- Gives a name of a scope object a value. -/
def setVariable (store : Store ν ω) (id : Nat) (name : String) (value : ν) : Store ν ω :=
  { store with contents := Function.update store.contents id (Function.update (store.contents id) name value) }

/-- Writes a name to the nearest object that holds it, from a given one outwards, or else to the given one. -/
def write (store : Store ν ω) (id : Nat) (name : String) (value : ν) : Store ν ω :=
  match nearest? name store.objects id with
  | some owner => store.setVariable owner name value
  | none => { store with objects := addName name store.objects id }.setVariable id name value

/-- Makes a scope object without names, inside another one or inside none. -/
def makeScope (store : Store ν ω) (parent : Option Nat) : Store ν ω :=
  { store with objects := ⟨parent, []⟩ :: store.objects }

end Store

namespace Runtime

variable (runtime : Runtime ν ω)

/-- Reads a name from the nearest object that holds it, from the object that a value stands for outwards. -/
def readScope (value : ν) (name : String) (store : Store ν ω) : ν × Store ν ω :=
  match (runtime.scopeNumber? value).bind (nearest? name store.objects) with
  | some owner => (store.contents owner name, store)
  | none => runtime.readMissing value name store

def writeScope (value : ν) (name : String) (written : ν) (store : Store ν ω) : Store ν ω :=
  match runtime.scopeNumber? value with
  | some id => store.write id name written
  | none => runtime.writeMissing value name written store

end Runtime

/-! ## Instructions -/

/-- A state of the machine. -/
structure MachineState (ν ω : Type) where
  registers : Register → ν
  store : Store ν ω

/-- A state in which a register has got a result. -/
def MachineState.put (s : MachineState ν ω) (dst : Register) (result : ν × Store ν ω) : MachineState ν ω :=
  ⟨Function.update s.registers dst result.1, result.2⟩

namespace Runtime

/-- What a plain instruction does. One whose constant is not in the pool, or names a variable and is no string, does
nothing that is known. -/
def execute? (runtime : Runtime ν ω) (pool : ConstantPool) :
    PlainInstruction → MachineState ν ω → Option (MachineState ν ω)
  | .load index dst, s => do
      let constant ← pool.get? index.index.toNat
      return s.put dst (runtime.constant constant, s.store)
  | .getVar index dst, s => do
      let name ← pool.name? index
      return s.put dst (s.store.globals name, s.store)
  | .setVar src index, s => do
      let name ← pool.name? index
      return { s with store := s.store.setGlobal name (s.registers src) }
  | .call callee arguments dst, s =>
      some (s.put dst (runtime.call (s.registers callee) (arguments.map s.registers) s.store))
  | .operate operation lhs rhs dst, s =>
      some (s.put dst (runtime.operate operation.operator (s.registers lhs) (s.registers rhs) s.store))
  | .setNil dst, s => some (s.put dst (runtime.nil, s.store))
  | .newTable dst, s => some (s.put dst (runtime.newTable s.store))
  | .setField table index src, s => do
      let key ← pool.get? index.index.toNat
      return { s with store := runtime.setEntry (s.registers table) (runtime.constant key) (s.registers src) s.store }
  | .setTable table key src, s =>
      some { s with store := runtime.setEntry (s.registers table) (s.registers key) (s.registers src) s.store }
  | .pushTable table src, s =>
      some { s with store := runtime.append (s.registers table) (s.registers src) s.store }
  | .newScope dst parent, s =>
      let around := parent.bind fun register => runtime.scopeNumber? (s.registers register)
      some (s.put dst (runtime.scope s.store.objects.length, s.store.makeScope around))
  | .scopeGet scope index dst, s => do
      let name ← pool.name? index
      return s.put dst (runtime.readScope (s.registers scope) name s.store)
  | .scopeSet scope index src, s => do
      let name ← pool.name? index
      return { s with store := runtime.writeScope (s.registers scope) name (s.registers src) s.store }
  | .getField table index dst, s => do
      let key ← pool.get? index.index.toNat
      return s.put dst (runtime.getEntry (s.registers table) (runtime.constant key) s.store)

/-- Executes plain instructions in order. -/
def run (runtime : Runtime ν ω) (pool : ConstantPool) (code : List PlainInstruction) (s : MachineState ν ω) :
    Option (MachineState ν ω) :=
  code.foldlM (fun s instruction => runtime.execute? pool instruction s) s

variable {runtime : Runtime ν ω} {pool : ConstantPool} {code : List PlainInstruction} {s t : MachineState ν ω}

@[simp] theorem run_nil : runtime.run pool [] s = some s := rfl

theorem run_cons {instruction : PlainInstruction} :
    runtime.run pool (instruction :: code) s = (runtime.execute? pool instruction s).bind (runtime.run pool code) :=
  List.foldlM_cons

theorem run_append {more : List PlainInstruction} :
    runtime.run pool (code ++ more) s = (runtime.run pool code s).bind (runtime.run pool more) :=
  List.foldlM_append

theorem run_singleton {instruction : PlainInstruction} :
    runtime.run pool [instruction] s = runtime.execute? pool instruction s := by
  rw [run_cons]
  cases runtime.execute? pool instruction s <;> rfl

/-- An instruction changes no register but the one that it writes. -/
theorem registers_of_execute? {instruction : PlainInstruction} {register : Register}
    (h : runtime.execute? pool instruction s = some t) (hdst : instruction.dst? ≠ some register) :
    t.registers register = s.registers register := by
  have hput : ∀ {dst : Register} {result : ν × Store ν ω}, some dst ≠ some register → s.put dst result = t →
      t.registers register = s.registers register := by
    rintro dst result hne rfl
    exact Function.update_of_ne (fun heq => hne (congrArg some heq.symm)) _ _
  cases instruction with
  | jumpIfNot condition target => exact target.elim
  | jumpIf condition target => exact target.elim
  | jump target => exact target.elim
  | call | operate | setNil | newTable | newScope => exact hput hdst (Option.some.inj h)
  | load | getVar | scopeGet | getField =>
      obtain ⟨_, -, hstate⟩ := Option.bind_eq_some_iff.mp h
      exact hput hdst (Option.some.inj hstate)
  | setTable | pushTable =>
      obtain rfl := Option.some.inj h
      rfl
  | setVar | setField | scopeSet =>
      obtain ⟨_, -, hstate⟩ := Option.bind_eq_some_iff.mp h
      obtain rfl := Option.some.inj hstate
      rfl

/-- Code changes no registers but those that it writes. -/
theorem registers_of_run {register : Register} (h : runtime.run pool code s = some t)
    (hmem : register ∉ written code) : t.registers register = s.registers register := by
  induction code generalizing s with
  | nil =>
      obtain rfl := Option.some.inj h
      rfl
  | cons instruction code ih =>
      rw [run_cons] at h
      obtain ⟨middle, hfirst, hrest⟩ := Option.bind_eq_some_iff.mp h
      have hdst : instruction.dst? ≠ some register := by
        intro hdst
        exact hmem (List.mem_filterMap.mpr ⟨instruction, List.mem_cons_self, hdst⟩)
      have hlater : register ∉ written code := by
        intro hlater
        obtain ⟨other, hother, hwrites⟩ := List.mem_filterMap.mp hlater
        exact hmem (List.mem_filterMap.mpr ⟨other, List.mem_cons_of_mem instruction hother, hwrites⟩)
      rw [ih hrest hlater, registers_of_execute? hfirst hdst]

end Runtime

/-! ## Expressions -/

/-- What an expression sees of the scopes that it stands in: which names they bind, and the value that stands for the
innermost scope object, if there is one. -/
structure Surroundings (ν : Type) where
  binds : String → Bool
  scope? : Option ν

/-- An evaluation that works on a store. Some expressions have no meaning. -/
abbrev Evaluating (ν ω α : Type) := StateT (Store ν ω) Option α

namespace Evaluating

/-- Something that the runtime does. -/
def primitive {α : Type} (f : Store ν ω → α × Store ν ω) : Evaluating ν ω α := fun store =>
  some (f store)

/-- There is no meaning. -/
def meaningless {α : Type} : Evaluating ν ω α := fun _ =>
  none

theorem bind_of_some {α β : Type} {first : Evaluating ν ω α} {next : α → Evaluating ν ω β}
    {store middle : Store ν ω} {value : α} (h : first store = some (value, middle)) :
    (first >>= next) store = next value middle := by
  change (first store).bind _ = _
  rw [h]
  rfl

end Evaluating

open Evaluating

namespace Runtime

variable (runtime : Runtime ν ω) (around : Surroundings ν)

/-- A name is read through the innermost scope object if the scopes bind it, and is global otherwise. -/
def evaluateName (name : String) : Evaluating ν ω ν :=
  if around.binds name then
    match around.scope? with
    | some scope => primitive (runtime.readScope scope name)
    | none => meaningless
  else primitive fun store => (store.globals name, store)

mutual

/-- The value of an expression. -/
def evaluate : Expression → Evaluating ν ω ν
  | .identifier identifier => runtime.evaluateName around identifier.name
  | .number value _ => return runtime.constant (.number value)
  | .string value _ => return runtime.constant (.string value)
  | .boolean value _ => return runtime.constant (.boolean value)
  | .nil _ => return runtime.nil
  | .binary operator left right _ => do
      let lhs ← evaluate left
      let rhs ← evaluate right
      primitive (runtime.operate operator lhs rhs)
  | .call callee arguments _ => do
      let function ← evaluate callee
      let values ← evaluateArguments arguments
      primitive (runtime.call function values)
  | .stringCall callee argument _ => do
      let function ← evaluate callee
      let value ← evaluate argument
      primitive (runtime.call function [value])
  | .tableCall callee argument _ => do
      let function ← evaluate callee
      let value ← evaluate argument
      primitive (runtime.call function [value])
  | .table fields _ => do
      let table ← primitive runtime.newTable
      evaluateFields table fields
      return table
  | .member .dot identifier base _ => do
      let table ← evaluate base
      primitive (runtime.getEntry table (runtime.constant (.string identifier.name)))
  | .member .colon _ _ _ => meaningless
  | .unsupported _ _ => meaningless

/-- The values of the arguments of a call. -/
def evaluateArguments : List Expression → Evaluating ν ω (List ν)
  | [] => return []
  | argument :: arguments => do
      let value ← evaluate argument
      let values ← evaluateArguments arguments
      return value :: values

/-- Fills a table. -/
def evaluateFields (table : ν) : List TableField → Evaluating ν ω Unit
  | [] => return ()
  | .keyed key value :: fields => do
      let entry ← evaluate key
      let content ← evaluate value
      primitive fun store => ((), runtime.setEntry table entry content store)
      evaluateFields table fields
  | .named key value :: fields => do
      let content ← evaluate value
      primitive fun store => ((), runtime.setEntry table (runtime.constant (.string key.name)) content store)
      evaluateFields table fields
  | .positional value :: fields => do
      let content ← evaluate value
      primitive fun store => ((), runtime.append table content store)
      evaluateFields table fields

end

end Runtime
end ScriptBytecode
