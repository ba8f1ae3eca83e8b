import ScriptBytecode.Assembler.Basic

/-!
# Lowering of expressions

An expression is lowered to code that leaves its value in a register of its own, which is allocated behind the
registers of its parts; only a table has its register before its fields. A name is read from the scopes if one of them
binds it, and is global otherwise.
-/

namespace ScriptBytecode

/-- The operation of the machine for an operator, if it has one. -/
def BinaryOperator.operation? : BinaryOperator → Option Operation
  | .add => some .add
  | .sub => some .sub
  | .div => some .div
  | .mul => some .mul
  | .pow => some .pow
  | .mod => some .mod
  | .eq => some .eq
  | .ne | .lt | .le | .gt | .ge | .concat | .floorDiv | .bitAnd | .bitOr | .bitXor | .shiftLeft
  | .shiftRight => none

open Assembler

/-- Loads a constant. -/
def lowerConstant (constant : Constant) : Assembling Register := do
  let index ← addConstant constant
  let dst ← allocate
  emit (.load index dst)
  return dst

/-- Reads a variable. -/
def lowerName (name : String) : Assembling Register := do
  let index ← addString name
  match ← resolveVariable name with
  | some _ => do
      let scope ← scopeRegister
      let dst ← allocate
      emit (.scopeGet scope index dst)
      return dst
  | none => do
      let dst ← allocate
      emit (.getVar index dst)
      return dst

mutual

/-- Computes an expression and gives the register of its value. -/
def lowerExpression : Expression → Assembling Register
  | .identifier identifier => lowerName identifier.name
  | .number value location =>
      if value.isFinite then lowerConstant (.number value)
      else fail (.unsupported (.nonFiniteNumber value) location)
  | .string value _ => lowerConstant (.string value)
  | .boolean value _ => lowerConstant (.boolean value)
  | .nil _ => do
      let dst ← allocate
      emit (.setNil dst)
      return dst
  | .binary operator left right location =>
      match operator.operation? with
      | none => fail (.unsupported (.operator operator) location)
      | some operation => do
          let lhs ← lowerExpression left
          let rhs ← lowerExpression right
          let dst ← allocate
          emit (.operate operation lhs rhs dst)
          return dst
  | .call callee arguments _ => do
      let function ← lowerExpression callee
      let registers ← lowerArguments arguments
      let dst ← allocate
      emit (.call function registers dst)
      return dst
  | .stringCall callee argument _ => do
      let function ← lowerExpression callee
      let register ← lowerExpression argument
      let dst ← allocate
      emit (.call function [register] dst)
      return dst
  | .tableCall callee argument _ => do
      let function ← lowerExpression callee
      let register ← lowerExpression argument
      let dst ← allocate
      emit (.call function [register] dst)
      return dst
  | .table fields _ => do
      let dst ← allocate
      emit (.newTable dst)
      lowerFields dst fields
      return dst
  | .member indexer identifier base location =>
      if indexer = .colon then fail (.unsupported .methodIndexer location)
      else do
        let table ← lowerExpression base
        let key ← addString identifier.name
        let dst ← allocate
        emit (.getField table key dst)
        return dst
  | .unsupported kind location => fail (.unsupported (.expression kind) location)

/-- Computes the arguments of a call in order. -/
def lowerArguments : List Expression → Assembling (List Register)
  | [] => return []
  | argument :: arguments => do
      let register ← lowerExpression argument
      let registers ← lowerArguments arguments
      return register :: registers

/-- Fills a table in the order of its fields. -/
def lowerFields (table : Register) : List TableField → Assembling Unit
  | [] => return ()
  | .keyed key value :: fields => do
      let keyRegister ← lowerExpression key
      let src ← lowerExpression value
      emit (.setTable table keyRegister src)
      lowerFields table fields
  | .named key value :: fields => do
      let index ← addString key.name
      let src ← lowerExpression value
      emit (.setField table index src)
      lowerFields table fields
  | .positional value :: fields => do
      let src ← lowerExpression value
      emit (.pushTable table src)
      lowerFields table fields

end

end ScriptBytecode
