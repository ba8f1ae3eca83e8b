import ScriptBytecode.Instruction.Basic

/-!
# Plain instructions and the flow of control

An instruction that is not a jump has no place to go to, so it is an instruction whose jumps go to places of the empty
type. `flow` divides the instructions into these and the three jumps; whatever follows control through code looks at
an instruction through `flow` only.

`reads` are the registers among the operands of an instruction other than the one that it writes; `sources` gives the
same registers for each kind of instruction.
-/

namespace ScriptBytecode

/-- An instruction that is not a jump. -/
abbrev PlainInstruction := Instruction Empty

/-- What an instruction does to the flow of control. -/
inductive Flow (τ : Type) where
  /-- The instruction has an effect and control goes on behind it. -/
  | next (instruction : PlainInstruction)
  | jump (target : τ)
  | jumpIf (condition : Register) (target : τ)
  | jumpIfNot (condition : Register) (target : τ)

namespace Instruction

variable {τ σ ε : Type}

/-- A plain instruction as an instruction of any code. -/
def ofPlain : PlainInstruction → Instruction τ
  | .load constant dst => .load constant dst
  | .getVar name dst => .getVar name dst
  | .setVar src name => .setVar src name
  | .call callee arguments dst => .call callee arguments dst
  | .operate operation lhs rhs dst => .operate operation lhs rhs dst
  | .setNil dst => .setNil dst
  | .newTable dst => .newTable dst
  | .setField table key src => .setField table key src
  | .setTable table key src => .setTable table key src
  | .pushTable table src => .pushTable table src
  | .newScope dst parent => .newScope dst parent
  | .scopeGet scope name dst => .scopeGet scope name dst
  | .scopeSet scope name src => .scopeSet scope name src
  | .getField table key dst => .getField table key dst

/-- What an instruction does to the flow of control. -/
def flow : Instruction τ → Flow τ
  | .jumpIfNot condition target => .jumpIfNot condition target
  | .jumpIf condition target => .jumpIf condition target
  | .jump target => .jump target
  | .load constant dst => .next (.load constant dst)
  | .getVar name dst => .next (.getVar name dst)
  | .setVar src name => .next (.setVar src name)
  | .call callee arguments dst => .next (.call callee arguments dst)
  | .operate operation lhs rhs dst => .next (.operate operation lhs rhs dst)
  | .setNil dst => .next (.setNil dst)
  | .newTable dst => .next (.newTable dst)
  | .setField table key src => .next (.setField table key src)
  | .setTable table key src => .next (.setTable table key src)
  | .pushTable table src => .next (.pushTable table src)
  | .newScope dst parent => .next (.newScope dst parent)
  | .scopeGet scope name dst => .next (.scopeGet scope name dst)
  | .scopeSet scope name src => .next (.scopeSet scope name src)
  | .getField table key dst => .next (.getField table key dst)

/-- An instruction as a plain one, if it is not a jump. -/
def plain? (instruction : Instruction τ) : Option PlainInstruction :=
  match instruction.flow with
  | .next plain => some plain
  | _ => none

@[simp] theorem flow_ofPlain (instruction : PlainInstruction) :
    (ofPlain instruction : Instruction τ).flow = .next instruction := by
  cases instruction with
  | jumpIfNot condition target => exact target.elim
  | jumpIf condition target => exact target.elim
  | jump target => exact target.elim
  | _ => rfl

@[simp] theorem plain?_ofPlain (instruction : PlainInstruction) :
    (ofPlain instruction : Instruction τ).plain? = some instruction := by
  simp [plain?]

/-- The code that plain instructions make up holds these plain instructions. -/
@[simp] theorem filterMap_plain?_map_ofPlain (code : List PlainInstruction) :
    (code.map (@ofPlain τ)).filterMap plain? = code := by
  induction code with
  | nil => rfl
  | cons instruction code ih => simp [ih]

@[simp] theorem dst?_ofPlain (instruction : PlainInstruction) :
    (ofPlain instruction : Instruction τ).dst? = instruction.dst? := by
  cases instruction with
  | jumpIfNot condition target => exact target.elim
  | jumpIf condition target => exact target.elim
  | jump target => exact target.elim
  | _ => rfl

@[simp] theorem target?_ofPlain (instruction : PlainInstruction) :
    (ofPlain instruction : Instruction τ).target? = none := by
  cases instruction with
  | jumpIfNot condition target => exact target.elim
  | jumpIf condition target => exact target.elim
  | jump target => exact target.elim
  | _ => rfl

/-- Plain instructions stay as they are when places are replaced. -/
@[simp] theorem mapTargetM_ofPlain (f : τ → Except ε σ) (instruction : PlainInstruction) :
    (ofPlain instruction).mapTargetM f = .ok (ofPlain instruction) := by
  cases instruction with
  | jumpIfNot condition target => exact target.elim
  | jumpIf condition target => exact target.elim
  | jump target => exact target.elim
  | _ => rfl

/-- Replacing places makes no jump plain, and no plain instruction a jump. -/
theorem plain?_of_mapTargetM {f : τ → Except ε σ} {instruction : Instruction τ} {resolved : Instruction σ}
    (h : instruction.mapTargetM f = .ok resolved) : resolved.plain? = instruction.plain? := by
  cases instruction with
  | jumpIfNot condition target =>
      cases htarget : f target with
      | error error => simp [mapTargetM, htarget, Except.map] at h
      | ok place =>
          obtain rfl : .jumpIfNot condition place = resolved := by simpa [mapTargetM, htarget, Except.map] using h
          rfl
  | jumpIf condition target =>
      cases htarget : f target with
      | error error => simp [mapTargetM, htarget, Except.map] at h
      | ok place =>
          obtain rfl : .jumpIf condition place = resolved := by simpa [mapTargetM, htarget, Except.map] using h
          rfl
  | jump target =>
      cases htarget : f target with
      | error error => simp [mapTargetM, htarget, Except.map] at h
      | ok place =>
          obtain rfl : .jump place = resolved := by simpa [mapTargetM, htarget, Except.map] using h
          rfl
  | _ =>
      obtain rfl := Except.ok.inj h
      rfl

/-- An instruction that is plain is the plain instruction that it is taken for. -/
theorem eq_ofPlain_of_plain? {instruction : Instruction τ} {plain : PlainInstruction}
    (h : instruction.plain? = some plain) : instruction = ofPlain plain := by
  cases instruction with
  | jumpIfNot condition target => exact nomatch h
  | jumpIf condition target => exact nomatch h
  | jump target => exact nomatch h
  | _ =>
      obtain rfl := Option.some.inj h
      rfl

/-- An instruction is a jump or plain, as its flow tells. -/
theorem eq_of_flow (instruction : Instruction τ) :
    instruction = match instruction.flow with
      | .next plain => ofPlain plain
      | .jump target => .jump target
      | .jumpIf condition target => .jumpIf condition target
      | .jumpIfNot condition target => .jumpIfNot condition target := by
  cases instruction <;> rfl

/-- The registers whose values an instruction needs. -/
def sources : Instruction τ → List Register
  | .setVar src _ => [src]
  | .call callee arguments _ => callee :: arguments
  | .jumpIfNot condition _ => [condition]
  | .jumpIf condition _ => [condition]
  | .operate _ lhs rhs _ => [lhs, rhs]
  | .setField table _ src => [table, src]
  | .setTable table key src => [table, key, src]
  | .pushTable table src => [table, src]
  | .newScope _ parent => parent.toList
  | .scopeGet scope _ _ => [scope]
  | .scopeSet scope _ src => [scope, src]
  | .getField table _ _ => [table]
  | .load .. | .getVar .. | .jump .. | .setNil .. | .newTable .. => []

end Instruction

/-- The registers of an operand. -/
def Operand.registersOf {τ : Type} : Operand τ → List Register
  | .register r => [r]
  | .registers rs => rs
  | .constant _ | .target _ => []

namespace Instruction

variable {τ : Type}

/-- The registers among the operands are those that are read and the one that is written. -/
theorem operands_registers_perm (instruction : Instruction τ) :
    (instruction.operands.flatMap Operand.registersOf).Perm
      (instruction.sources ++ instruction.dst?.toList) := by
  cases instruction with
  | newScope dst parent =>
      cases parent with
      | none => exact List.Perm.refl _
      | some parent => exact List.Perm.swap _ _ _
  | _ => simp [operands, sources, dst?, Operand.registersOf]

/-- The registers among the operands other than the one that the instruction writes. -/
def reads (instruction : Instruction τ) : List Register :=
  let registers := instruction.operands.flatMap Operand.registersOf
  match instruction.dst? with
  | some dst => registers.erase dst
  | none => registers

theorem mem_reads_iff {instruction : Instruction τ} {register : Register} :
    register ∈ instruction.reads ↔ register ∈ instruction.sources := by
  have hperm := instruction.operands_registers_perm
  unfold reads
  cases hdst : instruction.dst? with
  | none =>
      rw [hdst] at hperm
      simpa using hperm.mem_iff
  | some dst =>
      rw [hdst] at hperm
      have hswap : (instruction.sources ++ [dst]).Perm (dst :: instruction.sources) :=
        List.perm_append_singleton dst instruction.sources
      have herase := (hperm.trans hswap).erase dst
      rw [List.erase_cons_head] at herase
      exact herase.mem_iff

@[simp] theorem sources_ofPlain (instruction : PlainInstruction) :
    (ofPlain instruction : Instruction τ).sources = instruction.sources := by
  cases instruction with
  | jumpIfNot condition target => exact target.elim
  | jumpIf condition target => exact target.elim
  | jump target => exact target.elim
  | _ => rfl

end Instruction
end ScriptBytecode
