import ScriptBytecode.Proofs.NamedConstants

/-!
# Every register is written once

A register is allocated right before the instruction that writes it, and nothing else is allocated in between. So the
registers that a program writes are all that were allocated, in the order of their allocation: no register is written
twice, and none is left out. `SinglyAssigned` says this of code under construction. It holds at the start, every rule of
lowering keeps it, and replacing labels by places does not change which registers are written.

Nothing here depends on labels, so the size of the program does not matter.
-/

namespace ScriptBytecode

open Assembler Assembling

namespace Assembler

variable {a b : Assembler}

/-- The code writes the registers that were allocated, each once and in the order of their allocation. -/
def SinglyAssigned (a : Assembler) : Prop :=
  WritesInOrder 0 a.lastRegister (a.code.toList.filterMap Instruction.plain?)

theorem singlyAssigned_empty : SinglyAssigned .empty :=
  .nil 0

namespace SinglyAssigned

/-- More code, which writes the registers behind the last one in order. -/
theorem extend {code : List PlainInstruction} (h : a.SinglyAssigned)
    (hcode : b.code.toList = a.code.toList ++ code.map (@Instruction.ofPlain Label))
    (hwrites : WritesInOrder a.lastRegister b.lastRegister code) : b.SinglyAssigned := by
  unfold SinglyAssigned
  rw [hcode, List.filterMap_append, Instruction.filterMap_plain?_map_ofPlain]
  exact h.append hwrites

theorem grows {given : List Register} {accesses : List Access} {code : List PlainInstruction} (h : a.SinglyAssigned)
    (grown : Grows given a accesses code b) : b.SinglyAssigned :=
  h.extend grown.code_eq grown.writesInOrder

theorem enter {inner : Register} (h : a.SinglyAssigned) (entered : enterScope a = .ok (inner, b)) :
    b.SinglyAssigned := by
  obtain ⟨c, allocated, rfl⟩ := enterScope_eq_ok_iff.mp entered
  have hnext := toNat_allocate allocated
  obtain ⟨-, -, rfl⟩ := allocate_eq_ok_iff.mp allocated
  have hwrites : WritesInOrder a.lastRegister (a.lastRegister + 1) [.newScope inner a.scopes.currentRegister?] :=
    (WritesInOrder.nil a.lastRegister).push_some rfl hnext
  exact h.extend (by simp [opened, Instruction.ofPlain]) hwrites

/-- A jump allocates nothing and writes nothing. -/
theorem push {instruction : Instruction Label} (h : a.SinglyAssigned) (hplain : instruction.plain? = none) :
    (a.pushed instruction).SinglyAssigned := by
  unfold SinglyAssigned at h ⊢
  rw [pushed_code_toList, List.filterMap_append, List.filterMap_cons_none hplain, List.filterMap_nil, List.append_nil]
  exact h

theorem reserve {clauses : List Clause} {labels : List Label} (h : a.SinglyAssigned)
    (reserved : newLabels clauses a = .ok (labels, b)) : b.SinglyAssigned := by
  obtain ⟨-, hcode, -, hregister⟩ := frame_newLabels reserved
  unfold SinglyAssigned at h ⊢
  rw [hcode, hregister]
  exact h

theorem tests {scope : Register} {clauses : List Clause} {labels : List Label} {tests : List Test}
    (h : a.SinglyAssigned) (tested : LowersTests scope a clauses labels tests b) : b.SinglyAssigned := by
  induction tested with
  | nil => exact h
  | guarded grown _ _ ih => exact ih ((h.grows grown).push rfl)
  | otherwise _ ih => exact ih (h.push rfl)

end SinglyAssigned
end Assembler

mutual

theorem singlyAssigned_statement {loopEnd : Option Label} {scope : Register} {a b : Assembler} {statement : Statement}
    {outline : Outline} (h : LowersStatement loopEnd scope a statement outline b) (hassigned : a.SinglyAssigned) :
    b.SinglyAssigned := by
  cases h with
  | simple _ grown => exact hassigned.grows grown
  | @conditional _ _ _ _ b _ _ _ _ _ _ _ _ _ _ entered reserved tested chosen =>
      have hentered : b.SinglyAssigned := hassigned.enter entered
      have hcreated : (b.withLabels b.labels.create.2).SinglyAssigned := hentered
      have htested := (hcreated.reserve reserved).tests tested
      have hchosen := singlyAssigned_bodies chosen (htested.push rfl)
      exact hchosen
  | @whileLoop _ _ _ _ b c _ e _ _ _ entry again _ _ entered entryGrown _ repeated againGrown _ =>
      have hentered : b.SinglyAssigned := hassigned.enter entered
      have hcreated : (b.withLabels b.labels.create.2).SinglyAssigned := hentered
      have hentry : (c.pushed (.jumpIfNot entry.condition b.labels.create.1)).SinglyAssigned :=
        (hcreated.grows entryGrown).push rfl
      -- Behind the body the condition is computed once more, in registers that are allocated then.
      have hbody := singlyAssigned_block repeated hentry
      have hagain : (e.pushed (.jumpIf again.condition c.labels.create.1)).SinglyAssigned :=
        (hbody.grows againGrown).push rfl
      exact hagain
  | breakLoop => exact hassigned.push rfl

theorem singlyAssigned_block {loopEnd : Option Label} {scope : Register} {a b : Assembler}
    {statements : List Statement} {outlines : List Outline} (h : LowersBlock loopEnd scope a statements outlines b)
    (hassigned : a.SinglyAssigned) : b.SinglyAssigned := by
  cases h with
  | nil => exact hassigned
  | cons first rest => exact singlyAssigned_block rest (singlyAssigned_statement first hassigned)

theorem singlyAssigned_bodies {loopEnd : Option Label} {scope : Register} {conditionalEnd : Label} {a b : Assembler}
    {clauses : List Clause} {labels : List Label} {bodies : List (List Outline)}
    (h : LowersBodies loopEnd scope conditionalEnd a clauses labels bodies b) (hassigned : a.SinglyAssigned) :
    b.SinglyAssigned := by
  cases h with
  | nil => exact hassigned
  | guarded first rest =>
      have hfirst := singlyAssigned_block first hassigned
      exact singlyAssigned_bodies rest (hfirst.push rfl)
  | otherwise first rest =>
      have hfirst := singlyAssigned_block first hassigned
      exact singlyAssigned_bodies rest hfirst

end

theorem LowersChunk.singlyAssigned {chunk : Chunk} {outline : ScriptOutline} {b : Assembler}
    (h : LowersChunk chunk outline b) : b.SinglyAssigned := by
  obtain ⟨scope, a, c, entered, -, hblock, rfl⟩ := h
  have hbody := singlyAssigned_block hblock (singlyAssigned_empty.enter entered)
  exact hbody

/-! ## The registers of a program -/

/-- The register that is allocated behind a number of others. -/
def Register.behind (others : Nat) : Register :=
  ⟨UInt32.ofNat (others + 1)⟩

/-- A list of registers is known by their numbers. -/
theorem eq_map_behind {registers : List Register} {count : Nat}
    (h : registers.map (·.index.toNat) = List.range' 1 count) : registers = (List.range count).map .behind := by
  have hback : registers = (registers.map (·.index.toNat)).map fun number => ⟨UInt32.ofNat number⟩ := by
    rw [List.map_map]
    exact (List.map_id'' (fun register => by simp) registers).symm
  rw [hback, h, List.range'_eq_map_range, List.map_map]
  apply List.map_congr_left
  intro others _
  simp [Register.behind, Nat.add_comm]

namespace Program

variable {program : Program}

/-- The instruction at a position writes a register. -/
def WritesAt (program : Program) (register : Register) (position : Nat) : Prop :=
  ∃ instruction, program.instructions[position]? = some instruction ∧ instruction.dst? = some register

theorem exists_writesAt {register : Register} (h : register ∈ program.destinations) :
    ∃ position, program.WritesAt register position := by
  obtain ⟨instruction, hmem, hdst⟩ := List.mem_filterMap.mp h
  obtain ⟨position, hposition⟩ := List.mem_iff_getElem?.mp hmem
  exact ⟨position, instruction, by rwa [Array.getElem?_toList] at hposition, hdst⟩

/-- Where no register is written twice, no two positions write the same one. -/
theorem WritesAt.eq {register : Register} {position other : Nat} (hnodup : program.destinations.Nodup)
    (h : program.WritesAt register position) (h' : program.WritesAt register other) : position = other := by
  -- A register that is written at two positions stands twice in the list, at the earlier one and at the later one.
  have hnever : ∀ first second, first < second → program.WritesAt register first →
      ¬ program.WritesAt register second := by
    rintro first second hlt ⟨earlier, hearlier, hdst⟩ ⟨later, hlater, hdst'⟩
    have hpairs := List.pairwise_filterMap.mp hnodup
    rw [← Array.getElem?_toList] at hearlier hlater
    obtain ⟨hbound, rfl⟩ := List.getElem?_eq_some_iff.mp hearlier
    obtain ⟨hbound', rfl⟩ := List.getElem?_eq_some_iff.mp hlater
    exact List.pairwise_iff_getElem.mp hpairs first second hbound hbound' hlt register hdst register hdst' rfl
  rcases Nat.lt_trichotomy position other with hlt | heq | hgt
  · exact absurd h' (hnever position other hlt h)
  · exact heq
  · exact absurd h (hnever other position hgt h')

/-- Jumps write no register, so finishing a program does not change which registers are written. -/
theorem destinations_of_resolveCode {table : LabelTable} {code : List (Instruction Label)}
    (h : resolveCode table code = .ok program.instructions.toList) :
    program.destinations = written (code.filterMap Instruction.plain?) := by
  unfold destinations written
  rw [← plain_of_resolveCode h, List.filterMap_filterMap]
  exact List.filterMap_congr fun instruction _ => by cases instruction <;> rfl

end Program

/-- A register has been allocated. -/
def Assembler.Allocated (a : Assembler) (register : Register) : Prop :=
  0 < register.index.toNat ∧ register.index.toNat ≤ a.lastRegister.toNat

/-- A program writes the registers that were allocated for its script, as many as the tree takes, in the order of their
allocation. Each of them is written by exactly one instruction. -/
theorem destinations_of_compile {chunk : Chunk} {program : Program} (h : chunk.compile = .ok program) :
    ∃ a, lowerChunk chunk .empty = .ok ((), a) ∧ a.lastRegister.toNat = chunk.registers ∧
      program.destinations = (List.range a.lastRegister.toNat).map .behind ∧
        ∀ register, a.Allocated register → ∃! position, program.WritesAt register position := by
  obtain ⟨a, hlower, hcode, -⟩ := lowerChunk_of_compile_eq_ok h
  obtain ⟨outline, -, lowered⟩ := lowersChunk_of_lowerChunk hlower
  obtain ⟨-, hregisters, -⟩ := (demands_lowerChunk chunk).of_eq_ok hlower
  have hlast : a.lastRegister.toNat = chunk.registers := hregisters.trans (Nat.zero_add _)
  obtain ⟨hordered, hcount⟩ := lowered.singlyAssigned
  have hnumbers : program.destinations.map (·.index.toNat) = List.range' 1 a.lastRegister.toNat := by
    rw [Program.destinations_of_resolveCode hcode, hordered, hcount, UInt32.toNat_zero, Nat.zero_add, Nat.zero_add]
  refine ⟨a, hlower, hlast, eq_map_behind hnumbers, ?_⟩
  rintro register ⟨hpositive, hle⟩
  have hnodup : program.destinations.Nodup := by
    apply List.Nodup.of_map (·.index.toNat)
    rw [hnumbers]
    exact List.nodup_range'
  have hmem : register ∈ program.destinations := by
    have hnumber : register.index.toNat ∈ program.destinations.map (·.index.toNat) := by
      rw [hnumbers, List.mem_range'_1]
      omega
    obtain ⟨same, hsame, heq⟩ := List.mem_map.mp hnumber
    obtain ⟨index⟩ := register
    obtain ⟨other⟩ := same
    obtain rfl : other = index := UInt32.toNat_inj.mp heq
    exact hsame
  obtain ⟨position, hposition⟩ := Program.exists_writesAt hmem
  exact ⟨position, hposition, fun other hother => hother.eq hnodup hposition⟩

/-- In the loop around a table, the register of the table comes before those of its fields, and the condition has two
registers before the body and two behind it. -/
theorem destinations_of_compile_refilledTable :
    ∃ program a, refilledTable.compile = .ok program ∧ lowerChunk refilledTable .empty = .ok ((), a) ∧
      a.lastRegister.toNat = 10 ∧
      program.destinations = [⟨1⟩, ⟨2⟩, ⟨3⟩, ⟨4⟩, ⟨5⟩, ⟨6⟩, ⟨7⟩, ⟨8⟩, ⟨9⟩, ⟨10⟩] ∧ a.Allocated ⟨5⟩ ∧
        ∃! position, program.WritesAt ⟨5⟩ position := by
  obtain ⟨program, hcompile⟩ := @exists_program_of_isSome refilledTable (by decide +kernel)
  obtain ⟨a, hlower, hcount, hall, honce⟩ := destinations_of_compile hcompile
  have hten : a.lastRegister.toNat = 10 := hcount.trans (by decide)
  have hallocated : a.Allocated ⟨5⟩ := by
    unfold Assembler.Allocated
    rw [hten]
    decide
  rw [hten] at hall
  exact ⟨program, a, hcompile, hlower, hten, hall, hallocated, honce _ hallocated⟩

end ScriptBytecode
