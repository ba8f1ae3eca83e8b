import ScriptBytecode.Proofs.Layout

/-!
# Validity

Whatever script can be lowered has a program, and the program is valid. `Consistent` is what holds between any two steps
of lowering: every jump goes to a label that has a place, or to one that is still awaited because its statement is not
complete; places lie in the code so far or right behind it; and what instructions name in the pool is there. A statement
leaves no labels awaited but those that were awaited before it, and a script awaits none.

Unlike the places of labels, none of this depends on the size of the script. When there are more labels than numbers, a
number stands for an older label as well, and binding it gives a place to both.
-/

namespace ScriptBytecode

open Assembler Assembling

/-! ## Valid programs -/

/-- What is asked of a program: its numbers are finite, its jumps go to an instruction or to the end, and the constants
that it names are in the pool. -/
structure Program.Valid (program : Program) : Prop where
  finite : ∀ value, Constant.number value ∈ program.constants.constants → value.isFinite = true
  targets : ∀ instruction ∈ program.instructions, ∀ target, instruction.target? = some target →
    target.pc.toNat ≤ program.length
  constants : ∀ instruction ∈ program.instructions, ∀ constant ∈ instruction.constants,
    constant.index.toNat < program.constants.size

namespace Instruction

variable {τ σ ε : Type}

theorem target_mem_operands_iff {instruction : Instruction τ} {target : τ} :
    Operand.target target ∈ instruction.operands ↔ instruction.target? = some target := by
  cases instruction with
  | newScope dst parent => cases parent <;> simp [operands, target?]
  | _ => simp [operands, target?, eq_comm]

theorem mem_constants_iff {instruction : Instruction τ} {constant : ConstantIndex} :
    constant ∈ instruction.constants ↔ Operand.constant constant ∈ instruction.operands := by
  unfold constants
  rw [List.mem_filterMap]
  constructor
  · rintro ⟨operand, hmem, hconstant⟩
    cases operand with
    | constant other =>
        obtain rfl := Option.some.inj hconstant
        exact hmem
    | register _ => exact nomatch hconstant
    | registers _ => exact nomatch hconstant
    | target _ => exact nomatch hconstant
  · intro hmem
    exact ⟨.constant constant, hmem, rfl⟩

@[simp] theorem constants_ofPlain (instruction : PlainInstruction) :
    (ofPlain instruction : Instruction τ).constants = instruction.constants := by
  cases instruction with
  | jumpIfNot condition target => exact target.elim
  | jumpIf condition target => exact target.elim
  | jump target => exact target.elim
  | newScope dst parent => cases parent <;> rfl
  | _ => rfl

/-- Places can be replaced if the place that a jump goes to can. The constants stay as they are. -/
theorem exists_mapTargetM {f : τ → Except ε σ} {instruction : Instruction τ}
    (h : ∀ label, instruction.target? = some label → ∃ target, f label = .ok target) :
    ∃ resolved, instruction.mapTargetM f = .ok resolved ∧ resolved.constants = instruction.constants ∧
      ∀ target, resolved.target? = some target → ∃ label, f label = .ok target := by
  cases instruction with
  | jumpIfNot condition label =>
      obtain ⟨target, hlabel⟩ := h label rfl
      refine ⟨.jumpIfNot condition target, by simp [mapTargetM, hlabel, Except.map], rfl, ?_⟩
      rintro _ ⟨⟩
      exact ⟨label, hlabel⟩
  | jumpIf condition label =>
      obtain ⟨target, hlabel⟩ := h label rfl
      refine ⟨.jumpIf condition target, by simp [mapTargetM, hlabel, Except.map], rfl, ?_⟩
      rintro _ ⟨⟩
      exact ⟨label, hlabel⟩
  | jump label =>
      obtain ⟨target, hlabel⟩ := h label rfl
      refine ⟨.jump target, by simp [mapTargetM, hlabel, Except.map], rfl, ?_⟩
      rintro _ ⟨⟩
      exact ⟨label, hlabel⟩
  | newScope dst parent =>
      refine ⟨.newScope dst parent, by cases parent <;> rfl, by cases parent <;> rfl, ?_⟩
      rintro _ ⟨⟩
  | _ =>
      refine ⟨_, rfl, rfl, ?_⟩
      rintro _ ⟨⟩

end Instruction

namespace Program

variable {program : Program}

theorem constantFault?_eq_none_iff (index : Nat) {constants : List Constant} :
    constantFault? index constants = none ↔ ∀ constant ∈ constants, constant.isEncodable = true := by
  induction constants generalizing index with
  | nil => simp [constantFault?]
  | cons constant constants ih =>
      unfold constantFault?
      by_cases hencodable : constant.isEncodable = true
      · simp [hencodable, ih]
      · simp [hencodable]

theorem operandFault?_eq_none_iff (position : Nat) {instruction : Instruction JumpTarget} :
    (∀ operand ∈ instruction.operands, program.operandFault? position operand = none) ↔
      (∀ target, instruction.target? = some target → target.pc.toNat ≤ program.length) ∧
        ∀ constant ∈ instruction.constants, constant.index.toNat < program.constants.size := by
  constructor
  · intro h
    constructor
    · intro target htarget
      have hfault := h _ (Instruction.target_mem_operands_iff.mpr htarget)
      simpa [operandFault?] using hfault
    · intro constant hconstant
      have hfault := h _ (Instruction.mem_constants_iff.mp hconstant)
      simpa [operandFault?] using hfault
  · rintro ⟨htargets, hconstants⟩ operand hmem
    cases operand with
    | register _ => rfl
    | registers _ => rfl
    | target target => simpa [operandFault?] using htargets target (Instruction.target_mem_operands_iff.mp hmem)
    | constant constant => simpa [operandFault?] using hconstants constant (Instruction.mem_constants_iff.mpr hmem)

theorem instructionFault?_eq_none_iff (position : Nat) {instructions : List (Instruction JumpTarget)} :
    program.instructionFault? position instructions = none ↔
      ∀ instruction ∈ instructions,
        (∀ target, instruction.target? = some target → target.pc.toNat ≤ program.length) ∧
          ∀ constant ∈ instruction.constants, constant.index.toNat < program.constants.size := by
  induction instructions generalizing position with
  | nil => simp [instructionFault?]
  | cons instruction instructions ih =>
      rw [List.forall_mem_cons, ← ih (position + 1), ← operandFault?_eq_none_iff position, ← List.findSome?_eq_none_iff]
      rw [instructionFault?]
      cases instruction.operands.findSome? (program.operandFault? position) <;> simp

/-- The check that a program is valid finds all faults. -/
theorem validate_eq_ok_iff : program.validate = .ok () ↔ program.Valid := by
  have hfinite : (∀ constant ∈ program.constants.constants.toList, constant.isEncodable = true) ↔
      ∀ value, Constant.number value ∈ program.constants.constants → value.isFinite = true := by
    constructor
    · intro h value hmem
      exact h (.number value) hmem.val
    · intro h constant hmem
      cases constant with
      | boolean value => rfl
      | string value => rfl
      | number value => exact h value ⟨hmem⟩
  have hfault : program.validate = .ok () ↔ program.fault? = none := by
    unfold validate
    cases program.fault? <;> simp
  rw [hfault]
  unfold fault?
  cases hconstants : constantFault? 0 program.constants.constants.toList with
  | some fault =>
      -- A constant that documents cannot hold is reported whatever the instructions are.
      have hnot : ¬ ∀ value, Constant.number value ∈ program.constants.constants → value.isFinite = true := by
        rw [← hfinite, ← constantFault?_eq_none_iff 0, hconstants]
        exact nofun
      exact iff_of_false nofun fun hvalid => hnot hvalid.finite
  | none =>
      have hencodable := hfinite.mp ((constantFault?_eq_none_iff 0).mp hconstants)
      simp only [instructionFault?_eq_none_iff]
      constructor
      · intro h
        exact ⟨hencodable, fun instruction hmem => (h instruction hmem.val).1,
          fun instruction hmem => (h instruction hmem.val).2⟩
      · intro h instruction hmem
        exact ⟨h.targets instruction ⟨hmem⟩, h.constants instruction ⟨hmem⟩⟩

end Program

/-! ## Labels with a place -/

namespace LabelTable

variable {table : LabelTable} {label other : Label} {pc : UInt32}

theorem isBound_iff : table.isBound label = true ↔ ∃ pc, table.slots[label.id.toNat]? = some (some pc) := by
  unfold isBound target?
  split
  · rename_i pc hslot
    simp [hslot]
  · rename_i hnone
    simpa using hnone

theorem resolve_eq_ok_iff {target : JumpTarget} :
    table.resolve label = .ok target ↔ table.slots[label.id.toNat]? = some (some target.pc) := by
  constructor
  · intro h
    unfold resolve target? at h
    split at h
    · rename_i found hfound
      split at hfound
      · rename_i pc hslot
        obtain rfl := Except.ok.inj h
        obtain rfl := Option.some.inj hfound
        exact hslot
      · exact nomatch hfound
    · exact nomatch h
  · intro h
    unfold resolve
    rw [target?_of_slots h]

/-- A new label has a number for which the table has a slot, even if the number has come around. -/
theorem toNat_create_lt (table : LabelTable) : table.create.1.id.toNat < table.create.2.size := by
  show (UInt32.ofNat table.size).toNat < table.create.2.size
  rw [UInt32.toNat_ofNat', size_create]
  exact Nat.lt_succ_of_le (Nat.mod_le _ _)

theorem slots_create {index : Nat} (h : table.create.2.slots[index]? = some (some pc)) :
    table.slots[index]? = some (some pc) := by
  rcases Nat.lt_trichotomy index table.size with hlt | heq | hgt
  · rwa [slots_create_of_lt hlt] at h
  · rw [heq, slots_create_size] at h
    exact nomatch h
  · have hsize := (Array.getElem?_eq_some_iff.mp h).1
    have hcreated := table.size_create
    unfold size at hcreated hgt
    omega

theorem isBound_create (h : table.isBound label = true) : table.create.2.isBound label = true := by
  obtain ⟨pc, hslot⟩ := isBound_iff.mp h
  have hlt : label.id.toNat < table.size := (Array.getElem?_eq_some_iff.mp hslot).1
  exact isBound_iff.mpr ⟨pc, (slots_create_of_lt hlt).trans hslot⟩

theorem isBound_bind_self (h : label.id.toNat < table.size) : (table.bind label pc).isBound label = true :=
  isBound_iff.mpr ⟨pc, slots_bind_self h⟩

/-- Binding a label takes no place away. -/
theorem isBound_bind (h : table.isBound label = true) : (table.bind other pc).isBound label = true := by
  obtain ⟨old, hslot⟩ := isBound_iff.mp h
  have hlt : label.id.toNat < table.size := (Array.getElem?_eq_some_iff.mp hslot).1
  by_cases hsame : other.id.toNat = label.id.toNat
  · refine isBound_iff.mpr ⟨pc, ?_⟩
    rw [← hsame] at hlt ⊢
    exact slots_bind_self hlt
  · exact isBound_iff.mpr ⟨old, (slots_bind_of_ne hsame).trans hslot⟩

theorem slots_bind {index : Nat} {place : UInt32} (h : (table.bind label pc).slots[index]? = some (some place)) :
    place = pc ∨ table.slots[index]? = some (some place) := by
  by_cases hsame : label.id.toNat = index
  · have hlt : label.id.toNat < table.size := by
      have hbound := (Array.getElem?_eq_some_iff.mp h).1
      rw [← size_bind table label pc, hsame]
      exact hbound
    rw [← hsame, slots_bind_self hlt] at h
    exact Or.inl (Option.some.inj (Option.some.inj h)).symm
  · rw [slots_bind_of_ne hsame] at h
    exact Or.inr h

end LabelTable

/-! ## What holds between the steps of lowering -/

/-- An assembler in the middle of a script, with labels that have been bound and the labels that are still to be
bound. -/
structure Assembler.Consistent (placed awaited : List Label) (a : Assembler) : Prop where
  bound : ∀ label ∈ placed, a.labels.isBound label = true
  created : ∀ label ∈ awaited, label.id.toNat < a.labels.size
  targets : ∀ instruction ∈ a.code.toList, ∀ label, instruction.target? = some label →
    a.labels.isBound label = true ∨ label ∈ awaited
  places : ∀ (index : Nat) (pc : UInt32), a.labels.slots[index]? = some (some pc) → pc.toNat ≤ a.code.size
  constants : ∀ instruction ∈ a.code.toList, ∀ constant ∈ instruction.constants,
    constant.index.toNat < a.constants.size
  pool : a.constants.Sound

theorem consistent_empty : Consistent [] [] .empty where
  bound := by simp
  created := by simp
  targets := by simp [Assembler.empty]
  places := by simp [Assembler.empty, LabelTable.empty]
  constants := by simp [Assembler.empty]
  pool := ConstantPool.sound_empty

namespace Assembler.Consistent

variable {placed awaited : List Label} {a b : Assembler} {label : Label}

/-- Only which labels are awaited matters. -/
theorem congr {others : List Label} (h : a.Consistent placed awaited)
    (hsame : ∀ label, label ∈ awaited ↔ label ∈ others) : a.Consistent placed others where
  bound := h.bound
  created label hlabel := h.created label ((hsame label).mpr hlabel)
  targets instruction hmem label htarget := by
    rw [← hsame]
    exact h.targets instruction hmem label htarget
  places := h.places
  constants := h.constants
  pool := h.pool

/-- A label that nothing will jump to any more need not be known to have a place. -/
theorem forget (h : a.Consistent (label :: placed) awaited) : a.Consistent placed awaited :=
  { h with bound := fun other hother => h.bound other (List.mem_cons_of_mem label hother) }

/-- More code, whose jumps go to labels that have a place or are awaited. -/
theorem extend {code : List (Instruction Label)} (h : a.Consistent placed awaited) (hadvances : a.Advances b)
    (hlabels : b.labels = a.labels) (hcode : b.code.toList = a.code.toList ++ code)
    (htargets : ∀ instruction ∈ code, ∀ label, instruction.target? = some label →
      a.labels.isBound label = true ∨ label ∈ awaited)
    (hconstants : ∀ instruction ∈ code, ∀ constant ∈ instruction.constants,
      constant.index.toNat < b.constants.size) : b.Consistent placed awaited where
  bound := by
    rw [hlabels]
    exact h.bound
  created := by
    rw [hlabels]
    exact h.created
  targets := by
    rw [hcode, hlabels]
    exact List.forall_mem_append.mpr ⟨h.targets, htargets⟩
  places index pc hslot := by
    rw [hlabels] at hslot
    have hold := h.places index pc hslot
    have hsize := congrArg List.length hcode
    simp only [Array.length_toList, List.length_append] at hsize
    omega
  constants := by
    rw [hcode]
    refine List.forall_mem_append.mpr ⟨?_, hconstants⟩
    intro instruction hmem constant hconstant
    exact Nat.lt_of_lt_of_le (h.constants instruction hmem constant hconstant) hadvances.constants.size_le
  pool := hadvances.sound h.pool

theorem grows {given : List Register} {accesses : List Access} {code : List PlainInstruction}
    (h : a.Consistent placed awaited) (grown : Grows given a accesses code b) : b.Consistent placed awaited := by
  refine h.extend grown.advances grown.labels_eq grown.code_eq ?_ ?_
  · intro instruction hmem label htarget
    obtain ⟨plain, -, rfl⟩ := List.mem_map.mp hmem
    rw [Instruction.target?_ofPlain] at htarget
    exact nomatch htarget
  · intro instruction hmem constant hconstant
    obtain ⟨plain, hplain, rfl⟩ := List.mem_map.mp hmem
    rw [Instruction.constants_ofPlain] at hconstant
    exact grown.constants_lt plain hplain constant hconstant

theorem enter {inner : Register} (h : a.Consistent placed awaited) (entered : enterScope a = .ok (inner, b)) :
    b.Consistent placed awaited := by
  obtain ⟨hlabels, -, -, hcode⟩ := frame_enterScope entered rfl
  refine h.extend (advances_of_enterScope entered) hlabels hcode ?_ ?_
  · simp [Instruction.target?]
  · cases a.scopes.currentRegister? <;> simp [Instruction.constants, Instruction.operands]

/-- A jump to a label that has a place or is awaited. -/
theorem push (instruction : Instruction Label) (h : a.Consistent placed awaited)
    (htarget : instruction.target? = some label) (hlabel : label ∈ placed ∨ label ∈ awaited) :
    (a.pushed instruction).Consistent placed awaited := by
  refine h.extend (Advances.refl a) rfl (pushed_code_toList a instruction) ?_ ?_
  · intro pushed hmem other hother
    rw [List.mem_singleton.mp hmem, htarget] at hother
    obtain rfl := Option.some.inj hother
    exact hlabel.imp_left (h.bound label)
  · intro pushed hmem constant hconstant
    rw [List.mem_singleton.mp hmem] at hconstant
    cases instruction <;> simp [Instruction.target?, Instruction.constants, Instruction.operands] at htarget hconstant

/-- A new label is awaited. -/
theorem create (h : a.Consistent placed awaited) :
    (a.withLabels a.labels.create.2).Consistent placed (a.labels.create.1 :: awaited) where
  bound label hlabel := LabelTable.isBound_create (h.bound label hlabel)
  created label hlabel := by
    rcases List.mem_cons.mp hlabel with rfl | hold
    · exact a.labels.toNat_create_lt
    · have hlt := h.created label hold
      simp only [withLabels_labels, LabelTable.size_create]
      omega
  targets instruction hmem label htarget := by
    rcases h.targets instruction hmem label htarget with hbound | hlabel
    · exact Or.inl (LabelTable.isBound_create hbound)
    · exact Or.inr (List.mem_cons_of_mem _ hlabel)
  places index pc hslot := h.places index pc (LabelTable.slots_create hslot)
  constants := h.constants
  pool := h.pool

/-- A label that gets a place is no longer awaited. -/
theorem bind (h : a.Consistent placed (label :: awaited)) : (a.bound label).Consistent (label :: placed) awaited where
  bound other hother := by
    rcases List.mem_cons.mp hother with rfl | hold
    · exact LabelTable.isBound_bind_self (h.created other List.mem_cons_self)
    · exact LabelTable.isBound_bind (h.bound other hold)
  created other hother := by
    rw [bound_labels, LabelTable.size_bind]
    exact h.created other (List.mem_cons_of_mem label hother)
  targets instruction hmem other htarget := by
    rcases h.targets instruction hmem other htarget with hbound | hother
    · exact Or.inl (LabelTable.isBound_bind hbound)
    · rcases List.mem_cons.mp hother with rfl | hold
      · exact Or.inl (LabelTable.isBound_bind_self (h.created other List.mem_cons_self))
      · exact Or.inr hold
  places index pc hslot := by
    rcases LabelTable.slots_bind hslot with rfl | hold
    · -- The place of the next instruction, or one further up if the code is too long for its words.
      show (UInt32.ofNat a.code.size).toNat ≤ a.code.size
      rw [UInt32.toNat_ofNat']
      exact Nat.mod_le _ _
    · exact h.places index pc hold
  constants := h.constants
  pool := h.pool

theorem close (h : a.Consistent placed awaited) : a.closed.Consistent placed awaited :=
  ⟨h.bound, h.created, h.targets, h.places, h.constants, h.pool⟩

theorem reserve {clauses : List Clause} {labels : List Label} (h : a.Consistent placed awaited)
    (reserved : newLabels clauses a = .ok (labels, b)) : b.Consistent placed (labels ++ awaited) := by
  induction clauses generalizing a labels awaited with
  | nil =>
      obtain ⟨rfl, rfl⟩ := Prod.mk.inj (Except.ok.inj reserved)
      exact h
  | cons clause clauses ih =>
      unfold newLabels at reserved
      rw [bind_of_ok (newLabel_apply a)] at reserved
      obtain ⟨rest, c, hrest, hpure⟩ := bind_eq_ok_iff.mp reserved
      obtain ⟨rfl, rfl⟩ := Prod.mk.inj (pure_eq_ok_iff.mp hpure)
      refine (ih h.create hrest).congr ?_
      intro label
      simp only [List.mem_append, List.mem_cons]
      tauto

theorem tests {scope : Register} {clauses : List Clause} {labels : List Label} {tests : List Test}
    (h : a.Consistent placed awaited) (tested : LowersTests scope a clauses labels tests b)
    (hlabels : ∀ label ∈ labels, label ∈ awaited) : b.Consistent placed awaited := by
  induction tested with
  | nil => exact h
  | guarded grown _ _ ih =>
      obtain ⟨hlabel, hrest⟩ := List.forall_mem_cons.mp hlabels
      exact ih ((h.grows grown).push _ rfl (Or.inr hlabel)) hrest
  | otherwise _ ih =>
      obtain ⟨hlabel, hrest⟩ := List.forall_mem_cons.mp hlabels
      exact ih (h.push _ rfl (Or.inr hlabel)) hrest

end Assembler.Consistent

mutual

/-- A statement binds all its labels. -/
theorem consistent_statement {loopEnd : Option Label} {scope : Register} {a b : Assembler} {statement : Statement}
    {outline : Outline} (h : LowersStatement loopEnd scope a statement outline b) {placed awaited : List Label}
    (hexit : ∀ exit, loopEnd = some exit → exit ∈ awaited) (hconsistent : a.Consistent placed awaited) :
    b.Consistent placed awaited := by
  cases h with
  | simple _ grown => exact hconsistent.grows grown
  | @conditional _ _ _ _ b _ _ _ _ _ labels _ _ _ _ entered reserved tested chosen =>
      -- The end of the conditional is awaited longer than the labels of its clauses.
      have hreserved := (hconsistent.enter entered).create.reserve reserved
      have htested := hreserved.tests tested fun _ hlabel => List.mem_append_left _ hlabel
      have hend : b.labels.create.1 ∈ labels ++ b.labels.create.1 :: awaited := by simp
      have hpushed := htested.push (.jump b.labels.create.1) rfl (Or.inr hend)
      have hchosen := consistent_bodies chosen (fun exit hsome => List.mem_cons_of_mem _ (hexit exit hsome))
        List.mem_cons_self hpushed
      exact hchosen.bind.forget.close
  | @whileLoop _ _ _ _ b c _ _ _ _ _ entry again _ _ entered entryGrown _ repeated againGrown _ =>
      have hentered := ((hconsistent.enter entered).create.grows entryGrown).push
        (.jumpIfNot entry.condition b.labels.create.1) rfl (Or.inr List.mem_cons_self)
      -- The beginning of a round has its place before the body, and the jump back to it comes behind the body.
      have hround := hentered.create.bind
      have hbody := consistent_block repeated
        (fun exit hsome => Option.some.inj hsome ▸ List.mem_cons_self) hround
      have hagain := (hbody.grows againGrown).push (.jumpIf again.condition c.labels.create.1) rfl
        (Or.inl List.mem_cons_self)
      exact hagain.bind.forget.forget.close
  | breakLoop => exact hconsistent.push _ rfl (Or.inr (hexit _ rfl))

theorem consistent_block {loopEnd : Option Label} {scope : Register} {a b : Assembler}
    {statements : List Statement} {outlines : List Outline} (h : LowersBlock loopEnd scope a statements outlines b)
    {placed awaited : List Label} (hexit : ∀ exit, loopEnd = some exit → exit ∈ awaited)
    (hconsistent : a.Consistent placed awaited) : b.Consistent placed awaited := by
  cases h with
  | nil => exact hconsistent
  | cons first rest => exact consistent_block rest hexit (consistent_statement first hexit hconsistent)

theorem consistent_bodies {loopEnd : Option Label} {scope : Register} {conditionalEnd : Label} {a b : Assembler}
    {clauses : List Clause} {labels : List Label} {bodies : List (List Outline)}
    (h : LowersBodies loopEnd scope conditionalEnd a clauses labels bodies b) {placed awaited : List Label}
    (hexit : ∀ exit, loopEnd = some exit → exit ∈ awaited) (hend : conditionalEnd ∈ awaited)
    (hconsistent : a.Consistent placed (labels ++ awaited)) : b.Consistent placed awaited := by
  cases h with
  | nil => exact hconsistent
  | guarded first rest =>
      have hfirst := consistent_block first (fun exit hsome => List.mem_append_right _ (hexit exit hsome))
        hconsistent.bind.forget
      have hpushed := hfirst.push (.jump conditionalEnd) rfl (Or.inr (List.mem_append_right _ hend))
      exact consistent_bodies rest hexit hend hpushed
  | otherwise first rest =>
      have hfirst := consistent_block first (fun exit hsome => List.mem_append_right _ (hexit exit hsome))
        hconsistent.bind.forget
      exact consistent_bodies rest hexit hend hfirst

end

/-- A script that has been lowered awaits no labels. -/
theorem LowersChunk.consistent {chunk : Chunk} {outline : ScriptOutline} {b : Assembler}
    (h : LowersChunk chunk outline b) : b.Consistent [] [] := by
  obtain ⟨scope, a, c, entered, -, hblock, rfl⟩ := h
  have hbody := consistent_block hblock (fun exit hsome => nomatch hsome) (consistent_empty.enter entered)
  exact hbody.close

/-! ## Finishing a program -/

/-- Code can be finished if all labels that it jumps to have places. It then jumps to places of the table and names the
same constants. -/
theorem exists_resolveCode {table : LabelTable} {code : List (Instruction Label)}
    (h : ∀ instruction ∈ code, ∀ label, instruction.target? = some label → table.isBound label = true) :
    ∃ resolved, resolveCode table code = .ok resolved ∧ ∀ instruction ∈ resolved,
      (∃ old ∈ code, instruction.constants = old.constants) ∧
        ∀ target, instruction.target? = some target → ∃ label, table.resolve label = .ok target := by
  induction code with
  | nil => exact ⟨[], rfl, by simp⟩
  | cons instruction code ih =>
      obtain ⟨hfirst, hrest⟩ := List.forall_mem_cons.mp h
      have hresolves : ∀ label, instruction.target? = some label → ∃ target, table.resolve label = .ok target := by
        intro label htarget
        obtain ⟨pc, hslot⟩ := LabelTable.isBound_iff.mp (hfirst label htarget)
        exact ⟨⟨pc⟩, LabelTable.resolve_eq_ok_iff.mpr hslot⟩
      obtain ⟨first, hmapped, hconstants, htarget⟩ := Instruction.exists_mapTargetM hresolves
      obtain ⟨rest, hcode, hall⟩ := ih hrest
      refine ⟨first :: rest, by simp [resolveCode, hmapped, hcode], ?_⟩
      intro new hnew
      rcases List.mem_cons.mp hnew with rfl | hlater
      · exact ⟨⟨instruction, List.mem_cons_self, hconstants⟩, htarget⟩
      · obtain ⟨⟨old, hold, hsame⟩, hplace⟩ := hall new hlater
        exact ⟨⟨old, List.mem_cons_of_mem instruction hold, hsame⟩, hplace⟩

theorem Assembler.Consistent.exists_finish {a : Assembler} (h : a.Consistent [] []) :
    ∃ program, a.finish = .ok program := by
  have hbound : ∀ instruction ∈ a.code.toList, ∀ label, instruction.target? = some label →
      a.labels.isBound label = true :=
    fun instruction hmem label htarget => (h.targets instruction hmem label htarget).resolve_right List.not_mem_nil
  obtain ⟨code, hcode, hall⟩ := exists_resolveCode hbound
  have hlength : code.length = a.code.size := by
    rw [length_of_resolveCode hcode, Array.length_toList]
  have hvalid : Program.Valid ⟨a.constants, code.toArray⟩ := by
    constructor
    · intro value hmem
      exact h.pool.encodable (.number value) hmem
    · intro instruction hmem target htarget
      obtain ⟨label, hlabel⟩ := (hall instruction (List.mem_toArray.mp hmem)).2 target htarget
      have hplace := h.places _ _ (LabelTable.resolve_eq_ok_iff.mp hlabel)
      rw [← hlength] at hplace
      exact hplace
    · intro instruction hmem constant hconstant
      obtain ⟨old, hold, hsame⟩ := (hall instruction (List.mem_toArray.mp hmem)).1
      rw [hsame] at hconstant
      exact h.constants old hold constant hconstant
  exact ⟨_, finish_eq_ok_iff.mpr ⟨hcode, rfl, Program.validate_eq_ok_iff.mpr hvalid⟩⟩

/-- Compiling is total but for the errors that blame the script or its size: whatever is lowered can be finished, and
what is finished is valid. -/
theorem compile_never_fails_internally (chunk : Chunk) :
    (∀ a, lowerChunk chunk .empty = .ok ((), a) → ∃ program, a.finish = .ok program) ∧
      (∀ error, chunk.compile = .error error → ¬ error.IsInternal) ∧
        ∀ program, chunk.compile = .ok program → program.validate = .ok () ∧ program.Valid := by
  have hfinish : ∀ a, lowerChunk chunk .empty = .ok ((), a) → ∃ program, a.finish = .ok program := by
    intro a hlower
    obtain ⟨outline, -, lowered⟩ := lowersChunk_of_lowerChunk hlower
    exact lowered.consistent.exists_finish
  refine ⟨hfinish, ?_, ?_⟩
  · intro error herror
    unfold Chunk.compile at herror
    cases hlower : lowerChunk chunk .empty with
    | error other =>
        simp only [hlower] at herror
        obtain rfl := Except.error.inj herror
        exact not_isInternal_of_lowerChunk hlower
    | ok result =>
        obtain ⟨⟨⟩, a⟩ := result
        obtain ⟨program, hprogram⟩ := hfinish a hlower
        simp [hlower, hprogram] at herror
  · intro program hcompile
    unfold Chunk.compile at hcompile
    cases hlower : lowerChunk chunk .empty with
    | error error => simp [hlower] at hcompile
    | ok result =>
        simp only [hlower] at hcompile
        obtain ⟨-, -, hvalid⟩ := finish_eq_ok_iff.mp hcompile
        exact ⟨hvalid, Program.validate_eq_ok_iff.mp hvalid⟩

/-- A script that compiles, and one that does not. -/
theorem compile_never_fails_internally_samples :
    (∃ a program, lowerChunk leavableLoop .empty = .ok ((), a) ∧ a.finish = .ok program ∧
      leavableLoop.compile = .ok program ∧ program.validate = .ok () ∧ program.Valid) ∧
      ∃ error, (Chunk.mk [.breakLoop none]).compile = .error error ∧ ¬ error.IsInternal := by
  constructor
  · obtain ⟨hfinish, -, hvalid⟩ := compile_never_fails_internally leavableLoop
    obtain ⟨program, hcompile, -⟩ := compile_leavableLoop
    cases hlower : lowerChunk leavableLoop .empty with
    | error error => simp [Chunk.compile, hlower] at hcompile
    | ok result =>
        obtain ⟨⟨⟩, a⟩ := result
        obtain ⟨finished, hfinished⟩ := hfinish a hlower
        have hsame : leavableLoop.compile = .ok finished := by simp [Chunk.compile, hlower, hfinished]
        exact ⟨a, finished, rfl, hfinished, hsame, hvalid finished hsame⟩
  · have herror : (Chunk.mk [.breakLoop none]).compile = .error (.breakOutsideLoop none) := rfl
    exact ⟨_, herror, (compile_never_fails_internally _).2.1 _ herror⟩

end ScriptBytecode
