import ScriptBytecode.Proofs.ReachableAssemblers
import ScriptBytecode.Proofs.Validity

/-!
# Finishing after any use

What `finish` gives is known from the operations that came before it. A `Journal` notes for each operation what is put
behind the code, how many labels there are, and where labels are bound; it needs no code, no table of labels and no chain
of scopes for that. The assembler agrees with the journal after every operation (`Assembler.Records`), and `finish` gives
the instructions of the journal, with each label replaced by the place that it was bound to last.
-/

namespace ScriptBytecode

open Assembler Assembling

/-! ## Journals -/

/-- The assembler after an operation. An operation that fails leaves it as it is. -/
def AssemblerUse.apply (use : AssemblerUse) (a : Assembler) : Assembler :=
  match use.step a with
  | .ok (_, b) => b
  | .error _ => a

namespace AssemblerUse

variable {use : AssemblerUse} {a b : Assembler}

theorem apply_of_ok (h : use.step a = .ok ((), b)) : use.apply a = b := by
  simp only [apply, h]

theorem apply_of_error {error : CompileError} (h : use.step a = .error error) : use.apply a = a := by
  simp only [apply, h]

/-- An operation is carried out, or it fails and changes nothing. -/
theorem step_apply_or (use : AssemblerUse) (a : Assembler) :
    use.step a = .ok ((), use.apply a) ∨ use.apply a = a ∧ ∃ error, use.step a = .error error := by
  cases hstep : use.step a with
  | ok result => exact Or.inl (by rw [apply_of_ok hstep])
  | error error => exact Or.inr ⟨apply_of_error hstep, error, rfl⟩

end AssemblerUse

/-- The assembler after operations, one after the other. -/
def Assembler.perform (a : Assembler) (uses : List AssemblerUse) : Assembler :=
  uses.foldl (fun a use => use.apply a) a

/-- What operations have done as far as it matters to the finished program. -/
structure Journal where
  /-- How many registers are in use. -/
  registers : Nat
  /-- The registers of the open scopes, from the current one outwards. -/
  scopes : List Register
  /-- The instructions in the order in which they were emitted. -/
  emitted : List (Instruction Label)
  /-- How many labels there are. -/
  labels : Nat
  /-- The places that labels were bound to, the last one first. -/
  bindings : List (Label × Nat)

namespace Journal

def empty : Journal := ⟨0, [], [], 0, []⟩

/-- Notes an operation. -/
def note (journal : Journal) : AssemblerUse → Journal
  | .addConstant _ => journal
  | .defineVariable _ _ => journal
  | .allocate =>
      if journal.registers + 1 < 2 ^ 32 then { journal with registers := journal.registers + 1 } else journal
  | .enterScope =>
      if journal.registers + 1 < 2 ^ 32 then
        let scope : Register := ⟨UInt32.ofNat (journal.registers + 1)⟩
        { journal with
          registers := journal.registers + 1
          scopes := scope :: journal.scopes
          emitted := journal.emitted ++ [.newScope scope journal.scopes.head?] }
      else journal
  | .exitScope => { journal with scopes := journal.scopes.tail }
  | .emit instruction => { journal with emitted := journal.emitted ++ [instruction] }
  | .newLabel => { journal with labels := journal.labels + 1 }
  | .labelHere =>
      { journal with
        labels := journal.labels + 1
        bindings := (⟨UInt32.ofNat journal.labels⟩, journal.emitted.length) :: journal.bindings }
  | .bindLabel label => { journal with bindings := (label, journal.emitted.length) :: journal.bindings }
  | .bindLabelAt label pc => { journal with bindings := (label, pc.toNat) :: journal.bindings }

def record (journal : Journal) (uses : List AssemblerUse) : Journal :=
  uses.foldl note journal

/-- Only labels that have been created can be bound. -/
def permits (journal : Journal) : AssemblerUse → Bool
  | .bindLabel label => decide (label.id.toNat < journal.labels)
  | .bindLabelAt label _ => decide (label.id.toNat < journal.labels)
  | _ => true

/-- Whether operations bind no labels but those that have been created before. -/
def permitsAll : Journal → List AssemblerUse → Bool
  | _, [] => true
  | journal, use :: uses => journal.permits use && (journal.note use).permitsAll uses

/-- The place that a label was bound to last. -/
def place? (journal : Journal) (label : Label) : Option Nat :=
  journal.bindings.lookup label

variable {journal : Journal}

theorem le_note (journal : Journal) (use : AssemblerUse) :
    journal.labels ≤ (journal.note use).labels ∧ journal.emitted.length ≤ (journal.note use).emitted.length := by
  cases use with
  | allocate | enterScope =>
      rw [note]
      split <;> simp
  | _ => simp [note]

theorem le_record (journal : Journal) (uses : List AssemblerUse) :
    journal.labels ≤ (journal.record uses).labels ∧
      journal.emitted.length ≤ (journal.record uses).emitted.length := by
  induction uses generalizing journal with
  | nil => exact ⟨Nat.le_refl _, Nat.le_refl _⟩
  | cons use uses ih =>
      have hfirst := journal.le_note use
      have hrest := ih (journal.note use)
      exact ⟨hfirst.1.trans hrest.1, hfirst.2.trans hrest.2⟩

end Journal

/-! ## The assembler agrees with the journal -/

/-- An assembler is as a journal says. -/
structure Assembler.Records (a : Assembler) (journal : Journal) : Prop where
  wellFormed : a.scopes.WellFormed
  registers : a.lastRegister.toNat = journal.registers
  scopes : a.scopes.stack.map (·.1) = journal.scopes
  emitted : a.code.toList = journal.emitted
  labels : a.labels.size = journal.labels
  places : ∀ label, (a.labels.target? label).map (·.pc.toNat) = journal.place? label

namespace LabelTable

variable {table : LabelTable} {label other : Label} {pc : UInt32}

theorem target?_create (table : LabelTable) (label : Label) : table.create.2.target? label = table.target? label := by
  unfold target?
  rcases Nat.lt_trichotomy label.id.toNat table.size with hlt | heq | hgt
  · rw [slots_create_of_lt hlt]
  · have hnone : table.slots[table.size]? = none := Array.getElem?_eq_none (Nat.le_refl _)
    rw [heq, slots_create_size, hnone]
  · have hnone : table.slots[label.id.toNat]? = none := Array.getElem?_eq_none (Nat.le_of_lt hgt)
    have hnone' : table.create.2.slots[label.id.toNat]? = none := by
      apply Array.getElem?_eq_none
      rw [show table.create.2.slots.size = table.size + 1 from table.size_create]
      exact hgt
    rw [hnone, hnone']

/-- A label that has been created gets the place that it is bound to, and no other label does. -/
theorem target?_bind (h : label.id.toNat < table.size) :
    (table.bind label pc).target? other = if other = label then some ⟨pc⟩ else table.target? other := by
  by_cases hsame : other = label
  · rw [if_pos hsame, hsame]
    exact target?_of_slots (slots_bind_self h)
  · have hids : label.id.toNat ≠ other.id.toNat := by
      intro hid
      exact hsame (congrArg Label.mk (UInt32.toNat_inj.mp hid.symm))
    rw [if_neg hsame]
    unfold target?
    rw [slots_bind_of_ne hids]

end LabelTable

namespace Assembler.Records

variable {a b : Assembler} {journal : Journal}

theorem empty : Records .empty .empty where
  wellFormed := ScopeChain.wellFormed_empty
  registers := rfl
  scopes := by simp [Assembler.empty, ScopeChain.empty, ScopeChain.stack, ScopeChain.stackFrom_none, Journal.empty]
  emitted := rfl
  labels := rfl
  places := fun _ => rfl

/-- The register of the current scope object is that of the innermost open scope. -/
theorem currentRegister?_eq (h : a.Records journal) : a.scopes.currentRegister? = journal.scopes.head? := by
  rw [ScopeChain.currentRegister?_eq h.wellFormed, ← h.scopes, List.head?_map]

theorem position_eq (h : a.Records journal) (hlength : journal.emitted.length < 2 ^ 32) :
    a.position.toNat = journal.emitted.length := by
  have hsize : a.code.size = journal.emitted.length := by rw [← h.emitted, Array.length_toList]
  unfold position
  rw [UInt32.toNat_ofNat', hsize]
  exact Nat.mod_eq_of_lt hlength

theorem addConstant {constant : Constant} {index : ConstantIndex} (h : a.Records journal)
    (added : Assembler.addConstant constant a = .ok (index, b)) : b.Records journal := by
  obtain ⟨-, -, rfl⟩ := addConstant_eq_ok_iff.mp added
  exact ⟨h.wellFormed, h.registers, h.scopes, h.emitted, h.labels, h.places⟩

theorem defineVariable {name : String} {register : Register} (h : a.Records journal)
    (defined : Assembler.defineVariable name register a = .ok ((), b)) : b.Records journal := by
  obtain ⟨id, scopes, hdefine, rfl⟩ := defineVariable_eq_ok_iff.mp defined
  have hscopes := (ScopeChain.registers_define h.wellFormed hdefine).trans h.scopes
  exact ⟨ScopeChain.wellFormed_define h.wellFormed hdefine, h.registers, hscopes, h.emitted, h.labels, h.places⟩

theorem allocate {register : Register} (h : a.Records journal)
    (allocated : Assembler.allocate a = .ok (register, b)) :
    register = ⟨UInt32.ofNat (journal.registers + 1)⟩ ∧ b.Records (journal.note .allocate) := by
  have hlast := (toNat_allocate allocated).2
  obtain ⟨hroom, rfl, rfl⟩ := allocate_eq_ok_iff.mp allocated
  rw [h.registers] at hroom hlast
  constructor
  · apply congrArg Register.mk
    apply UInt32.toNat_inj.mp
    rw [UInt32.toNat_ofNat', Nat.mod_eq_of_lt hroom]
    exact hlast
  · rw [Journal.note, if_pos hroom]
    exact ⟨h.wellFormed, hlast, h.scopes, h.emitted, h.labels, h.places⟩

theorem exists_allocate (h : a.Records journal) (hroom : journal.registers + 1 < 2 ^ 32) :
    ∃ register b, Assembler.allocate a = .ok (register, b) := by
  rw [← h.registers] at hroom
  exact ⟨_, _, allocate_eq_ok_iff.mpr ⟨hroom, rfl, rfl⟩⟩

theorem enterScope {inner : Register} (h : a.Records journal) (entered : Assembler.enterScope a = .ok (inner, b)) :
    b.Records (journal.note .enterScope) := by
  obtain ⟨hlabels, -, hscopes, hcode⟩ := frame_enterScope entered h.currentRegister?_eq
  obtain ⟨c, allocated, rfl⟩ := enterScope_eq_ok_iff.mp entered
  obtain ⟨hinner, hc⟩ := h.allocate allocated
  have hroom : journal.registers + 1 < 2 ^ 32 := by
    have hroom' := (allocate_eq_ok_iff.mp allocated).1
    rwa [h.registers] at hroom'
  rw [Journal.note, if_pos hroom] at hc
  rw [Journal.note, if_pos hroom, ← hinner]
  refine ⟨?_, hc.registers, ?_, ?_, ?_, ?_⟩
  · rw [hscopes]
    exact ScopeChain.wellFormed_enter h.wellFormed inner
  · rw [hscopes, ScopeChain.stack_enter h.wellFormed, List.map_cons, h.scopes]
  · rw [hcode, h.emitted]
  · rw [hlabels]
    exact h.labels
  · rw [hlabels]
    exact h.places

theorem exitScope (h : a.Records journal) : a.closed.Records (journal.note .exitScope) := by
  refine ⟨ScopeChain.wellFormed_exit h.wellFormed, h.registers, ?_, h.emitted, h.labels, h.places⟩
  show a.scopes.exit.stack.map (·.1) = journal.scopes.tail
  rw [ScopeChain.stack_exit h.wellFormed, List.map_tail, h.scopes]

theorem emit (h : a.Records journal) (instruction : Instruction Label) :
    (a.pushed instruction).Records (journal.note (.emit instruction)) := by
  refine ⟨h.wellFormed, h.registers, h.scopes, ?_, h.labels, h.places⟩
  rw [pushed_code_toList, h.emitted]
  rfl

theorem newLabel (h : a.Records journal) :
    (a.withLabels a.labels.create.2).Records (journal.note .newLabel) := by
  refine ⟨h.wellFormed, h.registers, h.scopes, h.emitted, ?_, ?_⟩
  · rw [withLabels_labels, LabelTable.size_create, h.labels]
    rfl
  · intro label
    rw [withLabels_labels, LabelTable.target?_create]
    exact h.places label

/-- The last binding of a label is the one that counts. -/
theorem bind {label : Label} {pc : UInt32} {place : Nat} (h : a.Records journal)
    (hcreated : label.id.toNat < journal.labels) (hplace : pc.toNat = place) :
    (a.withLabels (a.labels.bind label pc)).Records { journal with bindings := (label, place) :: journal.bindings } := by
  refine ⟨h.wellFormed, h.registers, h.scopes, h.emitted, ?_, ?_⟩
  · rw [withLabels_labels, LabelTable.size_bind, h.labels]
  · intro other
    rw [← h.labels] at hcreated
    rw [withLabels_labels, LabelTable.target?_bind hcreated]
    unfold Journal.place?
    rw [List.lookup_cons]
    by_cases hsame : other = label
    · simp [hsame, hplace]
    · rw [if_neg hsame, beq_false_of_ne hsame]
      exact h.places other

theorem labelHere (h : a.Records journal) (hlabels : journal.labels < 2 ^ 32)
    (hlength : journal.emitted.length < 2 ^ 32) :
    (a.withLabels (a.labels.create.2.bind a.labels.create.1 a.position)).Records (journal.note .labelHere) := by
  have hlabel : a.labels.create.1 = ⟨UInt32.ofNat journal.labels⟩ := by
    rw [← h.labels]
    rfl
  have hcreated : a.labels.create.1.id.toNat < (journal.note .newLabel).labels := by
    rw [← h.labels] at hlabels
    rw [LabelTable.toNat_create hlabels, h.labels]
    exact Nat.lt_succ_self _
  have hbound := h.newLabel.bind hcreated (h.position_eq hlength)
  rw [hlabel] at hbound ⊢
  exact hbound

/-- One operation. -/
theorem note (h : a.Records journal) {use : AssemblerUse} (hpermits : journal.permits use = true)
    (hlabels : (journal.note use).labels < 2 ^ 32) (hlength : (journal.note use).emitted.length < 2 ^ 32) :
    (use.apply a).Records (journal.note use) := by
  have hgrows := journal.le_note use
  replace hlength := Nat.lt_of_le_of_lt hgrows.2 hlength
  rcases use.step_apply_or a with hstep | ⟨hsame, error, hfailed⟩
  · cases use with
    | addConstant constant =>
        obtain ⟨index, added⟩ := discard_eq_ok_iff.mp hstep
        exact h.addConstant added
    | allocate =>
        obtain ⟨register, allocated⟩ := discard_eq_ok_iff.mp hstep
        exact (h.allocate allocated).2
    | enterScope =>
        obtain ⟨inner, entered⟩ := discard_eq_ok_iff.mp hstep
        exact h.enterScope entered
    | defineVariable name register => exact h.defineVariable hstep
    | exitScope => exact h.exitScope
    | emit instruction => exact h.emit instruction
    | newLabel => exact h.newLabel
    | labelHere => exact h.labelHere (Nat.lt_of_le_of_lt hgrows.1 hlabels) hlength
    | bindLabel label => exact h.bind (of_decide_eq_true hpermits) (h.position_eq hlength)
    | bindLabelAt label pc => exact h.bind (of_decide_eq_true hpermits) rfl
  · -- Only what needs a register, a free place in the pool or a scope can fail.
    rw [hsame]
    cases use with
    | addConstant | defineVariable => exact h
    | allocate =>
        have hroom : ¬ journal.registers + 1 < 2 ^ 32 := by
          intro hroom
          obtain ⟨register, b, allocated⟩ := h.exists_allocate hroom
          exact nomatch (discard_eq_ok_iff.mpr ⟨register, allocated⟩).symm.trans hfailed
        rw [Journal.note, if_neg hroom]
        exact h
    | enterScope =>
        have hroom : ¬ journal.registers + 1 < 2 ^ 32 := by
          intro hroom
          obtain ⟨register, b, allocated⟩ := h.exists_allocate hroom
          have entered := enterScope_eq_ok_iff.mpr ⟨b, allocated, rfl⟩
          exact nomatch (discard_eq_ok_iff.mpr ⟨register, entered⟩).symm.trans hfailed
        rw [Journal.note, if_neg hroom]
        exact h
    | _ => exact nomatch hfailed

/-- Any number of operations. -/
theorem record {uses : List AssemblerUse} (h : a.Records journal) (hpermits : journal.permitsAll uses = true)
    (hlabels : (journal.record uses).labels < 2 ^ 32) (hlength : (journal.record uses).emitted.length < 2 ^ 32) :
    (a.perform uses).Records (journal.record uses) := by
  induction uses generalizing a journal with
  | nil => exact h
  | cons use uses ih =>
      obtain ⟨hfirst, hrest⟩ := Bool.and_eq_true_iff.mp hpermits
      have hgrows := (journal.note use).le_record uses
      have hnoted := h.note hfirst (Nat.lt_of_le_of_lt hgrows.1 hlabels) (Nat.lt_of_le_of_lt hgrows.2 hlength)
      exact ih hnoted hrest hlabels hlength

end Assembler.Records

/-! ## Finished code -/

/-- A finished instruction: plain instructions stay as they are, and jumps go to the places of their labels. -/
inductive Instruction.Finishes (place? : Label → Option Nat) : Instruction Label → Instruction JumpTarget → Prop
  | plain (instruction : PlainInstruction) : Finishes place? (.ofPlain instruction) (.ofPlain instruction)
  | jump {label : Label} {target : JumpTarget} (placed : place? label = some target.pc.toNat) :
      Finishes place? (.jump label) (.jump target)
  | jumpIf {condition : Register} {label : Label} {target : JumpTarget}
      (placed : place? label = some target.pc.toNat) :
      Finishes place? (.jumpIf condition label) (.jumpIf condition target)
  | jumpIfNot {condition : Register} {label : Label} {target : JumpTarget}
      (placed : place? label = some target.pc.toNat) :
      Finishes place? (.jumpIfNot condition label) (.jumpIfNot condition target)

/-- Code is finished instruction by instruction. -/
def FinishesCode (place? : Label → Option Nat) : List (Instruction Label) → List (Instruction JumpTarget) → Prop :=
  List.Forall₂ (Instruction.Finishes place?)

/-- All labels that code jumps to have places. -/
def PlacesLabels (place? : Label → Option Nat) (code : List (Instruction Label)) : Prop :=
  ∀ instruction ∈ code, ∀ label, instruction.target? = some label → (place? label).isSome

/-- The first jump of the code that goes to a label without a place goes to this one. -/
def FirstUnplaced (place? : Label → Option Nat) (code : List (Instruction Label)) (label : Label) : Prop :=
  ∃ before jump after, code = before ++ jump :: after ∧ PlacesLabels place? before ∧ jump.target? = some label ∧
    place? label = none

namespace Instruction

variable {τ σ ε : Type}

/-- Replacing places fails where the place of a jump cannot be replaced. -/
theorem mapTargetM_eq_error_iff {f : τ → Except ε σ} {instruction : Instruction τ} {error : ε} :
    instruction.mapTargetM f = .error error ↔ ∃ target, instruction.target? = some target ∧ f target = .error error := by
  have hmap : ∀ (target : τ) (make : σ → Instruction σ),
      (f target).map make = .error error ↔ f target = .error error := by
    intro target make
    cases f target <;> simp [Except.map]
  cases instruction <;> simp [mapTargetM, target?, hmap]

end Instruction

section Code

variable {place? : Label → Option Nat} {table : LabelTable} {code : List (Instruction Label)}
  {resolved : List (Instruction JumpTarget)} {instruction : Instruction Label} {finished : Instruction JumpTarget}
  {label : Label} {error : CompileError}

theorem Instruction.Finishes.constants_eq (h : instruction.Finishes place? finished) :
    finished.constants = instruction.constants := by
  cases h with
  | plain => rw [constants_ofPlain, constants_ofPlain]
  | _ => rfl

/-- What is finished jumps if it jumped before, and then to the place of its label. -/
theorem Instruction.Finishes.targets (h : instruction.Finishes place? finished) :
    instruction.target? = none ∧ finished.target? = none ∨
      ∃ label target, instruction.target? = some label ∧ finished.target? = some target ∧
        place? label = some target.pc.toNat := by
  cases h with
  | plain => exact Or.inl ⟨target?_ofPlain _, target?_ofPlain _⟩
  | jump placed | jumpIf placed | jumpIfNot placed => exact Or.inr ⟨_, _, rfl, rfl, placed⟩

theorem placesLabels_nil : PlacesLabels place? [] :=
  fun _ hmem => nomatch hmem

theorem FinishesCode.placesLabels (h : FinishesCode place? code resolved) : PlacesLabels place? code := by
  induction h with
  | nil => exact placesLabels_nil
  | cons first _ ih =>
      refine List.forall_mem_cons.mpr ⟨?_, ih⟩
      intro label hlabel
      rcases first.targets with ⟨hnone, -⟩ | ⟨placed, target, hplaced, -, hplace⟩
      · exact nomatch hnone.symm.trans hlabel
      · obtain rfl := Option.some.inj (hplaced.symm.trans hlabel)
        rw [hplace]
        rfl

theorem FirstUnplaced.not_placesLabels (h : FirstUnplaced place? code label) : ¬ PlacesLabels place? code := by
  obtain ⟨before, jump, after, rfl, -, hlabel, hnone⟩ := h
  intro hplaces
  have hsome := hplaces jump (List.mem_append_right before List.mem_cons_self) label hlabel
  rw [hnone] at hsome
  exact nomatch hsome

theorem firstUnplaced_cons_iff :
    FirstUnplaced place? (instruction :: code) label ↔
      (instruction.target? = some label ∧ place? label = none) ∨
        PlacesLabels place? [instruction] ∧ FirstUnplaced place? code label := by
  constructor
  · rintro ⟨before, jump, after, hcode, hbefore, hjump⟩
    cases before with
    | nil =>
        obtain ⟨rfl, -⟩ := List.cons.inj hcode
        exact Or.inl hjump
    | cons first before =>
        obtain ⟨rfl, rfl⟩ := List.cons.inj hcode
        obtain ⟨hfirst, hothers⟩ := List.forall_mem_cons.mp hbefore
        exact Or.inr ⟨List.forall_mem_singleton.mpr hfirst, before, jump, after, rfl, hothers, hjump⟩
  · rintro (hjump | ⟨hfirst, before, jump, after, rfl, hbefore, hjump⟩)
    · exact ⟨[], instruction, code, rfl, placesLabels_nil, hjump⟩
    · exact ⟨instruction :: before, jump, after, rfl,
        List.forall_mem_cons.mpr ⟨List.forall_mem_singleton.mp hfirst, hbefore⟩, hjump⟩

/-- The table gives labels their places. -/
def LabelTable.Gives (table : LabelTable) (place? : Label → Option Nat) : Prop :=
  ∀ label, (table.target? label).map (·.pc.toNat) = place? label

namespace LabelTable.Gives

theorem resolve_eq_ok_iff (h : table.Gives place?) {target : JumpTarget} :
    table.resolve label = .ok target ↔ place? label = some target.pc.toNat := by
  rw [← h]
  unfold LabelTable.resolve
  cases table.target? label with
  | none => simp
  | some found =>
      simp only [Except.ok.injEq, Option.map_some, Option.some.injEq, UInt32.toNat_inj]
      constructor
      · rintro rfl
        rfl
      · intro hpc
        cases found
        cases target
        exact congrArg JumpTarget.mk hpc

theorem resolve_eq_error_iff (h : table.Gives place?) :
    table.resolve label = .error error ↔ place? label = none ∧ error = .unresolvedLabel label := by
  rw [← h]
  unfold LabelTable.resolve
  cases table.target? label with
  | none => simp [eq_comm]
  | some found => simp

theorem mapTargetM_eq_ok_iff (h : table.Gives place?) :
    instruction.mapTargetM table.resolve = .ok finished ↔ instruction.Finishes place? finished := by
  constructor
  · intro hmapped
    have hform := instruction.eq_of_flow
    generalize instruction.flow = flow at hform
    subst hform
    cases flow with
    | next plain =>
        rw [Instruction.mapTargetM_ofPlain] at hmapped
        obtain rfl := Except.ok.inj hmapped
        exact .plain plain
    | jump label | jumpIf _ label | jumpIfNot _ label =>
        cases hresolve : table.resolve label with
        | error error => simp [Instruction.mapTargetM, hresolve, Except.map] at hmapped
        | ok target =>
            simp only [Instruction.mapTargetM, hresolve, Except.map, Except.ok.injEq] at hmapped
            subst hmapped
            constructor
            exact h.resolve_eq_ok_iff.mp hresolve
  · intro hfinishes
    cases hfinishes with
    | plain plain => exact Instruction.mapTargetM_ofPlain _ plain
    | jump placed | jumpIf placed | jumpIfNot placed =>
        simp [Instruction.mapTargetM, h.resolve_eq_ok_iff.mpr placed, Except.map]

theorem resolveCode_eq_ok_iff (h : table.Gives place?) :
    resolveCode table code = .ok resolved ↔ FinishesCode place? code resolved := by
  constructor
  · intro hcode
    exact (mapTargetM_of_resolveCode hcode).imp fun _ _ => h.mapTargetM_eq_ok_iff.mp
  · intro hfinishes
    induction hfinishes with
    | nil => rfl
    | cons first _ ih => simp only [resolveCode, h.mapTargetM_eq_ok_iff.mpr first, ih]

/-- The first label without a place is reported, whatever comes behind it. -/
theorem resolveCode_eq_error_iff (h : table.Gives place?) :
    resolveCode table code = .error error ↔
      ∃ label, FirstUnplaced place? code label ∧ error = .unresolvedLabel label := by
  induction code with
  | nil => simp [resolveCode, FirstUnplaced]
  | cons instruction code ih =>
      simp only [firstUnplaced_cons_iff]
      unfold resolveCode
      cases hmapped : instruction.mapTargetM table.resolve with
      | error failure =>
          obtain ⟨label, hlabel, hresolve⟩ := Instruction.mapTargetM_eq_error_iff.mp hmapped
          obtain ⟨hnone, rfl⟩ := h.resolve_eq_error_iff.mp hresolve
          have hfirst : FirstUnplaced place? [instruction] label := firstUnplaced_cons_iff.mpr (Or.inl ⟨hlabel, hnone⟩)
          simp [hlabel, hnone, hfirst.not_placesLabels, eq_comm]
      | ok first =>
          have hplaces := FinishesCode.placesLabels (.cons (h.mapTargetM_eq_ok_iff.mp hmapped) .nil)
          have hfirst : ∀ label, ¬ (instruction.target? = some label ∧ place? label = none) :=
            fun label hunplaced =>
              (firstUnplaced_cons_iff.mpr (Or.inl hunplaced) : FirstUnplaced place? [instruction] label).not_placesLabels
                hplaces
          simp only [hfirst, hplaces, false_or, true_and, ← ih]
          cases resolveCode table code <;> simp

end LabelTable.Gives

/-- Properties of the items of two lists that correspond to each other. -/
theorem forall_mem_iff_of_forall₂ {α β : Type} {related : α → β → Prop} {p : α → Prop} {q : β → Prop} {xs : List α}
    {ys : List β} (h : List.Forall₂ related xs ys) (hiff : ∀ x y, related x y → (p x ↔ q y)) :
    (∀ x ∈ xs, p x) ↔ ∀ y ∈ ys, q y := by
  induction h with
  | nil => simp
  | cons first _ ih => rw [List.forall_mem_cons, List.forall_mem_cons, hiff _ _ first, ih]

end Code

/-! ## Finished programs -/

namespace Journal

variable {journal : Journal}

/-- The program that the operations of a journal have made. -/
def Finishes (journal : Journal) (pool : ConstantPool) (program : Program) : Prop :=
  program.constants = pool ∧ FinishesCode journal.place? journal.emitted program.instructions.toList

/-- What the operations of a journal must have done for a program: every label that is jumped to is bound, at last to a
place in the code or right behind it, the constants that instructions name are in the pool, and numbers are finite. -/
structure Complete (journal : Journal) (pool : ConstantPool) : Prop where
  bound : PlacesLabels journal.place? journal.emitted
  places : ∀ instruction ∈ journal.emitted, ∀ label, instruction.target? = some label →
    ∀ place, journal.place? label = some place → place ≤ journal.emitted.length
  constants : ∀ instruction ∈ journal.emitted, ∀ constant ∈ instruction.constants, constant.index.toNat < pool.size
  finite : ∀ value, Constant.number value ∈ pool.constants → value.isFinite = true

theorem Finishes.valid_iff {pool : ConstantPool} {program : Program} (h : journal.Finishes pool program) :
    program.Valid ↔ journal.Complete pool := by
  obtain ⟨rfl, hcode⟩ := h
  have hlength : journal.emitted.length = program.length := hcode.length_eq
  have htargets : (∀ instruction ∈ journal.emitted, ∀ label, instruction.target? = some label →
        ∀ place, journal.place? label = some place → place ≤ journal.emitted.length) ↔
      ∀ finished ∈ program.instructions.toList, ∀ target, finished.target? = some target →
        target.pc.toNat ≤ program.length := by
    refine forall_mem_iff_of_forall₂ hcode fun instruction finished first => ?_
    rcases first.targets with ⟨hlabel, htarget⟩ | ⟨label, target, hlabel, htarget, hplace⟩
    · simp [hlabel, htarget]
    · simp [hlabel, htarget, hplace, hlength]
  have hconstants : (∀ instruction ∈ journal.emitted, ∀ constant ∈ instruction.constants,
        constant.index.toNat < program.constants.size) ↔
      ∀ finished ∈ program.instructions.toList, ∀ constant ∈ finished.constants,
        constant.index.toNat < program.constants.size := by
    refine forall_mem_iff_of_forall₂ hcode fun instruction finished first => ?_
    rw [first.constants_eq]
  constructor
  · intro hvalid
    exact ⟨hcode.placesLabels, htargets.mpr fun finished hmem => hvalid.targets finished ⟨hmem⟩,
      hconstants.mpr fun finished hmem => hvalid.constants finished ⟨hmem⟩, hvalid.finite⟩
  · intro hcomplete
    exact ⟨hcomplete.finite, fun finished hmem => htargets.mp hcomplete.places finished hmem.val,
      fun finished hmem => hconstants.mp hcomplete.constants finished hmem.val⟩

end Journal

namespace Assembler.Records

variable {a : Assembler} {journal : Journal} {program : Program}

theorem resolveCode_eq_ok_iff (h : a.Records journal) {code : List (Instruction JumpTarget)} :
    resolveCode a.labels a.code.toList = .ok code ↔ FinishesCode journal.place? journal.emitted code := by
  rw [h.emitted]
  exact LabelTable.Gives.resolveCode_eq_ok_iff h.places

theorem finish_eq_ok_iff (h : a.Records journal) :
    a.finish = .ok program ↔ journal.Complete a.constants ∧ journal.Finishes a.constants program := by
  rw [ScriptBytecode.finish_eq_ok_iff, h.resolveCode_eq_ok_iff, Program.validate_eq_ok_iff]
  constructor
  · rintro ⟨hcode, hconstants, hvalid⟩
    have hfinishes : journal.Finishes a.constants program := ⟨hconstants, hcode⟩
    exact ⟨hfinishes.valid_iff.mp hvalid, hfinishes⟩
  · rintro ⟨hcomplete, hfinishes⟩
    exact ⟨hfinishes.2, hfinishes.1, hfinishes.valid_iff.mpr hcomplete⟩

/-- Finishing fails for a label without a place, or for a fault of the program that the operations have made. -/
theorem finish_eq_error_iff (h : a.Records journal) {error : CompileError} :
    a.finish = .error error ↔
      (∃ label, FirstUnplaced journal.place? journal.emitted label ∧ error = .unresolvedLabel label) ∨
        ∃ program fault, journal.Finishes a.constants program ∧ program.validate = .error fault ∧
          error = .invalidProgram fault := by
  have herror : resolveCode a.labels a.code.toList = .error error ↔
      ∃ label, FirstUnplaced journal.place? journal.emitted label ∧ error = .unresolvedLabel label := by
    rw [h.emitted]
    exact LabelTable.Gives.resolveCode_eq_error_iff h.places
  rw [← herror]
  unfold Journal.Finishes
  simp only [← h.resolveCode_eq_ok_iff]
  cases hcode : resolveCode a.labels a.code.toList with
  | error failure => simp [finish, hcode]
  | ok code =>
      constructor
      · intro hfinish
        simp only [finish, hcode] at hfinish
        split at hfinish
        · rename_i fault hvalid
          exact Or.inr ⟨_, fault, ⟨rfl, rfl⟩, hvalid, (Except.error.inj hfinish).symm⟩
        · exact nomatch hfinish
      · rintro (hfailed | ⟨program, fault, ⟨hconstants, hsame⟩, hvalid, rfl⟩)
        · exact nomatch hfailed
        · obtain rfl : code = program.instructions.toList := Except.ok.inj hsame
          simp [finish, hcode, ← hconstants, hvalid]

theorem not_complete_of_error {error : CompileError} (h : a.Records journal) (hfinish : a.finish = .error error) :
    ¬ journal.Complete a.constants := by
  intro hcomplete
  rcases h.finish_eq_error_iff.mp hfinish with ⟨label, hfirst, -⟩ | ⟨program, fault, hmade, hfault, -⟩
  · exact hfirst.not_placesLabels hcomplete.bound
  · have hvalid := Program.validate_eq_ok_iff.mpr (hmade.valid_iff.mpr hcomplete)
    exact nomatch hfault.symm.trans hvalid

end Assembler.Records

/-- Finishing is exact after any operations on an empty assembler that bind no labels but those that have been created,
if there are fewer than 2^32 labels and instructions. There is a program if and only if the operations are complete, and
then it has the constants of the pool and the instructions in the order in which they were emitted, each jump going to
the place that its label was bound to last. Otherwise the label of the first jump to a label without a place is
reported, or, if all of them have places, the first fault of the program. -/
theorem finish_of_perform (uses : List AssemblerUse) (hpermits : Journal.empty.permitsAll uses = true)
    (hlabels : (Journal.empty.record uses).labels < 2 ^ 32)
    (hlength : (Journal.empty.record uses).emitted.length < 2 ^ 32) :
    let a := Assembler.empty.perform uses
    let journal := Journal.empty.record uses
    ((∃ program, a.finish = .ok program) ↔ journal.Complete a.constants) ∧
      (∀ program, a.finish = .ok program → journal.Finishes a.constants program) ∧
        (¬ journal.Complete a.constants →
          (∃ label, FirstUnplaced journal.place? journal.emitted label ∧ a.finish = .error (.unresolvedLabel label)) ∨
            PlacesLabels journal.place? journal.emitted ∧
              ∃ program fault, journal.Finishes a.constants program ∧ program.validate = .error fault ∧
                a.finish = .error (.invalidProgram fault) ∧
                  (CompileError.invalidProgram fault).message = "Internal error: " ++ fault.message) := by
  intro a journal
  have hrecords : a.Records journal := Records.empty.record hpermits hlabels hlength
  cases hfinish : a.finish with
  | ok program =>
      obtain ⟨hcomplete, hfinishes⟩ := hrecords.finish_eq_ok_iff.mp hfinish
      refine ⟨iff_of_true ⟨program, rfl⟩ hcomplete, ?_, fun hnot => absurd hcomplete hnot⟩
      rintro _ ⟨⟩
      exact hfinishes
  | error error =>
      refine ⟨iff_of_false nofun (hrecords.not_complete_of_error hfinish), nofun, fun _ => ?_⟩
      rcases hrecords.finish_eq_error_iff.mp hfinish with ⟨label, hfirst, rfl⟩ | ⟨program, fault, hmade, hfault, rfl⟩
      · exact Or.inl ⟨label, hfirst, rfl⟩
      · exact Or.inr ⟨hmade.2.placesLabels, program, fault, hmade, hfault, rfl, rfl⟩

/-- A label that is jumped to before it is bound, and that is bound twice. -/
def reboundLabel : List AssemblerUse :=
  [.addConstant (.boolean true), .newLabel, .emit (.jump ⟨0⟩), .bindLabelAt ⟨0⟩ 7, .enterScope, .allocate, .bindLabel ⟨0⟩,
    .emit (.load ⟨0⟩ ⟨2⟩), .exitScope]

/-- A jump to a label that was never created, behind one whose label is created and not bound. -/
def unboundLabels : List AssemblerUse :=
  [.labelHere, .newLabel, .emit (.jump ⟨0⟩), .emit (.jumpIf ⟨1⟩ ⟨1⟩), .emit (.jump ⟨5⟩)]

theorem finish_of_perform_samples :
    (∃ program, (Assembler.empty.perform reboundLabel).finish = .ok program ∧
      (Journal.empty.record reboundLabel).Complete (Assembler.empty.perform reboundLabel).constants ∧
        (Journal.empty.record reboundLabel).Finishes (Assembler.empty.perform reboundLabel).constants program) ∧
      (Assembler.empty.perform unboundLabels).finish = .error (.unresolvedLabel ⟨1⟩) ∧
        ¬ (Journal.empty.record unboundLabels).Complete (Assembler.empty.perform unboundLabels).constants := by
  constructor
  · obtain ⟨hcomplete, hfinishes, -⟩ := finish_of_perform reboundLabel (by decide) (by decide) (by decide)
    have hfinish : (Assembler.empty.perform reboundLabel).finish =
        .ok ⟨⟨#[.boolean true]⟩, #[.jump ⟨2⟩, .newScope ⟨1⟩ none, .load ⟨0⟩ ⟨2⟩]⟩ := by rfl
    exact ⟨_, hfinish, hcomplete.mp ⟨_, hfinish⟩, hfinishes _ hfinish⟩
  · obtain ⟨hcomplete, -⟩ := finish_of_perform unboundLabels (by decide) (by decide) (by decide)
    have hfinish : (Assembler.empty.perform unboundLabels).finish = .error (.unresolvedLabel ⟨1⟩) := by rfl
    refine ⟨hfinish, fun h => ?_⟩
    obtain ⟨program, hprogram⟩ := hcomplete.mpr h
    exact nomatch hfinish.symm.trans hprogram

end ScriptBytecode
