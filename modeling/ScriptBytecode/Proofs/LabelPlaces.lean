import ScriptBytecode.Proofs.StatementCode

/-!
# Places of labels

A label gets its number from the size of the table at the time, and its place from the code at the time. As long as the
table has at most 2^32 labels these numbers are all different, every label of a statement is bound once, inside the
statement, and the labels that were there before keep their places. A script has no more labels than instructions, so a
program with less than 2^32 instructions never had a larger table.

Beyond that size numbers come around again and a label may be bound anew; none of this module's statements on places
holds then.
-/

namespace ScriptBytecode

open Assembler Assembling

namespace LabelTable

variable {table old middle new : LabelTable} {label : Label} {pc : UInt32} {ids : List Nat}

@[simp] theorem size_create (table : LabelTable) : table.create.2.size = table.size + 1 := by
  simp [create, size]

@[simp] theorem size_bind (table : LabelTable) (label : Label) (pc : UInt32) :
    (table.bind label pc).size = table.size := by
  simp [bind, size]

theorem toNat_create (h : table.size < 2 ^ 32) : table.create.1.id.toNat = table.size := by
  show (UInt32.ofNat table.size).toNat = table.size
  rw [UInt32.toNat_ofNat']
  exact Nat.mod_eq_of_lt h

theorem slots_create_of_lt {index : Nat} (h : index < table.size) :
    table.create.2.slots[index]? = table.slots[index]? := by
  have hne : index ≠ table.slots.size := Nat.ne_of_lt h
  simp [create, Array.getElem?_push, hne]

theorem slots_create_size (table : LabelTable) : table.create.2.slots[table.size]? = some none := by
  simp [create, size]

theorem slots_bind_of_ne {index : Nat} (h : label.id.toNat ≠ index) :
    (table.bind label pc).slots[index]? = table.slots[index]? := by
  simp [bind, h]

theorem slots_bind_self (h : label.id.toNat < table.size) :
    (table.bind label pc).slots[label.id.toNat]? = some (some pc) := by
  have hlt : label.id.toNat < table.slots.size := h
  simp [bind, hlt]

theorem target?_of_slots (h : table.slots[label.id.toNat]? = some (some pc)) : table.target? label = some ⟨pc⟩ := by
  simp [target?, h]

/-- A later table has all labels of an earlier one, as they were apart from those of the given numbers. -/
structure Keeps (ids : List Nat) (old new : LabelTable) : Prop where
  size_le : old.size ≤ new.size
  slots_eq : ∀ index < old.size, index ∉ ids → new.slots[index]? = old.slots[index]?

namespace Keeps

theorem refl (ids : List Nat) (table : LabelTable) : Keeps ids table table :=
  ⟨Nat.le_refl _, fun _ _ _ => rfl⟩

theorem trans (h : Keeps ids old middle) (h' : Keeps ids middle new) : Keeps ids old new := by
  refine ⟨Nat.le_trans h.size_le h'.size_le, ?_⟩
  intro index hlt hnot
  have hmiddle : index < middle.size := Nat.lt_of_lt_of_le hlt h.size_le
  rw [h'.slots_eq index hmiddle hnot, h.slots_eq index hlt hnot]

theorem mono {larger : List Nat} (h : Keeps ids old new) (hsub : ∀ id ∈ ids, id ∈ larger) : Keeps larger old new :=
  ⟨h.size_le, fun index hlt hnot => h.slots_eq index hlt fun hmem => hnot (hsub index hmem)⟩

/-- Labels that were made in between may change. -/
theorem trans_new (h : Keeps [] old middle) (h' : Keeps ids middle new) (hnew : ∀ id ∈ ids, old.size ≤ id) :
    Keeps [] old new := by
  refine ⟨Nat.le_trans h.size_le h'.size_le, ?_⟩
  intro index hlt hnot
  have hmiddle : index < middle.size := Nat.lt_of_lt_of_le hlt h.size_le
  -- An old label has a number below all those that may change.
  have hnotNew : index ∉ ids := by
    intro hmem
    have hge := hnew index hmem
    omega
  rw [h'.slots_eq index hmiddle hnotNew, h.slots_eq index hlt hnot]

theorem create (h : Keeps ids old new) : Keeps ids old new.create.2 := by
  refine ⟨by simp only [size_create]; exact Nat.le_succ_of_le h.size_le, ?_⟩
  intro index hlt hnot
  rw [slots_create_of_lt (Nat.lt_of_lt_of_le hlt h.size_le)]
  exact h.slots_eq index hlt hnot

/-- A label may be bound if it is new or its number is given. -/
theorem bind (h : Keeps ids old new) (hlabel : old.size ≤ label.id.toNat ∨ label.id.toNat ∈ ids) (pc : UInt32) :
    Keeps ids old (new.bind label pc) := by
  refine ⟨by simp only [size_bind]; exact h.size_le, ?_⟩
  intro index hlt hnot
  have hne : label.id.toNat ≠ index := by
    rintro rfl
    rcases hlabel with hge | hmem
    · omega
    · exact hnot hmem
  rw [slots_bind_of_ne hne]
  exact h.slots_eq index hlt hnot

end Keeps

/-- Every place that a table has is also a place of a later table. -/
def SettledIn (table later : LabelTable) : Prop :=
  ∀ (index : Nat) (pc : UInt32), table.slots[index]? = some (some pc) → later.slots[index]? = some (some pc)

theorem SettledIn.trans (h : old.SettledIn middle) (h' : middle.SettledIn new) : old.SettledIn new :=
  fun index pc hplace => h' index pc (h index pc hplace)

/-- Places stay as they are if only labels without a place may change. -/
theorem Keeps.settledIn (h : Keeps ids old new) (hopen : ∀ id ∈ ids, old.slots[id]? = some none) :
    old.SettledIn new := by
  intro index pc hplace
  have hlt : index < old.size := (Array.getElem?_eq_some_iff.mp hplace).1
  have hnot : index ∉ ids := by
    intro hmem
    rw [hopen index hmem] at hplace
    exact nomatch hplace
  rw [h.slots_eq index hlt hnot]
  exact hplace

/-- Giving a place to a label without one keeps the places that there are. -/
theorem settledIn_bind (hopen : table.slots[label.id.toNat]? = some none) (pc : UInt32) :
    table.SettledIn (table.bind label pc) := by
  have hkeeps : Keeps [label.id.toNat] table (table.bind label pc) :=
    (Keeps.refl _ _).bind (Or.inr List.mem_cons_self) pc
  refine hkeeps.settledIn ?_
  intro id hmem
  rw [List.mem_singleton.mp hmem]
  exact hopen

/-- A label that has just been bound has its place in every later table that keeps the places. -/
theorem SettledIn.target?_of_bind (h : (table.bind label pc).SettledIn new) (hlt : label.id.toNat < table.size) :
    new.target? label = some ⟨pc⟩ :=
  target?_of_slots (h _ _ (slots_bind_self hlt))

end LabelTable

open LabelTable

/-! ## Labels of the clauses of a conditional -/

theorem size_newLabels {clauses : List Clause} {labels : List Label} {a b : Assembler}
    (h : newLabels clauses a = .ok (labels, b)) : b.labels.size = a.labels.size + clauses.length := by
  induction clauses generalizing a labels with
  | nil =>
      obtain ⟨-, rfl⟩ := Prod.mk.inj (Except.ok.inj h)
      simp
  | cons clause clauses ih =>
      unfold newLabels at h
      rw [bind_of_ok (newLabel_apply a)] at h
      obtain ⟨rest, c, hrest, hpure⟩ := bind_eq_ok_iff.mp h
      obtain ⟨-, rfl⟩ := Prod.mk.inj (pure_eq_ok_iff.mp hpure)
      have hsize := ih hrest
      simp only [withLabels_labels, size_create] at hsize
      simp only [List.length_cons]
      omega

/-- The new labels have the numbers from the size of the table on, and no places. -/
theorem slots_newLabels {clauses : List Clause} {labels : List Label} {a b : Assembler}
    (h : newLabels clauses a = .ok (labels, b)) (hsize : b.labels.size ≤ 2 ^ 32) :
    Keeps [] a.labels b.labels ∧
      labels.map (·.id.toNat) = List.range' a.labels.size clauses.length ∧
        ∀ label ∈ labels, b.labels.slots[label.id.toNat]? = some none := by
  induction clauses generalizing a labels with
  | nil =>
      obtain ⟨rfl, rfl⟩ := Prod.mk.inj (Except.ok.inj h)
      exact ⟨.refl _ _, rfl, by simp⟩
  | cons clause clauses ih =>
      unfold newLabels at h
      rw [bind_of_ok (newLabel_apply a)] at h
      obtain ⟨rest, c, hrest, hpure⟩ := bind_eq_ok_iff.mp h
      obtain ⟨rfl, rfl⟩ := Prod.mk.inj (pure_eq_ok_iff.mp hpure)
      have hcount := size_newLabels hrest
      simp only [withLabels_labels, size_create] at hcount
      have hfirst : a.labels.create.1.id.toNat = a.labels.size := toNat_create (by omega)
      obtain ⟨hkeeps, hnumbers, hopen⟩ := ih hrest
      simp only [withLabels_labels, size_create] at hkeeps hnumbers
      refine ⟨(Keeps.refl [] a.labels).create.trans hkeeps, ?_, ?_⟩
      · simp [hfirst, hnumbers, List.range'_succ]
      · intro label hmem
        rcases List.mem_cons.mp hmem with rfl | hmem
        · -- Creating the others does not bind the first one.
          rw [hfirst, hkeeps.slots_eq _ (by simp) (by simp)]
          exact slots_create_size a.labels
        · exact hopen label hmem

/-! ## No more labels than instructions -/

/-- For every new label there is a new instruction. -/
structure Paid (a b : Assembler) : Prop where
  labels_le : a.labels.size ≤ b.labels.size
  paid : b.labels.size + a.code.size ≤ b.code.size + a.labels.size

theorem Paid.trans {a b c : Assembler} (h : Paid a b) (h' : Paid b c) : Paid a c := by
  have hab := h.paid
  have hbc := h'.paid
  exact ⟨Nat.le_trans h.labels_le h'.labels_le, by omega⟩

theorem Grows.paid {given : List Register} {a b : Assembler} {accesses : List Access} {code : List PlainInstruction}
    (h : Grows given a accesses code b) : Paid a b := by
  have hcode := h.code_size_eq
  have hlabels : b.labels.size = a.labels.size := by rw [h.labels_eq]
  exact ⟨by omega, by omega⟩

/-- Tests have no labels of their own and jump once for each clause. -/
theorem LowersTests.sizes {scope : Register} {a b : Assembler} {clauses : List Clause} {labels : List Label}
    {tests : List Test} (h : LowersTests scope a clauses labels tests b) :
    b.labels = a.labels ∧ a.code.size + clauses.length ≤ b.code.size := by
  induction h with
  | nil => simp
  | guarded grown _ _ ih =>
      have hcode := grown.code_size_eq
      obtain ⟨hlabels, hsize⟩ := ih
      simp only [pushed_labels, pushed_code_size] at hlabels hsize
      refine ⟨hlabels.trans grown.labels_eq, ?_⟩
      simp only [List.length_cons]
      omega
  | otherwise _ ih =>
      obtain ⟨hlabels, hsize⟩ := ih
      simp only [pushed_labels, pushed_code_size] at hlabels hsize
      refine ⟨hlabels, ?_⟩
      simp only [List.length_cons]
      omega

/-- The scope object of a statement is one instruction. -/
theorem sizes_enterScope {a b : Assembler} {inner : Register} (h : enterScope a = .ok (inner, b)) :
    b.labels = a.labels ∧ b.code.size = a.code.size + 1 := by
  obtain ⟨hlabels, -, -, hcode⟩ := frame_enterScope h rfl
  have hlength := congrArg List.length hcode
  exact ⟨hlabels, by simpa using hlength⟩

mutual

theorem paid_statement {loopEnd : Option Label} {scope : Register} {a b : Assembler} {statement : Statement}
    {outline : Outline} (h : LowersStatement loopEnd scope a statement outline b) : Paid a b := by
  cases h with
  | simple _ grown => exact grown.paid
  | conditional _ _ entered reserved tested chosen =>
      obtain ⟨hlabels, hcode⟩ := sizes_enterScope entered
      have hreserved := size_newLabels reserved
      obtain ⟨-, hcodeReserved, -⟩ := frame_newLabels reserved
      obtain ⟨hlabelsTests, hcodeTests⟩ := tested.sizes
      -- The scope object and the jump past all bodies pay for the label of the end, each test for that of its clause.
      have hle := (paid_bodies chosen).labels_le
      have hpaid := (paid_bodies chosen).paid
      simp only [withLabels_labels, withLabels_code, size_create, pushed_labels, pushed_code_size, hlabels,
        hlabelsTests, hcodeReserved] at hreserved hle hpaid hcodeTests
      constructor
      · simp only [closed_labels, bound_labels, size_bind]
        omega
      · simp only [closed_labels, bound_labels, size_bind, closed_code, bound_code]
        omega
  | whileLoop _ entered entryGrown _ repeated againGrown _ =>
      obtain ⟨hlabels, hcode⟩ := sizes_enterScope entered
      -- Two labels, and a scope object and two jumps beside the code of the parts.
      have hentry := entryGrown.paid.paid
      have hentryLabels := entryGrown.labels_eq
      have hle := (paid_block repeated).labels_le
      have hpaid := (paid_block repeated).paid
      have hagain := againGrown.paid.paid
      have hagainLabels := againGrown.labels_eq
      simp only [withLabels_labels, withLabels_code, size_create, pushed_code_size, bound_labels, bound_code,
        size_bind, hlabels, hentryLabels, hagainLabels] at hentry hle hpaid hagain
      constructor
      · simp only [closed_labels, bound_labels, size_bind, pushed_labels, hagainLabels]
        omega
      · simp only [closed_labels, bound_labels, size_bind, closed_code, bound_code, pushed_labels, pushed_code_size,
          hagainLabels]
        omega
  | breakLoop => exact ⟨Nat.le_refl _, by simp only [pushed_labels, pushed_code_size]; omega⟩

theorem paid_block {loopEnd : Option Label} {scope : Register} {a b : Assembler} {statements : List Statement}
    {outlines : List Outline} (h : LowersBlock loopEnd scope a statements outlines b) : Paid a b := by
  cases h with
  | nil => exact ⟨Nat.le_refl _, Nat.le_of_eq (Nat.add_comm _ _)⟩
  | cons first rest => exact (paid_statement first).trans (paid_block rest)

theorem paid_bodies {loopEnd : Option Label} {scope : Register} {conditionalEnd : Label} {a b : Assembler}
    {clauses : List Clause} {labels : List Label} {bodies : List (List Outline)}
    (h : LowersBodies loopEnd scope conditionalEnd a clauses labels bodies b) : Paid a b := by
  cases h with
  | nil => exact ⟨Nat.le_refl _, Nat.le_of_eq (Nat.add_comm _ _)⟩
  | guarded first rest =>
      have hfirst := (paid_block first).paid
      have hfirstLe := (paid_block first).labels_le
      have hrest := (paid_bodies rest).paid
      have hrestLe := (paid_bodies rest).labels_le
      simp only [bound_labels, bound_code, size_bind, pushed_labels, pushed_code_size] at hfirst hfirstLe hrest hrestLe
      exact ⟨by omega, by omega⟩
  | otherwise first rest =>
      have hfirst := (paid_block first).paid
      have hfirstLe := (paid_block first).labels_le
      have hrest := (paid_bodies rest).paid
      have hrestLe := (paid_bodies rest).labels_le
      simp only [bound_labels, bound_code, size_bind] at hfirst hfirstLe
      exact ⟨by omega, by omega⟩

end

/-! ## Labels from before keep their places -/

/-- The numbers of labels. -/
def labelIds (labels : List Label) : List Nat :=
  labels.map (·.id.toNat)

/-- The labels of a conditional before its bodies: all are new, they differ from each other, and none has a place. -/
structure ConditionalLabels (a d : Assembler) (conditionalEnd : Label) (labels : List Label) : Prop where
  keeps : Keeps [] a.labels d.labels
  end_id : conditionalEnd.id.toNat = a.labels.size
  end_open : d.labels.slots[conditionalEnd.id.toNat]? = some none
  later : ∀ id ∈ labelIds labels, a.labels.size < id
  distinct : (labelIds labels).Nodup
  labels_open : ∀ label ∈ labels, d.labels.slots[label.id.toNat]? = some none

theorem conditionalLabels {a b c d : Assembler} {inner : Register} {clauses : List Clause} {labels : List Label}
    {tests : List Test} (entered : enterScope a = .ok (inner, b))
    (reserved : newLabels clauses (b.withLabels b.labels.create.2) = .ok (labels, c))
    (tested : LowersTests inner c clauses labels tests d) (hsize : d.labels.size ≤ 2 ^ 32) :
    ConditionalLabels a d b.labels.create.1 labels := by
  obtain ⟨hlabels, -⟩ := sizes_enterScope entered
  obtain ⟨hlabelsTests, -⟩ := tested.sizes
  have hcount := size_newLabels reserved
  rw [hlabelsTests] at hsize
  obtain ⟨hkeeps, hnumbers, hopen⟩ := slots_newLabels reserved hsize
  simp only [withLabels_labels, size_create, hlabels] at hcount hkeeps hnumbers
  have hend : b.labels.create.1.id.toNat = a.labels.size := by
    rw [hlabels]
    exact toNat_create (by omega)
  -- The numbers of the clauses follow the number of the end.
  have hlater : ∀ id ∈ labelIds labels, a.labels.size < id := by
    intro id hmem
    unfold labelIds at hmem
    rw [hnumbers, List.mem_range'_1] at hmem
    omega
  refine ⟨?_, hend, ?_, hlater, ?_, ?_⟩
  · rw [hlabelsTests]
    exact (Keeps.refl [] a.labels).create.trans hkeeps
  · rw [hlabelsTests, hend, hkeeps.slots_eq _ (by simp) (by simp)]
    exact slots_create_size a.labels
  · unfold labelIds
    rw [hnumbers]
    exact List.nodup_range'
  · rw [hlabelsTests]
    exact hopen

/-- The labels of a loop before its body, in a table: both are new, and only the beginning of a round has a place. -/
structure LoopLabels (a : Assembler) (table : LabelTable) (exit start : Label) (pc : UInt32) : Prop where
  keeps : Keeps [] a.labels table
  exit_id : exit.id.toNat = a.labels.size
  exit_open : table.slots[exit.id.toNat]? = some none
  start_place : table.slots[start.id.toNat]? = some (some pc)

theorem loopLabels {a b c : Assembler} {inner : Register} {given : List Register} {accesses : List Access}
    {code : List PlainInstruction} (entered : enterScope a = .ok (inner, b))
    (grown : Grows given (b.withLabels b.labels.create.2) accesses code c) (pc : UInt32)
    (hsize : c.labels.create.2.size ≤ 2 ^ 32) :
    LoopLabels a (c.labels.create.2.bind c.labels.create.1 pc) b.labels.create.1 c.labels.create.1 pc := by
  obtain ⟨hlabels, -⟩ := sizes_enterScope entered
  have hgrown := grown.labels_eq
  rw [withLabels_labels, hlabels] at hgrown
  rw [hlabels, hgrown]
  simp only [hgrown, size_create] at hsize
  have hexit : a.labels.create.1.id.toNat = a.labels.size := toNat_create (by omega)
  have hstart : a.labels.create.2.create.1.id.toNat = a.labels.size + 1 := by
    rw [toNat_create (by rw [size_create]; omega), size_create]
  refine ⟨?_, hexit, ?_, ?_⟩
  · exact (Keeps.refl [] a.labels).create.create.bind (Or.inl (by omega)) pc
  · rw [slots_bind_of_ne (by omega), hexit, slots_create_of_lt (by simp)]
    exact slots_create_size a.labels
  · exact slots_bind_self (by simp only [size_create]; omega)

mutual

/-- A statement binds no label that was there before it. -/
theorem keeps_statement {loopEnd : Option Label} {scope : Register} {a b : Assembler} {statement : Statement}
    {outline : Outline} (h : LowersStatement loopEnd scope a statement outline b) (hsize : b.labels.size ≤ 2 ^ 32) :
    Keeps [] a.labels b.labels := by
  cases h with
  | simple _ grown =>
      rw [grown.labels_eq]
      exact .refl _ _
  | conditional _ _ entered reserved tested chosen =>
      simp only [closed_labels, bound_labels, size_bind] at hsize ⊢
      have hnew := conditionalLabels entered reserved tested (Nat.le_trans (paid_bodies chosen).labels_le hsize)
      have hbodies := keeps_bodies chosen hsize
      refine Keeps.bind ?_ (Or.inl (Nat.le_of_eq hnew.end_id.symm)) _
      exact hnew.keeps.trans_new hbodies fun id hmem => Nat.le_of_lt (hnew.later id hmem)
  | @whileLoop _ _ _ _ b c _ _ _ _ _ entry _ _ _ entered entryGrown _ repeated againGrown _ =>
      simp only [closed_labels, bound_labels, size_bind, pushed_labels, againGrown.labels_eq] at hsize ⊢
      have hle := (paid_block repeated).labels_le
      simp only [bound_labels, withLabels_labels, size_bind] at hle
      have hnew := loopLabels entered entryGrown (c.pushed (.jumpIfNot entry.condition b.labels.create.1)).position
        (Nat.le_trans hle hsize)
      have hbody := hnew.keeps.trans (keeps_block repeated hsize)
      exact hbody.bind (Or.inl (Nat.le_of_eq hnew.exit_id.symm)) _
  | breakLoop => exact .refl _ _

theorem keeps_block {loopEnd : Option Label} {scope : Register} {a b : Assembler} {statements : List Statement}
    {outlines : List Outline} (h : LowersBlock loopEnd scope a statements outlines b)
    (hsize : b.labels.size ≤ 2 ^ 32) : Keeps [] a.labels b.labels := by
  cases h with
  | nil => exact .refl _ _
  | cons first rest =>
      have hle := (paid_block rest).labels_le
      exact (keeps_statement first (by omega)).trans (keeps_block rest hsize)

/-- The bodies of a conditional bind the labels of its clauses and no others that were there before. -/
theorem keeps_bodies {loopEnd : Option Label} {scope : Register} {conditionalEnd : Label} {a b : Assembler}
    {clauses : List Clause} {labels : List Label} {bodies : List (List Outline)}
    (h : LowersBodies loopEnd scope conditionalEnd a clauses labels bodies b) (hsize : b.labels.size ≤ 2 ^ 32) :
    Keeps (labelIds labels) a.labels b.labels := by
  cases h with
  | nil => exact .refl _ _
  | @guarded _ _ _ label _ c _ _ _ _ _ _ labels _ _ first rest =>
      have hle := (paid_bodies rest).labels_le
      have hfirst := keeps_block first (Nat.le_trans hle hsize)
      have hrest := keeps_bodies rest hsize
      have hsub : ∀ id ∈ labelIds labels, id ∈ labelIds (label :: labels) := fun id => List.mem_cons_of_mem _
      refine Keeps.trans ?_ (hrest.mono hsub)
      refine Keeps.trans ?_ (hfirst.mono (by simp))
      exact (Keeps.refl _ _).bind (Or.inr (by simp [labelIds])) _
  | @otherwise _ _ _ label _ c _ _ _ _ labels _ _ first rest =>
      have hle := (paid_bodies rest).labels_le
      have hfirst := keeps_block first (Nat.le_trans hle hsize)
      have hrest := keeps_bodies rest hsize
      have hsub : ∀ id ∈ labelIds labels, id ∈ labelIds (label :: labels) := fun id => List.mem_cons_of_mem _
      refine Keeps.trans ?_ (hrest.mono hsub)
      refine Keeps.trans ?_ (hfirst.mono (by simp))
      exact (Keeps.refl _ _).bind (Or.inr (by simp [labelIds])) _

end

end ScriptBytecode
