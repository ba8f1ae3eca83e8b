import Mathlib.Data.List.Forall2
import ScriptBytecode.Proofs.LabelPlaces

/-!
# The layout of programs

Where the instructions of a script stand can be computed from its outline, without labels: `ScriptOutline.lines` lists
the instructions of the program in order, each with the kind of the statement that it was emitted for. The tests of a
conditional stand before all of its bodies; a loop has its two tests around its body.

`instructions_eq_lines` says that the program of a script with less than 2^32 instructions consists of these lines.
-/

namespace ScriptBytecode

open Assembler Assembling LabelTable

/-- An instruction of a program and the kind of the innermost statement that it was emitted for, if it was emitted for
one. -/
structure Line where
  origin : Option StatementKind
  instruction : Instruction JumpTarget

/-- Lines of plain instructions. -/
def plainLines (origin : Option StatementKind) (code : List PlainInstruction) : List Line :=
  code.map fun instruction => ⟨origin, .ofPlain instruction⟩

@[simp] theorem length_plainLines (origin : Option StatementKind) (code : List PlainInstruction) :
    (plainLines origin code).length = code.length := by
  simp [plainLines]

/-- A position as the target of a jump. -/
def placeAt (position : Nat) : JumpTarget :=
  ⟨UInt32.ofNat position⟩

mutual

/-- The number of instructions of a statement. -/
def Outline.size : Outline → Nat
  | .simple _ code => code.length
  | .conditional opening choice => opening.length + choice.testsSize + choice.bodiesSize
  | .whileLoop opening entry body again =>
      opening.length + (entry.code.length + 1) + sizeOfBlock body + (again.code.length + 1)
  | .breakLoop => 1

def sizeOfBlock : List Outline → Nat
  | [] => 0
  | outline :: outlines => outline.size + sizeOfBlock outlines

/-- The number of instructions before the first body of a conditional, with the jump past all bodies. -/
def Choice.testsSize : Choice → Nat
  | .nothing => 1
  | .otherwise _ => 2
  | .guarded test _ others => test.code.length + 1 + others.testsSize

/-- The number of instructions from the first body of a conditional on. -/
def Choice.bodiesSize : Choice → Nat
  | .nothing => 0
  | .otherwise body => sizeOfBlock body
  | .guarded _ body others => sizeOfBlock body + 1 + others.bodiesSize

end

mutual

/-- The lines of a statement from a position on, inside a loop that is left to `leave`. -/
def Outline.render (leave position : Nat) : Outline → List Line
  | .simple kind code => plainLines (some kind) code
  | .conditional opening choice =>
      let bodies := position + opening.length + choice.testsSize
      let finish := bodies + choice.bodiesSize
      plainLines (some .conditional) opening ++ choice.renderTests finish bodies ++
        choice.renderBodies leave finish bodies
  | .whileLoop opening entry body again =>
      let start := position + opening.length + (entry.code.length + 1)
      let exit := start + sizeOfBlock body + (again.code.length + 1)
      plainLines (some .whileLoop) opening ++
        (plainLines (some .whileLoop) entry.code ++ [⟨some .whileLoop, .jumpIfNot entry.condition (placeAt exit)⟩]) ++
        renderBlock exit start body ++
        (plainLines (some .whileLoop) again.code ++ [⟨some .whileLoop, .jumpIf again.condition (placeAt start)⟩])
  | .breakLoop => [⟨some .breakLoop, .jump (placeAt leave)⟩]

def renderBlock (leave position : Nat) : List Outline → List Line
  | [] => []
  | outline :: outlines => outline.render leave position ++ renderBlock leave (position + outline.size) outlines

/-- The tests of a conditional that ends at `finish` and has its bodies from a position on. -/
def Choice.renderTests (finish bodies : Nat) : Choice → List Line
  | .nothing => [⟨some .conditional, .jump (placeAt finish)⟩]
  | .otherwise _ => [⟨some .conditional, .jump (placeAt bodies)⟩, ⟨some .conditional, .jump (placeAt finish)⟩]
  | .guarded test body others =>
      plainLines (some .conditional) test.code ++ [⟨some .conditional, .jumpIf test.condition (placeAt bodies)⟩] ++
        others.renderTests finish (bodies + sizeOfBlock body + 1)

def Choice.renderBodies (leave finish position : Nat) : Choice → List Line
  | .nothing => []
  | .otherwise body => renderBlock leave position body
  | .guarded _ body others =>
      renderBlock leave position body ++ [⟨some .conditional, .jump (placeAt finish)⟩] ++
        others.renderBodies leave finish (position + sizeOfBlock body + 1)

end

/-- The lines of a script. No statement is left to a place outside, so that place does not matter. -/
def ScriptOutline.lines (outline : ScriptOutline) : List Line :=
  plainLines none outline.opening ++ renderBlock 0 outline.opening.length outline.body

mutual

@[simp] theorem length_render (leave position : Nat) : ∀ outline : Outline,
    (outline.render leave position).length = outline.size
  | .simple kind code => by simp [Outline.render, Outline.size]
  | .conditional opening choice => by
      simp only [Outline.render, Outline.size, List.length_append, length_plainLines, length_renderTests,
        length_renderBodies]
  | .whileLoop opening entry body again => by
      simp only [Outline.render, Outline.size, List.length_append, length_plainLines, length_renderBlock,
        List.length_singleton]
  | .breakLoop => by simp [Outline.render, Outline.size]

@[simp] theorem length_renderBlock (leave position : Nat) : ∀ outlines : List Outline,
    (renderBlock leave position outlines).length = sizeOfBlock outlines
  | [] => by simp [renderBlock, sizeOfBlock]
  | outline :: outlines => by
      simp [renderBlock, sizeOfBlock, length_render leave position outline,
        length_renderBlock leave _ outlines]

@[simp] theorem length_renderTests (finish bodies : Nat) : ∀ choice : Choice,
    (choice.renderTests finish bodies).length = choice.testsSize
  | .nothing => by simp [Choice.renderTests, Choice.testsSize]
  | .otherwise body => by simp [Choice.renderTests, Choice.testsSize]
  | .guarded test body others => by
      simp only [Choice.renderTests, Choice.testsSize, List.length_append, length_plainLines,
        List.length_singleton, length_renderTests finish _ others]

@[simp] theorem length_renderBodies (leave finish position : Nat) : ∀ choice : Choice,
    (choice.renderBodies leave finish position).length = choice.bodiesSize
  | .nothing => by simp [Choice.renderBodies, Choice.bodiesSize]
  | .otherwise body => by simp [Choice.renderBodies, Choice.bodiesSize, length_renderBlock leave position body]
  | .guarded test body others => by
      simp only [Choice.renderBodies, Choice.bodiesSize, List.length_append, List.length_singleton,
        length_renderBlock leave position body, length_renderBodies leave finish _ others]

end

/-! ## Replacing labels -/

/-- With the places of a table, code under construction becomes the instructions of some lines. -/
def Resolves (table : LabelTable) (code : List (Instruction Label)) (lines : List Line) : Prop :=
  resolveCode table code = .ok (lines.map (·.instruction))

namespace Resolves

variable {table : LabelTable}

theorem nil (table : LabelTable) : Resolves table [] [] := rfl

theorem cons {instruction : Instruction Label} {line : Line} {code : List (Instruction Label)} {lines : List Line}
    (hfirst : instruction.mapTargetM table.resolve = .ok line.instruction) (hrest : Resolves table code lines) :
    Resolves table (instruction :: code) (line :: lines) := by
  unfold Resolves at hrest ⊢
  simp [resolveCode, hfirst, hrest]

theorem append {code more : List (Instruction Label)} {lines moreLines : List Line}
    (h : Resolves table code lines) (h' : Resolves table more moreLines) :
    Resolves table (code ++ more) (lines ++ moreLines) := by
  induction code generalizing lines with
  | nil =>
      have hmap : [] = lines.map (·.instruction) := Except.ok.inj h
      obtain rfl := List.map_eq_nil_iff.mp hmap.symm
      exact h'
  | cons instruction code ih =>
      unfold Resolves resolveCode at h
      cases hfirst : instruction.mapTargetM table.resolve with
      | error error => simp [hfirst] at h
      | ok resolved =>
          cases hrest : resolveCode table code with
          | error error => simp [hfirst, hrest] at h
          | ok rest =>
              cases lines with
              | nil => simp [hfirst, hrest] at h
              | cons line lines =>
                  simp only [hfirst, hrest, Except.ok.injEq, List.map_cons, List.cons.injEq] at h
                  obtain ⟨rfl, rfl⟩ := h
                  exact .cons hfirst (ih hrest)

theorem plain (table : LabelTable) (origin : Option StatementKind) (code : List PlainInstruction) :
    Resolves table (code.map (@Instruction.ofPlain Label)) (plainLines origin code) := by
  induction code with
  | nil => exact .nil table
  | cons instruction code ih => exact .cons (Instruction.mapTargetM_ofPlain _ instruction) ih

theorem jump {label : Label} {position : Nat} (origin : Option StatementKind)
    (h : table.target? label = some (placeAt position)) :
    Resolves table [.jump label] [⟨origin, .jump (placeAt position)⟩] :=
  .cons (by simp [Instruction.mapTargetM, LabelTable.resolve, h, Except.map]) (.nil table)

theorem jumpIf {label : Label} {position : Nat} (origin : Option StatementKind) (condition : Register)
    (h : table.target? label = some (placeAt position)) :
    Resolves table [.jumpIf condition label] [⟨origin, .jumpIf condition (placeAt position)⟩] :=
  .cons (by simp [Instruction.mapTargetM, LabelTable.resolve, h, Except.map]) (.nil table)

theorem jumpIfNot {label : Label} {position : Nat} (origin : Option StatementKind) (condition : Register)
    (h : table.target? label = some (placeAt position)) :
    Resolves table [.jumpIfNot condition label] [⟨origin, .jumpIfNot condition (placeAt position)⟩] :=
  .cons (by simp [Instruction.mapTargetM, LabelTable.resolve, h, Except.map]) (.nil table)

end Resolves

/-- The labels of the clauses of a conditional have the places of their bodies, from a position on. -/
def BodiesPlaced (table : LabelTable) : Choice → List Label → Nat → Prop
  | .guarded _ body others, label :: labels, position =>
      table.target? label = some (placeAt position) ∧
        BodiesPlaced table others labels (position + sizeOfBlock body + 1)
  | .otherwise _, label :: _, position => table.target? label = some (placeAt position)
  | _, _, _ => True

/-! ## Lowered code has the layout of its outline -/

theorem any_dropLast_of_cons {clause : Clause} {clauses : List Clause}
    (h : (clause :: clauses).dropLast.any Clause.isOtherwise = false) :
    clauses.dropLast.any Clause.isOtherwise = false := by
  cases clauses with
  | nil => rfl
  | cons next clauses =>
      rw [List.dropLast_cons_cons, List.any_cons, Bool.or_eq_false_iff] at h
      exact h.2

/-- A clause without a condition is the last one. -/
theorem eq_nil_of_otherwise {body : List Statement} {location : Option Location} {clauses : List Clause}
    (h : (Clause.otherwise body location :: clauses).dropLast.any Clause.isOtherwise = false) : clauses = [] := by
  cases clauses with
  | nil => rfl
  | cons next clauses => simp [Clause.isOtherwise] at h

theorem LowersBodies.length_eq {loopEnd : Option Label} {scope : Register} {conditionalEnd : Label}
    {a b : Assembler} : ∀ {clauses : List Clause} {labels : List Label} {bodies : List (List Outline)},
      LowersBodies loopEnd scope conditionalEnd a clauses labels bodies b → bodies.length = clauses.length
  | _, _, _, .nil => rfl
  | _, _, _, .guarded _ rest => congrArg Nat.succ rest.length_eq
  | _, _, _, .otherwise _ rest => congrArg Nat.succ rest.length_eq

theorem LowersTests.length_eq {scope : Register} {a b : Assembler} {clauses : List Clause} {labels : List Label}
    {tests : List Test} (h : LowersTests scope a clauses labels tests b) :
    tests.length = clauses.countP fun clause => !clause.isOtherwise := by
  induction h with
  | nil => rfl
  | guarded _ _ _ ih => simp [Clause.isOtherwise, ih]
  | otherwise _ ih => simp [Clause.isOtherwise, ih]

theorem LowersTests.layout {scope : Register} {a b : Assembler} {clauses : List Clause} {labels : List Label}
    {tests : List Test} (h : LowersTests scope a clauses labels tests b)
    (hlast : clauses.dropLast.any Clause.isOtherwise = false) {bodies : List (List Outline)}
    (hbodies : bodies.length = clauses.length) :
    ∃ emitted, b.code.toList = a.code.toList ++ emitted ∧
      emitted.length + 1 = (Choice.ofParts clauses tests bodies).testsSize ∧
        ∀ {table : LabelTable} {conditionalEnd : Label} {finish position : Nat},
          BodiesPlaced table (.ofParts clauses tests bodies) labels position →
            table.target? conditionalEnd = some (placeAt finish) →
              Resolves table (emitted ++ [.jump conditionalEnd])
                ((Choice.ofParts clauses tests bodies).renderTests finish position) := by
  induction h generalizing bodies with
  | nil =>
      refine ⟨[], by simp, by simp [Choice.ofParts, Choice.testsSize], ?_⟩
      intro table conditionalEnd finish position _ hfinish
      exact .jump _ hfinish
  | @guarded a b c _ _ _ _ clauses label labels test tests grown _ rest ih =>
      cases bodies with
      | nil => simp at hbodies
      | cons body bodies =>
          obtain ⟨emitted, hcode, hlength, hresolves⟩ := ih (any_dropLast_of_cons hlast) (Nat.succ.inj hbodies)
          refine ⟨test.code.map (@Instruction.ofPlain Label) ++ [.jumpIf test.condition label] ++ emitted, ?_, ?_, ?_⟩
          · simp [hcode, grown.code_eq]
          · simp only [Choice.ofParts, Choice.testsSize, List.length_append, List.length_map, List.length_singleton]
            omega
          · intro table conditionalEnd finish position hplaced hfinish
            obtain ⟨hfirst, hrest⟩ := hplaced
            simp only [Choice.ofParts, Choice.renderTests]
            rw [List.append_assoc _ emitted]
            refine .append (.append (.plain table _ test.code) ?_) (hresolves hrest hfinish)
            exact .jumpIf _ test.condition hfirst
  | @otherwise a b _ _ clauses label labels tests rest ih =>
      -- There is no clause behind one without a condition, so the jump past all bodies comes next.
      obtain rfl := eq_nil_of_otherwise hlast
      cases rest with
      | nil =>
          cases bodies with
          | nil => simp at hbodies
          | cons body bodies =>
              refine ⟨[.jump label], by simp, by simp [Choice.ofParts, Choice.testsSize], ?_⟩
              intro table conditionalEnd finish position hplaced hfinish
              exact .append (.jump _ hplaced) (.jump _ hfinish)

/-- Binding the label of the first body leaves the labels of the others without a place. -/
theorem slots_of_others {label : Label} {labels : List Label} {pc : UInt32} {old new : LabelTable}
    (hopen : ∀ other ∈ label :: labels, old.slots[other.id.toNat]? = some none)
    (hdistinct : (labelIds (label :: labels)).Nodup) (hkeeps : Keeps [] (old.bind label pc) new) :
    ∀ other ∈ labels, new.slots[other.id.toNat]? = some none := by
  intro other hmem
  have hother := hopen other (List.mem_cons_of_mem _ hmem)
  have hlt : other.id.toNat < old.size := (Array.getElem?_eq_some_iff.mp hother).1
  have hne : label.id.toNat ≠ other.id.toNat := by
    intro heq
    have hnot : label.id.toNat ∉ labelIds labels := (List.nodup_cons.mp hdistinct).1
    exact hnot (heq ▸ List.mem_map_of_mem hmem)
  rw [hkeeps.slots_eq _ (by rw [size_bind]; exact hlt) (by simp), slots_bind_of_ne hne]
  exact hother

/-- The place of the loop around a statement, if there is one, is where loops are left to. -/
def LeavesTo (table : LabelTable) (loopEnd : Option Label) (leave : Nat) : Prop :=
  ∀ exit, loopEnd = some exit → table.target? exit = some (placeAt leave)

/-- The code between two assemblers has a given size, and with the places of any later table it becomes the lines that
belong to the place where loops are left to. -/
def LaidOut (loopEnd : Option Label) (a b : Assembler) (size : Nat) (lines : Nat → List Line) : Prop :=
  ∃ emitted, b.code.toList = a.code.toList ++ emitted ∧ emitted.length = size ∧
    ∀ {table : LabelTable} {leave : Nat}, b.labels.SettledIn table → LeavesTo table loopEnd leave →
      Resolves table emitted (lines leave)

/-- The same for the bodies of a conditional, which end at a label that is bound later; the labels of the clauses get
the places of their bodies. -/
def BodiesLaidOut (loopEnd : Option Label) (conditionalEnd : Label) (a b : Assembler) (labels : List Label)
    (choice : Choice) : Prop :=
  ∃ emitted, b.code.toList = a.code.toList ++ emitted ∧ emitted.length = choice.bodiesSize ∧
    ∀ {table : LabelTable} {leave finish : Nat}, b.labels.SettledIn table → LeavesTo table loopEnd leave →
      table.target? conditionalEnd = some (placeAt finish) →
        BodiesPlaced table choice labels a.code.size ∧
          Resolves table emitted (choice.renderBodies leave finish a.code.size)

theorem laidOut_conditional {loopEnd : Option Label} {scope inner : Register} {a b c d e : Assembler}
    {clauses : List Clause} {labels : List Label} {tests : List Test} {bodies : List (List Outline)}
    (hlast : clauses.dropLast.any Clause.isOtherwise = false) (parent : a.scopes.currentRegister? = some scope)
    (entered : enterScope a = .ok (inner, b))
    (reserved : newLabels clauses (b.withLabels b.labels.create.2) = .ok (labels, c))
    (tested : LowersTests inner c clauses labels tests d) (hcount : bodies.length = clauses.length)
    (hnew : ConditionalLabels a d b.labels.create.1 labels) (hkeeps : Keeps (labelIds labels) d.labels e.labels)
    (hbodies : BodiesLaidOut loopEnd b.labels.create.1 (d.pushed (.jump b.labels.create.1)) e labels
      (.ofParts clauses tests bodies)) :
    LaidOut loopEnd a (e.bound b.labels.create.1).closed
      (Outline.conditional [.newScope inner (some scope)] (.ofParts clauses tests bodies)).size
      fun leave => (Outline.conditional [.newScope inner (some scope)] (.ofParts clauses tests bodies)).render leave
        a.code.size := by
  obtain ⟨-, -, -, hcodeEntered⟩ := frame_enterScope entered parent
  obtain ⟨-, hcodeReserved, -⟩ := frame_newLabels reserved
  obtain ⟨emittedTests, hcodeTests, hlengthTests, hresolvesTests⟩ := tested.layout hlast hcount
  obtain ⟨emittedBodies, hcodeBodies, hlengthBodies, hresolvesBodies⟩ := hbodies
  have hlt : b.labels.create.1.id.toNat < d.labels.size := (Array.getElem?_eq_some_iff.mp hnew.end_open).1
  -- The end of the conditional has no place until it is bound behind the bodies.
  have hendOpen : e.labels.slots[b.labels.create.1.id.toNat]? = some none := by
    have hnot : b.labels.create.1.id.toNat ∉ labelIds labels := by
      intro hmem
      have hlater := hnew.later _ hmem
      rw [hnew.end_id] at hlater
      omega
    rw [hkeeps.slots_eq _ hlt hnot]
    exact hnew.end_open
  have hposition : (d.pushed (.jump b.labels.create.1)).code.size =
      a.code.size + 1 + (Choice.ofParts clauses tests bodies).testsSize := by
    have hsizes := congrArg List.length hcodeTests
    have hsizesEntered := congrArg List.length hcodeEntered
    simp only [List.length_append, Array.length_toList, hcodeReserved, withLabels_code, List.length_singleton]
      at hsizes hsizesEntered
    rw [pushed_code_size]
    omega
  have hfinish : e.code.size = a.code.size + 1 + (Choice.ofParts clauses tests bodies).testsSize +
      (Choice.ofParts clauses tests bodies).bodiesSize := by
    have hsizes := congrArg List.length hcodeBodies
    simp only [List.length_append, Array.length_toList, hlengthBodies] at hsizes
    omega
  refine ⟨[.newScope inner (some scope)] ++ (emittedTests ++ [.jump b.labels.create.1]) ++ emittedBodies, ?_, ?_, ?_⟩
  · simp [hcodeBodies, hcodeTests, hcodeReserved, hcodeEntered]
  · simp only [Outline.size, List.length_append, List.length_singleton]
    omega
  · intro table leave htable hleave
    simp only [closed_labels, bound_labels] at htable
    have hsettled := (settledIn_bind hendOpen e.position).trans htable
    have hendPlace : table.target? b.labels.create.1 = some (placeAt e.code.size) :=
      htable.target?_of_bind (Nat.lt_of_lt_of_le hlt hkeeps.size_le)
    obtain ⟨hplaced, hresolved⟩ := hresolvesBodies hsettled hleave hendPlace
    rw [hposition] at hplaced hresolved
    rw [hfinish] at hendPlace hresolved
    simp only [Outline.render, List.length_singleton]
    exact .append (.append (.plain table _ [.newScope inner (some scope)]) (hresolvesTests hplaced hendPlace)) hresolved

theorem laidOut_whileLoop {loopEnd : Option Label} {scope inner : Register} {a b c d e : Assembler}
    {accesses : List Access} {entry again : Test} {body : List Outline}
    (parent : a.scopes.currentRegister? = some scope) (entered : enterScope a = .ok (inner, b))
    (entryGrown : Grows [inner] (b.withLabels b.labels.create.2) accesses entry.code c)
    (againGrown : Grows [inner] d accesses again.code e)
    (hnew : LoopLabels a
      (((c.pushed (.jumpIfNot entry.condition b.labels.create.1)).withLabels c.labels.create.2).bound
        c.labels.create.1).labels b.labels.create.1 c.labels.create.1
      (c.pushed (.jumpIfNot entry.condition b.labels.create.1)).position)
    (hkeeps : Keeps [] (((c.pushed (.jumpIfNot entry.condition b.labels.create.1)).withLabels
      c.labels.create.2).bound c.labels.create.1).labels d.labels)
    (hbody : LaidOut (some b.labels.create.1) (((c.pushed (.jumpIfNot entry.condition b.labels.create.1)).withLabels
      c.labels.create.2).bound c.labels.create.1) d (sizeOfBlock body)
      fun leave => renderBlock leave (c.pushed (.jumpIfNot entry.condition b.labels.create.1)).code.size body) :
    LaidOut loopEnd a
      ((e.pushed (.jumpIf again.condition c.labels.create.1)).bound b.labels.create.1).closed
      (Outline.whileLoop [.newScope inner (some scope)] entry body again).size
      fun leave => (Outline.whileLoop [.newScope inner (some scope)] entry body again).render leave a.code.size := by
  obtain ⟨-, -, -, hcodeEntered⟩ := frame_enterScope entered parent
  obtain ⟨emitted, hcode, hlength, hresolves⟩ := hbody
  have hlt := (Array.getElem?_eq_some_iff.mp hnew.exit_open).1
  -- The end of the loop has no place until it is bound behind the second test.
  have hexitOpen : e.labels.slots[b.labels.create.1.id.toNat]? = some none := by
    rw [againGrown.labels_eq, hkeeps.slots_eq _ hlt (by simp)]
    exact hnew.exit_open
  have hstart : (c.pushed (.jumpIfNot entry.condition b.labels.create.1)).code.size =
      a.code.size + 1 + (entry.code.length + 1) := by
    have hsizes := entryGrown.code_size_eq
    have hsizesEntered := congrArg List.length hcodeEntered
    simp only [List.length_append, Array.length_toList, withLabels_code, List.length_singleton] at hsizes hsizesEntered
    rw [pushed_code_size]
    omega
  have hexit : (e.pushed (.jumpIf again.condition c.labels.create.1)).code.size =
      a.code.size + 1 + (entry.code.length + 1) + sizeOfBlock body + (again.code.length + 1) := by
    have hsizes := againGrown.code_size_eq
    have hsizesBody := congrArg List.length hcode
    simp only [List.length_append, Array.length_toList, bound_code, withLabels_code, hlength] at hsizesBody
    rw [pushed_code_size]
    omega
  refine ⟨[.newScope inner (some scope)] ++
    (entry.code.map (@Instruction.ofPlain Label) ++ [.jumpIfNot entry.condition b.labels.create.1]) ++ emitted ++
    (again.code.map (@Instruction.ofPlain Label) ++ [.jumpIf again.condition c.labels.create.1]), ?_, ?_, ?_⟩
  · simp [againGrown.code_eq, hcode, entryGrown.code_eq, hcodeEntered]
  · simp only [Outline.size, List.length_append, List.length_singleton, List.length_map]
    omega
  · intro table leave htable hleave
    simp only [closed_labels, bound_labels, pushed_labels] at htable
    have hsettled : d.labels.SettledIn table := by
      rw [← againGrown.labels_eq]
      exact (settledIn_bind hexitOpen _).trans htable
    have hexitPlace : table.target? b.labels.create.1 =
        some (placeAt (e.pushed (.jumpIf again.condition c.labels.create.1)).code.size) :=
      htable.target?_of_bind (Array.getElem?_eq_some_iff.mp hexitOpen).1
    have hstartPlace : table.target? c.labels.create.1 =
        some (placeAt (c.pushed (.jumpIfNot entry.condition b.labels.create.1)).code.size) :=
      target?_of_slots (hsettled _ _ (hkeeps.settledIn (by simp) _ _ hnew.start_place))
    rw [hexit] at hexitPlace
    have hleaveBody : LeavesTo table (some b.labels.create.1)
        (a.code.size + 1 + (entry.code.length + 1) + sizeOfBlock body + (again.code.length + 1)) :=
      fun exit hsome => Option.some.inj hsome ▸ hexitPlace
    have hresolved := hresolves hsettled hleaveBody
    rw [hstart] at hstartPlace hresolved
    simp only [Outline.render, List.length_singleton]
    refine .append (.append (.append (.plain table _ [.newScope inner (some scope)]) ?_) hresolved) ?_
    · exact .append (.plain table _ entry.code) (.jumpIfNot _ entry.condition hexitPlace)
    · exact .append (.plain table _ again.code) (.jumpIf _ again.condition hstartPlace)

mutual

theorem layout_statement {loopEnd : Option Label} {scope : Register} {a b : Assembler} {statement : Statement}
    {outline : Outline} (h : LowersStatement loopEnd scope a statement outline b)
    (hsize : b.labels.size ≤ 2 ^ 32) :
    LaidOut loopEnd a b outline.size fun leave => outline.render leave a.code.size := by
  cases h with
  | @simple _ _ _ _ statement code _ grown =>
      refine ⟨code.map (@Instruction.ofPlain Label), grown.code_eq, by simp [Outline.size], ?_⟩
      intro table leave _ _
      exact .plain table _ code
  | @conditional _ _ _ _ _ _ _ _ _ _ _ tests _ hlast parent entered reserved tested chosen =>
      simp only [closed_labels, bound_labels, size_bind] at hsize
      have hnew := conditionalLabels entered reserved tested (Nat.le_trans (paid_bodies chosen).labels_le hsize)
      have hkeeps := keeps_bodies chosen hsize
      have hbodies := layout_bodies chosen hsize hlast hnew.labels_open hnew.distinct tests tested.length_eq
      exact laidOut_conditional hlast parent entered reserved tested chosen.length_eq hnew hkeeps hbodies
  | @whileLoop _ _ _ _ b c _ _ _ _ _ entry _ _ parent entered entryGrown _ repeated againGrown _ =>
      simp only [closed_labels, bound_labels, size_bind, pushed_labels, againGrown.labels_eq] at hsize
      have hle := (paid_block repeated).labels_le
      simp only [bound_labels, withLabels_labels, size_bind] at hle
      have hnew := loopLabels entered entryGrown (c.pushed (.jumpIfNot entry.condition b.labels.create.1)).position
        (Nat.le_trans hle hsize)
      exact laidOut_whileLoop parent entered entryGrown againGrown hnew (keeps_block repeated hsize)
        (layout_block repeated hsize)
  | @breakLoop exit _ _ _ =>
      refine ⟨[.jump exit], by simp, by simp [Outline.size], ?_⟩
      intro table leave _ hleave
      exact .jump _ (hleave exit rfl)

theorem layout_block {loopEnd : Option Label} {scope : Register} {a b : Assembler} {statements : List Statement}
    {outlines : List Outline} (h : LowersBlock loopEnd scope a statements outlines b)
    (hsize : b.labels.size ≤ 2 ^ 32) :
    LaidOut loopEnd a b (sizeOfBlock outlines) fun leave => renderBlock leave a.code.size outlines := by
  cases h with
  | nil => exact ⟨[], by simp, by simp [sizeOfBlock], fun _ _ => .nil _⟩
  | @cons _ _ _ c _ _ _ outline outlines first rest =>
      have hle := (paid_block rest).labels_le
      have hsettled := (keeps_block rest hsize).settledIn (by simp)
      obtain ⟨emitted, hcode, hlength, hresolves⟩ := layout_statement first (by omega)
      obtain ⟨more, hcodeMore, hlengthMore, hresolvesMore⟩ := layout_block rest hsize
      have hposition : c.code.size = a.code.size + outline.size := by
        have hsizes := congrArg List.length hcode
        rw [List.length_append, Array.length_toList, Array.length_toList, hlength] at hsizes
        exact hsizes
      refine ⟨emitted ++ more, by rw [hcodeMore, hcode, List.append_assoc], ?_, ?_⟩
      · simp only [sizeOfBlock, List.length_append]
        omega
      · intro table leave htable hleave
        have hmore := hresolvesMore htable hleave
        rw [hposition] at hmore
        exact .append (hresolves (hsettled.trans htable) hleave) hmore

theorem layout_bodies {loopEnd : Option Label} {scope : Register} {conditionalEnd : Label} {a b : Assembler}
    {clauses : List Clause} {labels : List Label} {bodies : List (List Outline)}
    (h : LowersBodies loopEnd scope conditionalEnd a clauses labels bodies b) (hsize : b.labels.size ≤ 2 ^ 32)
    (hlast : clauses.dropLast.any Clause.isOtherwise = false)
    (hopen : ∀ label ∈ labels, a.labels.slots[label.id.toNat]? = some none) (hdistinct : (labelIds labels).Nodup)
    (tests : List Test) (htests : tests.length = clauses.countP fun clause => !clause.isOtherwise) :
    BodiesLaidOut loopEnd conditionalEnd a b labels (.ofParts clauses tests bodies) := by
  cases h with
  | nil =>
      refine ⟨[], by simp, by simp [Choice.ofParts, Choice.bodiesSize], ?_⟩
      intro table leave finish _ _ _
      exact ⟨by simp [Choice.ofParts, BodiesPlaced], .nil table⟩
  | @guarded _ _ _ label _ e _ _ _ _ _ clauses labels body bodies first rest =>
      cases tests with
      | nil => simp [Clause.isOtherwise] at htests
      | cons test tests =>
          have hrestTests : tests.length = clauses.countP fun clause => !clause.isOtherwise := by
            simpa [Clause.isOtherwise] using htests
          have hle := (paid_bodies rest).labels_le
          have hkeeps := keeps_block first (Nat.le_trans hle hsize)
          have hothers := slots_of_others hopen hdistinct hkeeps
          have hlt : label.id.toNat < a.labels.size :=
            (Array.getElem?_eq_some_iff.mp (hopen label List.mem_cons_self)).1
          -- The places in the first body stay: later bodies bind only labels that have no place yet.
          have hsettled : e.labels.SettledIn b.labels := by
            refine (keeps_bodies rest hsize).settledIn ?_
            intro id hmem
            obtain ⟨other, hother, rfl⟩ := List.mem_map.mp hmem
            exact hothers other hother
          obtain ⟨emitted, hcode, hlength, hresolves⟩ := layout_block first (Nat.le_trans hle hsize)
          obtain ⟨more, hcodeMore, hlengthMore, hresolvesMore⟩ :=
            layout_bodies rest hsize (any_dropLast_of_cons hlast) hothers (List.nodup_cons.mp hdistinct).2 tests hrestTests
          have hposition : (e.pushed (.jump conditionalEnd)).code.size = a.code.size + sizeOfBlock body + 1 := by
            have hsizes := congrArg List.length hcode
            simp only [List.length_append, Array.length_toList, bound_code, hlength] at hsizes
            rw [pushed_code_size]
            omega
          refine ⟨emitted ++ [.jump conditionalEnd] ++ more, ?_, ?_, ?_⟩
          · simp [hcodeMore, hcode]
          · simp only [Choice.ofParts, Choice.bodiesSize, List.length_append, List.length_singleton]
            omega
          · intro table leave finish htable hleave hfinish
            have hplaced := (hkeeps.settledIn (by simp)).trans (hsettled.trans htable)
            have hlabel := hplaced.target?_of_bind hlt
            obtain ⟨hrestPlaced, hrestResolves⟩ := hresolvesMore htable hleave hfinish
            rw [hposition] at hrestPlaced hrestResolves
            refine ⟨⟨hlabel, hrestPlaced⟩, ?_⟩
            simp only [Choice.ofParts, Choice.renderBodies]
            exact .append (.append (hresolves (hsettled.trans htable) hleave) (.jump _ hfinish)) hrestResolves
  | @otherwise _ _ _ label _ e _ _ _ clauses labels body bodies first rest =>
      obtain rfl := eq_nil_of_otherwise hlast
      cases rest with
      | nil =>
          have hkeeps := keeps_block first hsize
          have hlt : label.id.toNat < a.labels.size :=
            (Array.getElem?_eq_some_iff.mp (hopen label List.mem_cons_self)).1
          obtain ⟨emitted, hcode, hlength, hresolves⟩ := layout_block first hsize
          refine ⟨emitted, hcode, by simp [Choice.ofParts, Choice.bodiesSize, hlength], ?_⟩
          intro table leave finish htable hleave _
          have hlabel := ((hkeeps.settledIn (by simp)).trans htable).target?_of_bind hlt
          exact ⟨hlabel, hresolves htable hleave⟩

end

/-! ## The lines of a program -/

theorem finish_eq_ok_iff {a : Assembler} {program : Program} :
    a.finish = .ok program ↔
      resolveCode a.labels a.code.toList = .ok program.instructions.toList ∧ program.constants = a.constants ∧
        program.validate = .ok () := by
  unfold finish
  constructor
  · intro h
    cases hcode : resolveCode a.labels a.code.toList with
    | error error => simp [hcode] at h
    | ok code =>
        simp only [hcode] at h
        cases hvalid : (⟨a.constants, code.toArray⟩ : Program).validate with
        | error fault => simp [hvalid] at h
        | ok _ =>
            simp only [hvalid, Except.ok.injEq] at h
            subst h
            exact ⟨by simp, rfl, hvalid⟩
  · rintro ⟨hcode, hconstants, hvalid⟩
    have hprogram : (⟨a.constants, program.instructions.toList.toArray⟩ : Program) = program := by
      rw [← hconstants]
    rw [hcode]
    simp only [hprogram, hvalid]

/-- A script that has a program has been lowered, and the program was finished from there. -/
theorem lowerChunk_of_compile_eq_ok {chunk : Chunk} {program : Program} (h : chunk.compile = .ok program) :
    ∃ b, lowerChunk chunk .empty = .ok ((), b) ∧
      resolveCode b.labels b.code.toList = .ok program.instructions.toList ∧ program.constants = b.constants := by
  unfold Chunk.compile at h
  cases hlower : lowerChunk chunk .empty with
  | error error => simp [hlower] at h
  | ok result =>
      obtain ⟨⟨⟩, b⟩ := result
      simp only [hlower] at h
      obtain ⟨hcode, hconstants, -⟩ := finish_eq_ok_iff.mp h
      exact ⟨b, rfl, hcode, hconstants⟩

/-- What there is to a script that has a program: its outline, and the assembler behind its last statement. -/
theorem lowersChunk_of_compile {chunk : Chunk} {program : Program} (h : chunk.compile = .ok program) :
    ∃ outline b, chunk.outline? = some outline ∧ LowersChunk chunk outline b ∧
      resolveCode b.labels b.code.toList = .ok program.instructions.toList ∧ program.constants = b.constants := by
  obtain ⟨b, hlower, hcode, hconstants⟩ := lowerChunk_of_compile_eq_ok h
  obtain ⟨outline, houtline, lowered⟩ := lowersChunk_of_lowerChunk hlower
  exact ⟨outline, b, houtline, lowered, hcode, hconstants⟩

/-- The labels of the instructions are replaced one by one. -/
theorem mapTargetM_of_resolveCode {table : LabelTable} {code : List (Instruction Label)}
    {resolved : List (Instruction JumpTarget)} (h : resolveCode table code = .ok resolved) :
    List.Forall₂ (fun instruction line => instruction.mapTargetM table.resolve = .ok line) code resolved := by
  induction code generalizing resolved with
  | nil =>
      obtain rfl := Except.ok.inj h
      exact .nil
  | cons instruction code ih =>
      unfold resolveCode at h
      cases hfirst : instruction.mapTargetM table.resolve with
      | error error => simp [hfirst] at h
      | ok first =>
          cases hrest : resolveCode table code with
          | error error => simp [hfirst, hrest] at h
          | ok rest =>
              obtain rfl : first :: rest = resolved := by simpa [hfirst, hrest] using h
              exact .cons hfirst (ih hrest)

theorem length_of_resolveCode {table : LabelTable} {code : List (Instruction Label)}
    {resolved : List (Instruction JumpTarget)} (h : resolveCode table code = .ok resolved) :
    resolved.length = code.length :=
  (mapTargetM_of_resolveCode h).length_eq.symm

/-- Replacing labels leaves the plain instructions as they are. -/
theorem plain_of_resolveCode {table : LabelTable} {code : List (Instruction Label)}
    {resolved : List (Instruction JumpTarget)} (h : resolveCode table code = .ok resolved) :
    resolved.filterMap Instruction.plain? = code.filterMap Instruction.plain? := by
  have hlines := mapTargetM_of_resolveCode h
  clear h
  induction hlines with
  | nil => rfl
  | cons hfirst _ ih => rw [List.filterMap_cons, List.filterMap_cons, Instruction.plain?_of_mapTargetM hfirst, ih]

/-- The program of a script with less than 2^32 instructions consists of the lines of its outline. -/
theorem instructions_eq_lines {chunk : Chunk} {program : Program} (h : chunk.compile = .ok program)
    (hlength : program.length < 2 ^ 32) :
    ∃ outline b, chunk.outline? = some outline ∧ LowersChunk chunk outline b ∧ program.constants = b.constants ∧
      program.instructions.toList = outline.lines.map (·.instruction) := by
  obtain ⟨outline, b, houtline, lowered, hcode, hconstants⟩ := lowersChunk_of_compile h
  refine ⟨outline, b, houtline, lowered, hconstants, ?_⟩
  obtain ⟨scope, a, c, entered, hopening, hblock, rfl⟩ := lowered
  obtain ⟨hlabels, -, -, hcode₁⟩ := frame_enterScope entered rfl
  have hsizes := length_of_resolveCode hcode
  have hpaid := (paid_block hblock).paid
  have hstart : a.labels.size = 0 ∧ a.code.size = 1 := by
    refine ⟨by rw [hlabels]; rfl, ?_⟩
    have hone := congrArg List.length hcode₁
    simpa [Assembler.empty] using hone
  -- There are no more labels than instructions, so the numbers of labels are all different.
  have hsize : c.labels.size ≤ 2 ^ 32 := by
    simp only [Array.length_toList, closed_code, Program.length] at hsizes hlength
    omega
  obtain ⟨emitted, hcodeBody, hlengthBody, hresolves⟩ := layout_block hblock hsize
  have hbody : Resolves c.labels emitted (renderBlock 0 1 outline.body) := by
    have hresolved := @hresolves c.labels 0 (fun _ _ hplace => hplace) (fun exit hnone => nomatch hnone)
    rwa [hstart.2] at hresolved
  have hall : Resolves c.labels ([.newScope scope none] ++ emitted) outline.lines := by
    unfold ScriptOutline.lines
    rw [hopening]
    exact .append (.plain c.labels _ [.newScope scope none]) hbody
  have htotal : c.closed.code.toList = [.newScope scope none] ++ emitted := by
    rw [closed_code, hcodeBody, hcode₁]
    rfl
  rw [htotal] at hcode
  exact Except.ok.inj (hcode.symm.trans hall)

theorem length_lines {script : ScriptOutline} {program : Program}
    (h : program.instructions.toList = script.lines.map (·.instruction)) : script.lines.length = program.length := by
  have hcount := congrArg List.length h
  rw [List.length_map, Array.length_toList] at hcount
  exact hcount.symm

/-- A script whose code can be computed compiles to a program with this code. -/
theorem exists_program_of_code {chunk : Chunk} {code : List (Instruction JumpTarget)}
    (h : chunk.compile.toOption.map (·.instructions.toList) = some code) (hsize : code.length < 2 ^ 32) :
    ∃ program, chunk.compile = .ok program ∧ program.length < 2 ^ 32 ∧ program.instructions.toList = code := by
  cases hcompile : chunk.compile with
  | error error =>
      rw [hcompile] at h
      exact nomatch h
  | ok program =>
      rw [hcompile] at h
      obtain rfl := Option.some.inj h
      exact ⟨program, rfl, hsize, rfl⟩

theorem exists_program_of_isSome {chunk : Chunk} (h : chunk.compile.toOption.isSome = true) :
    ∃ program, chunk.compile = .ok program := by
  cases hcompile : chunk.compile with
  | error error =>
      rw [hcompile] at h
      exact nomatch h
  | ok program => exact ⟨program, rfl⟩

/-- A loop that one clause of a conditional leaves: `while a do if b then break else c() end end`. -/
def leavableLoop : Chunk :=
  ⟨[.whileLoop (.identifier ⟨"a", none⟩)
    [.conditional [.guarded .ifThen (.identifier ⟨"b", none⟩) [.breakLoop none] none,
      .otherwise [.call (.call (.identifier ⟨"c", none⟩) [] none) none] none] none] none]⟩

def leavableLoopCode : List (Instruction JumpTarget) :=
  [.newScope ⟨1⟩ none, .newScope ⟨2⟩ (some ⟨1⟩), .getVar ⟨0⟩ ⟨3⟩, .jumpIfNot ⟨3⟩ ⟨15⟩, .newScope ⟨4⟩ (some ⟨2⟩),
    .getVar ⟨1⟩ ⟨5⟩, .jumpIf ⟨5⟩ ⟨9⟩, .jump ⟨11⟩, .jump ⟨13⟩, .jump ⟨15⟩, .jump ⟨13⟩, .getVar ⟨2⟩ ⟨6⟩,
    .call ⟨6⟩ [] ⟨7⟩, .getVar ⟨0⟩ ⟨8⟩, .jumpIf ⟨8⟩ ⟨4⟩]

theorem compile_leavableLoop :
    ∃ program, leavableLoop.compile = .ok program ∧ program.length < 2 ^ 32 ∧
      program.instructions.toList = leavableLoopCode :=
  exists_program_of_code (by decide +kernel) (by decide)

end ScriptBytecode
