import ScriptBytecode.Proofs.FirstOffence
import ScriptBytecode.Proofs.NamedConstants

/-!
# Scripts that are continued

A script that is continued by more statements fails as it fails without them. If it compiles, then the program of its
beginning is the beginning of its program: the later statements add constants behind the earlier ones, put code behind
the earlier code, and give places to labels of their own only.

The last point rests on the numbers of labels being different, and these are words that nothing counts: a script with
more than 2^32 labels uses numbers again. Registers cannot run out first, since the last clause of a conditional has a
label and no register. `labelsOfBlock` counts the labels of a script.
-/

namespace ScriptBytecode

open Assembler Assembling LabelTable

/-! ## Counting labels -/

mutual

/-- How many labels a statement takes. -/
def Statement.labels : Statement → Nat
  | .conditional clauses _ => 1 + clauses.length + labelsOfBodies clauses
  | .whileLoop _ body _ => 2 + labelsOfBlock body
  | .declare .. | .assign .. | .call .. | .breakLoop .. | .unsupported .. => 0

def labelsOfBlock : List Statement → Nat
  | [] => 0
  | statement :: statements => statement.labels + labelsOfBlock statements

def labelsOfBodies : List Clause → Nat
  | [] => 0
  | .guarded _ _ body _ :: clauses => labelsOfBlock body + labelsOfBodies clauses
  | .otherwise body _ :: clauses => labelsOfBlock body + labelsOfBodies clauses

end

theorem Statement.labels_of_isSimple {statement : Statement} (h : statement.isSimple = true) :
    statement.labels = 0 := by
  cases statement with
  | declare | assign | call => unfold Statement.labels; rfl
  | conditional | whileLoop | breakLoop | unsupported => exact nomatch h

mutual

theorem size_labels_statement {loopEnd : Option Label} {scope : Register} {a b : Assembler} {statement : Statement}
    {outline : Outline} (h : LowersStatement loopEnd scope a statement outline b) :
    b.labels.size = a.labels.size + statement.labels := by
  cases h with
  | simple simple grown => rw [grown.labels_eq, Statement.labels_of_isSimple simple, Nat.add_zero]
  | conditional _ _ entered reserved tested chosen =>
      obtain ⟨hlabels, -⟩ := sizes_enterScope entered
      have hreserved := size_newLabels reserved
      obtain ⟨htested, -⟩ := tested.sizes
      have hchosen := size_labels_bodies chosen
      simp only [withLabels_labels, size_create, pushed_labels, hlabels, htested] at hreserved hchosen
      simp only [closed_labels, bound_labels, size_bind, Statement.labels]
      omega
  | whileLoop _ entered entryGrown _ repeated againGrown _ =>
      obtain ⟨hlabels, -⟩ := sizes_enterScope entered
      have hentry := entryGrown.labels_eq
      have hrepeated := size_labels_block repeated
      simp only [withLabels_labels, bound_labels, size_bind, size_create, hlabels, hentry] at hrepeated
      simp only [closed_labels, bound_labels, pushed_labels, size_bind, againGrown.labels_eq, Statement.labels]
      omega
  | breakLoop => simp [Statement.labels]

theorem size_labels_block {loopEnd : Option Label} {scope : Register} {a b : Assembler} {statements : List Statement}
    {outlines : List Outline} (h : LowersBlock loopEnd scope a statements outlines b) :
    b.labels.size = a.labels.size + labelsOfBlock statements := by
  cases h with
  | nil => simp [labelsOfBlock]
  | cons first rest =>
      have hfirst := size_labels_statement first
      have hrest := size_labels_block rest
      simp only [labelsOfBlock]
      omega

theorem size_labels_bodies {loopEnd : Option Label} {scope : Register} {conditionalEnd : Label} {a b : Assembler}
    {clauses : List Clause} {labels : List Label} {bodies : List (List Outline)}
    (h : LowersBodies loopEnd scope conditionalEnd a clauses labels bodies b) :
    b.labels.size = a.labels.size + labelsOfBodies clauses := by
  cases h with
  | nil => simp [labelsOfBodies]
  | guarded first rest =>
      have hfirst := size_labels_block first
      have hrest := size_labels_bodies rest
      simp only [bound_labels, size_bind, pushed_labels] at hfirst hrest
      simp only [labelsOfBodies]
      omega
  | otherwise first rest =>
      have hfirst := size_labels_block first
      have hrest := size_labels_bodies rest
      simp only [bound_labels, size_bind] at hfirst
      simp only [labelsOfBodies]
      omega

end

theorem labelsOfBlock_append (first rest : List Statement) :
    labelsOfBlock (first ++ rest) = labelsOfBlock first + labelsOfBlock rest := by
  induction first with
  | nil => simp [labelsOfBlock]
  | cons statement first ih =>
      simp only [List.cons_append, labelsOfBlock, ih]
      omega

/-! ## Lowering in two parts -/

theorem lowerBlock_append (loopEnd : Option Label) (first rest : List Statement) :
    lowerBlock loopEnd (first ++ rest) = lowerBlock loopEnd first >>= fun _ => lowerBlock loopEnd rest := by
  induction first with
  | nil =>
      rw [List.nil_append, lowerBlock.eq_1, pure_bind]
  | cons statement first ih =>
      rw [List.cons_append, lowerBlock.eq_2, lowerBlock.eq_2, ih, bind_assoc]

theorem lowerBlock_singleton (loopEnd : Option Label) (statement : Statement) :
    lowerBlock loopEnd [statement] = lowerStatement loopEnd statement := by
  rw [lowerBlock.eq_2, lowerBlock.eq_1]
  exact bind_pure (lowerStatement loopEnd statement)

/-- Statements that are lowered in an open scope are lowered by the rules. -/
theorem lowersBlock_of_lowerBlock {loopEnd : Option Label} {statements : List Statement} {scope : Register}
    {a b : Assembler} (hscope : a.InScope scope) (h : lowerBlock loopEnd statements a = .ok ((), b)) :
    ∃ outlines, LowersBlock loopEnd scope a statements outlines b := by
  have hrecords : noNotes <$> outlineBlock loopEnd statements = lowerBlock loopEnd statements :=
    records_outlineBlock loopEnd statements
  rw [← hrecords, map_eq_pure_bind] at h
  obtain ⟨outlines, c, houtlined, hpure⟩ := bind_eq_ok_iff.mp h
  obtain ⟨-, rfl⟩ := Prod.mk.inj (pure_eq_ok_iff.mp hpure)
  exact ⟨outlines, (meets_outlineBlock loopEnd statements hscope).of_eq_ok houtlined⟩

/-- A script that is lowered has a point between two parts of it, where the first part alone would end. -/
theorem lowerChunk_append_eq_ok {first rest : List Statement} {d : Assembler}
    (h : lowerChunk ⟨first ++ rest⟩ .empty = .ok ((), d)) :
    ∃ scope a b c, enterScope .empty = .ok (scope, a) ∧ lowerBlock none first a = .ok ((), b) ∧
      lowerBlock none rest b = .ok ((), c) ∧ lowerChunk ⟨first⟩ .empty = .ok ((), b.closed) ∧ d = c.closed := by
  unfold lowerChunk at h
  obtain ⟨scope, a, entered, hbody⟩ := bind_eq_ok_iff.mp h
  obtain ⟨⟨⟩, c, hblock, hexit⟩ := bind_eq_ok_iff.mp hbody
  rw [lowerBlock_append] at hblock
  obtain ⟨⟨⟩, b, hfirst, hrest⟩ := bind_eq_ok_iff.mp hblock
  obtain ⟨-, rfl⟩ := Prod.mk.inj (Except.ok.inj hexit)
  have hshort : lowerChunk ⟨first⟩ .empty = .ok ((), b.closed) := by
    unfold lowerChunk
    rw [bind_of_ok entered, bind_of_ok hfirst]
    rfl
  exact ⟨scope, a, b, c, entered, hfirst, hrest, hshort, rfl⟩

/-- What fails in the first part fails before the rest is looked at. -/
theorem lowerChunk_append_eq_error {first : List Statement} {error : CompileError} (rest : List Statement)
    (h : lowerChunk ⟨first⟩ .empty = .error error) : lowerChunk ⟨first ++ rest⟩ .empty = .error error := by
  unfold lowerChunk at h ⊢
  cases hentered : enterScope .empty with
  | error other =>
      rw [bind_of_error hentered] at h ⊢
      exact h
  | ok result =>
      obtain ⟨scope, a⟩ := result
      rw [bind_of_ok hentered] at h ⊢
      cases hfirst : lowerBlock none first a with
      | error other =>
          rw [bind_of_error hfirst] at h
          rw [lowerBlock_append, bind_of_error (bind_of_error hfirst)]
          exact h
      | ok result =>
          rw [bind_of_ok hfirst] at h
          exact nomatch h

/-! ## Finishing the first part -/

theorem resolveCode_append_eq_ok {table : LabelTable} {code more : List (Instruction Label)}
    {resolved : List (Instruction JumpTarget)} (h : resolveCode table (code ++ more) = .ok resolved) :
    ∃ first, resolveCode table code = .ok first ∧ first <+: resolved := by
  induction code generalizing resolved with
  | nil => exact ⟨[], rfl, List.nil_prefix⟩
  | cons instruction code ih =>
      rw [List.cons_append, resolveCode] at h
      cases hinstruction : instruction.mapTargetM table.resolve with
      | error error => simp [hinstruction] at h
      | ok line =>
          cases hrest : resolveCode table (code ++ more) with
          | error error => simp [hinstruction, hrest] at h
          | ok lines =>
              obtain rfl : line :: lines = resolved := by simpa [hinstruction, hrest] using h
              obtain ⟨first, hfirst, hlonger⟩ := ih hrest
              exact ⟨line :: first, by simp [resolveCode, hinstruction, hfirst], List.cons_prefix_cons.mpr ⟨rfl, hlonger⟩⟩

theorem Instruction.mapTargetM_congr {τ σ ε : Type} {f g : τ → Except ε σ} {instruction : Instruction τ}
    (h : ∀ target, instruction.target? = some target → f target = g target) :
    instruction.mapTargetM f = instruction.mapTargetM g := by
  cases instruction with
  | jump target | jumpIf _ target | jumpIfNot _ target => simp only [mapTargetM, h target rfl]
  | _ => rfl

/-- Only the labels that the code jumps to matter. -/
theorem resolveCode_congr {table other : LabelTable} {code : List (Instruction Label)}
    (h : ∀ instruction ∈ code, ∀ label, instruction.target? = some label → table.resolve label = other.resolve label) :
    resolveCode table code = resolveCode other code := by
  induction code with
  | nil => rfl
  | cons instruction code ih =>
      obtain ⟨hfirst, hrest⟩ := List.forall_mem_cons.mp h
      unfold resolveCode
      rw [Instruction.mapTargetM_congr hfirst, ih hrest]

/-- A label that has a place keeps it in a table that keeps all labels. -/
theorem LabelTable.Keeps.resolve_eq {old new : LabelTable} {label : Label} (h : Keeps [] old new)
    (hbound : old.isBound label = true) : new.resolve label = old.resolve label := by
  obtain ⟨pc, hslot⟩ := isBound_iff.mp hbound
  have hlater := h.settledIn (by simp) _ _ hslot
  rw [resolve_eq_ok_iff.mpr hlater, resolve_eq_ok_iff.mpr hslot]

/-- Appending statements to a script. A script that fails, fails in the same way with more statements behind it. If a
script with more statements behind it compiles, then it compiles without them, its constants come first in the longer
program, and, as long as the longer script has no more labels than there are numbers for them, its instructions with
all their jumps come first in the longer program. -/
theorem compile_append (first rest : List Statement) :
    (∀ error, Chunk.compile ⟨first⟩ = .error error → Chunk.compile ⟨first ++ rest⟩ = .error error) ∧
      ∀ longer, Chunk.compile ⟨first ++ rest⟩ = .ok longer →
        ∃ shorter, Chunk.compile ⟨first⟩ = .ok shorter ∧
          shorter.constants.constants.toList <+: longer.constants.constants.toList ∧
          (labelsOfBlock (first ++ rest) ≤ 2 ^ 32 →
            shorter.instructions.toList <+: longer.instructions.toList) := by
  constructor
  · intro error herror
    have hlower := lowerChunk_append_eq_error rest (lowerChunk_of_compile_eq_error herror)
    simp [Chunk.compile, hlower]
  · intro longer hlonger
    obtain ⟨d, hlower, hcode, hconstants⟩ := lowerChunk_of_compile_eq_ok hlonger
    obtain ⟨scope, a, b, c, entered, hfirst, hrest, hshort, rfl⟩ := lowerChunk_append_eq_ok hlower
    obtain ⟨outline, -, lowered⟩ := lowersChunk_of_lowerChunk hshort
    have hconsistent := lowered.consistent
    obtain ⟨shorter, hfinish⟩ := hconsistent.exists_finish
    obtain ⟨hshortCode, hshortConstants, -⟩ := finish_eq_ok_iff.mp hfinish
    have hsettles := settles_lowerBlock none rest b c () hrest
    refine ⟨shorter, by simp [Chunk.compile, hshort, hfinish], ?_, ?_⟩
    · rw [hshortConstants, hconstants]
      exact hsettles.pool
    · intro hlabels
      -- In the open scope both parts follow the rules, so the labels can be counted.
      have hin := inScope_of_enterScope entered ScopeChain.wellFormed_empty
      obtain ⟨firstOutlines, firstLowered⟩ := lowersBlock_of_lowerBlock hin hfirst
      obtain ⟨hwf, hrefills⟩ := scopes_frame_block firstLowered hin.wellFormed
      obtain ⟨restOutlines, restLowered⟩ := lowersBlock_of_lowerBlock (hin.of_refills hwf hrefills) hrest
      have hsize : c.labels.size ≤ 2 ^ 32 := by
        have hempty : a.labels = .empty := (sizes_enterScope entered).1
        have hcount := size_labels_block firstLowered
        have hcount' := size_labels_block restLowered
        rw [labelsOfBlock_append] at hlabels
        rw [hempty] at hcount
        have hnone : LabelTable.empty.size = 0 := rfl
        omega
      -- The rest binds no label of the first part, and the code of the first part jumps to no others.
      have hkeeps := keeps_block restLowered hsize
      obtain ⟨more, hmore⟩ := hsettles.code
      rw [closed_labels, closed_code, ← hmore] at hcode
      obtain ⟨beginning, hbeginning, hisPrefix⟩ := resolveCode_append_eq_ok hcode
      have hsame : resolveCode c.labels b.code.toList = resolveCode b.labels b.code.toList := by
        apply resolveCode_congr
        intro instruction hmem label htarget
        apply hkeeps.resolve_eq
        exact (hconsistent.targets instruction hmem label htarget).resolve_right List.not_mem_nil
      rw [hsame] at hbeginning
      obtain rfl : beginning = shorter.instructions.toList := Except.ok.inj (hbeginning.symm.trans hshortCode)
      exact hisPrefix

/-! ## More labels than numbers -/

/-- A conditional with nothing but an empty last clause, which takes one register and two labels. -/
def bareElse : Statement :=
  .conditional [.otherwise [] none] none

/-- One conditional puts three instructions behind the code, and gives its two labels the place behind these. -/
theorem lowerStatement_bareElse {a : Assembler} (hroom : a.lastRegister.toNat + 1 < 2 ^ 32) :
    ∃ b, lowerStatement none bareElse a = .ok ((), b) ∧ b.lastRegister.toNat = a.lastRegister.toNat + 1 ∧
      b.code.toList = a.code.toList ++ [.newScope ⟨a.lastRegister + 1⟩ a.scopes.currentRegister?,
        .jump a.labels.create.2.create.1, .jump a.labels.create.1] ∧
      ∃ table : LabelTable, table.size = a.labels.size + 2 ∧
        b.labels = table.bind a.labels.create.1 (UInt32.ofNat (a.code.size + 3)) := by
  have hallocate : allocate a = .ok (⟨a.lastRegister + 1⟩, { a with lastRegister := a.lastRegister + 1 }) :=
    allocate_eq_ok_iff.mpr ⟨hroom, rfl, rfl⟩
  have hnext := (toNat_allocate hallocate).2
  have hentered := enterScope_eq_ok_iff.mpr ⟨_, hallocate, rfl⟩
  generalize hopened : Assembler.opened _ _ = c at hentered
  have hlabels : c.labels = a.labels := by rw [← hopened]; rfl
  have hcode : c.code.toList = a.code.toList ++ [.newScope ⟨a.lastRegister + 1⟩ a.scopes.currentRegister?] := by
    rw [← hopened]
    simp [opened]
  have hlast : c.lastRegister = a.lastRegister + 1 := by rw [← hopened]; rfl
  let conditionalEnd := c.labels.create.1
  let clause := c.labels.create.2.create.1
  let tested := ((c.withLabels c.labels.create.2.create.2).pushed (.jump clause)).pushed (.jump conditionalEnd)
  have hlowered : lowerStatement none bareElse a = .ok ((), ((tested.bound clause).bound conditionalEnd).closed) := by
    unfold bareElse lowerStatement
    rw [if_neg (by decide), bind_of_ok hentered]
    rfl
  refine ⟨_, hlowered, ?_, ?_, tested.labels.bind clause tested.position, ?_, ?_⟩
  · show c.lastRegister.toNat = _
    rw [hlast]
    exact hnext
  · simp [tested, conditionalEnd, clause, hcode, hlabels]
  · simp [tested, hlabels]
  · have hsize : tested.code.size = a.code.size + 3 := by
      have hlength := congrArg List.length hcode
      simp only [Array.length_toList, List.length_append, List.length_singleton] at hlength
      simp [tested, hlength]
    show _ = LabelTable.bind _ _ _
    simp [Assembler.position, conditionalEnd, hlabels, hsize]

theorem lowerBlock_bareElses (count : Nat) {a : Assembler} (hroom : a.lastRegister.toNat + count < 2 ^ 32) :
    ∃ b, lowerBlock none (List.replicate count bareElse) a = .ok ((), b) ∧
      b.lastRegister.toNat = a.lastRegister.toNat + count ∧ a.code.toList <+: b.code.toList ∧
        b.code.size = a.code.size + 3 * count ∧ b.labels.size = a.labels.size + 2 * count := by
  induction count generalizing a with
  | zero => exact ⟨a, rfl, rfl, List.prefix_refl _, rfl, rfl⟩
  | succ count ih =>
      obtain ⟨b, hfirst, hlast, hcode, table, htable, hlabels⟩ :=
        lowerStatement_bareElse (show a.lastRegister.toNat + 1 < 2 ^ 32 by omega)
      obtain ⟨c, hrest, hlast', hcode', hcodeSize, hlabelsSize⟩ := ih (show b.lastRegister.toNat + count < 2 ^ 32 by omega)
      have hcodeFirst := congrArg List.length hcode
      have hlabelsFirst := congrArg LabelTable.size hlabels
      simp only [Array.length_toList, List.length_append, List.length_cons, List.length_nil] at hcodeFirst
      rw [size_bind] at hlabelsFirst
      refine ⟨c, ?_, by omega, ?_, by omega, by omega⟩
      · rw [List.replicate_succ, lowerBlock.eq_2, bind_of_ok hfirst]
        exact hrest
      · exact List.IsPrefix.trans ⟨_, hcode.symm⟩ hcode'

/-- The assembler in the outermost scope of a script. -/
def rooted : Assembler :=
  opened { Assembler.empty with lastRegister := 1 } ⟨1⟩

theorem enterScope_empty : enterScope .empty = .ok (⟨1⟩, rooted) :=
  rfl

/-- The conditional whose labels would have the numbers behind the last word gives the place behind itself to the labels
of the first conditional. -/
theorem lowerBlock_bareElses_around {count : Nat} (hcount : 2 * (count + 1) = 2 ^ 32) :
    ∃ d, lowerBlock none ([bareElse] ++ List.replicate (count + 1) bareElse) rooted = .ok ((), d) ∧
      [.newScope ⟨1⟩ none, .newScope ⟨2⟩ (some ⟨1⟩), .jump ⟨1⟩, .jump ⟨0⟩] <+: d.code.toList ∧
        d.labels.slots[0]? = some (some (UInt32.ofNat (3 * count + 7))) := by
  obtain ⟨b, hfirst, hlastFirst, hcodeFirst, table, htable, hlabelsFirst⟩ := @lowerStatement_bareElse rooted (by decide)
  have hone : rooted.lastRegister.toNat = 1 := rfl
  have hlength := congrArg List.length hcodeFirst
  have hlabelsSize := congrArg LabelTable.size hlabelsFirst
  rw [Array.length_toList] at hlength
  rw [size_bind, htable] at hlabelsSize
  obtain ⟨c, hmiddle, hlastMiddle, hcodeMiddle, hsizeMiddle, hlabelsMiddle⟩ :=
    lowerBlock_bareElses count (show b.lastRegister.toNat + count < 2 ^ 32 by omega)
  obtain ⟨d, hfinal, -, hcodeFinal, larger, hlarger, hlabelsFinal⟩ :=
    lowerStatement_bareElse (show c.lastRegister.toNat + 1 < 2 ^ 32 by omega)
  have hsize : c.labels.size = 2 ^ 32 := by
    have hnone : rooted.labels.size = 0 := rfl
    omega
  have hplace : c.code.size + 3 = 3 * count + 7 := by
    have hfour : b.code.size = 4 := hlength
    omega
  refine ⟨d, ?_, ?_, ?_⟩
  · rw [List.replicate_succ', lowerBlock_append, lowerBlock_append, lowerBlock_singleton, bind_of_ok hfirst,
      bind_of_ok hmiddle]
    exact hfinal
  · have hbeginning : b.code.toList <+: d.code.toList := hcodeMiddle.trans ⟨_, hcodeFinal.symm⟩
    rw [hcodeFirst] at hbeginning
    exact hbeginning
  · -- The number of the next label has come around to zero.
    have hzero : c.labels.create.1.id.toNat = 0 := by
      show (UInt32.ofNat c.labels.size).toNat = 0
      rw [hsize]
      rfl
    have hlt : c.labels.create.1.id.toNat < larger.size := by omega
    have hslot := @slots_bind_self larger _ (UInt32.ofNat (c.code.size + 3)) hlt
    rwa [← hlabelsFinal, hzero, hplace] at hslot

/-- Where there are more labels than numbers, a script may begin with other instructions than its beginning has alone: with
so many conditionals behind it that they use up the numbers, a conditional has other jumps than without them. -/
theorem not_isPrefix_compile_bareElses {count : Nat} (hcount : 2 * count = 2 ^ 32) :
    ∃ shorter longer, Chunk.compile ⟨[bareElse]⟩ = .ok shorter ∧
      Chunk.compile ⟨[bareElse] ++ List.replicate count bareElse⟩ = .ok longer ∧
        ¬ shorter.instructions.toList <+: longer.instructions.toList := by
  obtain ⟨count, rfl⟩ : ∃ less, count = less + 1 := ⟨count - 1, by omega⟩
  obtain ⟨shorter, hshorter, -, hshorterCode⟩ := @exists_program_of_code ⟨[bareElse]⟩
    [.newScope ⟨1⟩ none, .newScope ⟨2⟩ (some ⟨1⟩), .jump ⟨4⟩, .jump ⟨4⟩] (by decide +kernel) (by decide)
  obtain ⟨d, hblock, ⟨more, hmore⟩, hslot⟩ := lowerBlock_bareElses_around hcount
  have hlower : lowerChunk ⟨[bareElse] ++ List.replicate (count + 1) bareElse⟩ .empty = .ok ((), d.closed) := by
    unfold lowerChunk
    rw [bind_of_ok enterScope_empty]
    exact bind_of_ok hblock
  obtain ⟨outline, -, lowered⟩ := lowersChunk_of_lowerChunk hlower
  obtain ⟨longer, hfinish⟩ := lowered.consistent.exists_finish
  obtain ⟨hcode, -, -⟩ := finish_eq_ok_iff.mp hfinish
  have hlongerCompile : Chunk.compile ⟨[bareElse] ++ List.replicate (count + 1) bareElse⟩ = .ok longer := by
    unfold Chunk.compile
    rw [hlower]
    exact hfinish
  refine ⟨shorter, longer, hshorter, hlongerCompile, ?_⟩
  intro hisPrefix
  rw [closed_labels, closed_code, ← hmore] at hcode
  obtain ⟨beginning, hbeginning, hlonger⟩ := resolveCode_append_eq_ok hcode
  have hlines := mapTargetM_of_resolveCode hbeginning
  have hlength : beginning.length = 4 := hlines.length_eq.symm
  rw [hshorterCode] at hisPrefix
  obtain rfl := (List.prefix_of_prefix_length_le hisPrefix hlonger (Nat.le_of_eq hlength.symm)).eq_of_length hlength.symm
  -- The last jump of the first conditional goes to the place that the label was given last.
  simp only [List.forall₂_cons] at hlines
  obtain ⟨-, -, -, hjump, -⟩ := hlines
  have hresolve : d.labels.resolve ⟨0⟩ = .ok ⟨UInt32.ofNat (3 * count + 7)⟩ := resolve_eq_ok_iff.mpr hslot
  have hplace : UInt32.ofNat (3 * count + 7) = 4 := by
    simpa [Instruction.mapTargetM, hresolve, Except.map] using hjump
  have hnumber := congrArg UInt32.toNat hplace
  rw [UInt32.toNat_ofNat'] at hnumber
  have hfour : (4 : UInt32).toNat = 4 := rfl
  omega

end ScriptBytecode
