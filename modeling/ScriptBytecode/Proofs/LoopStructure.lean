import Mathlib.Data.List.Chain
import ScriptBytecode.Proofs.ControlFlow

/-!
# Loops of a program

The jumps of a program that go back are those that end the rounds of its loops, one for each loop of the script. All
others go forward. The interval from the first instruction of a round to the jump that ends it is entered by no jump
from outside, and two of these intervals are disjoint or one of them lies in the other.

`Arranged` says this of the jumps between two places of the code. It is put together from the jumps of the parts: what
keeps the parts from interfering is that jumps go to the beginnings and ends of statements, while the intervals of loops
lie strictly inside of them.
-/

namespace ScriptBytecode

/-! ## Jumps -/

/-- A jump of a program: where it stands, where it goes, and whether it goes there when a test comes out true. -/
structure Jump where
  source : Nat
  target : Nat
  ifTrue : Bool
deriving DecidableEq

namespace Jump

/-- Whether a jump goes back when a test comes out true. -/
def repeats (jump : Jump) : Bool :=
  jump.ifTrue && decide (jump.target ≤ jump.source)

/-- A place from the target of a jump up to the jump itself. -/
def Spans (loop : Jump) (place : Nat) : Prop :=
  loop.target ≤ place ∧ place ≤ loop.source

/-- What two jumps span is disjoint, or one spans all that the other spans. -/
def Compatible (loop other : Jump) : Prop :=
  loop.source < other.target ∨ other.source < loop.target ∨
    (other.target ≤ loop.target ∧ loop.source ≤ other.source) ∨
      (loop.target ≤ other.target ∧ other.source ≤ loop.source)

end Jump

/-- The jump that an instruction is at its place. -/
def Instruction.jumpAt? (source : Nat) (instruction : Instruction JumpTarget) : Option Jump :=
  match instruction.flow with
  | .next _ => none
  | .jump target => some ⟨source, target.pc.toNat, false⟩
  | .jumpIf _ target => some ⟨source, target.pc.toNat, true⟩
  | .jumpIfNot _ target => some ⟨source, target.pc.toNat, false⟩

/-- The jumps of code from a place on. -/
def jumpsFrom : Nat → List (Instruction JumpTarget) → List Jump
  | _, [] => []
  | source, instruction :: code => (instruction.jumpAt? source).toList ++ jumpsFrom (source + 1) code

/-- The jumps of a program in their order. -/
def Program.jumps (program : Program) : List Jump :=
  jumpsFrom 0 program.instructions.toList

theorem jumpsFrom_append (source : Nat) (code more : List (Instruction JumpTarget)) :
    jumpsFrom source (code ++ more) = jumpsFrom source code ++ jumpsFrom (source + code.length) more := by
  induction code generalizing source with
  | nil => rfl
  | cons instruction code ih =>
      simp only [List.cons_append, jumpsFrom, ih, List.append_assoc, List.length_cons, Nat.add_assoc, Nat.add_comm 1]

theorem mem_jumpsFrom {source pc : Nat} {code : List (Instruction JumpTarget)} {instruction : Instruction JumpTarget}
    {jump : Jump} (here : code[pc]? = some instruction) (hjump : instruction.jumpAt? (source + pc) = some jump) :
    jump ∈ jumpsFrom source code := by
  induction code generalizing source pc with
  | nil => simp at here
  | cons first code ih =>
      unfold jumpsFrom
      cases pc with
      | zero =>
          obtain rfl : first = instruction := by simpa using here
          rw [Nat.add_zero] at hjump
          simp [hjump]
      | succ pc =>
          rw [List.getElem?_cons_succ] at here
          rw [Nat.add_comm pc 1, ← Nat.add_assoc] at hjump
          exact List.mem_append_right _ (ih here hjump)

/-- The jumps of lines from a place on. -/
def lineJumps (source : Nat) (lines : List Line) : List Jump :=
  jumpsFrom source (lines.map (·.instruction))

section Lines

variable {source target : Nat} {origin : Option StatementKind}

theorem lineJumps_append (source : Nat) (lines more : List Line) :
    lineJumps source (lines ++ more) = lineJumps source lines ++ lineJumps (source + lines.length) more := by
  simp only [lineJumps, List.map_append, jumpsFrom_append, List.length_map]

@[simp] theorem lineJumps_plainLines (source : Nat) (origin : Option StatementKind) (code : List PlainInstruction) :
    lineJumps source (plainLines origin code) = [] := by
  induction code generalizing source with
  | nil => rfl
  | cons instruction code ih =>
      show (Instruction.jumpAt? source (.ofPlain instruction)).toList ++
        lineJumps (source + 1) (plainLines origin code) = []
      rw [ih]
      simp [Instruction.jumpAt?]

theorem lineJumps_jump (h : target < 2 ^ 32) :
    lineJumps source [⟨origin, .jump (placeAt target)⟩] = [⟨source, target, false⟩] := by
  simp [lineJumps, jumpsFrom, Instruction.jumpAt?, Instruction.flow, toNat_placeAt h]

theorem lineJumps_jumpIf (condition : Register) (h : target < 2 ^ 32) :
    lineJumps source [⟨origin, .jumpIf condition (placeAt target)⟩] = [⟨source, target, true⟩] := by
  simp [lineJumps, jumpsFrom, Instruction.jumpAt?, Instruction.flow, toNat_placeAt h]

theorem lineJumps_jumpIfNot (condition : Register) (h : target < 2 ^ 32) :
    lineJumps source [⟨origin, .jumpIfNot condition (placeAt target)⟩] = [⟨source, target, false⟩] := by
  simp [lineJumps, jumpsFrom, Instruction.jumpAt?, Instruction.flow, toNat_placeAt h]

end Lines

/-! ## The loops of a tree -/

mutual

/-- How many loops there are in a statement, at any depth. -/
def Statement.loops : Statement → Nat
  | .conditional clauses _ => loopsOfClauses clauses
  | .whileLoop _ body _ => loopsOfBlock body + 1
  | .declare .. | .assign .. | .call .. | .breakLoop _ | .unsupported .. => 0

def loopsOfBlock : List Statement → Nat
  | [] => 0
  | statement :: statements => statement.loops + loopsOfBlock statements

def loopsOfClauses : List Clause → Nat
  | [] => 0
  | .guarded _ _ body _ :: clauses => loopsOfBlock body + loopsOfClauses clauses
  | .otherwise body _ :: clauses => loopsOfBlock body + loopsOfClauses clauses

end

/-- How many loops there are in a script. -/
def Chunk.loops (chunk : Chunk) : Nat :=
  loopsOfBlock chunk.body

theorem Statement.loops_of_isSimple {statement : Statement} (h : statement.isSimple = true) : statement.loops = 0 := by
  cases statement <;> simp [Statement.isSimple, Statement.loops] at h ⊢

/-! ## Jumps between two places -/

/-- The jumps between two places, some of which may go to places beyond: those that go back are as many as there are
loops, they stay strictly inside, they are compatible with each other, and no other jumps go into what they span. -/
structure Arranged (start finish : Nat) (exits : Nat → Prop) (loops : Nat) (jumps : List Jump) : Prop where
  source : ∀ jump ∈ jumps, start ≤ jump.source ∧ jump.source < finish
  target : ∀ jump ∈ jumps, start ≤ jump.target ∧ (jump.target ≤ finish ∨ exits jump.target)
  forward : ∀ jump ∈ jumps, jump.repeats = false → jump.source < jump.target
  strict : ∀ loop ∈ jumps, loop.repeats = true → start < loop.target
  compatible : ∀ loop ∈ jumps, loop.repeats = true → ∀ other ∈ jumps, other.repeats = true → loop.Compatible other
  closed : ∀ loop ∈ jumps, loop.repeats = true → ∀ jump ∈ jumps, loop.Spans jump.target → loop.Spans jump.source
  count : jumps.countP Jump.repeats = loops

namespace Arranged

variable {start middle finish source target : Nat} {exits : Nat → Prop} {loops more : Nat} {jumps others : List Jump}

/-- Jumps forward. -/
theorem of_forward (h : ∀ jump ∈ jumps, start ≤ jump.source ∧ jump.source < finish ∧ jump.source < jump.target ∧
    (jump.target ≤ finish ∨ exits jump.target)) : Arranged start finish exits 0 jumps := by
  have hrepeats : ∀ jump ∈ jumps, jump.repeats ≠ true := by
    intro jump hmem hback
    have hforward := (h jump hmem).2.2.1
    simp only [Jump.repeats, Bool.and_eq_true, decide_eq_true_eq] at hback
    omega
  refine ⟨fun jump hmem => ⟨(h jump hmem).1, (h jump hmem).2.1⟩, fun jump hmem => ?_,
    fun jump hmem _ => (h jump hmem).2.2.1, fun jump hmem hback => absurd hback (hrepeats jump hmem),
    fun jump hmem hback => absurd hback (hrepeats jump hmem), fun jump hmem hback => absurd hback (hrepeats jump hmem),
    List.countP_eq_zero.mpr hrepeats⟩
  obtain ⟨hstart, -, hforward, htarget⟩ := h jump hmem
  exact ⟨Nat.le_trans hstart (Nat.le_of_lt hforward), htarget⟩

theorem nil (start finish : Nat) (exits : Nat → Prop) : Arranged start finish exits 0 [] :=
  of_forward nofun

theorem single {ifTrue : Bool} (hstart : start ≤ source) (hsource : source < finish) (htarget : source < target)
    (hexits : target ≤ finish ∨ exits target) : Arranged start finish exits 0 [⟨source, target, ifTrue⟩] :=
  of_forward (List.forall_mem_singleton.mpr ⟨hstart, hsource, htarget, hexits⟩)

/-- The same jumps between places that lie farther apart. -/
theorem widen {first last : Nat} {larger : Nat → Prop} (h : Arranged start finish exits loops jumps)
    (hfirst : first ≤ start) (hlast : finish ≤ last) (hexits : ∀ place, exits place → place ≤ last ∨ larger place) :
    Arranged first last larger loops jumps where
  source jump hmem := by
    have hsource := h.source jump hmem
    omega
  target jump hmem := by
    obtain ⟨hstart, htarget⟩ := h.target jump hmem
    refine ⟨Nat.le_trans hfirst hstart, ?_⟩
    exact htarget.elim (fun hle => Or.inl (Nat.le_trans hle hlast)) (hexits _)
  forward := h.forward
  strict loop hmem hrepeats := Nat.lt_of_le_of_lt hfirst (h.strict loop hmem hrepeats)
  compatible := h.compatible
  closed := h.closed
  count := h.count

/-- Jumps of two parts, one behind the other, the first of which do not go into the loops of the second. -/
theorem append {inner : Nat → Prop} (h : Arranged start middle inner loops jumps)
    (h' : Arranged middle finish exits more others) (hmiddle : start ≤ middle) (hfinish : middle ≤ finish)
    (hinner : ∀ place, inner place → place ≤ finish ∨ exits place)
    (havoid : ∀ jump ∈ jumps, ∀ loop ∈ others, loop.repeats = true → ¬ loop.Spans jump.target) :
    Arranged start finish exits (loops + more) (jumps ++ others) := by
  have hwide := h.widen (Nat.le_refl start) hfinish hinner
  have hwide' : Arranged start finish exits more others := h'.widen hmiddle (Nat.le_refl _) fun _ => Or.inr
  -- The loops of the first part end before the second part begins.
  have hapart : ∀ loop ∈ jumps, ∀ jump ∈ others, loop.source < jump.target := by
    intro loop hloop jump hjump
    exact Nat.lt_of_lt_of_le (h.source loop hloop).2 (h'.target jump hjump).1
  refine ⟨List.forall_mem_append.mpr ⟨hwide.source, hwide'.source⟩,
    List.forall_mem_append.mpr ⟨hwide.target, hwide'.target⟩,
    List.forall_mem_append.mpr ⟨h.forward, h'.forward⟩, List.forall_mem_append.mpr ⟨h.strict, hwide'.strict⟩,
    List.forall_mem_append.mpr ⟨?_, ?_⟩, List.forall_mem_append.mpr ⟨?_, ?_⟩, ?_⟩
  · intro loop hloop hrepeats
    refine List.forall_mem_append.mpr ⟨h.compatible loop hloop hrepeats, fun other hother _ => ?_⟩
    exact Or.inl (hapart loop hloop other hother)
  · intro loop hloop hrepeats
    refine List.forall_mem_append.mpr ⟨fun other hother _ => ?_, h'.compatible loop hloop hrepeats⟩
    exact Or.inr (Or.inl (hapart other hother loop hloop))
  · intro loop hloop hrepeats
    refine List.forall_mem_append.mpr ⟨h.closed loop hloop hrepeats, fun jump hjump hspans => ?_⟩
    exact absurd hspans.2 (Nat.not_le_of_lt (hapart loop hloop jump hjump))
  · intro loop hloop hrepeats
    refine List.forall_mem_append.mpr ⟨fun jump hjump hspans => ?_, h'.closed loop hloop hrepeats⟩
    exact absurd hspans (havoid jump hjump loop hloop hrepeats)
  · rw [List.countP_append, h.count, h'.count]

/-- Loops are not entered from places that their part does not reach. -/
theorem not_spans (h : Arranged start finish exits loops jumps) {loop : Jump} (hloop : loop ∈ jumps)
    (hrepeats : loop.repeats = true) {place : Nat} (hplace : place ≤ start ∨ finish ≤ place) : ¬ loop.Spans place := by
  rintro ⟨htarget, hsource⟩
  have hstrict := h.strict loop hloop hrepeats
  have hlast := (h.source loop hloop).2
  omega

/-- Jumps of two parts, one behind the other, all of which go to the end of their part or beyond both. -/
theorem sequence (h : Arranged start middle exits loops jumps) (h' : Arranged middle finish exits more others)
    (hmiddle : start ≤ middle) (hfinish : middle ≤ finish) (hexits : ∀ place, exits place → finish ≤ place) :
    Arranged start finish exits (loops + more) (jumps ++ others) := by
  refine h.append h' hmiddle hfinish (fun _ => Or.inr) fun jump hjump loop hloop hrepeats => ?_
  exact h'.not_spans hloop hrepeats ((h.target jump hjump).2.imp_right (hexits _))

/-- The jumps of a loop: past it, those of its body, and back to the beginning of the body. -/
theorem whileLoop {entry last : Nat} (h : Arranged (entry + 1) middle (· = last + 1) loops jumps)
    (hstart : start ≤ entry) (hmiddle : entry < middle) (hlast : middle ≤ last) :
    Arranged start (last + 1) exits (loops + 1)
      ([⟨entry, last + 1, false⟩] ++ jumps ++ [⟨last, entry + 1, true⟩]) := by
  have hentry : Arranged start (entry + 1) (· = last + 1) 0 [⟨entry, last + 1, false⟩] := by
    apply single hstart (Nat.lt_succ_self entry) (by omega)
    exact Or.inr rfl
  have hbefore := hentry.sequence h (by omega) hmiddle (by omega)
  have hrepeats : Jump.repeats ⟨last, entry + 1, true⟩ = true := decide_eq_true (Nat.lt_of_lt_of_le hmiddle hlast)
  -- The jump past the loop does not go back, so what the last jump meets is the body.
  have hbody : ∀ loop ∈ [⟨entry, last + 1, false⟩] ++ jumps, loop.repeats = true → loop ∈ jumps := by
    intro loop hmem hback
    rcases List.mem_append.mp hmem with hfirst | hjump
    · rw [List.mem_singleton.mp hfirst] at hback
      exact nomatch hback
    · exact hjump
  have hinside : ∀ loop ∈ [⟨entry, last + 1, false⟩] ++ jumps, loop.repeats = true →
      entry + 1 ≤ loop.target ∧ loop.source ≤ last := by
    intro loop hmem hback
    have hstrict := h.strict loop (hbody loop hmem hback) hback
    have hsource := h.source loop (hbody loop hmem hback)
    omega
  constructor
  · refine List.forall_mem_append.mpr ⟨fun jump hmem => ?_, List.forall_mem_singleton.mpr ?_⟩
    · have hsource := hbefore.source jump hmem
      omega
    · exact ⟨by show start ≤ last; omega, Nat.lt_succ_self last⟩
  · refine List.forall_mem_append.mpr ⟨fun jump hmem => ?_, List.forall_mem_singleton.mpr ?_⟩
    · have htarget := hbefore.target jump hmem
      omega
    · exact ⟨Nat.le_succ_of_le hstart, Or.inl (by show entry + 1 ≤ last + 1; omega)⟩
  · refine List.forall_mem_append.mpr ⟨hbefore.forward, List.forall_mem_singleton.mpr fun hnot => ?_⟩
    exact nomatch hrepeats.symm.trans hnot
  · exact List.forall_mem_append.mpr ⟨hbefore.strict, List.forall_mem_singleton.mpr fun _ => Nat.lt_succ_of_le hstart⟩
  · refine List.forall_mem_append.mpr ⟨fun loop hloop hback => ?_, List.forall_mem_singleton.mpr fun _ => ?_⟩
    · refine List.forall_mem_append.mpr ⟨hbefore.compatible loop hloop hback, List.forall_mem_singleton.mpr fun _ => ?_⟩
      exact Or.inr (Or.inr (Or.inl (hinside loop hloop hback)))
    · refine List.forall_mem_append.mpr ⟨fun other hother hback => ?_, List.forall_mem_singleton.mpr fun _ => ?_⟩
      · exact Or.inr (Or.inr (Or.inr (hinside other hother hback)))
      · exact Or.inr (Or.inr (Or.inl ⟨Nat.le_refl _, Nat.le_refl _⟩))
  · refine List.forall_mem_append.mpr ⟨fun loop hloop hback => ?_, List.forall_mem_singleton.mpr fun _ => ?_⟩
    · refine List.forall_mem_append.mpr ⟨hbefore.closed loop hloop hback, List.forall_mem_singleton.mpr fun hspans => ?_⟩
      exact absurd hspans (h.not_spans (hbody loop hloop hback) hback (Or.inl (Nat.le_refl _)))
    · refine List.forall_mem_append.mpr ⟨fun jump hjump hspans => ?_, List.forall_mem_singleton.mpr fun _ => ?_⟩
      · rcases List.mem_append.mp hjump with hfirst | hjump
        · rw [List.mem_singleton.mp hfirst] at hspans
          exact absurd hspans.2 (Nat.not_succ_le_self last)
        · have hsource := h.source jump hjump
          exact ⟨hsource.1, by show jump.source ≤ last; omega⟩
      · exact ⟨by show entry + 1 ≤ last; omega, Nat.le_refl _⟩
  · rw [List.countP_append, hbefore.count, List.countP_singleton, if_pos hrepeats, Nat.zero_add]

end Arranged

/-- The jumps of the tests of a conditional, between two places: they go into its bodies or to its end, and not into the
loops of its bodies. -/
structure Selects (first last bodies finish : Nat) (tests chosen : List Jump) : Prop where
  source : ∀ jump ∈ tests, first ≤ jump.source ∧ jump.source < last
  target : ∀ jump ∈ tests, bodies ≤ jump.target ∧ jump.target ≤ finish
  avoid : ∀ jump ∈ tests, ∀ loop ∈ chosen, loop.repeats = true → ¬ loop.Spans jump.target

/-- The jumps of a conditional. -/
theorem Arranged.conditional {first bodies finish loops : Nat} {exits : Nat → Prop} {tests chosen : List Jump}
    (h : Arranged bodies finish exits loops chosen) (htests : Selects first bodies bodies finish tests chosen)
    (hfirst : first ≤ bodies) (hfinish : bodies ≤ finish) : Arranged first finish exits loops (tests ++ chosen) := by
  have hforward : Arranged first bodies (· ≤ finish) 0 tests := by
    apply Arranged.of_forward
    intro jump hmem
    have hsource := htests.source jump hmem
    have htarget := htests.target jump hmem
    exact ⟨hsource.1, hsource.2, by omega, Or.inr htarget.2⟩
  have hall := hforward.append h hfirst hfinish (fun _ => Or.inl) htests.avoid
  rwa [Nat.zero_add] at hall

/-- The jumps of the bodies of a conditional from one that is guarded on. Behind that body, control jumps to the end. -/
theorem Arranged.guarded {bodies past finish loops more : Nat} {exits : Nat → Prop} {body others : List Jump}
    (h : Arranged bodies past (fun place => place = finish ∨ exits place) loops body)
    (h' : Arranged (past + 1) finish exits more others) (hbodies : bodies ≤ past) (hpast : past < finish)
    (hexits : ∀ place, exits place → finish ≤ place) :
    Arranged bodies finish exits (loops + more) (body ++ [⟨past, finish, false⟩] ++ others) := by
  have hbeyond : ∀ place, place = finish ∨ exits place → finish ≤ place := by
    rintro place (rfl | hplace)
    · exact Nat.le_refl _
    · exact hexits place hplace
  have hjump : Arranged past (past + 1) (fun place => place = finish ∨ exits place) 0 [⟨past, finish, false⟩] := by
    apply Arranged.single (Nat.le_refl _) (Nat.lt_succ_self _) hpast
    exact Or.inr (Or.inl rfl)
  have hfirst := h.sequence hjump hbodies (Nat.le_succ past) fun place hplace =>
    Nat.le_trans hpast (hbeyond place hplace)
  have hrest : Arranged (past + 1) finish (fun place => place = finish ∨ exits place) more others :=
    h'.widen (Nat.le_refl _) (Nat.le_refl _) fun _ hplace => Or.inr (Or.inr hplace)
  have hall := hfirst.sequence hrest (Nat.le_succ_of_le hbodies) hpast hbeyond
  rw [Nat.add_zero] at hall
  exact hall.widen (Nat.le_refl _) (Nat.le_refl _) fun _ hplace => hplace.imp_left Nat.le_of_eq

/-- The jumps of the tests of a conditional from one that is guarded on. -/
theorem Selects.guarded {first source last bodies past finish loops more : Nat} {inner exits : Nat → Prop}
    {tests body others : List Jump} (h : Selects (source + 1) last (past + 1) finish tests others)
    (hbody : Arranged bodies past inner loops body) (hothers : Arranged (past + 1) finish exits more others)
    (hfirst : first ≤ source) (hlast : source < last) (hbodies : bodies ≤ past) (hpast : past < finish) :
    Selects first last bodies finish ([⟨source, bodies, true⟩] ++ tests)
      (body ++ [⟨past, finish, false⟩] ++ others) := by
  constructor
  · refine List.forall_mem_append.mpr ⟨List.forall_mem_singleton.mpr ⟨hfirst, hlast⟩, fun jump hmem => ?_⟩
    have hsource := h.source jump hmem
    omega
  · refine List.forall_mem_append.mpr ⟨List.forall_mem_singleton.mpr ⟨Nat.le_refl _, ?_⟩, fun jump hmem => ?_⟩
    · show bodies ≤ finish
      omega
    · have htarget := h.target jump hmem
      omega
  · -- The first test goes to the beginning of its body, and the others go behind the end of that body.
    refine List.forall_mem_append.mpr ⟨List.forall_mem_singleton.mpr ?_, fun jump hmem => ?_⟩
    · refine List.forall_mem_append.mpr ⟨List.forall_mem_append.mpr ⟨fun loop hloop hback => ?_, ?_⟩,
        fun loop hloop hback => ?_⟩
      · exact hbody.not_spans hloop hback (Or.inl (Nat.le_refl _))
      · exact List.forall_mem_singleton.mpr nofun
      · exact hothers.not_spans hloop hback (Or.inl (Nat.le_succ_of_le hbodies))
    · have htarget := (h.target jump hmem).1
      refine List.forall_mem_append.mpr ⟨List.forall_mem_append.mpr ⟨fun loop hloop hback => ?_, ?_⟩,
        h.avoid jump hmem⟩
      · exact hbody.not_spans hloop hback (Or.inr (Nat.le_of_succ_le htarget))
      · exact List.forall_mem_singleton.mpr nofun

/-! ## Jumps of an outline -/

/-- The jumps of a loop: past it, those of its body, and back to the beginning of the body. -/
theorem lineJumps_whileLoop {opening : List PlainInstruction} {entry again : Test} {body : List Outline}
    {leave position first last : Nat} (hfirst : first = position + opening.length + entry.code.length)
    (hlast : last = first + 1 + sizeOfBlock body + again.code.length) (hlength : last + 1 < 2 ^ 32) :
    lineJumps position ((Outline.whileLoop opening entry body again).render leave position) =
      [⟨first, last + 1, false⟩] ++ lineJumps (first + 1) (renderBlock (last + 1) (first + 1) body) ++
        [⟨last, first + 1, true⟩] := by
  have hstart : position + opening.length + (entry.code.length + 1) = first + 1 := by omega
  have hexit : first + 1 + sizeOfBlock body + (again.code.length + 1) = last + 1 := by omega
  rw [Outline.render]
  simp only [hstart, hexit, lineJumps_append, lineJumps_plainLines, length_plainLines, length_renderBlock,
    List.length_singleton, List.nil_append, List.append_assoc, ← hfirst, ← hlast]
  rw [lineJumps_jumpIfNot entry.condition hlength, lineJumps_jumpIf again.condition (by omega)]

/-- The jumps of a conditional: those of its tests, and those of its bodies. -/
theorem lineJumps_conditional {opening : List PlainInstruction} {choice : Choice}
    {leave position first bodies finish : Nat} (hfirst : first = position + opening.length)
    (hbodies : bodies = first + choice.testsSize) (hfinish : finish = bodies + choice.bodiesSize) :
    lineJumps position ((Outline.conditional opening choice).render leave position) =
      lineJumps first (choice.renderTests finish bodies) ++
        lineJumps bodies (choice.renderBodies leave finish bodies) := by
  subst hfirst hbodies hfinish
  rw [Outline.render]
  simp only [lineJumps_append, lineJumps_plainLines, length_plainLines, length_renderTests, List.length_append,
    List.nil_append, Nat.add_assoc]

mutual

theorem arranged_statement {inLoop : Bool} {statement : Statement} {outline : Outline}
    (h : FollowsStatement inLoop statement outline) {leave position : Nat} {exits : Nat → Prop}
    (hleave : inLoop = true → exits leave) (hexits : ∀ place, exits place → position + outline.size ≤ place)
    (hword : leave < 2 ^ 32) (hlength : position + outline.size < 2 ^ 32) :
    Arranged position (position + outline.size) exits statement.loops
      (lineJumps position (outline.render leave position)) := by
  cases h with
  | simple hsimple =>
      rw [Outline.render, lineJumps_plainLines, Statement.loops_of_isSimple hsimple]
      exact .nil _ _ _
  | breakLoop =>
      have hbeyond := hexits leave (hleave rfl)
      rw [Outline.render, lineJumps_jump hword]
      rw [Outline.size] at hbeyond ⊢
      exact .single (Nat.le_refl _) (Nat.lt_succ_self _) hbeyond (Or.inr (hleave rfl))
  | @whileLoop _ _ statements _ inner scope entry again body form =>
      obtain ⟨first, hfirst⟩ : ∃ first, first = position + 1 + entry.code.length := ⟨_, rfl⟩
      obtain ⟨last, hlast⟩ : ∃ last, last = first + 1 + sizeOfBlock body + again.code.length := ⟨_, rfl⟩
      have hsize : position + (Outline.whileLoop [.newScope inner (some scope)] entry body again).size = last + 1 := by
        simp only [Outline.size, List.length_singleton]
        omega
      rw [hsize] at hlength ⊢
      have hbody : Arranged (first + 1) (first + 1 + sizeOfBlock body) (· = last + 1) (loopsOfBlock statements)
          (lineJumps (first + 1) (renderBlock (last + 1) (first + 1) body)) :=
        arranged_block form (fun _ => rfl) (fun place hplace => by omega) hlength (by omega)
      rw [lineJumps_whileLoop hfirst hlast hlength, Statement.loops]
      exact hbody.whileLoop (by omega) (by omega) (by omega)
  | @conditional _ clauses _ inner scope choice form =>
      obtain ⟨bodies, hbodies⟩ : ∃ bodies, bodies = position + 1 + choice.testsSize := ⟨_, rfl⟩
      obtain ⟨finish, hfinish⟩ : ∃ finish, finish = bodies + choice.bodiesSize := ⟨_, rfl⟩
      have hsize : position + (Outline.conditional [.newScope inner (some scope)] choice).size = finish := by
        simp only [Outline.size, List.length_singleton]
        omega
      rw [hsize] at hexits hlength ⊢
      obtain ⟨hchosen, htests⟩ := arranged_clauses form hleave hexits hfinish hword hlength (Nat.le_of_eq hbodies.symm)
      rw [← hbodies] at htests
      rw [lineJumps_conditional rfl hbodies hfinish, Statement.loops]
      exact (hchosen.conditional htests (by omega) (by omega)).widen (Nat.le_succ position) (Nat.le_refl _)
        fun _ => Or.inr

theorem arranged_block {inLoop : Bool} {statements : List Statement} {outlines : List Outline}
    (h : FollowsBlock inLoop statements outlines) {leave position : Nat} {exits : Nat → Prop}
    (hleave : inLoop = true → exits leave) (hexits : ∀ place, exits place → position + sizeOfBlock outlines ≤ place)
    (hword : leave < 2 ^ 32) (hlength : position + sizeOfBlock outlines < 2 ^ 32) :
    Arranged position (position + sizeOfBlock outlines) exits (loopsOfBlock statements)
      (lineJumps position (renderBlock leave position outlines)) := by
  cases h with
  | nil => exact .nil _ _ _
  | @cons _ statement statements outline outlines first rest =>
      rw [sizeOfBlock, ← Nat.add_assoc] at hexits hlength ⊢
      have hfirst := arranged_statement first hleave
        (fun place hplace => Nat.le_trans (Nat.le_add_right _ _) (hexits place hplace)) hword (by omega)
      have hrest := arranged_block rest hleave hexits hword hlength
      rw [renderBlock, lineJumps_append, length_render, loopsOfBlock]
      exact hfirst.sequence hrest (Nat.le_add_right _ _) (Nat.le_add_right _ _) hexits

theorem arranged_clauses {inLoop : Bool} {clauses : List Clause} {choice : Choice}
    (h : FollowsClauses inLoop clauses choice) {leave tests bodies finish : Nat} {exits : Nat → Prop}
    (hleave : inLoop = true → exits leave) (hexits : ∀ place, exits place → finish ≤ place)
    (hfinish : finish = bodies + choice.bodiesSize) (hword : leave < 2 ^ 32) (hlength : finish < 2 ^ 32)
    (hbodies : tests + choice.testsSize ≤ bodies) :
    Arranged bodies finish exits (loopsOfClauses clauses)
        (lineJumps bodies (choice.renderBodies leave finish bodies)) ∧
      Selects tests (tests + choice.testsSize) bodies finish (lineJumps tests (choice.renderTests finish bodies))
        (lineJumps bodies (choice.renderBodies leave finish bodies)) := by
  cases h with
  | nothing =>
      rw [Choice.bodiesSize, Nat.add_zero] at hfinish
      subst hfinish
      rw [Choice.renderBodies, Choice.renderTests, lineJumps_jump hlength, loopsOfClauses, Choice.testsSize]
      refine ⟨.nil _ _ _, List.forall_mem_singleton.mpr ⟨Nat.le_refl _, Nat.lt_succ_self _⟩,
        List.forall_mem_singleton.mpr ⟨Nat.le_refl _, Nat.le_refl _⟩, fun _ _ loop hloop => nomatch hloop⟩
  | @otherwise _ statements _ body form =>
      rw [Choice.bodiesSize] at hfinish
      rw [Choice.testsSize] at hbodies
      subst hfinish
      have hbody := arranged_block form hleave hexits hword hlength
      have hjumps : lineJumps tests ((Choice.otherwise body).renderTests (bodies + sizeOfBlock body) bodies) =
          [⟨tests, bodies, false⟩, ⟨tests + 1, bodies + sizeOfBlock body, false⟩] := by
        rw [Choice.renderTests, ← List.singleton_append, lineJumps_append, lineJumps_jump (by omega),
          lineJumps_jump hlength]
        rfl
      rw [Choice.renderBodies, hjumps, loopsOfClauses, loopsOfClauses, Nat.add_zero, Choice.testsSize]
      refine ⟨hbody, ?_, ?_, ?_⟩
      · simp
      · simp
      · simp only [List.mem_cons, List.not_mem_nil, or_false, forall_eq_or_imp, forall_eq]
        exact ⟨fun loop hloop hback => hbody.not_spans hloop hback (Or.inl (Nat.le_refl _)),
          fun loop hloop hback => hbody.not_spans hloop hback (Or.inr (Nat.le_refl _))⟩
  | @guarded _ _ _ statements _ clauses test body others first rest =>
      rw [Choice.bodiesSize] at hfinish
      rw [Choice.testsSize] at hbodies
      obtain ⟨past, hpast⟩ : ∃ past, past = bodies + sizeOfBlock body := ⟨_, rfl⟩
      have hbody : Arranged bodies past (fun place => place = finish ∨ exits place) (loopsOfBlock statements)
          (lineJumps bodies (renderBlock leave bodies body)) := by
        rw [hpast]
        refine arranged_block first (fun hin => Or.inr (hleave hin)) ?_ hword (by omega)
        rintro place (rfl | hplace)
        · omega
        · have hbeyond := hexits place hplace
          omega
      obtain ⟨source, hsource⟩ : ∃ source, source = tests + test.code.length := ⟨_, rfl⟩
      obtain ⟨hothers, htests⟩ := @arranged_clauses _ _ _ rest leave (source + 1) (past + 1) finish exits hleave hexits
        (by omega) hword hlength (by omega)
      have hlast : source + 1 + others.testsSize = tests + (Choice.guarded test body others).testsSize := by
        rw [Choice.testsSize]
        omega
      have hchosenJumps : lineJumps bodies ((Choice.guarded test body others).renderBodies leave finish bodies) =
          lineJumps bodies (renderBlock leave bodies body) ++ [⟨past, finish, false⟩] ++
            lineJumps (past + 1) (others.renderBodies leave finish (past + 1)) := by
        simp only [Choice.renderBodies, lineJumps_append, length_renderBlock, List.length_append, List.length_singleton,
          ← Nat.add_assoc, ← hpast, lineJumps_jump hlength]
      have htestsJumps : lineJumps tests ((Choice.guarded test body others).renderTests finish bodies) =
          [⟨source, bodies, true⟩] ++ lineJumps (source + 1) (others.renderTests finish (past + 1)) := by
        have hword : bodies < 2 ^ 32 := by omega
        simp only [Choice.renderTests, lineJumps_append, lineJumps_plainLines, length_plainLines, List.length_append,
          List.length_singleton, List.nil_append, ← Nat.add_assoc, ← hpast, ← hsource,
          lineJumps_jumpIf test.condition hword]
      rw [hchosenJumps, htestsJumps, loopsOfClauses, ← hlast]
      exact ⟨hbody.guarded hothers (by omega) (by omega) hexits,
        htests.guarded hbody hothers (by omega) (by omega) (by omega) (by omega)⟩

end

/-! ## Whole programs -/

theorem arranged_of_compile {chunk : Chunk} {program : Program} (h : chunk.compile = .ok program)
    (hlength : program.length < 2 ^ 32) :
    Arranged 1 program.length (fun _ => False) chunk.loops program.jumps := by
  obtain ⟨outline, b, -, lowered, -, hlines⟩ := instructions_eq_lines h hlength
  obtain ⟨⟨scope, hopening⟩, hbody⟩ := lowered.follows
  have hrendered : outline.lines = plainLines none [.newScope scope none] ++ renderBlock 0 1 outline.body := by
    rw [ScriptOutline.lines, hopening]
    rfl
  have hsize : program.length = 1 + sizeOfBlock outline.body := by
    rw [← length_lines hlines, hrendered, List.length_append, length_plainLines, length_renderBlock]
    rfl
  have hjumps : program.jumps = lineJumps 1 (renderBlock 0 1 outline.body) := by
    rw [Program.jumps, hlines]
    show lineJumps 0 outline.lines = _
    rw [hrendered, lineJumps_append, lineJumps_plainLines]
    rfl
  rw [hsize] at hlength ⊢
  rw [hjumps]
  exact arranged_block hbody (fun hloop => Bool.noConfusion hloop) (fun _ => False.elim) (by decide) hlength

/-- Where all jumps go forward, every step does. -/
theorem lt_of_step {σ : Type} {machine : Machine σ} {code : List (Instruction JumpTarget)} {x y : Nat × σ}
    (hforward : ∀ jump ∈ jumpsFrom 0 code, jump.source < jump.target) (h : machine.Step code x y) : x.1 < y.1 := by
  have hjump : ∀ {pc : Nat} {instruction : Instruction JumpTarget} {jump : Jump}, code[pc]? = some instruction →
      instruction.jumpAt? pc = some jump → jump.source < jump.target := by
    intro pc instruction jump here hsome
    rw [← Nat.zero_add pc] at hsome
    exact hforward jump (mem_jumpsFrom here hsome)
  cases h with
  | @next pc => exact Nat.lt_succ_self pc
  | jump here flow => exact hjump here (by rw [Instruction.jumpAt?, flow])
  | @jumpIf pc _ _ _ target truth here flow =>
      cases truth with
      | true => exact hjump here (by rw [Instruction.jumpAt?, flow])
      | false => exact Nat.lt_succ_self pc
  | @jumpIfNot pc _ _ _ target truth here flow =>
      cases truth with
      | true => exact Nat.lt_succ_self pc
      | false => exact hjump here (by rw [Instruction.jumpAt?, flow])

/-- The loops of a program are those of its script. Jumps that are not taken for a true test go forward; as many jumps go
back as there are loops in the script; any two of these span disjoint intervals or one of them spans all that the other
spans; and no jump from outside goes into what they span. So a script without loops has a program that comes to no
instruction twice, however its tests come out. -/
theorem jumps_of_compile {chunk : Chunk} {program : Program} (h : chunk.compile = .ok program)
    (hlength : program.length < 2 ^ 32) :
    (∀ jump ∈ program.jumps, jump.ifTrue = false → jump.source < jump.target) ∧
      program.jumps.countP Jump.repeats = chunk.loops ∧
        (∀ loop ∈ program.jumps, loop.repeats = true → ∀ other ∈ program.jumps, other.repeats = true →
          loop.Compatible other) ∧
          (∀ loop ∈ program.jumps, loop.repeats = true → ∀ jump ∈ program.jumps, ¬ loop.Spans jump.source →
            ¬ loop.Spans jump.target) ∧
            (chunk.loops = 0 → ∀ (σ : Type) (machine : Machine σ) (run : List (Nat × σ)),
              run.IsChain (machine.Step program.instructions.toList) → (run.map (·.1)).Nodup) := by
  have harranged := arranged_of_compile h hlength
  refine ⟨fun jump hmem hnot => harranged.forward jump hmem ?_, harranged.count, harranged.compatible,
    fun loop hloop hback jump hjump => mt (harranged.closed loop hloop hback jump hjump), ?_⟩
  · rw [Jump.repeats, hnot, Bool.false_and]
  · intro hloops σ machine run hrun
    have hforward : ∀ jump ∈ program.jumps, jump.source < jump.target := by
      intro jump hmem
      apply harranged.forward jump hmem
      have hnone := List.countP_eq_zero.mp (harranged.count.trans hloops) jump hmem
      exact Bool.eq_false_iff.mpr hnone
    have hchain : (run.map (·.1)).IsChain (· < ·) :=
      (List.isChain_map (·.1)).mpr (hrun.imp fun _ _ => lt_of_step hforward)
    exact (List.isChain_iff_pairwise.mp hchain).imp Nat.ne_of_lt

/-- A script without loops: `if a then b() elseif c then d() end`. -/
def oneOfTwo : Chunk :=
  ⟨[.conditional [.guarded .ifThen (.identifier ⟨"a", none⟩) [.call (.call (.identifier ⟨"b", none⟩) [] none) none] none,
    .guarded .elseIf (.identifier ⟨"c", none⟩) [.call (.call (.identifier ⟨"d", none⟩) [] none) none] none] none]⟩

theorem compile_oneOfTwo : ∃ program, oneOfTwo.compile = .ok program ∧ program.length < 2 ^ 32 ∧
    program.instructions.toList =
      [.newScope ⟨1⟩ none, .newScope ⟨2⟩ (some ⟨1⟩), .getVar ⟨0⟩ ⟨3⟩, .jumpIf ⟨3⟩ ⟨7⟩, .getVar ⟨1⟩ ⟨4⟩, .jumpIf ⟨4⟩ ⟨10⟩,
        .jump ⟨13⟩, .getVar ⟨2⟩ ⟨5⟩, .call ⟨5⟩ [] ⟨6⟩, .jump ⟨13⟩, .getVar ⟨3⟩ ⟨7⟩, .call ⟨7⟩ [] ⟨8⟩, .jump ⟨13⟩] :=
  exists_program_of_code (by decide +kernel) (by decide)

theorem jumps_of_compile_samples :
    (∃ program, leavableLoop.compile = .ok program ∧ program.length < 2 ^ 32 ∧
      program.jumps.countP Jump.repeats = 1 ∧ ∀ jump ∈ program.jumps, jump.ifTrue = false → jump.source < jump.target) ∧
      ∃ program, oneOfTwo.compile = .ok program ∧ program.length < 2 ^ 32 ∧
        ∀ (σ : Type) (machine : Machine σ) (run : List (Nat × σ)),
          run.IsChain (machine.Step program.instructions.toList) → (run.map (·.1)).Nodup := by
  constructor
  · obtain ⟨program, hcompile, hlength, -⟩ := compile_leavableLoop
    obtain ⟨hforward, hcount, -⟩ := jumps_of_compile hcompile hlength
    exact ⟨program, hcompile, hlength, hcount, hforward⟩
  · obtain ⟨program, hcompile, hlength, -⟩ := compile_oneOfTwo
    obtain ⟨-, -, -, -, honce⟩ := jumps_of_compile hcompile hlength
    exact ⟨program, hcompile, hlength, honce rfl⟩

end ScriptBytecode
