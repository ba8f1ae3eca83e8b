import ScriptBytecode.Program.Listing
import ScriptBytecode.Proofs.ProgramDocument

/-!
# Listings determine the code

Two programs with the same listing have the same instructions, whatever their pools are. The argument goes from the parts
of a line to the listing. `Separable write follows` says that a text which begins with a part written by `write` begins
with one such part only, as long as what stands behind the part is as `follows` asks: behind a number there is no digit,
and behind a line there is its end. The code ends at the first empty line, because no instruction has an empty line, so
strings in the pool cannot be taken for instructions.
-/

namespace ScriptBytecode

/-! ## Parts of a text -/

/-- A part of a text and what stands behind it are known from the text. -/
def Separable {α : Type} (write : α → List Char) (follows : List Char → Prop) : Prop :=
  ∀ a b rest others, follows rest → follows others → write a ++ rest = write b ++ others → a = b ∧ rest = others

/-- A text begins with a character of some kind, if it begins at all. -/
def HeadIs (kind : Char → Bool) (text : List Char) : Prop :=
  ∀ c ∈ text.head?, kind c = true

/-- A text is cut at the first character of a kind. -/
theorem append_inj_of_headIs {kind : Char → Bool} {text other rest others : List Char}
    (htext : ∀ c ∈ text, kind c = false) (hother : ∀ c ∈ other, kind c = false) (hrest : HeadIs kind rest)
    (hothers : HeadIs kind others) (h : text ++ rest = other ++ others) : text = other ∧ rest = others := by
  have hcut : ∀ {text rest : List Char}, (∀ c ∈ text, kind c = false) → HeadIs kind rest →
      (text ++ rest).takeWhile (fun c => !kind c) = text := by
    intro text rest htext hrest
    have hnone : rest.takeWhile (fun c => !kind c) = [] := by
      cases rest with
      | nil => rfl
      | cons c rest => simp [hrest c rfl]
    rw [List.takeWhile_append_of_pos (by simpa using htext), hnone, List.append_nil]
  have hsame : text = other := by
    rw [← hcut htext hrest, h, hcut hother hothers]
  subst hsame
  exact ⟨rfl, List.append_cancel_left h⟩

/-- Parts one behind the other, up to a text that no part begins with. -/
theorem Separable.flatMap {α : Type} {write : α → List Char} {follows stops : List Char → Prop}
    (h : Separable write follows) (hnext : ∀ a rest, follows (write a ++ rest))
    (hstops : ∀ rest, stops rest → follows rest)
    (hother : ∀ a rest others, stops others → write a ++ rest ≠ others) :
    Separable (fun parts : List α => parts.flatMap write) stops := by
  have hfollows : ∀ (parts : List α) rest, stops rest → follows (parts.flatMap write ++ rest) := by
    intro parts rest hrest
    cases parts with
    | nil => exact hstops rest hrest
    | cons part parts =>
        rw [List.flatMap_cons, List.append_assoc]
        exact hnext part _
  intro parts
  induction parts with
  | nil =>
      intro parts rest others hrest hothers heq
      cases parts with
      | nil => exact ⟨rfl, heq⟩
      | cons part parts =>
          simp only [List.flatMap_nil, List.nil_append, List.flatMap_cons, List.append_assoc] at heq
          exact absurd heq.symm (hother part _ rest hrest)
  | cons part parts ih =>
      intro more rest others hrest hothers heq
      cases more with
      | nil =>
          simp only [List.flatMap_nil, List.nil_append, List.flatMap_cons, List.append_assoc] at heq
          exact absurd heq (hother part _ others hothers)
      | cons first more =>
          simp only [List.flatMap_cons, List.append_assoc] at heq
          obtain ⟨rfl, hlater⟩ := h _ _ _ _ (hfollows parts rest hrest) (hfollows more others hothers) heq
          obtain ⟨rfl, rfl⟩ := ih more rest others hrest hothers hlater
          exact ⟨rfl, rfl⟩

/-! ## Words -/

/-- Not a digit. -/
def isNoDigit (c : Char) : Bool := !c.isDigit

theorem separable_toDigits : Separable (Nat.toDigits 10) (HeadIs isNoDigit) := by
  intro a b rest others hrest hothers heq
  have hdigits : ∀ value : Nat, ∀ c ∈ Nat.toDigits 10 value, isNoDigit c = false := by
    intro value c hmem
    simp [isNoDigit, (Json.isDigits_toDigits value).2 c hmem]
  obtain ⟨hsame, rfl⟩ := append_inj_of_headIs (hdigits a) (hdigits b) hrest hothers heq
  refine ⟨?_, rfl⟩
  rw [← Json.digitsValue_toDigits a, hsame, Json.digitsValue_toDigits]

theorem separable_listWord (kind : List Char) : Separable (listWord kind) (HeadIs isNoDigit) := by
  intro a b rest others hrest hothers heq
  simp only [listWord, List.append_assoc, List.append_cancel_left_eq] at heq
  obtain ⟨hsame, rfl⟩ := separable_toDigits _ _ _ _ hrest hothers heq
  exact ⟨UInt32.toNat_inj.mp hsame, rfl⟩

theorem separable_register : Separable Register.listing (HeadIs isNoDigit) := by
  rintro ⟨a⟩ ⟨b⟩ rest others hrest hothers heq
  obtain ⟨rfl, rfl⟩ := separable_listWord ['r'] a b rest others hrest hothers heq
  exact ⟨rfl, rfl⟩

/-! ## Operands -/

/-- A text begins with a certain character. -/
def BeginsWith (first : Char) (text : List Char) : Prop :=
  ∃ more, text = first :: more

theorem BeginsWith.headIs {first : Char} {text : List Char} (h : BeginsWith first text) {kind : Char → Bool}
    (hkind : kind first = true) : HeadIs kind text := by
  obtain ⟨more, rfl⟩ := h
  intro c hc
  obtain rfl := Option.some.inj hc
  exact hkind

/-- Parts with a blank before each of them, up to a character that is no blank. -/
theorem Separable.afterBlanks {α : Type} {write : α → List Char} (h : Separable write (HeadIs isNoDigit)) (stop : Char)
    (hstop : isNoDigit stop = true) (hblank : stop ≠ ' ') :
    Separable (fun parts : List α => parts.flatMap fun part => ' ' :: write part) (BeginsWith stop) := by
  apply @Separable.flatMap _ _ (HeadIs isNoDigit)
  · intro a b rest others hrest hothers heq
    exact h a b rest others hrest hothers (List.cons_injective heq)
  · intro a rest
    exact BeginsWith.headIs ⟨_, rfl⟩ (by decide)
  · intro rest hrest
    exact hrest.headIs hstop
  · rintro a rest _ ⟨more, rfl⟩ heq
    exact hblank (List.head_eq_of_cons_eq heq).symm

theorem joinBlank_cons (text : List Char) (texts : List (List Char)) :
    joinBlank (text :: texts) = text ++ texts.flatMap fun next => ' ' :: next := by
  induction texts generalizing text with
  | nil => simp [joinBlank]
  | cons next texts ih => simp [joinBlank, ih next]

/-- The registers between brackets, up to the closing one. -/
theorem separable_joinBlank :
    Separable (fun registers : List Register => joinBlank (registers.map Register.listing)) (BeginsWith ']') := by
  have hlater := separable_register.afterBlanks ']' (by decide) (by decide)
  have hbehind : ∀ (registers : List Register) rest, BeginsWith ']' rest →
      HeadIs isNoDigit ((registers.flatMap fun next => ' ' :: next.listing) ++ rest) := by
    intro registers rest hrest
    cases registers with
    | nil => exact hrest.headIs (by decide)
    | cons next registers => exact BeginsWith.headIs ⟨_, rfl⟩ (by decide)
  have hfirst : ∀ (register : Register) (registers : List Register) (rest : List Char),
      ¬ BeginsWith ']' (joinBlank ((register :: registers).map Register.listing) ++ rest) := by
    rintro register registers rest ⟨more, hmore⟩
    simp [joinBlank_cons, Register.listing, listWord] at hmore
  intro a b rest others hrest hothers heq
  cases a with
  | nil =>
      cases b with
      | nil => exact ⟨rfl, heq⟩
      | cons register registers => exact absurd (heq ▸ hrest) (hfirst register registers others)
  | cons register registers =>
      cases b with
      | nil => exact absurd (heq.symm ▸ hothers) (hfirst register registers rest)
      | cons other more =>
          simp only [List.map_cons, joinBlank_cons, List.flatMap_map, List.append_assoc] at heq
          obtain ⟨rfl, hmore⟩ :=
            separable_register _ _ _ _ (hbehind registers rest hrest) (hbehind more others hothers) heq
          obtain ⟨rfl, rfl⟩ := hlater _ _ _ _ hrest hothers hmore
          exact ⟨rfl, rfl⟩

/-- The first characters tell the kinds of operands apart. -/
theorem separable_operand : Separable Operand.listing (HeadIs isNoDigit) := by
  intro a b rest others hrest hothers heq
  cases a with
  | register a =>
      cases b with
      | register b =>
          obtain ⟨rfl, rfl⟩ := separable_register a b rest others hrest hothers heq
          exact ⟨rfl, rfl⟩
      | _ => simp [Operand.listing, Register.listing, ConstantIndex.listing, JumpTarget.listing, listWord] at heq
  | constant a =>
      cases b with
      | constant b =>
          obtain ⟨hsame, rfl⟩ := separable_listWord ['k'] a.index b.index rest others hrest hothers heq
          exact ⟨congrArg Operand.constant (congrArg ConstantIndex.mk hsame), rfl⟩
      | _ => simp [Operand.listing, Register.listing, ConstantIndex.listing, JumpTarget.listing, listWord] at heq
  | target a =>
      cases b with
      | target b =>
          obtain ⟨hsame, rfl⟩ := separable_listWord ['P', 'C'] a.pc b.pc rest others hrest hothers heq
          exact ⟨congrArg Operand.target (congrArg JumpTarget.mk hsame), rfl⟩
      | _ => simp [Operand.listing, Register.listing, ConstantIndex.listing, JumpTarget.listing, listWord] at heq
  | registers a =>
      cases b with
      | registers b =>
          simp only [Operand.listing, List.cons_append, List.append_assoc, List.cons.injEq, true_and] at heq
          obtain ⟨rfl, hbehind⟩ := separable_joinBlank a b _ _ ⟨rest, rfl⟩ ⟨others, rfl⟩ heq
          exact ⟨rfl, List.cons_injective hbehind⟩
      | _ => simp [Operand.listing, Register.listing, ConstantIndex.listing, JumpTarget.listing, listWord] at heq

/-! ## Instructions -/

theorem Opcode.find?_name (opcode : Opcode) : all.find? (fun other => other.name == opcode.name) = some opcode := by
  cases opcode with
  | operate operation => cases operation <;> rfl
  | _ => rfl

theorem Opcode.name_injective {a b : Opcode} (h : a.name = b.name) : a = b := by
  rw [← Option.some_inj, ← find?_name a, h, find?_name]

/-- A blank or the end of a line. -/
def isGap (c : Char) : Bool := c == ' ' || c == '\n'

theorem Opcode.isGap_of_mem_name {opcode : Opcode} {c : Char} (h : c ∈ opcode.name.toList) : isGap c = false := by
  have hall : (Opcode.all.all fun opcode => opcode.name.toList.all fun c => !isGap c) = true := by decide
  have hname := List.all_eq_true.mp hall opcode (List.mem_of_find?_eq_some opcode.find?_name)
  simpa using List.all_eq_true.mp hname c h

/-- An instruction is known from its opcode and its operands. -/
theorem Instruction.eq_of_operands_eq {a b : Instruction JumpTarget} (hopcode : a.opcode = b.opcode)
    (hoperands : a.operands = b.operands) : a = b := by
  have ha := decodeOperands_operands a
  rw [hopcode, hoperands, decodeOperands_operands b] at ha
  exact (Except.ok.inj ha).symm

theorem separable_instruction : Separable Instruction.listing (BeginsWith '\n') := by
  intro a b rest others hrest hothers heq
  have hbehind : ∀ (operands : List (Operand JumpTarget)) rest, BeginsWith '\n' rest →
      HeadIs isGap ((operands.flatMap fun operand => ' ' :: operand.listing) ++ rest) := by
    intro operands rest hrest
    cases operands with
    | nil => exact hrest.headIs (by decide)
    | cons operand operands => exact BeginsWith.headIs ⟨_, rfl⟩ (by decide)
  simp only [Instruction.listing, List.append_assoc] at heq
  obtain ⟨hname, hlater⟩ := append_inj_of_headIs (fun c => Opcode.isGap_of_mem_name) (fun c => Opcode.isGap_of_mem_name)
    (hbehind _ rest hrest) (hbehind _ others hothers) heq
  obtain ⟨hoperands, rfl⟩ :=
    separable_operand.afterBlanks '\n' (by decide) (by decide) _ _ _ _ hrest hothers hlater
  exact ⟨Instruction.eq_of_operands_eq (Opcode.name_injective (String.toList_inj.mp hname)) hoperands, rfl⟩

/-- No instruction has an empty line. -/
theorem Instruction.not_beginsWith_listing (instruction : Instruction JumpTarget) (rest : List Char) :
    ¬ BeginsWith '\n' (instruction.listing ++ rest) := by
  rintro ⟨more, hmore⟩
  have hname : instruction.opcode.name.toList ≠ [] := by
    have hall : (Opcode.all.all fun opcode => !opcode.name.toList.isEmpty) = true := by decide
    simpa using List.all_eq_true.mp hall _ (List.mem_of_find?_eq_some instruction.opcode.find?_name)
  cases hfirst : instruction.opcode.name.toList with
  | nil => exact hname hfirst
  | cons c name =>
      have hgap := @Opcode.isGap_of_mem_name instruction.opcode c (by rw [hfirst]; exact List.mem_cons_self)
      simp only [Instruction.listing, hfirst, List.cons_append, List.cons.injEq] at hmore
      rw [hmore.1] at hgap
      exact absurd hgap (by decide)

/-! ## Listings -/

theorem separable_listInstructions : Separable Program.listInstructions (BeginsWith '\n') := by
  apply @Separable.flatMap _ _ (fun _ => True)
  · intro a b rest others _ _ heq
    simp only [List.append_assoc, List.cons_append, List.nil_append] at heq
    obtain ⟨rfl, hbehind⟩ := separable_instruction a b _ _ ⟨rest, rfl⟩ ⟨others, rfl⟩ heq
    exact ⟨rfl, List.cons_injective hbehind⟩
  · intro _ _
    trivial
  · intro _ _
    trivial
  · rintro a rest others hothers rfl
    rw [List.append_assoc] at hothers
    exact a.not_beginsWith_listing _ hothers

/-- Programs with the same listing have the same code, whatever is in their pools. -/
theorem Program.instructions_eq_of_listing_eq {p q : Program} (h : p.listing = q.listing) :
    p.instructions = q.instructions := by
  have htext := String.ofList_injective h
  obtain ⟨hcode, -⟩ := separable_listInstructions _ _ _ _ ⟨_, rfl⟩ ⟨_, rfl⟩ htext
  exact Array.toList_inj.mp hcode

/-- Code with operands of every shape, and a pool with one string that has an end of line in it, an empty line and what
looks like an instruction. -/
def Program.oneString : Program :=
  ⟨⟨#[.string "a\n\nJUMP PC0\nk1: b"]⟩,
    #[.newScope ⟨1⟩ none, .newScope ⟨2⟩ (some ⟨1⟩), .call ⟨12⟩ [⟨1⟩, ⟨2⟩] ⟨3⟩, .call ⟨1⟩ [] ⟨23⟩, .jumpIf ⟨3⟩ ⟨4⟩]⟩

/-- The same code with two strings that are listed like that one. -/
def Program.twoStrings : Program :=
  { oneString with constants := ⟨#[.string "a\n\nJUMP PC0", .string "b"]⟩ }

theorem Program.instructions_eq_of_listing_eq_strings :
    oneString.listing = twoStrings.listing ∧ oneString.constants.size ≠ twoStrings.constants.size ∧
      oneString.instructions = twoStrings.instructions := by
  have hlisting : oneString.listing = twoStrings.listing := by decide
  exact ⟨hlisting, by decide, instructions_eq_of_listing_eq hlisting⟩

end ScriptBytecode
