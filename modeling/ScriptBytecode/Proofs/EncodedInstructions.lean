import ScriptBytecode.Proofs.ProgramDocument

/-!
# Which encoded instructions are instructions

`Opcode.layouts` says which kinds of operands an opcode takes, apart from how instructions are encoded and decoded.
Encoding follows it (`kinds_operands`). Decoding gives back what was encoded and accepts nothing else, and its fault is
the first one of the operands against these layouts: their count before their kinds, and the kinds from the left
(`FirstFault`). A slot without an operand is a fault of the readers of slots alone: whoever reads a slot has checked the
count before, so decoding does not report it.
-/

namespace ScriptBytecode

/-! ## Layouts -/

/-- What may stand in a slot: one word, or a list of words. -/
inductive SlotKind where
  | word
  | words
deriving DecidableEq

def RawOperand.kind : RawOperand → SlotKind
  | .word _ => .word
  | .words _ => .words

/-- The kinds of the operands of an opcode, for each count of operands that it takes. -/
def Opcode.layouts : Opcode → List (List SlotKind)
  | .jump | .setNil | .newTable => [[.word]]
  | .load | .getVar | .setVar | .jumpIfNot | .jumpIf | .pushTable => [[.word, .word]]
  | .operate _ | .setField | .setTable | .scopeGet | .scopeSet | .getField => [[.word, .word, .word]]
  | .call => [[.word, .words, .word]]
  | .newScope => [[.word], [.word, .word]]

/-- What is reported of a count that no layout has. -/
def OperandFault.ofCount : List (List SlotKind) → Nat → OperandFault
  | [layout], found => .count layout.length found
  | _, found => .scopeCount found

/-- What is reported of a slot that does not have the kind it should have. -/
def OperandFault.ofKind : SlotKind → Nat → OperandFault
  | .word, slot => .notWord slot
  | .words, slot => .notWords slot

/-- What is wrong with operands that have none of the layouts. If some layout has their count, it is the leftmost operand
whose kind is not that of its slot. -/
inductive FirstFault (layouts : List (List SlotKind)) (data : List RawOperand) : OperandFault → Prop
  | count (none : ∀ layout ∈ layouts, layout.length ≠ data.length) :
      FirstFault layouts data (.ofCount layouts data.length)
  | kind {layout : List SlotKind} {wanted found : SlotKind} (slot : Nat) (mem : layout ∈ layouts)
      (length : layout.length = data.length)
      (before : (data.map RawOperand.kind).take slot = layout.take slot) (wants : layout[slot]? = some wanted)
      (has : (data.map RawOperand.kind)[slot]? = some found) (differs : found ≠ wanted) :
      FirstFault layouts data (.ofKind wanted slot)

/-- Layouts of one opcode are told apart by their lengths. -/
theorem Opcode.layouts_injOn (opcode : Opcode) : Set.InjOn List.length {layout | layout ∈ opcode.layouts} := by
  intro layout hlayout other hother hlength
  cases opcode with
  | newScope =>
      rcases List.mem_pair.mp hlayout with rfl | rfl <;> rcases List.mem_pair.mp hother with rfl | rfl
      · rfl
      · cases hlength
      · cases hlength
      · rfl
  | _ => exact (List.mem_singleton.mp hlayout).trans (List.mem_singleton.mp hother).symm

namespace FirstFault

variable {layouts : List (List SlotKind)} {data : List RawOperand} {fault other : OperandFault}

theorem notWord {layout : List SlotKind} (slot : Nat) (mem : layout ∈ layouts) (length : layout.length = data.length)
    (before : (data.map RawOperand.kind).take slot = layout.take slot) (wants : layout[slot]? = some .word)
    (has : (data.map RawOperand.kind)[slot]? = some .words) : FirstFault layouts data (.notWord slot) :=
  kind slot mem length before wants has (by decide)

theorem notWords {layout : List SlotKind} (slot : Nat) (mem : layout ∈ layouts) (length : layout.length = data.length)
    (before : (data.map RawOperand.kind).take slot = layout.take slot) (wants : layout[slot]? = some .words)
    (has : (data.map RawOperand.kind)[slot]? = some .word) : FirstFault layouts data (.notWords slot) :=
  kind slot mem length before wants has (by decide)

/-- Operands of another count than that of the only layout. -/
theorem onlyCount {layout : List SlotKind} (h : data.length ≠ layout.length) :
    FirstFault [layout] data (.count layout.length data.length) := by
  refine count fun other hother => ?_
  rw [List.mem_singleton.mp hother]
  exact h.symm

/-- The operands have none of the layouts. -/
theorem not_mem (h : FirstFault layouts data fault)
    (hinj : Set.InjOn List.length {layout | layout ∈ layouts}) :
    data.map RawOperand.kind ∉ layouts := by
  intro hmem
  cases h with
  | count none => exact none _ hmem (List.length_map _)
  | kind slot mem length _ wants has differs =>
      obtain rfl := hinj mem hmem (by rw [length, List.length_map])
      rw [has] at wants
      exact differs (Option.some.inj wants)

theorem unique (h : FirstFault layouts data fault) (h' : FirstFault layouts data other)
    (hinj : Set.InjOn List.length {layout | layout ∈ layouts}) :
    fault = other := by
  cases h with
  | count none =>
      cases h' with
      | count => rfl
      | kind slot mem length => exact absurd length (none _ mem)
  | @kind layout wanted found slot mem length before wants has differs =>
      cases h' with
      | count none => exact absurd length (none _ mem)
      | @kind layout' wanted' found' slot' mem' length' before' wants' has' differs' =>
          obtain rfl := hinj mem mem' (length.trans length'.symm)
          -- Before the later one of two slots all kinds are right, so there is no earlier one.
          rcases Nat.lt_trichotomy slot slot' with hlt | rfl | hgt
          · have hkind := congrArg (·[slot]?) before'
            simp only [List.getElem?_take_of_lt hlt, wants, has, Option.some.injEq] at hkind
            exact absurd hkind differs
          · rw [wants] at wants'
            rw [Option.some.inj wants']
          · have hkind := congrArg (·[slot']?) before
            simp only [List.getElem?_take_of_lt hgt, wants', has', Option.some.injEq] at hkind
            exact absurd hkind differs'

/-- As many operands as a layout has slots leave none of the slots empty. -/
theorem ne_missing (h : FirstFault layouts data fault) (slot : Nat) : fault ≠ .missing slot := by
  rintro rfl
  generalize hfault : OperandFault.missing slot = fault at h
  cases h with
  | count none =>
      unfold OperandFault.ofCount at hfault
      split at hfault <;> cases hfault
  | @kind layout wanted => cases wanted <;> cases hfault

end FirstFault

namespace Instruction

/-- Encoded instructions have one of the layouts of their opcode. -/
theorem kinds_operands (instruction : Instruction JumpTarget) :
    (instruction.operands.map Operand.raw).map RawOperand.kind ∈ instruction.opcode.layouts := by
  cases instruction with
  | newScope dst parent => cases parent <;> simp [operands, opcode, Opcode.layouts, Operand.raw, RawOperand.kind]
  | _ => simp [operands, opcode, Opcode.layouts, Operand.raw, RawOperand.kind]

/-! ## Readers of operands -/

/-- A reader of the operands of an opcode gives the instruction that has these operands, or it reports the first fault
of operands that have none of the layouts. -/
def Decodes (opcode : Opcode) (layouts : List (List SlotKind))
    (read : List RawOperand → Except OperandFault (Instruction JumpTarget)) : Prop :=
  ∀ data, (∃ instruction, read data = .ok instruction ∧ instruction.opcode = opcode ∧
      instruction.operands.map Operand.raw = data) ∨
    ∃ fault, read data = .error fault ∧ FirstFault layouts data fault

section Readers

variable {opcode : Opcode}

/-- The slot that is read behind a list of operands is missing. -/
theorem wordAt_eq_missing_iff {data : List RawOperand} {slot reported : Nat} :
    wordAt data slot = .error (.missing reported) ↔ reported = slot ∧ data.length ≤ slot := by
  rw [← List.getElem?_eq_none_iff]
  unfold wordAt
  split <;> rename_i hslot <;> simp [hslot, eq_comm]

theorem registersAt_eq_missing_iff {data : List RawOperand} {slot reported : Nat} :
    registersAt data slot = .error (.missing reported) ↔ reported = slot ∧ data.length ≤ slot := by
  rw [← List.getElem?_eq_none_iff]
  unfold registersAt
  split <;> rename_i hslot <;> simp [hslot, eq_comm]

theorem checkCount_bind_of_ne {α : Type} {expected : Nat} {data : List RawOperand} (h : data.length ≠ expected)
    (next : Unit → Except OperandFault α) :
    (checkCount expected data >>= next) = .error (.count expected data.length) := by
  unfold checkCount
  rw [if_neg h]
  rfl

theorem decodes_one {make : UInt32 → Instruction JumpTarget}
    (hmake : ∀ a, (make a).opcode = opcode ∧ (make a).operands.map Operand.raw = [.word a]) :
    Decodes opcode [[.word]] (decodeOne make) := by
  intro data
  by_cases hcount : data.length = 1
  · obtain ⟨a, rfl⟩ := List.length_eq_one_iff.mp hcount
    cases a with
    | words => exact .inr ⟨_, rfl, .notWord 0 (List.mem_singleton_self _) rfl rfl rfl rfl⟩
    | word a => exact .inl ⟨make a, rfl, hmake a⟩
  · exact .inr ⟨_, checkCount_bind_of_ne hcount _, .onlyCount hcount⟩

theorem decodes_two {make : UInt32 → UInt32 → Instruction JumpTarget}
    (hmake : ∀ a b, (make a b).opcode = opcode ∧ (make a b).operands.map Operand.raw = [.word a, .word b]) :
    Decodes opcode [[.word, .word]] (decodeTwo make) := by
  intro data
  by_cases hcount : data.length = 2
  · obtain ⟨a, b, rfl⟩ := List.length_eq_two.mp hcount
    cases a with
    | words => exact .inr ⟨_, rfl, .notWord 0 (List.mem_singleton_self _) rfl rfl rfl rfl⟩
    | word a =>
        cases b with
        | words => exact .inr ⟨_, rfl, .notWord 1 (List.mem_singleton_self _) rfl rfl rfl rfl⟩
        | word b => exact .inl ⟨make a b, rfl, hmake a b⟩
  · exact .inr ⟨_, checkCount_bind_of_ne hcount _, .onlyCount hcount⟩

theorem decodes_three {make : UInt32 → UInt32 → UInt32 → Instruction JumpTarget}
    (hmake : ∀ a b c, (make a b c).opcode = opcode ∧
      (make a b c).operands.map Operand.raw = [.word a, .word b, .word c]) :
    Decodes opcode [[.word, .word, .word]] (decodeThree make) := by
  intro data
  by_cases hcount : data.length = 3
  · obtain ⟨a, b, c, rfl⟩ := List.length_eq_three.mp hcount
    cases a with
    | words => exact .inr ⟨_, rfl, .notWord 0 (List.mem_singleton_self _) rfl rfl rfl rfl⟩
    | word a =>
        cases b with
        | words => exact .inr ⟨_, rfl, .notWord 1 (List.mem_singleton_self _) rfl rfl rfl rfl⟩
        | word b =>
            cases c with
            | words => exact .inr ⟨_, rfl, .notWord 2 (List.mem_singleton_self _) rfl rfl rfl rfl⟩
            | word c => exact .inl ⟨make a b c, rfl, hmake a b c⟩
  · exact .inr ⟨_, checkCount_bind_of_ne hcount _, .onlyCount hcount⟩

theorem decodes_call : Decodes .call [[.word, .words, .word]] decodeCall := by
  intro data
  by_cases hcount : data.length = 3
  · obtain ⟨a, b, c, rfl⟩ := List.length_eq_three.mp hcount
    cases a with
    | words => exact .inr ⟨_, rfl, .notWord 0 (List.mem_singleton_self _) rfl rfl rfl rfl⟩
    | word callee =>
        cases b with
        | word => exact .inr ⟨_, rfl, .notWords 1 (List.mem_singleton_self _) rfl rfl rfl rfl⟩
        | words arguments =>
            cases c with
            | words => exact .inr ⟨_, rfl, .notWord 2 (List.mem_singleton_self _) rfl rfl rfl rfl⟩
            | word dst =>
                have harguments : (arguments.map Register.mk).map (·.index) = arguments := by
                  rw [List.map_map]
                  exact List.map_id'' (fun _ => rfl) arguments
                refine .inl ⟨.call ⟨callee⟩ (arguments.map Register.mk) ⟨dst⟩, rfl, rfl, ?_⟩
                simp only [operands, List.map_cons, List.map_nil, Operand.raw, harguments]
  · exact .inr ⟨_, checkCount_bind_of_ne hcount _, .onlyCount hcount⟩

theorem decodes_scope : Decodes .newScope [[.word], [.word, .word]] decodeScope := by
  intro data
  -- The counts that a scope may have, and the two ways to miss them.
  rcases data with _ | ⟨a, _ | ⟨b, _ | ⟨c, rest⟩⟩⟩
  · exact .inr ⟨_, rfl, .count (by decide)⟩
  · cases a with
    | words => exact .inr ⟨_, rfl, .notWord 0 List.mem_cons_self rfl rfl rfl rfl⟩
    | word dst => exact .inl ⟨.newScope ⟨dst⟩ none, rfl, rfl, rfl⟩
  · have htwo : [SlotKind.word, .word] ∈ [[SlotKind.word], [.word, .word]] := by decide
    cases a with
    | words => exact .inr ⟨_, rfl, .notWord 0 htwo rfl rfl rfl rfl⟩
    | word dst =>
        cases b with
        | words => exact .inr ⟨_, rfl, .notWord 1 htwo rfl rfl rfl rfl⟩
        | word parent => exact .inl ⟨.newScope ⟨dst⟩ (some ⟨parent⟩), rfl, rfl, rfl⟩
  · refine .inr ⟨_, rfl, .count ?_⟩
    intro layout hlayout hlength
    rcases List.mem_pair.mp hlayout with rfl | rfl <;> simp at hlength

/-- The readers put the operands where the encoding takes them from. -/
theorem decodes_decodeOperands (opcode : Opcode) : Decodes opcode opcode.layouts (decodeOperands opcode) := by
  cases opcode with
  | jump | setNil | newTable => exact decodes_one fun _ => ⟨rfl, rfl⟩
  | load | getVar | setVar | jumpIfNot | jumpIf | pushTable => exact decodes_two fun _ _ => ⟨rfl, rfl⟩
  | operate | setField | setTable | scopeGet | scopeSet | getField => exact decodes_three fun _ _ _ => ⟨rfl, rfl⟩
  | call => exact decodes_call
  | newScope => exact decodes_scope

end Readers

/-! ## Decoding -/

variable {opcode : Opcode} {data : List RawOperand}

theorem decodeOperands_eq_ok_iff {instruction : Instruction JumpTarget} :
    decodeOperands opcode data = .ok instruction ↔
      instruction.opcode = opcode ∧ instruction.operands.map Operand.raw = data := by
  constructor
  · intro h
    rcases decodes_decodeOperands opcode data with ⟨decoded, hdecoded, hsame⟩ | ⟨fault, hfault, -⟩
    · rw [hdecoded] at h
      exact Except.ok.inj h ▸ hsame
    · rw [hfault] at h
      cases h
  · rintro ⟨rfl, rfl⟩
    exact decodeOperands_operands instruction

theorem decodeOperands_eq_error_iff {fault : OperandFault} :
    decodeOperands opcode data = .error fault ↔ FirstFault opcode.layouts data fault := by
  rcases decodes_decodeOperands opcode data with ⟨decoded, hdecoded, rfl, rfl⟩ | ⟨reported, hreported, hfirst⟩
  · rw [hdecoded]
    constructor
    · intro h
      cases h
    · intro h
      exact absurd (kinds_operands decoded) (h.not_mem decoded.opcode.layouts_injOn)
  · rw [hreported, Except.error.injEq]
    constructor
    · rintro rfl
      exact hfirst
    · exact fun h => hfirst.unique h opcode.layouts_injOn

end Instruction

namespace Opcode

variable {code : UInt8}

theorem ofCode?_eq_some_iff {opcode : Opcode} : ofCode? code = some opcode ↔ opcode.code = code := by
  constructor
  · intro h
    simpa using List.find?_some h
  · rintro rfl
    exact ofCode?_code opcode

theorem ofCode?_eq_none_iff : ofCode? code = none ↔ ∀ opcode : Opcode, opcode.code ≠ code := by
  rw [Option.eq_none_iff_forall_ne_some]
  simp only [ne_eq, ofCode?_eq_some_iff]

/-- The numbers of opcodes go from 1 to 24, without 20. -/
theorem code_ne_iff : (∀ opcode : Opcode, opcode.code ≠ code) ↔ code = 0 ∨ code = 20 ∨ 24 < code := by
  rw [← ofCode?_eq_none_iff]
  have hall : ∀ n : Fin 256,
      ofCode? (.ofNat n) = none ↔ UInt8.ofNat n = 0 ∨ UInt8.ofNat n = 20 ∨ 24 < UInt8.ofNat n := by
    decide +kernel
  simpa using hall ⟨code.toNat, code.toNat_lt⟩

end Opcode

theorem head?_toList_append {text : String} {first : Char} (h : text.toList.head? = some first) (rest : String) :
    (text ++ rest).toList.head? = some first := by
  rw [String.toList_append, List.head?_append, h]
  rfl

namespace OperandFault

/-- Only the fault of an empty slot has the text that an operand is missing. -/
theorem reason_eq_missing {fault : OperandFault} {slot : Nat} (h : fault.reason = s!"missing operand {slot}") :
    ∃ reported, fault = .missing reported := by
  have hmissing : fault.reason.toList.head? = some 'm' := h ▸ head?_toList_append (by decide) _
  cases fault with
  | count expected found =>
      have hexpected : (OperandFault.count expected found).reason.toList.head? = some 'e' :=
        head?_toList_append (head?_toList_append (head?_toList_append (by decide) _) _) _
      rw [hexpected] at hmissing
      cases hmissing
  | scopeCount found =>
      have hexpected : (OperandFault.scopeCount found).reason.toList.head? = some 'e' :=
        head?_toList_append (by decide) _
      rw [hexpected] at hmissing
      cases hmissing
  | notWord slot =>
      have hoperand : (OperandFault.notWord slot).reason.toList.head? = some 'o' :=
        head?_toList_append (head?_toList_append (by decide) _) _
      rw [hoperand] at hmissing
      cases hmissing
  | notWords slot =>
      have hoperand : (OperandFault.notWords slot).reason.toList.head? = some 'o' :=
        head?_toList_append (head?_toList_append (by decide) _) _
      rw [hoperand] at hmissing
      cases hmissing
  | missing reported => exact ⟨reported, rfl⟩

end OperandFault

namespace Instruction

variable {encoded : EncodedInstruction} {position : Nat}

theorem decode_eq_ok_iff {instruction : Instruction JumpTarget} :
    decode encoded position = .ok instruction ↔ encoded = instruction.encode := by
  constructor
  · intro h
    unfold decode at h
    split at h
    · cases h
    · rename_i opcode hopcode
      split at h
      · rename_i decoded hdecoded
        obtain rfl := Except.ok.inj h
        obtain ⟨hsame, hdata⟩ := decodeOperands_eq_ok_iff.mp hdecoded
        rw [encode, hsame, hdata, Opcode.ofCode?_eq_some_iff.mp hopcode]
      · cases h
  · rintro rfl
    exact decode_encode instruction position

theorem decode_eq_invalidOpcode_iff {code : UInt8} :
    decode encoded position = .error (.invalidOpcode code) ↔
      code = encoded.code ∧ ∀ opcode : Opcode, opcode.code ≠ encoded.code := by
  rw [← Opcode.ofCode?_eq_none_iff]
  unfold decode
  split
  · rename_i hnone
    simp [hnone, eq_comm]
  · rename_i opcode hopcode
    split <;> simp [hopcode]

theorem decode_eq_invalidOperand_iff {opcode : Opcode} {reported : Nat} {fault : OperandFault} :
    decode encoded position = .error (.invalidOperand opcode reported fault) ↔
      opcode.code = encoded.code ∧ reported = position ∧ FirstFault opcode.layouts encoded.data fault := by
  rw [← Opcode.ofCode?_eq_some_iff, ← decodeOperands_eq_error_iff]
  unfold decode
  split
  · rename_i hnone
    simp [hnone]
  · rename_i known hknown
    rw [hknown, Option.some.injEq]
    constructor
    · intro h
      split at h
      · cases h
      · rename_i found hfound
        obtain ⟨rfl, rfl, rfl⟩ := DecodeFault.invalidOperand.inj (Except.error.inj h)
        exact ⟨rfl, rfl, hfound⟩
    · rintro ⟨rfl, rfl, hfault⟩
      rw [hfault]

/-- Decoding accepts what encoding makes and nothing else. It fails with the number of the opcode exactly if no opcode has
this number, and otherwise with the opcode, the given position and the first fault of the operands. The readers of slots
report a slot without an operand, and decoding never does, neither as a fault nor in the text of one. -/
theorem decode_exact (encoded : EncodedInstruction) (position : Nat) :
    (∀ instruction, decode encoded position = .ok instruction ↔ encoded = instruction.encode) ∧
      (∀ code, decode encoded position = .error (.invalidOpcode code) ↔
        code = encoded.code ∧ ∀ opcode : Opcode, opcode.code ≠ encoded.code) ∧
      ((∀ opcode : Opcode, opcode.code ≠ encoded.code) ↔
        encoded.code = 0 ∨ encoded.code = 20 ∨ 24 < encoded.code) ∧
      (∀ opcode reported fault, decode encoded position = .error (.invalidOperand opcode reported fault) ↔
        opcode.code = encoded.code ∧ reported = position ∧ FirstFault opcode.layouts encoded.data fault) ∧
      (∀ slot reported, wordAt encoded.data slot = .error (.missing reported) ↔
        reported = slot ∧ encoded.data.length ≤ slot) ∧
      (∀ slot reported, registersAt encoded.data slot = .error (.missing reported) ↔
        reported = slot ∧ encoded.data.length ≤ slot) ∧
      (∀ opcode reported slot, decode encoded position ≠ .error (.invalidOperand opcode reported (.missing slot))) ∧
      ∀ opcode reported fault, decode encoded position = .error (.invalidOperand opcode reported fault) →
        (DecodeFault.invalidOperand opcode reported fault).message =
            s!"Invalid operand for {opcode.name} at instruction {position}: {fault.reason}" ∧
          ∀ slot : Nat, fault.reason ≠ s!"missing operand {slot}" := by
  have hpresent : ∀ {opcode reported fault}, decode encoded position = .error (.invalidOperand opcode reported fault) →
      ∀ slot, fault ≠ .missing slot := by
    intro opcode reported fault hfault
    obtain ⟨-, -, hfirst⟩ := decode_eq_invalidOperand_iff.mp hfault
    exact hfirst.ne_missing
  refine ⟨fun _ => decode_eq_ok_iff, fun _ => decode_eq_invalidOpcode_iff, Opcode.code_ne_iff,
    fun _ _ _ => decode_eq_invalidOperand_iff, fun _ _ => wordAt_eq_missing_iff,
    fun _ _ => registersAt_eq_missing_iff, fun _ _ slot hfault => hpresent hfault slot rfl, ?_⟩
  intro opcode reported fault hfault
  constructor
  · obtain ⟨-, rfl, -⟩ := decode_eq_invalidOperand_iff.mp hfault
    rfl
  · intro slot htext
    obtain ⟨empty, rfl⟩ := OperandFault.reason_eq_missing htext
    exact hpresent hfault empty rfl

/-- A call whose arguments and destination are in each other's slots, and one without its destination, of which the slot
would be read as empty. -/
theorem decode_exact_swappedCall :
    decode ⟨4, [.word 1, .word 2, .words [3]]⟩ 7 = .error (.invalidOperand .call 7 (.notWords 1)) ∧
      (∀ instruction : Instruction JumpTarget, instruction.encode ≠ ⟨4, [.word 1, .word 2, .words [3]]⟩) ∧
      (∀ slot : Nat, (OperandFault.notWords 1).reason ≠ s!"missing operand {slot}") ∧
      wordAt [.word 1, .words [3]] 2 = .error (.missing 2) ∧
      decode ⟨4, [.word 1, .words [3]]⟩ 7 = .error (.invalidOperand .call 7 (.count 3 2)) := by
  obtain ⟨hok, -, -, hfault, -, -, -, htext⟩ := decode_exact ⟨4, [.word 1, .word 2, .words [3]]⟩ 7
  have hdecode : decode ⟨4, [.word 1, .word 2, .words [3]]⟩ 7 = .error (.invalidOperand .call 7 (.notWords 1)) :=
    (hfault .call 7 (.notWords 1)).mpr ⟨rfl, rfl, .notWords 1 (List.mem_singleton_self _) rfl rfl rfl rfl⟩
  obtain ⟨-, -, -, hshort, hslot, -⟩ := decode_exact ⟨4, [.word 1, .words [3]]⟩ 7
  refine ⟨hdecode, ?_, (htext .call 7 _ hdecode).2, (hslot 2 2).mpr ⟨rfl, le_rfl⟩,
    (hshort .call 7 (.count 3 2)).mpr ⟨rfl, rfl, .count (by decide)⟩⟩
  intro instruction hencode
  have hdecoded := (hok instruction).mpr hencode.symm
  rw [hdecode] at hdecoded
  cases hdecoded

end Instruction
end ScriptBytecode
