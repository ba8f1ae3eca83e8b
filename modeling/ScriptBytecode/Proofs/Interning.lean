import ScriptBytecode.Proofs.FinishedPrograms
import ScriptBytecode.Proofs.PoolOrder

/-!
# Adding constants to an assembler

The pool tells constants apart by `sameValue`, which compares numbers by their bits. An assembler that is given constants
one after the other (`afterAdding`) answers each of them with the first place where it stands, and that place stays the
first one whatever is added later. When the pool has a constant for every word, a constant that it lacks is refused and
nothing changes.

A run is compared with `ConstantPool.addAll`, which knows no limit: the pool is the beginning of what `addAll` gives, cut
off at `2 ^ 32` constants (`toList_afterAdding`).
-/

namespace ScriptBytecode

/-! ## The same value -/

/-- Whether two constants are the same for the pool: numbers have the same bits, and all else is equal. -/
def Constant.sameValue : Constant → Constant → Bool
  | .number a, .number b => a.bits == b.bits
  | a, b => a.ieeeEq b

theorem Constant.sameValue_iff {a b : Constant} : a.sameValue b = true ↔ a = b := by
  cases a with
  | boolean value => cases b <;> simp [sameValue, ieeeEq]
  | string value => cases b <;> simp [sameValue, ieeeEq]
  | number value =>
      cases b with
      | number other =>
          obtain ⟨bits⟩ := value
          obtain ⟨others⟩ := other
          simp [sameValue]
      | boolean _ => simp [sameValue, ieeeEq]
      | string _ => simp [sameValue, ieeeEq]

theorem Constant.sameValue_eq_false_iff {a b : Constant} : a.sameValue b = false ↔ a ≠ b := by
  rw [← Bool.not_eq_true, sameValue_iff]

/-- A NaN is the same value as itself, which it does not equal, and the two zeros are equal and not the same value. -/
example :
    Constant.sameValue (.number ⟨0x7ff8000000000000⟩) (.number ⟨0x7ff8000000000000⟩) = true ∧
      Constant.ieeeEq (.number ⟨0x7ff8000000000000⟩) (.number ⟨0x7ff8000000000000⟩) = false ∧
        Constant.sameValue (.number ⟨0⟩) (.number ⟨0x8000000000000000⟩) = false ∧
          Constant.ieeeEq (.number ⟨0⟩) (.number ⟨0x8000000000000000⟩) = true := by
  decide

namespace ConstantPool

variable {pool larger : ConstantPool} {constant : Constant}

/-! ## Places in the pool -/

/-- The lowest place of a pool where a constant stands. -/
structure FirstAt (pool : ConstantPool) (constant : Constant) (place : Nat) : Prop where
  held : ∃ entry, pool.get? place = some entry ∧ entry.sameValue constant = true
  first : ∀ earlier < place, ∀ entry, pool.get? earlier = some entry → entry.sameValue constant = false

/-- A constant stands nowhere in a pool. -/
def Lacks (pool : ConstantPool) (constant : Constant) : Prop :=
  ∀ place entry, pool.get? place = some entry → entry.sameValue constant = false

theorem lacks_iff : pool.Lacks constant ↔ constant ∉ pool.constants.toList := by
  constructor
  · intro hlacks hmem
    obtain ⟨place, hget⟩ := List.mem_iff_getElem?.mp hmem
    rw [Array.getElem?_toList] at hget
    exact Constant.sameValue_eq_false_iff.mp (hlacks place constant hget) rfl
  · intro hmem place entry hget
    apply Constant.sameValue_eq_false_iff.mpr
    rintro rfl
    exact hmem (Array.mem_toList_iff.mpr (Array.mem_of_getElem? hget))

theorem find?_eq_none_iff_lacks : pool.find? constant = none ↔ pool.Lacks constant :=
  find?_eq_none_iff.trans lacks_iff.symm

theorem firstAt_of_find? {place : Nat} (h : pool.find? constant = some place) : pool.FirstAt constant place := by
  refine ⟨⟨constant, get?_of_find? h, Constant.sameValue_iff.mpr rfl⟩, ?_⟩
  intro earlier hearlier entry hget
  unfold find? at h
  obtain ⟨hlt, -, hbefore⟩ := List.findIdx?_eq_some_iff_getElem.mp h
  have hother := hbefore earlier hearlier
  unfold ConstantPool.get? at hget
  rw [← Array.getElem?_toList, List.getElem?_eq_getElem (Nat.lt_trans hearlier hlt), Option.some.injEq] at hget
  rw [hget] at hother
  exact Constant.sameValue_eq_false_iff.mpr (by simpa using hother)

/-- Where the pool has room for one more constant or holds this one already, the place that adding gives is the first
one, in the pool afterwards and in every pool that it becomes. -/
theorem firstAt_add (hsize : pool.size ≤ 2 ^ 32) (hroom : ¬ (pool.isFull && (pool.find? constant).isNone))
    (h : (pool.add constant).2.Extends larger) : larger.FirstAt constant (pool.add constant).1.toNat := by
  have hagain := add_of_extends h
  have hlater : larger.get? (pool.add constant).1.toNat = some constant := h.get? (get?_add hsize hroom).1
  have hmem : ¬ larger.find? constant = none := by
    rw [find?_eq_none_iff_lacks]
    intro hlacks
    exact Constant.sameValue_eq_false_iff.mp (hlacks _ _ hlater) rfl
  obtain ⟨place, hfind⟩ := Option.ne_none_iff_exists'.mp hmem
  have hfirst := firstAt_of_find? hfind
  -- Adding once more gives the place that a search gives, and that place is no larger than one that fits into a word.
  have hle : place ≤ (pool.add constant).1.toNat := by
    by_contra hlt
    exact Constant.sameValue_eq_false_iff.mp (hfirst.first _ (Nat.lt_of_not_le hlt) _ hlater) rfl
  have hword : (UInt32.ofNat place).toNat = place := by
    rw [UInt32.toNat_ofNat']
    exact Nat.mod_eq_of_lt (Nat.lt_of_le_of_lt hle (pool.add constant).1.toNat_lt)
  rw [add_of_find?_eq_some hfind] at hagain
  rw [← (Prod.mk.inj hagain).1, hword]
  exact hfirst

/-- A pool grows by one constant if it lacks the constant, and else stays as it is. -/
theorem size_add (pool : ConstantPool) (constant : Constant) :
    ((pool.add constant).2.size = pool.size + 1 ↔ pool.Lacks constant) ∧
      (¬ pool.Lacks constant → (pool.add constant).2 = pool) := by
  cases hfind : pool.find? constant with
  | none =>
      rw [add_of_find?_eq_none hfind]
      have hlacks := find?_eq_none_iff_lacks.mp hfind
      exact ⟨iff_of_true (by simp [size]) hlacks, fun h => absurd hlacks h⟩
  | some place =>
      rw [add_of_find?_eq_some hfind]
      have hholds : ¬ pool.Lacks constant := by
        rw [← find?_eq_none_iff_lacks, hfind]
        simp
      exact ⟨iff_of_false (by simp) hholds, fun _ => rfl⟩

theorem isFull_and_isNone_iff (hsize : pool.size ≤ 2 ^ 32) :
    (pool.isFull && (pool.find? constant).isNone) = true ↔ pool.size = 2 ^ 32 ∧ pool.Lacks constant := by
  rw [Bool.and_eq_true, Option.isNone_iff_eq_none, find?_eq_none_iff_lacks]
  have hfull : pool.isFull = true ↔ pool.size = 2 ^ 32 := by
    unfold isFull
    rw [decide_eq_true_iff]
    exact ⟨fun hle => Nat.le_antisymm hsize hle, fun heq => Nat.le_of_eq heq.symm⟩
  rw [hfull]

end ConstantPool

/-! ## Runs -/

namespace Assembler

open Assembling

variable {a : Assembler} {constant : Constant}

/-- The assembler after constants were added one after the other. A constant that is refused changes nothing. -/
def afterAdding (a : Assembler) (constants : List Constant) : Assembler :=
  a.perform (constants.map .addConstant)

theorem afterAdding_append (a : Assembler) (constants more : List Constant) :
    a.afterAdding (constants ++ more) = (a.afterAdding constants).afterAdding more := by
  unfold afterAdding perform
  rw [List.map_append, List.foldl_append]

theorem afterAdding_cons (a : Assembler) (constant : Constant) (constants : List Constant) :
    a.afterAdding (constant :: constants) = (a.afterAdding [constant]).afterAdding constants :=
  a.afterAdding_append [constant] constants

/-- A constant is refused when the pool is full and lacks it. -/
theorem addConstant_eq_error_iff (hsize : a.constants.size ≤ 2 ^ 32) {error : CompileError} :
    addConstant constant a = .error error ↔
      error = .tooManyConstants ∧ a.constants.size = 2 ^ 32 ∧ a.constants.Lacks constant := by
  rw [← ConstantPool.isFull_and_isNone_iff hsize]
  unfold addConstant
  by_cases hfull : (a.constants.isFull && (a.constants.find? constant).isNone) = true
  · rw [if_pos hfull]
    simp [hfull, eq_comm]
  · rw [if_neg hfull]
    simp [hfull]

theorem afterAdding_singleton_of_ok {index : ConstantIndex} {b : Assembler} (h : addConstant constant a = .ok (index, b)) :
    a.afterAdding [constant] = b :=
  @AssemblerUse.apply_of_ok (.addConstant constant) a b (discard_eq_ok_iff.mpr ⟨index, h⟩)

theorem afterAdding_singleton_of_error {error : CompileError} (h : addConstant constant a = .error error) :
    a.afterAdding [constant] = a := by
  have hstep : (AssemblerUse.addConstant constant).step a = .error error := by
    change (addConstant constant a).map _ = _
    rw [h]
    rfl
  exact AssemblerUse.apply_of_error hstep

/-- One constant more: the pool keeps its constants, and it has no more of them than there are words. -/
theorem afterAdding_singleton (hsize : a.constants.size ≤ 2 ^ 32) (constant : Constant) :
    a.constants.Extends (a.afterAdding [constant]).constants ∧ (a.afterAdding [constant]).constants.size ≤ 2 ^ 32 := by
  cases hadd : addConstant constant a with
  | ok result =>
      rw [afterAdding_singleton_of_ok hadd]
      exact ⟨extends_of_addConstant hadd, (get?_of_addConstant hsize hadd).2⟩
  | error error =>
      rw [afterAdding_singleton_of_error hadd]
      exact ⟨.refl _, hsize⟩

/-- However many constants are added, the pool keeps those that it has and fits into the words. -/
theorem extends_afterAdding (hsize : a.constants.size ≤ 2 ^ 32) (constants : List Constant) :
    a.constants.Extends (a.afterAdding constants).constants ∧ (a.afterAdding constants).constants.size ≤ 2 ^ 32 := by
  induction constants generalizing a with
  | nil => exact ⟨.refl _, hsize⟩
  | cons constant constants ih =>
      obtain ⟨hextends, hsize'⟩ := a.afterAdding_singleton hsize constant
      obtain ⟨hrest, hlast⟩ := ih hsize'
      rw [afterAdding_cons]
      exact ⟨hextends.trans hrest, hlast⟩

/-- The pool after a run is what a pool without a limit would hold, cut off where the words end. -/
theorem toList_afterAdding (hsize : a.constants.size ≤ 2 ^ 32) (constants : List Constant) :
    (a.afterAdding constants).constants.constants.toList =
      (a.constants.addAll constants).constants.toList.take (2 ^ 32) := by
  induction constants using List.reverseRecOn with
  | nil =>
      have hlength : a.constants.constants.toList.length ≤ 2 ^ 32 := by
        rw [Array.length_toList]
        exact hsize
      exact (List.take_of_length_le hlength).symm
  | append_singleton constants constant ih =>
      have hheld := (a.extends_afterAdding hsize constants).2
      rw [afterAdding_append, ConstantPool.addAll_append, ConstantPool.addAll_singleton]
      generalize a.afterAdding constants = held at ih hheld
      generalize a.constants.addAll constants = unbounded at ih
      have hlength : held.constants.size = min (2 ^ 32) unbounded.constants.toList.length := by
        rw [← List.length_take, ← ih, Array.length_toList]
        rfl
      cases hadd : addConstant constant held with
      | error error =>
          -- The words are used up, so what stands behind the cut does not matter.
          obtain ⟨-, hfull, -⟩ := (addConstant_eq_error_iff hheld).mp hadd
          have hlong : 2 ^ 32 ≤ unbounded.constants.toList.length := by omega
          obtain ⟨more, hmore⟩ := ConstantPool.extends_add unbounded constant
          rw [afterAdding_singleton_of_error hadd, ih, ← hmore, List.take_append_of_le_length hlong]
      | ok result =>
          obtain ⟨index, b⟩ := result
          rw [afterAdding_singleton_of_ok hadd]
          obtain ⟨hroom, -, rfl⟩ := addConstant_eq_ok_iff.mp hadd
          rw [ConstantPool.isFull_and_isNone_iff hheld] at hroom
          by_cases hmem : constant ∈ held.constants.constants.toList
          · have hunbounded : constant ∈ unbounded.constants.toList := List.mem_of_mem_take (ih ▸ hmem)
            show (held.constants.add constant).2.constants.toList = _
            rw [ConstantPool.add_of_mem hmem, ConstantPool.add_of_mem hunbounded]
            exact ih
          · -- A pool that lacks the constant and takes it has not been cut off.
            have hshort : unbounded.constants.toList.length < 2 ^ 32 := by
              have hnot : ¬ held.constants.size = 2 ^ 32 := fun hfull => hroom ⟨hfull, ConstantPool.lacks_iff.mpr hmem⟩
              omega
            rw [List.take_of_length_le (Nat.le_of_lt hshort)] at ih
            show (held.constants.add constant).2.constants.toList = _
            rw [ConstantPool.toList_add_of_not_mem hmem, ConstantPool.toList_add_of_not_mem (ih ▸ hmem), ih,
              List.take_of_length_le]
            rw [List.length_append, List.length_singleton]
            omega

/-- Starting from the empty pool, the pool holds the first occurrences of the constants, as many as there are words. -/
theorem toList_afterAdding_of_empty (hempty : a.constants = .empty) (constants : List Constant) :
    (a.afterAdding constants).constants.constants.toList =
      (constants.eraseDupsBy Constant.sameValue).take (2 ^ 32) := by
  have hsize : a.constants.size ≤ 2 ^ 32 := by
    rw [hempty]
    exact ConstantPool.sound_empty.size_le
  have hsame : Constant.sameValue = fun x y => x == y := by
    funext x y
    rw [Bool.eq_iff_iff, Constant.sameValue_iff, beq_iff_eq]
  rw [toList_afterAdding hsize, hempty, ConstantPool.toList_addAll_empty, hsame]
  rfl

theorem pairwise_afterAdding_of_empty (hempty : a.constants = .empty) (constants : List Constant) :
    (a.afterAdding constants).constants.constants.toList.Pairwise fun x y => x.sameValue y = false := by
  have hsize : a.constants.size ≤ 2 ^ 32 := by
    rw [hempty]
    exact ConstantPool.sound_empty.size_le
  have hnodup : (a.constants.addAll constants).constants.toList.Nodup := by
    apply ConstantPool.nodup_addAll
    rw [hempty]
    exact List.nodup_nil
  rw [toList_afterAdding hsize]
  exact (hnodup.sublist (List.take_sublist _ _)).imp fun hne => Constant.sameValue_eq_false_iff.mpr hne

/-- What becomes of a constant that an assembler `held` is given, where `next` is the assembler right behind it and
`last` one that later constants lead to. -/
structure Interned (constant : Constant) (held next last : Assembler) : Prop where
  /-- Entries neither change nor move. -/
  kept : ∀ place entry, held.constants.get? place = some entry → last.constants.get? place = some entry
  /-- The answer is the first place of the constant, now and later, and the pool grows only by a constant that it
  lacked. -/
  answered : ∀ index b, addConstant constant held = .ok (index, b) →
    b = next ∧ next.constants.FirstAt constant index.index.toNat ∧ last.constants.FirstAt constant index.index.toNat ∧
      (next.constants.size = held.constants.size + 1 ↔ held.constants.Lacks constant) ∧
        (¬ held.constants.Lacks constant → next.constants = held.constants)
  /-- Only a full pool refuses, and only what it lacks. -/
  refused : ∀ error, addConstant constant held = .error error ↔
    error = .tooManyConstants ∧ held.constants.size = 2 ^ 32 ∧ held.constants.Lacks constant
  unchanged : ∀ error, addConstant constant held = .error error → next.constants = held.constants

theorem interned_afterAdding (hsize : a.constants.size ≤ 2 ^ 32) (constant : Constant) (after : List Constant) :
    Interned constant a (a.afterAdding [constant]) (a.afterAdding (constant :: after)) := by
  have hnext := a.afterAdding_singleton hsize constant
  have hlast := extends_afterAdding hnext.2 after
  rw [← afterAdding_cons] at hlast
  refine ⟨fun place entry hget => (hnext.1.trans hlast.1).get? hget, ?_, fun error => addConstant_eq_error_iff hsize, ?_⟩
  · intro index b hadd
    rw [afterAdding_singleton_of_ok hadd] at hlast ⊢
    obtain ⟨hroom, rfl, rfl⟩ := addConstant_eq_ok_iff.mp hadd
    have hgrowth := a.constants.size_add constant
    exact ⟨rfl, ConstantPool.firstAt_add hsize hroom (.refl _), ConstantPool.firstAt_add hsize hroom hlast.1, hgrowth⟩
  · intro error hadd
    rw [afterAdding_singleton_of_error hadd]

/-- Whatever constants are added to a pool that fits into the words, each is answered with the first place where it
stands, for good. A pool that was empty holds each constant once, in the order of first occurrence. -/
theorem constants_interned (hsize : a.constants.size ≤ 2 ^ 32) :
    (∀ before constant after,
      Interned constant (a.afterAdding before) (a.afterAdding (before ++ [constant]))
        (a.afterAdding (before ++ constant :: after))) ∧
      (a.constants = .empty → ∀ constants,
        ((a.afterAdding constants).constants.constants.toList.Pairwise fun x y => x.sameValue y = false) ∧
          (a.afterAdding constants).constants.constants.toList =
            (constants.eraseDupsBy Constant.sameValue).take (2 ^ 32)) := by
  constructor
  · intro before constant after
    rw [afterAdding_append, afterAdding_append]
    exact interned_afterAdding (a.extends_afterAdding hsize before).2 constant after
  · intro hempty constants
    exact ⟨pairwise_afterAdding_of_empty hempty constants, toList_afterAdding_of_empty hempty constants⟩

/-- An assembler whose pool holds a NaN twice. -/
def repeatedConstants : Assembler :=
  { Assembler.empty with
    constants := ⟨#[.number ⟨0x7ff8000000000000⟩, .string "x", .number ⟨0x7ff8000000000000⟩]⟩ }

theorem constants_interned_repeatedConstants :
    (repeatedConstants.constants.size ≤ 2 ^ 32 ∧
      Interned (.number ⟨0x7ff8000000000000⟩) (repeatedConstants.afterAdding [.number ⟨0⟩])
        (repeatedConstants.afterAdding [.number ⟨0⟩, .number ⟨0x7ff8000000000000⟩])
        (repeatedConstants.afterAdding
          [.number ⟨0⟩, .number ⟨0x7ff8000000000000⟩, .number ⟨0x8000000000000000⟩, .string "x"])) ∧
      Assembler.empty.constants.size ≤ 2 ^ 32 ∧
        (Assembler.empty.afterAdding
            [.number ⟨0⟩, .boolean true, .number ⟨0x8000000000000000⟩, .number ⟨0⟩]).constants.constants.toList =
          [.number ⟨0⟩, .boolean true, .number ⟨0x8000000000000000⟩].take (2 ^ 32) := by
  have hrepeated : repeatedConstants.constants.size ≤ 2 ^ 32 := by decide
  have hempty : Assembler.empty.constants.size ≤ 2 ^ 32 := by decide
  exact ⟨⟨hrepeated, (constants_interned hrepeated).1 [.number ⟨0⟩] _ [.number ⟨0x8000000000000000⟩, .string "x"]⟩, hempty,
    ((constants_interned hempty).2 rfl _).2⟩

end Assembler
end ScriptBytecode
