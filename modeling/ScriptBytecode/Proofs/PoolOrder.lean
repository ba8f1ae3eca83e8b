import Mathlib.Data.List.Induction
import Mathlib.Data.List.Nodup
import ScriptBytecode.Proofs.PoolGrowth

/-!
# The order of the pool

`ConstantPool.addAll` adds constants one after the other. What a pool holds afterwards is known from the constants
alone: starting from the empty pool, it holds each of them once, in the order of their first occurrences
(`toList_addAll_empty`). Constants that a pool holds already leave it as it is.
-/

namespace ScriptBytecode
namespace ConstantPool

/-- The pool with constants added in order. -/
def addAll (pool : ConstantPool) (constants : List Constant) : ConstantPool :=
  constants.foldl (fun pool constant => (pool.add constant).2) pool

variable {pool : ConstantPool} {constant : Constant} {constants more : List Constant}

@[simp] theorem addAll_nil (pool : ConstantPool) : pool.addAll [] = pool := rfl

@[simp] theorem addAll_singleton (pool : ConstantPool) (constant : Constant) :
    pool.addAll [constant] = (pool.add constant).2 := rfl

theorem addAll_append (pool : ConstantPool) (constants more : List Constant) :
    pool.addAll (constants ++ more) = (pool.addAll constants).addAll more :=
  List.foldl_append

theorem find?_eq_none_iff : pool.find? constant = none ↔ constant ∉ pool.constants.toList := by
  unfold find?
  rw [List.findIdx?_eq_none_iff]
  constructor
  · intro h hmem
    have hdiffers := h constant hmem
    simp at hdiffers
  · intro h held hmem
    apply decide_eq_false
    rintro rfl
    exact h hmem

theorem add_of_mem (h : constant ∈ pool.constants.toList) : (pool.add constant).2 = pool := by
  cases hfind : pool.find? constant with
  | none => exact absurd h (find?_eq_none_iff.mp hfind)
  | some index => rw [add_of_find?_eq_some hfind]

theorem toList_add_of_not_mem (h : constant ∉ pool.constants.toList) :
    (pool.add constant).2.constants.toList = pool.constants.toList ++ [constant] := by
  rw [add_of_find?_eq_none (find?_eq_none_iff.mpr h)]
  simp

theorem mem_toList_add (pool : ConstantPool) (constant held : Constant) :
    held ∈ (pool.add constant).2.constants.toList ↔ held ∈ pool.constants.toList ∨ held = constant := by
  by_cases h : constant ∈ pool.constants.toList
  · rw [add_of_mem h]
    exact ⟨Or.inl, fun hor => hor.elim id fun heq => heq ▸ h⟩
  · rw [toList_add_of_not_mem h]
    simp

/-- A pool holds afterwards what it held before and what was added. -/
theorem mem_toList_addAll {held : Constant} :
    held ∈ (pool.addAll constants).constants.toList ↔ held ∈ pool.constants.toList ∨ held ∈ constants := by
  induction constants generalizing pool with
  | nil => simp
  | cons constant constants ih =>
      show held ∈ ((pool.add constant).2.addAll constants).constants.toList ↔ _
      rw [ih, mem_toList_add, List.mem_cons, or_assoc]

theorem extends_addAll (pool : ConstantPool) (constants : List Constant) : pool.Extends (pool.addAll constants) := by
  induction constants generalizing pool with
  | nil => exact .refl pool
  | cons constant constants ih => exact (extends_add pool constant).trans (ih (pool.add constant).2)

/-- Constants that the pool holds leave it as it is. -/
theorem addAll_of_subset (h : ∀ constant ∈ constants, constant ∈ pool.constants.toList) :
    pool.addAll constants = pool := by
  induction constants with
  | nil => rfl
  | cons constant constants ih =>
      obtain ⟨hfirst, hrest⟩ := List.forall_mem_cons.mp h
      show (pool.add constant).2.addAll constants = pool
      rw [add_of_mem hfirst]
      exact ih hrest

/-- Constants that were added before add nothing when they come again. -/
theorem addAll_again (pool : ConstantPool) (constants more : List Constant) :
    pool.addAll (constants ++ more ++ constants) = pool.addAll (constants ++ more) := by
  rw [addAll_append pool (constants ++ more) constants]
  apply addAll_of_subset
  intro constant hmem
  exact mem_toList_addAll.mpr (Or.inr (List.mem_append_left more hmem))

theorem nodup_addAll (h : pool.constants.toList.Nodup) : (pool.addAll constants).constants.toList.Nodup := by
  induction constants generalizing pool with
  | nil => exact h
  | cons constant constants ih =>
      show ((pool.add constant).2.addAll constants).constants.toList.Nodup
      apply ih
      by_cases hmem : constant ∈ pool.constants.toList
      · rw [add_of_mem hmem]
        exact h
      · rw [toList_add_of_not_mem hmem, ← List.concat_eq_append]
        exact h.concat hmem

/-- The empty pool comes to hold each constant once, at its first occurrence. -/
theorem toList_addAll_empty (constants : List Constant) :
    (empty.addAll constants).constants.toList = constants.eraseDups := by
  -- The last constant is the one to look at: whether it is added depends on those before it.
  induction constants using List.reverseRecOn with
  | nil => rfl
  | append_singleton constants constant ih =>
      rw [addAll_append, addAll_singleton, List.eraseDups_append, ← ih, List.cons_removeAll]
      by_cases h : constant ∈ constants
      · rw [add_of_mem (mem_toList_addAll.mpr (Or.inr h))]
        simp [h]
      · have hnew : constant ∉ (empty.addAll constants).constants.toList := by
          rw [ih, List.mem_eraseDups]
          exact h
        rw [toList_add_of_not_mem hnew]
        simp [h, List.eraseDups_cons]

end ConstantPool
end ScriptBytecode
