import Mathlib.Algebra.Group.Nat.Defs
import ScriptBytecode.Constant.Pool

/-!
# How the pool grows

Adding a constant leaves the constants that the pool has where they are. The place that it gives lies inside the new
pool, and the constant stands there as long as the pool has no more constants than there are 32-bit words.
-/

namespace ScriptBytecode

theorem getElem?_of_isPrefix {α : Type} {list longer : List α} (h : list <+: longer) {place : Nat} {value : α}
    (hvalue : list[place]? = some value) : longer[place]? = some value := by
  obtain ⟨hlt, rfl⟩ := List.getElem?_eq_some_iff.mp hvalue
  exact List.prefix_iff_getElem?.mp h place hlt

namespace ConstantPool

/-- A pool has the constants of another one at the same places, and perhaps more behind them. -/
def Extends (pool larger : ConstantPool) : Prop :=
  pool.constants.toList <+: larger.constants.toList

namespace Extends

theorem refl (pool : ConstantPool) : pool.Extends pool :=
  List.prefix_refl _

theorem trans {first second third : ConstantPool} (h : first.Extends second) (h' : second.Extends third) :
    first.Extends third :=
  List.IsPrefix.trans h h'

theorem size_le {pool larger : ConstantPool} (h : pool.Extends larger) : pool.size ≤ larger.size := by
  simpa [ConstantPool.size] using h.length_le

theorem subset {pool larger : ConstantPool} (h : pool.Extends larger) :
    pool.constants.toList ⊆ larger.constants.toList :=
  List.IsPrefix.subset h

theorem get? {pool larger : ConstantPool} (h : pool.Extends larger) {index : Nat} {constant : Constant}
    (hget : pool.get? index = some constant) : larger.get? index = some constant := by
  unfold ConstantPool.get? at hget ⊢
  rw [← Array.getElem?_toList] at hget ⊢
  exact getElem?_of_isPrefix h hget

theorem find? {pool larger : ConstantPool} (h : pool.Extends larger) {constant : Constant} {place : Nat}
    (hfind : pool.find? constant = some place) : larger.find? constant = some place := by
  obtain ⟨more, hmore⟩ := h
  unfold ConstantPool.find? at hfind ⊢
  rw [← hmore, List.findIdx?_append, hfind]
  rfl

end Extends

variable {pool : ConstantPool} {constant : Constant}

theorem get?_of_find? {index : Nat} (h : pool.find? constant = some index) :
    pool.get? index = some constant := by
  unfold find? at h
  obtain ⟨hlt, hheld, -⟩ := List.findIdx?_eq_some_iff_getElem.mp h
  unfold ConstantPool.get?
  rw [← Array.getElem?_toList, List.getElem?_eq_getElem hlt]
  exact congrArg some (of_decide_eq_true hheld)

theorem lt_size_of_get? {index : Nat} (h : pool.get? index = some constant) : index < pool.size := by
  obtain ⟨hlt, -⟩ := Array.getElem?_eq_some_iff.mp h
  exact hlt

theorem add_of_find?_eq_some {index : Nat} (h : pool.find? constant = some index) :
    pool.add constant = (UInt32.ofNat index, pool) := by
  simp [add, h]

theorem add_of_find?_eq_none (h : pool.find? constant = none) :
    pool.add constant = (UInt32.ofNat pool.size, ⟨pool.constants.push constant⟩) := by
  simp [add, h]

theorem extends_add (pool : ConstantPool) (constant : Constant) : pool.Extends (pool.add constant).2 := by
  cases hfind : pool.find? constant with
  | some index =>
      rw [add_of_find?_eq_some hfind]
      exact .refl pool
  | none =>
      rw [add_of_find?_eq_none hfind]
      exact ⟨[constant], by simp⟩

/-- A constant that was added keeps its place, and adding it again changes nothing. -/
theorem add_of_extends {larger : ConstantPool} (h : (pool.add constant).2.Extends larger) :
    larger.add constant = ((pool.add constant).1, larger) := by
  cases hfind : pool.find? constant with
  | some place =>
      rw [add_of_find?_eq_some hfind] at h ⊢
      exact add_of_find?_eq_some (h.find? hfind)
  | none =>
      rw [add_of_find?_eq_none hfind] at h ⊢
      apply add_of_find?_eq_some
      apply h.find?
      unfold ConstantPool.find? at hfind ⊢
      rw [Array.toList_push, List.findIdx?_append, hfind]
      simp [List.findIdx?_cons, size]

/-- A pool that a constant was added to holds what it held before and that constant. -/
theorem mem_add {held : Constant} (h : held ∈ (pool.add constant).2.constants) :
    held ∈ pool.constants ∨ held = constant := by
  cases hfind : pool.find? constant with
  | some index =>
      rw [add_of_find?_eq_some hfind] at h
      exact .inl h
  | none =>
      rw [add_of_find?_eq_none hfind] at h
      exact Array.mem_push.mp h

/-- The place of an added constant lies inside the pool, also where it does not fit into a word. -/
theorem index_add_lt_size (pool : ConstantPool) (constant : Constant) :
    (pool.add constant).1.toNat < (pool.add constant).2.size := by
  have hwrap : ∀ n : Nat, (UInt32.ofNat n).toNat ≤ n := fun n => by
    rw [UInt32.toNat_ofNat']
    exact Nat.mod_le _ _
  cases hfind : pool.find? constant with
  | some index =>
      rw [add_of_find?_eq_some hfind]
      exact Nat.lt_of_le_of_lt (hwrap index) (lt_size_of_get? (get?_of_find? hfind))
  | none =>
      rw [add_of_find?_eq_none hfind]
      refine Nat.lt_of_le_of_lt (hwrap pool.size) ?_
      simp [size]

/-- A pool with no more constants than there are words, all of which documents can hold. -/
structure Sound (pool : ConstantPool) : Prop where
  size_le : pool.size ≤ 2 ^ 32
  encodable : ∀ constant ∈ pool.constants, constant.isEncodable

theorem sound_empty : empty.Sound :=
  ⟨by simp [empty, size], by simp [empty]⟩

/-- Where the pool has room for one more constant or holds this one already, the constant stands at the place that
adding it gives. -/
theorem get?_add (hsize : pool.size ≤ 2 ^ 32) (hroom : ¬ (pool.isFull && (pool.find? constant).isNone)) :
    (pool.add constant).2.get? (pool.add constant).1.toNat = some constant ∧
      (pool.add constant).2.size ≤ 2 ^ 32 := by
  cases hfind : pool.find? constant with
  | some index =>
      rw [add_of_find?_eq_some hfind]
      have hget := get?_of_find? hfind
      have hlt := lt_size_of_get? hget
      have hword : (UInt32.ofNat index).toNat = index := by
        rw [UInt32.toNat_ofNat']
        exact Nat.mod_eq_of_lt (by omega)
      exact ⟨by rw [hword]; exact hget, hsize⟩
  | none =>
      rw [add_of_find?_eq_none hfind]
      have hlt : pool.size < 2 ^ 32 := by
        simpa [isFull, hfind] using hroom
      have hword : (UInt32.ofNat pool.size).toNat = pool.size := by
        rw [UInt32.toNat_ofNat']
        exact Nat.mod_eq_of_lt hlt
      constructor
      · rw [hword]
        simp [get?, size]
      · simp only [size, Array.size_push] at hlt ⊢
        omega

theorem sound_add (h : pool.Sound) (hencodable : constant.isEncodable)
    (hroom : ¬ (pool.isFull && (pool.find? constant).isNone)) : (pool.add constant).2.Sound := by
  refine ⟨(get?_add h.size_le hroom).2, ?_⟩
  intro held hmem
  rcases mem_add hmem with hold | rfl
  · exact h.encodable held hold
  · exact hencodable

end ConstantPool
end ScriptBytecode
