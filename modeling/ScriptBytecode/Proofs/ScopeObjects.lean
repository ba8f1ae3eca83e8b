import ScriptBytecode.Proofs.ControlFlow

/-!
# Scope objects

What programs do with scope objects when they run. A scope object lies inside the object that its parent register held
when it was made, and it starts without names. A name that is written goes to the nearest object that holds it, from the
addressed object outwards; if there is none, the addressed object gets it. What a name stands for makes no difference
to where it is found, so the objects here keep names only.

`Mirrors` compares the objects in some registers with the names that are expected of them. It is used in two ways, with
at least the expected names and with at most the expected names; `Fit` stands for either.
-/

namespace ScriptBytecode

/-- A scope object: the number of the object around it, and its names. -/
structure ScopeObject where
  parent : Option Nat
  names : List String

/-- The scope objects that were made, the newest first, and the numbers of those that registers hold. The number of an
object is how many objects are older. -/
structure ScopeHeap where
  objects : List ScopeObject
  holds : Register → Option Nat

/-- The nearest object that holds a name, from a given one outwards. -/
def nearest? (name : String) : List ScopeObject → Nat → Option Nat
  | [], _ => none
  | object :: older, id =>
      if id = older.length then
        if name ∈ object.names then some id else object.parent.bind (nearest? name older)
      else nearest? name older id

/-- Gives an object one more name. -/
def addName (name : String) : List ScopeObject → Nat → List ScopeObject
  | [], _ => []
  | object :: older, id =>
      if id = older.length then { object with names := name :: object.names } :: older
      else object :: addName name older id

namespace ScopeHeap

def empty : ScopeHeap := ⟨[], fun _ => none⟩

/-- Whether the walk from an object outwards finds a name. -/
def finds (heap : ScopeHeap) (id : Nat) (name : String) : Bool :=
  (nearest? name heap.objects id).isSome

/-- Makes an object inside another one, or inside none. -/
def make (heap : ScopeHeap) (dst : Register) (parent : Option Nat) : ScopeHeap where
  objects := ⟨parent, []⟩ :: heap.objects
  holds register := if register = dst then some heap.objects.length else heap.holds register

/-- Writes a name from an object outwards. -/
def setName (heap : ScopeHeap) (id : Nat) (name : String) : ScopeHeap :=
  if heap.finds id name then heap else { heap with objects := addName name heap.objects id }

/-- A register that gets another value holds no object any more. -/
def forget (heap : ScopeHeap) (dst : Option Register) : ScopeHeap :=
  { heap with holds := fun register => if dst = some register then none else heap.holds register }

end ScopeHeap

/-- The string at a place of the pool. -/
def ConstantPool.name? (pool : ConstantPool) (index : ConstantIndex) : Option String :=
  match pool.get? index.index.toNat with
  | some (.string text) => some text
  | _ => none

namespace ScopeHeap

/-- What a plain instruction does to scope objects. -/
def execute (pool : ConstantPool) : PlainInstruction → ScopeHeap → ScopeHeap
  | .newScope dst parent, heap => heap.make dst (parent.bind heap.holds)
  | .scopeSet scope name _, heap =>
      match heap.holds scope, pool.name? name with
      | some id, some text => heap.setName id text
      | _, _ => heap
  | instruction, heap => heap.forget instruction.dst?

/-- The machine that keeps track of scope objects. Tests come out either way. -/
def machine (pool : ConstantPool) : Machine ScopeHeap where
  effect := execute pool
  outcome _ _ _ := True

/-- The walk from the object in a register outwards finds the name at a place of the pool. -/
def Finds (heap : ScopeHeap) (pool : ConstantPool) (scope : Register) (name : ConstantIndex) : Prop :=
  ∃ id text, heap.holds scope = some id ∧ pool.name? name = some text ∧ heap.finds id text = true

end ScopeHeap

/-! ## Finding names -/

theorem length_addName (name : String) (objects : List ScopeObject) (id : Nat) :
    (addName name objects id).length = objects.length := by
  induction objects with
  | nil => rfl
  | cons object older ih =>
      unfold addName
      split
      · rfl
      · simp [ih]

theorem addName_of_le {name : String} {objects : List ScopeObject} {id : Nat} (h : objects.length ≤ id) :
    addName name objects id = objects := by
  induction objects with
  | nil => rfl
  | cons object older ih =>
      rw [List.length_cons] at h
      unfold addName
      rw [if_neg (by omega), ih (by omega)]

/-- A name more in one object makes no difference to a walk that starts at an older object. -/
theorem nearest?_addName_of_lt {name other : String} {objects : List ScopeObject} {id start : Nat} (h : start < id) :
    nearest? other (addName name objects id) start = nearest? other objects start := by
  induction objects with
  | nil => rfl
  | cons object older ih =>
      rcases Nat.lt_trichotomy id older.length with hlt | heq | hgt
      · -- Both the object and the start are older than the newest object.
        unfold addName nearest?
        rw [if_neg (Nat.ne_of_lt hlt)]
        simp only [length_addName]
        rw [if_neg (by omega), if_neg (by omega)]
        exact ih
      · -- The newest object gets the name, and the walk starts behind it.
        unfold addName nearest?
        rw [if_pos heq]
        simp only
        rw [if_neg (by omega), if_neg (by omega)]
      · rw [addName_of_le (by rw [List.length_cons]; omega)]

theorem isSome_nearest?_addName_self {name other : String} {objects : List ScopeObject} {id : Nat}
    (h : id < objects.length) :
    (nearest? other (addName name objects id) id).isSome = ((nearest? other objects id).isSome || other == name) := by
  induction objects with
  | nil => exact absurd h (Nat.not_lt_zero id)
  | cons object older ih =>
      rw [List.length_cons] at h
      by_cases hid : id = older.length
      · unfold addName nearest?
        rw [if_pos hid]
        simp only
        rw [if_pos hid, if_pos hid]
        by_cases hmem : other ∈ object.names
        · simp [hmem]
        · by_cases hname : other = name <;> simp [hmem, hname]
      · unfold addName nearest?
        rw [if_neg hid]
        simp only [length_addName]
        rw [if_neg hid, if_neg hid]
        exact ih (by omega)

namespace ScopeHeap

theorem finds_make_of_lt {heap : ScopeHeap} {dst : Register} {parent : Option Nat} {id : Nat}
    (h : id < heap.objects.length) : (heap.make dst parent).finds id = heap.finds id := by
  funext name
  show (nearest? name (⟨parent, []⟩ :: heap.objects) id).isSome = (nearest? name heap.objects id).isSome
  rw [nearest?, if_neg (Nat.ne_of_lt h)]

/-- A new object shows the names of the object around it. -/
theorem finds_make_self {heap : ScopeHeap} {dst : Register} {id : Nat} :
    (heap.make dst (some id)).finds heap.objects.length = heap.finds id := by
  funext name
  unfold finds make
  simp [nearest?]

theorem finds_setName_of_lt {heap : ScopeHeap} {id start : Nat} {name : String} (h : start < id) :
    (heap.setName id name).finds start = heap.finds start := by
  funext other
  unfold setName
  split
  · rfl
  · unfold finds
    rw [nearest?_addName_of_lt h]

theorem finds_setName_self {heap : ScopeHeap} {id : Nat} {name : String} (h : id < heap.objects.length) :
    (heap.setName id name).finds id = fun other => heap.finds id other || other == name := by
  funext other
  unfold setName
  split
  · -- Nothing was written, because the name is found already.
    rename_i hfound
    by_cases hname : other = name
    · simp [hname, hfound]
    · simp [hname]
  · unfold finds
    exact isSome_nearest?_addName_self h

@[simp] theorem holds_setName (heap : ScopeHeap) (id : Nat) (name : String) :
    (heap.setName id name).holds = heap.holds := by
  unfold setName
  split <;> rfl

@[simp] theorem length_objects_setName (heap : ScopeHeap) (id : Nat) (name : String) :
    (heap.setName id name).objects.length = heap.objects.length := by
  unfold setName
  split
  · rfl
  · exact length_addName name heap.objects id

end ScopeHeap

/-! ## Mirrored scopes -/

/-- A way in which the names that are found suit the names that are expected, and that is kept when a name is written:
one that becomes expected, or one that is. -/
structure Fit where
  Suits : (String → Bool) → List String → Prop
  declare : ∀ {found : String → Bool} {expected : List String} (name : String), Suits found expected →
    Suits (fun other => found other || other == name) (name :: expected)
  assign : ∀ {found : String → Bool} {expected : List String} {name : String}, name ∈ expected →
    Suits found expected → Suits (fun other => found other || other == name) expected

namespace Fit

/-- All expected names are found. -/
def atLeast : Fit where
  Suits found expected := ∀ name ∈ expected, found name = true
  declare := by
    intro found expected name hall other hmem
    rcases List.mem_cons.mp hmem with rfl | hold
    · simp
    · simp [hall other hold]
  assign := by
    intro found expected name _ hall other hmem
    simp [hall other hmem]

/-- Only expected names are found. -/
def atMost : Fit where
  Suits found expected := ∀ name, found name = true → name ∈ expected
  declare := by
    intro found expected name hall other hfound
    rcases Bool.or_eq_true_iff.mp hfound with hold | hnew
    · exact List.mem_cons_of_mem name (hall other hold)
    · rw [beq_iff_eq.mp hnew]
      exact List.mem_cons_self
  assign := by
    intro found expected name hname hall other hfound
    rcases Bool.or_eq_true_iff.mp hfound with hold | hnew
    · exact hall other hold
    · rw [beq_iff_eq.mp hnew]
      exact hname

end Fit

/-- A register that should hold a scope object, and the names that are expected of it. -/
abbrev Frame := Register × List String

namespace ScopeHeap

/-- The registers of some frames hold objects that suit them, each older than the one before. -/
def Shows (fit : Fit) (heap : ScopeHeap) : Nat → List Frame → Prop
  | _, [] => True
  | bound, frame :: frames =>
      ∃ id < bound, heap.holds frame.1 = some id ∧ fit.Suits (heap.finds id) frame.2 ∧ Shows fit heap id frames

/-- The scope objects mirror the open scopes, given from the inside out. -/
def Mirrors (fit : Fit) (heap : ScopeHeap) (frames : List Frame) : Prop :=
  Shows fit heap heap.objects.length frames

variable {fit : Fit} {heap other : ScopeHeap} {frames outer : List Frame} {scope : Register} {held : List String}

theorem Shows.mono {bound larger : Nat} (h : Shows fit heap bound frames) (hle : bound ≤ larger) :
    Shows fit heap larger frames := by
  cases frames with
  | nil => trivial
  | cons frame frames =>
      obtain ⟨id, hlt, hrest⟩ := h
      exact ⟨id, Nat.lt_of_lt_of_le hlt hle, hrest⟩

theorem Shows.congr {bound : Nat} (h : Shows fit heap bound frames)
    (hholds : ∀ frame ∈ frames, other.holds frame.1 = heap.holds frame.1)
    (hfinds : ∀ id < bound, other.finds id = heap.finds id) : Shows fit other bound frames := by
  induction frames generalizing bound with
  | nil => trivial
  | cons frame frames ih =>
      obtain ⟨id, hlt, hheld, hsuits, hrest⟩ := h
      refine ⟨id, hlt, (hholds frame List.mem_cons_self).trans hheld, hfinds id hlt ▸ hsuits, ih hrest ?_ ?_⟩
      · exact fun frame hmem => hholds frame (List.mem_cons_of_mem _ hmem)
      · exact fun smaller hsmaller => hfinds smaller (Nat.lt_trans hsmaller hlt)

theorem Mirrors.tail {frame : Frame} (h : heap.Mirrors fit (frame :: frames)) : heap.Mirrors fit frames := by
  obtain ⟨id, hlt, -, -, hrest⟩ := h
  exact hrest.mono (Nat.le_of_lt hlt)

theorem Mirrors.drop (h : heap.Mirrors fit frames) (hsuffix : outer <:+ frames) : heap.Mirrors fit outer := by
  obtain ⟨inner, rfl⟩ := hsuffix
  induction inner with
  | nil => exact h
  | cons frame inner ih => exact ih h.tail

/-- Fewer names may be expected to be found. -/
theorem Mirrors.expectLess {fewer : List String} (h : heap.Mirrors .atLeast ((scope, held) :: outer))
    (hsub : ∀ name ∈ fewer, name ∈ held) : heap.Mirrors .atLeast ((scope, fewer) :: outer) := by
  obtain ⟨id, hlt, hheld, hsuits, hrest⟩ := h
  exact ⟨id, hlt, hheld, fun name hmem => hsuits name (hsub name hmem), hrest⟩

theorem mirrors_forget {dst : Option Register} (h : heap.Mirrors fit frames)
    (hfresh : ∀ frame ∈ frames, dst ≠ some frame.1) : (heap.forget dst).Mirrors fit frames := by
  refine Shows.congr h ?_ fun _ _ => rfl
  intro frame hmem
  exact if_neg (hfresh frame hmem)

/-- An object that is made inside the innermost one shows the same names. -/
theorem mirrors_make {inner : Register} (h : heap.Mirrors fit ((scope, held) :: outer))
    (hfresh : ∀ frame ∈ (scope, held) :: outer, frame.1 ≠ inner) :
    (heap.make inner (heap.holds scope)).Mirrors fit ((inner, held) :: (scope, held) :: outer) := by
  have hinnermost := h
  obtain ⟨id, hlt, hheld, hsuits, -⟩ := hinnermost
  -- The older objects and the registers that hold them are as they were.
  have hbelow : Shows fit (heap.make inner (heap.holds scope)) heap.objects.length ((scope, held) :: outer) := by
    refine Shows.congr h ?_ fun _ hsmaller => finds_make_of_lt hsmaller
    intro frame hmem
    exact if_neg (hfresh frame hmem)
  refine ⟨heap.objects.length, Nat.lt_succ_self _, if_pos rfl, ?_, hbelow⟩
  rw [hheld, finds_make_self]
  exact hsuits

/-- Where a name is written from the innermost object outwards, it is found there afterwards and the objects around show
what they showed. -/
theorem mirrors_setName {expected : List String} {name : String} (h : heap.Mirrors fit ((scope, held) :: outer))
    (hsuits : ∀ found, fit.Suits found held → fit.Suits (fun other => found other || other == name) expected) :
    ∃ id, heap.holds scope = some id ∧ (heap.setName id name).Mirrors fit ((scope, expected) :: outer) := by
  obtain ⟨id, hlt, hheld, hfound, hrest⟩ := h
  refine ⟨id, hheld, id, ?_, ?_, ?_, ?_⟩
  · rw [length_objects_setName]
    exact hlt
  · rw [holds_setName]
    exact hheld
  · rw [finds_setName_self hlt]
    exact hsuits _ hfound
  · refine hrest.congr ?_ fun _ hsmaller => finds_setName_of_lt hsmaller
    intro frame _
    rw [holds_setName]

end ScopeHeap
end ScriptBytecode
