import ScriptBytecode.Operand

/-!
# Labels

A label names a place in the code that may not exist yet. Its table gives each label the place that it was bound to
last, if it was bound at all. Labels are numbered in the order of their creation.
-/

namespace ScriptBytecode

/-- A place in the code under construction. -/
structure Label where
  id : UInt32
deriving DecidableEq

/-- The places of the labels that have been created. -/
structure LabelTable where
  slots : Array (Option UInt32)

namespace LabelTable

def empty : LabelTable := ⟨#[]⟩

def size (table : LabelTable) : Nat :=
  table.slots.size

/-- A new label without a place. -/
def create (table : LabelTable) : Label × LabelTable :=
  (⟨UInt32.ofNat table.size⟩, ⟨table.slots.push none⟩)

/-- Gives a label a place, in front of any place that it had before. -/
def bind (table : LabelTable) (label : Label) (pc : UInt32) : LabelTable :=
  ⟨table.slots.setIfInBounds label.id.toNat (some pc)⟩

/-- A new label that has a place. -/
def createAt (table : LabelTable) (pc : UInt32) : Label × LabelTable :=
  let (label, table) := table.create
  (label, table.bind label pc)

/-- The place of a label, if it was created and bound. -/
def target? (table : LabelTable) (label : Label) : Option JumpTarget :=
  match table.slots[label.id.toNat]? with
  | some (some pc) => some ⟨pc⟩
  | _ => none

def isBound (table : LabelTable) (label : Label) : Bool :=
  (table.target? label).isSome

end LabelTable
end ScriptBytecode
