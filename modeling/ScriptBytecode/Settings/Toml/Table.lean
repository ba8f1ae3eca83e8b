import ScriptBytecode.Settings.Toml.Scan

/-!
# Tables of a settings file

The lines of a settings file are put together to a tree of tables. A key or a table that is defined twice is refused,
and what may be added to a table later depends on how the table came to be.
-/

namespace ScriptBytecode.Toml

/-- How a table came to be. -/
inductive TableOrigin where
  /-- By a line with its name. -/
  | header
  /-- By a line that names a table inside it. -/
  | implied
  /-- By a dotted key. -/
  | dotted
  /-- As an inline table, to which nothing can be added. -/
  | inline
deriving DecidableEq

/-- A value in the tree of tables. -/
inductive Tree where
  | scalar (value : Scalar)
  | array (items : List Tree)
  | table (origin : TableOrigin) (entries : List (String × Tree))
  /-- The tables of an array of tables; names lead into the last one. -/
  | tables (before : List (List (String × Tree))) (last : List (String × Tree))

abbrev Entries := List (String × Tree)

/-- Gives an entry another value. -/
def replaceEntry (key : String) (value : Tree) : Entries → Entries
  | [] => []
  | (other, held) :: entries =>
      if other = key then (key, value) :: entries else (other, held) :: replaceEntry key value entries

/-- Changes the table that a path leads to, and makes the tables on the way that do not exist. A dotted key may not
lead into a table that has a line of its own, and nothing leads into an inline table. -/
def changeAt (isDotted : Bool) (change : TableOrigin → Entries → Option Entries) :
    TableOrigin → Key → Entries → Option Entries
  | origin, [], entries => change origin entries
  | _, key :: path, entries =>
      match entries.lookup key with
      | none => do
          let origin := if isDotted then TableOrigin.dotted else .implied
          let made ← changeAt isDotted change origin path []
          return entries ++ [(key, .table origin made)]
      | some (.table origin inner) =>
          if origin = .inline ∨ (isDotted ∧ origin = .header) then none
          else do
            let changed ← changeAt isDotted change origin path inner
            return replaceEntry key (.table origin changed) entries
      | some (.tables before last) => do
          let changed ← changeAt isDotted change .header path last
          return replaceEntry key (.tables before changed) entries
      | some _ => none

/-- Adds an entry to a table. A dotted key must end in a table of dotted keys. -/
def addEntry (key : Key) (value : Tree) (entries : Entries) : Option Entries :=
  match key.getLast? with
  | none => none
  | some name =>
      let path := key.dropLast
      let add (origin : TableOrigin) (entries : Entries) : Option Entries :=
        if (entries.lookup name).isSome ∨ (path ≠ [] ∧ origin ≠ .dotted) then none
        else some (entries ++ [(name, value)])
      changeAt true add .header path entries

mutual

/-- The tree of a value. -/
def Literal.toTree? : Literal → Option Tree
  | .scalar value => some (.scalar value)
  | .array items => (itemsToTree? items).map .array
  | .inlineTable entries => (entriesToTree? [] entries).map (.table .inline)

def itemsToTree? : List Literal → Option (List Tree)
  | [] => some []
  | item :: items => do
      let first ← item.toTree?
      let rest ← itemsToTree? items
      return first :: rest

/-- Adds the entries of an inline table to those before them. -/
def entriesToTree? (before : Entries) : List (Key × Literal) → Option Entries
  | [] => some before
  | (key, value) :: entries => do
      let tree ← value.toTree?
      let added ← addEntry key tree before
      entriesToTree? added entries

end

/-- Defines the table of a line with its name. Only a table that other lines implied may exist already. -/
def defineTable (key : Key) (root : Entries) : Option Entries :=
  match key.getLast? with
  | none => none
  | some name =>
      let define (_ : TableOrigin) (entries : Entries) : Option Entries :=
        match entries.lookup name with
        | none => some (entries ++ [(name, .table .header [])])
        | some (.table .implied inner) => some (replaceEntry name (.table .header inner) entries)
        | some _ => none
      changeAt false define .header key.dropLast root

/-- Adds a table to an array of tables. -/
def defineTableItem (key : Key) (root : Entries) : Option Entries :=
  match key.getLast? with
  | none => none
  | some name =>
      let define (_ : TableOrigin) (entries : Entries) : Option Entries :=
        match entries.lookup name with
        | none => some (entries ++ [(name, .tables [] [])])
        | some (.tables before last) => some (replaceEntry name (.tables (before ++ [last]) []) entries)
        | some _ => none
      changeAt false define .header key.dropLast root

/-- Puts the lines together, where `tableKey` leads to the table that entries go to. -/
def assemble (tableKey : Key) (root : Entries) : List Line → Option Entries
  | [] => some root
  | .table key :: lines => do
      let root ← defineTable key root
      assemble key root lines
  | .tableItem key :: lines => do
      let root ← defineTableItem key root
      assemble key root lines
  | .entry key value :: lines => do
      let tree ← value.toTree?
      let root ← changeAt false (fun _ entries => addEntry key tree entries) .header tableKey root
      assemble tableKey root lines

mutual

/-- Whether all numbers of a value are in range. -/
def Tree.isInRange : Tree → Bool
  | .scalar value => value != .number false
  | .array items => areItemsInRange items
  | .table _ entries => areEntriesInRange entries
  | .tables before last => areTablesInRange before && areEntriesInRange last

def areItemsInRange : List Tree → Bool
  | [] => true
  | item :: items => item.isInRange && areItemsInRange items

/-- Whether all numbers of a table are in range. -/
def areEntriesInRange : List (String × Tree) → Bool
  | [] => true
  | (_, value) :: entries => value.isInRange && areEntriesInRange entries

def areTablesInRange : List (List (String × Tree)) → Bool
  | [] => true
  | table :: tables => areEntriesInRange table && areTablesInRange tables

end

/-- The tables of a text. A mark of the byte order may stand in front of it. -/
def parse (text : String) : Option Entries := do
  let chars :=
    match text.toList with
    | '\uFEFF' :: rest => rest
    | chars => chars
  let lines ← scanLines (chars.length + 1) chars
  assemble [] [] lines

end ScriptBytecode.Toml
