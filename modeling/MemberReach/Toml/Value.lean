import MemberReach.Text

/-!
# Values of a configuration document

A document is a table: names with values, in order. Tables come about in four ways: written
inline, opened by a header, implied by a longer header or by a dotted key, or as one of a list
of tables under one header. Which of these a table is decides what may still be added to it.
-/

namespace MemberReach.Toml

/-- A value. Floating-point numbers and dates carry nothing, since no setting reads one. A
`table` is `implied` until a header opens it, and `dotted` if a dotted key brought it about;
`tables` lists the tables of one header. -/
inductive Value where
  | text (value : String)
  | integer (value : Int)
  | float
  | boolean (value : Bool)
  | dateTime
  | array (items : List Value)
  | inline (entries : List (String × Value))
  | table (implied dotted : Bool) (entries : List (String × Value))
  | tables (elements : List (List (String × Value)))
  deriving Inhabited

/-- The names and values of a table. -/
abbrev Entries := List (String × Value)

namespace Entries

/-- Puts a value in the place of the one with its name, or at the end. -/
def set (entries : Entries) (name : String) (value : Value) : Entries :=
  if (entries.lookup name).isSome then
    entries.map fun entry ↦ if entry.1 == name then (name, value) else entry
  else entries ++ [(name, value)]

/-- Removes the value of a name. -/
def erase (entries : Entries) (name : String) : Entries :=
  entries.filter fun entry ↦ entry.1 != name

/-- Visits the table at the end of a path of names: `change` is told whether that table came about
by a dotted key, and gives a result and the new entries. Missing tables on the way are implied. A
path from a dotted key (`dotted`) may only pass through implied tables; of a list of tables, the
last one is entered. -/
def visit {α : Type} (dotted : Bool) (change : Bool → Entries → Option (α × Entries)) :
    List String → Bool → Entries → Option (α × Entries)
  | [], isDotted, entries => change isDotted entries
  | name :: rest, _, entries =>
      match entries.lookup name with
      | none => do
          let (a, inner) ← visit dotted change rest dotted []
          return (a, entries.set name (.table true dotted inner))
      | some (.table implied isDotted inner) =>
          if dotted && !implied then none
          else do
            let (a, inner) ← visit dotted change rest isDotted inner
            return (a, entries.set name (.table implied isDotted inner))
      | some (.tables elements) => do
          let (a, last) ← visit dotted change rest false (← elements.getLast?)
          return (a, entries.set name (.tables (elements.dropLast ++ [last])))
      | some _ => none

/-- Adds a value under a dotted key, which leads through `path` to `name`. A name is given a
value once, and only tables that dotted keys brought about take values from longer keys. -/
def insert (entries : Entries) (path : List String) (name : String) (value : Value) :
    Option Entries :=
  -- a key without dots may not reach a dotted table, and a longer one nothing else
  (visit true (fun isDotted inner ↦
    if isDotted == path.isEmpty || (inner.lookup name).isSome then none
    else some ((), inner ++ [(name, value)])) path false entries).map Prod.snd

end Entries

/-- A document while its lines are read: the tables that are complete, and the table that the
last header opened. `header` is the path of that header, its last name apart; `isElement` says
that the table is one of a list. -/
structure Draft where
  root : Entries
  current : Entries
  header : Option (List String × String)
  isElement : Bool
  deriving Inhabited

namespace Draft

/-- Before the first line. -/
def initial : Draft :=
  ⟨[], [], none, false⟩

/-- Adds a value to the open table. -/
def insert (draft : Draft) (path : List String) (name : String) (value : Value) :
    Option Draft := do
  return { draft with current := ← draft.current.insert path name value }

/-- Adds a closed table to the entries of its parent. -/
def place (isElement : Bool) (table : Entries) (name : String) (parent : Entries) :
    Option Entries :=
  match isElement, parent.lookup name with
  | true, none => some (parent ++ [(name, .tables [table])])
  | true, some (.tables elements) => some (parent.set name (.tables (elements ++ [table])))
  | false, none => some (parent ++ [(name, .table false false table)])
  | _, _ => none

/-- Closes the open table; the result is the tables that are complete. -/
def close (draft : Draft) : Option Entries :=
  match draft.header with
  | none => some draft.current
  | some (path, name) =>
      (draft.root.visit false (fun _ parent ↦
        (place draft.isElement draft.current name parent).map fun parent ↦ ((), parent))
        path false).map Prod.snd

/-- Takes a table that a header opens out of its parent. So far it may be missing or implied by
another header. -/
def lift (name : String) (parent : Entries) : Option (Entries × Entries) :=
  match parent.lookup name with
  | none => some ([], parent)
  | some (.table true false entries) => some (entries, parent.erase name)
  | some _ => none

/-- Opens the table of a header. -/
def openTable (draft : Draft) (path : List String) (name : String) : Option Draft := do
  let (current, root) ← (← draft.close).visit false (fun _ parent ↦ lift name parent) path false
  return ⟨root, current, some (path, name), false⟩

/-- Opens one more table of a list of tables. -/
def openElement (draft : Draft) (path : List String) (name : String) : Option Draft := do
  return ⟨← draft.close, [], some (path, name), true⟩

end Draft

end MemberReach.Toml
