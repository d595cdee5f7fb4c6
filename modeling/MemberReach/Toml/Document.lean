import MemberReach.Toml.Lexeme
import MemberReach.Toml.Value

/-!
# Reading a configuration document

A document is a sequence of lines: comments, headers that open a table, and names with their
values. `document?` reads a whole text or nothing; a name or a table that is given twice makes
the text unreadable.
-/

namespace MemberReach.Toml

/-- The items of an array, after its opening bracket. Line ends and comments may stand around
items, and a comma after the last. -/
def arrayItems (item : Reader Value) : Nat → Reader (List Value)
  | 0, _ => none
  | fuel + 1, s =>
      match skipLines (s.length + 1) s with
      | ']' :: rest => some ([], rest)
      | s => do
          let (value, rest) ← item s
          match skipLines (rest.length + 1) rest with
          | ']' :: rest => some ([value], rest)
          | ',' :: rest => do
              let (values, rest) ← arrayItems item fuel rest
              return (value :: values, rest)
          | _ => none

/-- The entries of an inline table from its first name on, up to its closing brace. -/
def inlineEntries (item : Reader Value) : Nat → Entries → Reader Entries
  | 0, _, _ => none
  | fuel + 1, entries, s => do
      let ((path, name), rest) ← key s
      let (value, rest) ← item (skipSpaces (← char? '=' rest))
      let entries ← entries.insert path name value
      match skipSpaces rest with
      | '\x7d' :: rest => some (entries, rest)
      | ',' :: rest => inlineEntries item fuel entries rest
      | _ => none

/-- An inline table, after its opening brace. -/
def inlineTable (item : Reader Value) : Reader Value := fun s ↦
  match skipSpaces s with
  | '\x7d' :: rest => some (.inline [], rest)
  | s => (inlineEntries item (s.length + 1) [] s).map fun (entries, rest) ↦
      (.inline entries, rest)

/-- A value that is neither a string nor a collection. -/
def plainValue : Reader Value := fun s ↦
  match word? "true" s, word? "false" s, dateTime? s, float? s with
  | some rest, _, _, _ => some (.boolean true, rest)
  | _, some rest, _, _ => some (.boolean false, rest)
  | _, _, some rest, _ => some (.dateTime, rest)
  | _, _, _, some rest => some (.float, rest)
  | _, _, _, _ => (integer s).map fun (n, rest) ↦ (.integer n, rest)

/-- A value that nests at most `depth` collections. -/
def value : Nat → Reader Value
  | _, '"' :: s => (stringLexeme ('"' :: s)).map fun (text, rest) ↦ (.text text, rest)
  | _, '\'' :: s => (stringLexeme ('\'' :: s)).map fun (text, rest) ↦ (.text text, rest)
  | depth + 1, '[' :: s =>
      (arrayItems (value depth) (s.length + 1) s).map fun (items, rest) ↦ (.array items, rest)
  | depth + 1, '\x7b' :: s => inlineTable (value depth) s
  | _, s => plainValue s

/-- The draft after a name with its value. -/
def assignment (draft : Draft) (s : List Char) : Option (Draft × List Char) := do
  let ((path, name), rest) ← key s
  let (value, rest) ← value (nestingLimit - 1) (skipSpaces (← char? '=' rest))
  return (← draft.insert path name value, ← endOfLine? rest)

/-- The draft after the header of one of a list of tables, from the second bracket on. -/
def elementHeader (draft : Draft) (s : List Char) : Option (Draft × List Char) := do
  let ((path, name), rest) ← key s
  let rest ← endOfLine? (← char? ']' (← char? ']' rest))
  return (← draft.openElement path name, rest)

/-- The draft after the header of a table, from its bracket on. -/
def tableHeader (draft : Draft) (s : List Char) : Option (Draft × List Char) := do
  let ((path, name), rest) ← key s
  let rest ← endOfLine? (← char? ']' rest)
  return (← draft.openTable path name, rest)

/-- The draft after one line. -/
def line (draft : Draft) (s : List Char) : Option (Draft × List Char) :=
  match endOfLine? s with
  | some rest => some (draft, rest)
  | none =>
      match skipSpaces s with
      | '[' :: '[' :: rest => elementHeader draft rest
      | '[' :: rest => tableHeader draft rest
      | s => assignment draft s

/-- The draft after all lines, of which there are fewer than `fuel`. -/
def lines : Nat → Draft → List Char → Option Draft
  | 0, _, _ => none
  | _ + 1, draft, [] => some draft
  | fuel + 1, draft, s => do
      let (draft, rest) ← line draft s
      lines fuel draft rest

/-- The entries of a document. A byte order mark may stand at its front. -/
def document? (text : String) : Option Entries := do
  let s :=
    match text.toList with
    | '\uFEFF' :: rest => rest
    | s => s
  let draft ← lines (s.length + 1) .initial s
  draft.close

end MemberReach.Toml
