import MemberReach.Text

/-!
# JSON text

The values that reports are made of, and their text: compact, or indented by two spaces a
level. Strings escape quotation marks, backslashes and control characters; every other
character stands for itself.
-/

namespace MemberReach

/-- A text, a list, or an object whose members keep their order. -/
inductive Json where
  | text (value : String)
  | list (items : List Json)
  | object (members : List (String × Json))
  deriving Inhabited

namespace Json

/-- The digits of a control character, four of them. -/
def hexDigits (c : Char) : List Char :=
  let digits := Nat.toDigits 16 c.toNat
  List.replicate (4 - digits.length) '0' ++ digits

/-- A character as it is written inside a string. -/
def escape (c : Char) : List Char :=
  if c = '"' then ['\\', '"']
  else if c = '\\' then ['\\', '\\']
  else if c = '\x08' then ['\\', 'b']
  else if c = '\x0c' then ['\\', 'f']
  else if c = '\n' then ['\\', 'n']
  else if c = '\r' then ['\\', 'r']
  else if c = '\t' then ['\\', 't']
  else if c.toNat < 32 then '\\' :: 'u' :: hexDigits c
  else [c]

/-- A string in quotation marks. -/
def quote (s : String) : List Char :=
  '"' :: s.toList.flatMap escape ++ ['"']

/-- The texts of the items with commas between them. -/
def separated (separator : List Char) (items : List (List Char)) : List Char :=
  separator.intercalate items

mutual

/-- The text of a value without blanks. -/
def compact : Json → List Char
  | .text value => quote value
  | .list items => '[' :: separated [','] (compactItems items) ++ [']']
  | .object members => '\x7b' :: separated [','] (compactMembers members) ++ ['\x7d']

/-- The texts of some values. -/
def compactItems : List Json → List (List Char)
  | [] => []
  | item :: rest => item.compact :: compactItems rest

/-- The texts of some members. -/
def compactMembers : List (String × Json) → List (List Char)
  | [] => []
  | (name, value) :: rest => (quote name ++ ':' :: value.compact) :: compactMembers rest

end

/-- A line break and the indentation of a level. -/
def newLine (level : Nat) : List Char :=
  '\n' :: List.replicate (2 * level) ' '

/-- Lines between two brackets, one for each item; no lines at all for no items. -/
def bracketed (level : Nat) (opening closing : Char) (items : List (List Char)) : List Char :=
  if items.isEmpty then [opening, closing]
  else
    opening :: newLine (level + 1) ++ separated (',' :: newLine (level + 1)) items ++
      newLine level ++ [closing]

mutual

/-- The text of a value, one item to a line, indented from a level. -/
def pretty (level : Nat) : Json → List Char
  | .text value => quote value
  | .list items => bracketed level '[' ']' (prettyItems (level + 1) items)
  | .object members => bracketed level '\x7b' '\x7d' (prettyMembers (level + 1) members)

/-- The texts of some values at a level. -/
def prettyItems (level : Nat) : List Json → List (List Char)
  | [] => []
  | item :: rest => item.pretty level :: prettyItems level rest

/-- The texts of some members at a level. -/
def prettyMembers (level : Nat) : List (String × Json) → List (List Char)
  | [] => []
  | (name, value) :: rest =>
      (quote name ++ ':' :: ' ' :: value.pretty level) :: prettyMembers level rest

end

/-- The text of a value, indented or compact. -/
def render (indented : Bool) (value : Json) : String :=
  String.ofList (if indented then value.pretty 0 else value.compact)

end Json

end MemberReach
