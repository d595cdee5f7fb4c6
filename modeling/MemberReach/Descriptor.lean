import MemberReach.Text

/-!
# Type descriptors

A descriptor is the text with which a source file names a type: `List<Widget>?`, `int[]`,
`global::App.Person`. This module normalises descriptors, finds the element type of a
collection, and cuts a descriptor down to the name that could denote a declared type.
-/

namespace MemberReach.Descriptor

open Text

/-- The type names built into the language, which no declaration can take. -/
def predefined : List String :=
  ["bool", "byte", "sbyte", "char", "decimal", "double", "float", "int", "uint", "nint",
    "nuint", "long", "ulong", "short", "ushort", "object", "string", "void", "dynamic"]

/-- Whether a name is one of the built-in type names. -/
def isPredefined (name : String) : Bool :=
  predefined.contains name

/-- The words of a text with one space between each two. -/
def normalizeChars (raw : List Char) : List Char :=
  [' '].intercalate (words raw)

/-- Collapses runs of blanks, so that descriptors compare and print alike. -/
def normalize (raw : String) : String :=
  String.ofList (normalizeChars raw.toList)

/-- Whether a comma stands outside every pair of angle brackets, which are counted from `depth` in a
word of 32 bits. -/
def hasTopLevelComma : Int32 → List Char → Bool
  | _, [] => false
  | depth, '<' :: rest => hasTopLevelComma (depth + 1) rest
  | depth, '>' :: rest => hasTopLevelComma (depth - 1) rest
  | depth, ',' :: rest => depth == 0 || hasTopLevelComma depth rest
  | depth, _ :: rest => hasTopLevelComma depth rest

/-- The text between the first `<` and a closing `>` at the very end. -/
def typeArguments? (type : List Char) : Option (List Char) :=
  match type.dropWhile (· != '<') with
  | [] => none
  | _ :: inner => dropSuffix? ['>'] inner

/-- The element type written in `T[]` or in a generic type with one argument. -/
def elementChars? (descriptor : List Char) : Option (List Char) :=
  let type := dropEndWhile (· == '?') (trim descriptor)
  match dropSuffix? ['[', ']'] type with
  | some element => some (trim element)
  | none => do
      let inner := trim (← typeArguments? type)
      if hasTopLevelComma 0 inner || inner.isEmpty then none else some inner

/-- The element type of a collection descriptor, when it spells one out. -/
def elementType? (descriptor : String) : Option String :=
  (elementChars? descriptor.toList).map String.ofList

/-- The marker of a name that starts at the global namespace. -/
def globalMarker : List Char :=
  "global::".toList

/-- Drops surrounding blanks, global markers and nullable marks. -/
def bare (descriptor : List Char) : List Char :=
  dropEndWhile (· == '?') (dropMarkers globalMarker (trim descriptor))

/-- Cuts type arguments off a name. -/
def withoutArguments (name : List Char) : List Char :=
  if name.contains '<' then trim (name.takeWhile (· != '<')) else name

/-- The name by which a descriptor could denote a declared type. Arrays, pointers, tuples,
`var` and the built-in types have none. -/
def lookupName? (descriptor : String) : Option String :=
  let name := trim (bare descriptor.toList)
  if name.isEmpty || name.getLast? == some ']' || name.getLast? == some '*'
      || name.head? == some '(' then
    none
  else
    let found := String.ofList (withoutArguments name)
    if found == "var" || isPredefined found then none else some found

/-- The spellings of the property type that is tracked. -/
def targetNames : List String :=
  ["string", "String", "System.String"]

/-- Whether a descriptor names the property type that is tracked. -/
def isTarget (descriptor : String) : Bool :=
  targetNames.contains (String.ofList (bare descriptor.toList))

end MemberReach.Descriptor
