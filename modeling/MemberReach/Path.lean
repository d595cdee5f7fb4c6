import MemberReach.Text

/-!
# Paths

A path is a text in which slashes separate pieces. Its components leave out empty pieces and
the piece `.`, except a `.` at the very front. Cutting a path keeps the text of what remains
as it was written, so `a//b/c` has the parent `a//b`.
-/

namespace MemberReach

/-- A path as written. -/
structure Path where
  text : String
  deriving DecidableEq, Repr, Inhabited

namespace Path

open Text

/-- One step of a path. -/
inductive Component where
  | root
  | here
  | up
  | name (name : String)
  deriving DecidableEq, Repr, Inhabited

/-- The texts between the slashes; at least one. -/
def segments (path : Path) : List String :=
  pieces '/' path.text

/-- Whether a path starts at the root. -/
def isAbsolute (path : Path) : Bool :=
  path.text.toList.head? == some '/'

/-- The component that a segment stands for, given its position. -/
def component? (segment : String) (index : Nat) : Option Component :=
  if segment == "" then none
  else if segment == "." then (if index == 0 then some .here else none)
  else if segment == ".." then some .up
  else some (.name segment)

/-- The components of a path with the positions of their segments. -/
def located (path : Path) : List (Component × Nat) :=
  (if path.isAbsolute then [(.root, 0)] else []) ++
    path.segments.zipIdx.filterMap fun (segment, index) ↦
      (component? segment index).map fun component ↦ (component, index)

/-- The components of a path. -/
def components (path : Path) : List Component :=
  path.located.map Prod.fst

/-- The text from the segment at `first` to the end of a located component. -/
def between (path : Path) (first : Nat) (last : Component × Nat) : Path :=
  if last.1 == .root then ⟨"/"⟩
  else ⟨Text.join "/" ((path.segments.take (last.2 + 1)).drop first)⟩

/-- The path without its last component; none for the root and for the empty path. -/
def parent? (path : Path) : Option Path :=
  match path.located.reverse with
  | [] => none
  | (.root, _) :: _ => none
  | [_] => some ⟨""⟩
  | _ :: last :: _ => some (path.between 0 last)

/-- The last component, if it is a name. -/
def fileName? (path : Path) : Option String :=
  match path.components.getLast? with
  | some (.name name) => some name
  | _ => none

/-- The parts of a file name before and after its last dot. A dot at the front divides nothing. -/
def splitAtDot (name : String) : String × Option String :=
  let reversed := name.toList.reverse
  let before := (reversed.dropWhile (· != '.')).tail.reverse
  if before.isEmpty then (name, none)
  else (String.ofList before, some (String.ofList (reversed.takeWhile (· != '.')).reverse))

/-- The file name without its extension. -/
def stem? (path : Path) : Option String :=
  path.fileName?.map fun name ↦ (splitAtDot name).1

/-- The part of the file name after its last dot. -/
def extension? (path : Path) : Option String :=
  path.fileName?.bind fun name ↦ (splitAtDot name).2

/-- The path reached from `path` by `next`; an absolute `next` starts again at the root. -/
def join (path next : Path) : Path :=
  if next.isAbsolute || path.text == "" then next
  else if path.text.toList.getLast? == some '/' then ⟨path.text ++ next.text⟩
  else ⟨path.text ++ "/" ++ next.text⟩

/-- What remains of a path after the components of `base`, if it starts with them. -/
def below? (path base : Path) : Option Path :=
  if base.components.isPrefixOf path.components then
    let rest := path.located.drop base.components.length
    match rest.head?, rest.getLast? with
    | some first, some last => some (path.between first.2 last)
    | _, _ => some ⟨""⟩
  else none

/-- The text of a path with every backslash turned into a slash. -/
def forwardSlashes (path : Path) : String :=
  String.ofList (path.text.toList.map fun c ↦ if c == '\\' then '/' else c)

/-- The absolute path through the given names. -/
def ofNames (names : List String) : Path :=
  ⟨"/" ++ Text.join "/" names⟩

end Path

end MemberReach
