import MemberReach.Error

/-!
# File systems as values

A file system is a tree of directories and files together with a working directory. Paths are
resolved name by name from the root or from the working directory; there are no links, so the
resolved place of a path is the list of names that leads to it. Names and paths are limited in
length, and no name holds the character NUL.
-/

namespace MemberReach

/-- A file with its bytes, or a directory with its entries. -/
inductive FileTree where
  | file (content : ByteArray)
  | directory (entries : List (String × FileTree))
  deriving Inhabited

namespace FileTree

/-- Whether the tree is a directory. -/
def isDirectory : FileTree → Bool
  | directory _ => true
  | file _ => false

/-- The entries of a directory; a file has none. -/
def entries : FileTree → List (String × FileTree)
  | directory entries => entries
  | file _ => []

/-- What stands at the end of a list of names. -/
def at? (tree : FileTree) : List String → Option FileTree
  | [] => some tree
  | name :: rest =>
      match tree.entries.lookup name with
      | none => none
      | some inner => inner.at? rest

/-- The bytes of the file at the end of a list of names. -/
def bytesAt? (tree : FileTree) (names : List String) : Option ByteArray :=
  match tree.at? names with
  | some (file content) => some content
  | _ => none

/-- Gives a name another entry, or removes it. -/
def setEntry (entries : List (String × FileTree)) (name : String) :
    Option FileTree → List (String × FileTree)
  | none => entries.filter fun entry ↦ entry.1 != name
  | some tree =>
      if (entries.lookup name).isSome then
        entries.map fun entry ↦ if entry.1 == name then (name, tree) else entry
      else entries ++ [(name, tree)]

/-- Puts a tree at the end of a list of names, or removes what is there. Missing directories on
the way are made. -/
def update (tree : FileTree) (content : Option FileTree) : List String → FileTree
  | [] => content.getD tree
  | [name] => .directory (setEntry tree.entries name content)
  | name :: rest =>
      let inner := (tree.entries.lookup name).getD (.directory [])
      .directory (setEntry tree.entries name (some (inner.update content rest)))

mutual

/-- The files of a tree, each with the names that lead to it after `above`. -/
def files (above : List String) : FileTree → List (List String × ByteArray)
  | .file content => [(above, content)]
  | .directory entries => filesOf above entries

/-- The files below some entries of a directory. -/
def filesOf (above : List String) : List (String × FileTree) → List (List String × ByteArray)
  | [] => []
  | (name, tree) :: rest => tree.files (above ++ [name]) ++ filesOf above rest

end

end FileTree

/-- The root directory, and the names that lead to the working directory. -/
structure FileSystem where
  root : FileTree
  working : List String
  deriving Inhabited

namespace FileSystem

/-- The most bytes of a name. -/
def maxNameSize : Nat :=
  255

/-- The most bytes of a path that is used as a whole. -/
def maxPathSize : Nat :=
  4095

/-- Follows one segment of a path from a directory. -/
def step (fs : FileSystem) (names : List String) (segment : String) :
    Except FileError (List String) :=
  match fs.root.at? names with
  | none => .error .notFound
  | some tree =>
      if !tree.isDirectory then .error .notDirectory
      else if segment == "" || segment == "." then .ok names
      else if segment == ".." then .ok names.dropLast
      else if maxNameSize < segment.utf8ByteSize then .error .nameTooLong
      else if (tree.entries.lookup segment).isSome then .ok (names ++ [segment])
      else .error .notFound

/-- Follows some segments of a path from where the path starts. -/
def follow (fs : FileSystem) (path : Path) (segments : List String) :
    Except FileError (List String) :=
  segments.foldlM fs.step (if path.isAbsolute then [] else fs.working)

/-- Refuses a path that leads nowhere whatever files there are. -/
def checkText (path : Path) : Except FileError Unit :=
  if path.text.toList.contains '\x00' then .error .nulInName
  else if path.text == "" then .error .notFound
  else .ok ()

/-- Refuses a path that is too long to be used as a whole. -/
def checkSize (path : Path) : Except FileError Unit :=
  if maxPathSize < path.text.utf8ByteSize then .error .nameTooLong else .ok ()

/-- The place of a path: the names that lead to it from the root. A path is located name by name,
so it may be of any length. -/
def locate (fs : FileSystem) (path : Path) : Except FileError (List String) := do
  checkText path
  fs.follow path path.segments

/-- The place of a path that is used as a whole. -/
def resolve (fs : FileSystem) (path : Path) : Except FileError (List String) := do
  checkText path
  checkSize path
  fs.follow path path.segments

/-- Whether something stands at a path. -/
def exists? (fs : FileSystem) (path : Path) : Bool :=
  (fs.resolve path).toOption.isSome

/-- The bytes of the file at a path. -/
def readBytes (fs : FileSystem) (path : Path) : Except FileError ByteArray := do
  let names ← fs.resolve path
  match fs.root.at? names with
  | some (.file content) => .ok content
  | some (.directory _) => .error .isDirectory
  | none => .error .notFound

/-- The text of the file at a path. -/
def readText (fs : FileSystem) (path : Path) : Except FileError String := do
  match String.fromUTF8? (← fs.readBytes path) with
  | some text => .ok text
  | none => .error .notText

/-- Whether a path leads to a file. -/
def isFile (fs : FileSystem) (path : Path) : Bool :=
  (fs.readBytes path).toOption.isSome

/-- The place where a file is written at a path: that of the file that the path leads to, or a new
one in the directory of the path. A path that leads to a directory has none. -/
def placeToWrite (fs : FileSystem) (path : Path) : Except FileError (List String) := do
  checkText path
  checkSize path
  let parent ← fs.follow path path.segments.dropLast
  let name ← (path.segments.getLast?.map .ok).getD (.error .notFound)
  match fs.step parent name with
  | .error .notFound => return parent ++ [name]
  | .error error => .error error
  | .ok names => if (fs.root.bytesAt? names).isSome then return names else .error .isDirectory

/-- Writes a file, and gives the file system after that with the result. -/
def write (fs : FileSystem) (path : Path) (content : ByteArray) :
    Except FileError Unit × FileSystem :=
  match fs.placeToWrite path with
  | .error error => (.error error, fs)
  | .ok names => (.ok (), { fs with root := fs.root.update (some (.file content)) names })

end FileSystem

end MemberReach
