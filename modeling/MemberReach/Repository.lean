import MemberReach.IgnoreRules

/-!
# Repositories and their exclude files

A directory is a repository if it holds an entry `.git` or `.jj`. A repository has an exclude
file below the directory `.git`. In a linked working tree `.git` is a file, and its first line
names another directory; a file there names on its first line the directory that the working
trees of the repository share, and the exclude file is below that one.
-/

namespace MemberReach.Repository

/-- The entries that show that a directory is a repository. -/
def markers : List String :=
  [".git", ".jj"]

/-- The names that lead to an exclude file from the directory that it belongs to. -/
def excludeNames : List String :=
  ["info", "exclude"]

/-- The text in front of the directory that a linked working tree names. -/
def linkMarker : String :=
  "gitdir: "

/-- Where an exclude file is, or which file is in the way of telling. -/
inductive ExcludeFile where
  | found (path : Path)
  | missing
  | unreadable (path : Path) (error : FileError)
  deriving DecidableEq, Repr, Inhabited

/-- The first line of a file, which has to be text; an empty file has none. -/
def firstLine (content : ByteArray) : Except FileError (Option String) :=
  match IgnoreFile.rawLines content with
  | [] => .ok none
  | line :: _ =>
      match String.fromUTF8? ⟨line.toArray⟩ with
      | none => .error .notText
      | some text => .ok (some text)

/-- The directory that the first line of a linked working tree names. -/
def linkTarget? (line : String) : Option Path :=
  (linkMarker.toList.isPrefixOf? line.toList).map fun rest ↦ ⟨String.ofList rest⟩

/-- The file in a directory that names the shared directory. -/
def sharedFile (directory : Path) : Path :=
  directory.join ⟨"commondir"⟩

/-- The exclude file below the shared directory that a line in a directory names. Only a line that
starts with a dot is relative to the directory. -/
def excludeBelow (directory : Path) (line : String) : Path :=
  let shared : Path := if line.toList.head? == some '.' then directory.join ⟨line⟩ else ⟨line⟩
  shared.join ⟨Text.join "/" excludeNames⟩

/-- The exclude file of a linked working tree, given its file `.git` and the bytes of it. -/
def linkedExclude (fs : FileSystem) (link : Path) (content : ByteArray) : ExcludeFile :=
  match firstLine content with
  | .error error => .unreadable link error
  | .ok line =>
      match line.bind linkTarget? with
      | none => .missing
      | some directory =>
          match fs.readBytes (sharedFile directory) with
          | .error .isDirectory => .unreadable (sharedFile directory) .isDirectory
          | .error _ => .missing
          | .ok shared =>
              match firstLine shared with
              | .error error => .unreadable (sharedFile directory) error
              | .ok none => .missing
              | .ok (some line) => .found (excludeBelow directory line)

end MemberReach.Repository
