import MemberReach.CommandLine
import MemberReach.Grammar.Rules
import MemberReach.Walk

/-!
# The program

Reads the files that an analysis can look at from the disk, carries out the arguments, writes
the files that changed, and prints.
-/

namespace MemberReach.Disk

/-- The names that lead to a path from the root. -/
def placeOf (working : List String) (path : Path) : List String :=
  path.components.foldl
    (fun names component ↦
      match component with
      | .root => []
      | .here => names
      | .up => names.dropLast
      | .name name => names ++ [name])
    working

/-- The ignore files of a directory. -/
def ruleFiles : List (List String) :=
  [[".ignore"], [".gitignore"], [".git"], ".git" :: Repository.excludeNames]

/-- Whether a walk can look into a file with a given name. -/
def matters (name : String) : Bool :=
  (Path.mk name).extension? == some Project.sourceExtension ||
    [".ignore", ".gitignore", ".git", "exclude"].contains name

/-- The result of an action that may fail. -/
def attempt {α : Type} (action : IO α) : IO (Option α) := do
  try
    return some (← action)
  catch _ =>
    return none

/-- The directories below a directory and the files that a walk can look into. Links are not
followed. -/
partial def entriesOf (directory : String) : IO (List (String × FileTree)) := do
  let entries ← (← IO.FS.realPath directory).readDir
  let loaded ← entries.toList.mapM fun entry ↦ do
    match (← entry.path.symlinkMetadata).type with
    | .dir =>
        let inner ← attempt (entriesOf entry.path.toString)
        return some (entry.fileName, FileTree.directory (inner.getD []))
    | .file =>
        if matters entry.fileName then
          let content ← attempt (IO.FS.readBinFile entry.path)
          return content.map fun content ↦ (entry.fileName, .file content)
        else return none
    | _ => return none
  return loaded.filterMap id

/-- Adds the file at a place to a tree, if it can be read. -/
def addFile (tree : FileTree) (names : List String) : IO FileTree := do
  match ← attempt (IO.FS.readBinFile (Path.ofNames names).text) with
  | some content => return tree.update (some (.file content)) names
  | none => return tree

/-- Adds a directory with all that a walk of it can look into to a tree, if it can be read. -/
def addDirectory (tree : FileTree) (names : List String) : IO FileTree := do
  match ← attempt (entriesOf (Path.ofNames names).text) with
  | some entries => return tree.update (some (.directory entries)) names
  | none => return tree

/-- Adds an empty directory to a tree if there is a directory at its place. -/
def addMarker (tree : FileTree) (names : List String) : IO FileTree := do
  match ← attempt (do (← IO.FS.realPath (Path.ofNames names).text).isDir) with
  | some true => return tree.update (some (.directory [])) names
  | _ => return tree

/-- The first line of a file of a tree, if it is text. -/
def firstLine? (tree : FileTree) (names : List String) : Option String :=
  (tree.bytesAt? names).bind fun content ↦ (Repository.firstLine content).toOption.join

/-- Adds the files that a linked working tree leads to, given the names of its file `.git`. -/
def addLinked (working : List String) (tree : FileTree) (names : List String) : IO FileTree := do
  match (firstLine? tree names).bind Repository.linkTarget? with
  | none => return tree
  | some directory =>
      let shared := placeOf working (Repository.sharedFile directory)
      let tree ← addFile tree shared
      match firstLine? tree shared with
      | none => return tree
      | some line => addFile tree (placeOf working (Repository.excludeBelow directory line))

/-- The part of the disk that a run can look at: the project, the ignore files around it, the seed
file and the configuration files. -/
def load (arguments : CommandLine.Arguments) : IO FileSystem := do
  let working := placeOf [] ⟨(← IO.currentDir).toString⟩
  let root := placeOf working (arguments.root.getD (Analysis.defaultRoot arguments.file))
  let settings := arguments.config.toList ++ CommandLine.configCandidates
  let above := Walk.parents root
  let markers := above.flatMap fun names ↦ Repository.markers.map (names ++ [·])
  let rules := above.flatMap fun names ↦ ruleFiles.map (names ++ ·)
  let tree := (FileTree.directory []).update (some (.directory [])) working
  let tree ← addDirectory tree root
  let tree ← markers.foldlM addMarker tree
  let tree ← rules.foldlM addFile tree
  let links := ((tree.files []).map Prod.fst).filter fun names ↦ names.getLast? == some ".git"
  let tree ← links.foldlM (addLinked working) tree
  let tree ← ((arguments.file :: settings).map (placeOf working)).foldlM addFile tree
  return ⟨tree, working⟩

/-- The ignore file of all repositories of a user, at its usual place. -/
def globalIgnore : IO IgnoreFile := do
  let named := (← IO.getEnv "XDG_CONFIG_HOME").filter fun text ↦ text != ""
  let usual := (← IO.getEnv "HOME").map fun home ↦ (Path.mk home).join ⟨".config"⟩
  match (named.map Path.mk).or usual with
  | none => return .empty
  | some settings =>
      let content ← attempt (IO.FS.readBinFile (settings.join ⟨"git/ignore"⟩).text)
      return (content.map .ofBytes).getD .empty

/-- Writes the files that are new or have changed. -/
def store (before after : FileSystem) : IO Unit :=
  (after.root.files []).forM fun (names, content) ↦ do
    if before.root.bytesAt? names != some content then
      IO.FS.writeBinFile (Path.ofNames names).text content

end MemberReach.Disk

namespace MemberReach.CommandLine

/-- Carries out arguments on the disk; the result is the exit code. -/
def perform (arguments : Arguments) : IO UInt32 := do
  let before ← Disk.load arguments
  let result := run (Walk.walker (← Disk.globalIgnore)) Node.ofSource before arguments
  Disk.store before result.files
  IO.print (textOf result.output)
  match result.failure with
  | none => return 0
  | some error =>
      IO.eprintln ("Error: " ++ error.message)
      return 1

end MemberReach.CommandLine

/-- Analyses a method of a file and prints what it reaches. -/
def main (texts : List String) : IO UInt32 := do
  match MemberReach.CommandLine.Arguments.parse texts with
  | .ok arguments => MemberReach.CommandLine.perform arguments
  | .error usage =>
      if usage.exitCode = 0 then IO.println usage.message else IO.eprintln usage.message
      return usage.exitCode.toUInt32
