import MemberReach.Config
import MemberReach.SourceUnit
import MemberReach.Walker

/-!
# Loading a project

A project is the source files below a root directory. The files of the walk of the root that
have a source extension, are not too large and are text become source units, in the order of
the walk, which takes the entries of a directory by their names. The seed file belongs to the
project in any case; if the walk does not give it, it comes last. How directories are walked and
how a text becomes a tree are parameters.
-/

namespace MemberReach.Project

/-- The extension of source files. -/
def sourceExtension : String :=
  "cs"

/-- Whether a file has the extension of source files and the settings ask for that extension. -/
def isSource (config : ParsingConfig) (path : Path) : Bool :=
  path.extension?.any fun extension ↦
    config.fileExtensions.contains extension && extension == sourceExtension

/-- The unit of a source text, shown with its path below the root. -/
def unitOf (parse : String → Node) (root path : Path) (source : String) : SourceUnit :=
  .create path (some root) source (parse source)

/-- Reads a file as a source unit. -/
def readUnit (parse : String → Node) (fs : FileSystem) (root path : Path) :
    Except FileError SourceUnit :=
  (fs.readText path).map (unitOf parse root path)

/-- The unit of a place that a walk lists; none if there is no file, or it is not a source file, has
too long a path, is too large or is not text. -/
def unit? (parse : String → Node) (config : ParsingConfig) (fs : FileSystem) (root : Path)
    (names : List String) : Option SourceUnit :=
  let path := Path.ofNames names
  match fs.root.bytesAt? names with
  | none => none
  | some content =>
      if isSource config path && (FileSystem.checkSize path).toOption.isSome &&
          decide (content.size ≤ config.maxFileSize) then
        (String.fromUTF8? content).map (unitOf parse root path)
      else none

section Load

variable {Rule : Type} (walker : Walker Rule) (parse : String → Node) (config : ParsingConfig)

/-- The rules of the ignore patterns of the settings. -/
def exclusions : Except AnalysisError (List Rule) := do
  let rules ← config.ignorePatterns.mapM fun pattern ↦
    (walker.readPattern pattern).mapError (.invalidPattern pattern)
  (walker.checkRules rules).mapError .invalidConfig
  return rules

/-- What the walk of a project is told. Entries of a directory come in the order of their names. -/
def walkOptions (rules : List Rule) : WalkOptions Rule :=
  { exclusions := rules, respectGitignore := config.respectGitignore, order := compare }

/-- The units of the source files below a root, given by the names that lead to it. The first error
of the walk ends it. -/
def loadDirectory (fs : FileSystem) (root : List String) :
    Except AnalysisError (List SourceUnit) := do
  let options := walkOptions config (← exclusions walker config)
  let places ← (walker.walk fs options root).mapM fun entry ↦ entry.mapError .ignoreRules
  return places.filterMap (unit? parse config fs (.ofNames root))

/-- The units of a project and the position of the seed file among them. -/
def load (fs : FileSystem) (root seed : Path) :
    Except AnalysisError (List SourceUnit × Nat) := do
  let rootNames ← (fs.locate root).mapError .fileAccess
  let seedNames ← (fs.locate seed).mapError fun _ ↦ .seedFileNotFound seed
  let seedPath := Path.ofNames seedNames
  let units ← loadDirectory walker parse config fs rootNames
  match units.findIdx? fun unit ↦ unit.path == seedPath with
  | some index => return (units, index)
  | none =>
      let unit ← (readUnit parse fs (.ofNames rootNames) seedPath).mapError
        (.seedFileUnreadable seedPath)
      return (units ++ [unit], units.length)

end Load

end MemberReach.Project
