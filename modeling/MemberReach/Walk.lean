import MemberReach.Repository
import MemberReach.Walker

/-!
# Walking a directory

The walk of a directory lists what is below it and not ignored, each directory before its entries.
What is ignored is decided by exclusion patterns first, then by the ignore files of the
directories around a path, inner ones before outer ones, also those above the directory that is
walked: files called `.ignore` first, then `.gitignore`, then the exclude file of a repository. The
last two count only inside a repository, and not beyond the innermost one. Inside a repository
there is one more ignore file, which belongs to no directory and counts last.
-/

namespace MemberReach.Walk

open Text

/-- What a walk is told, with exclusions that are rules of an ignore file. -/
abbrev Options : Type :=
  WalkOptions IgnoreRule

/-- The ignore files of one directory, given by the names that lead to it, and the wording of the
errors in them. -/
structure Level where
  names : List String
  ignore : IgnoreFile
  gitignore : IgnoreFile
  exclude : IgnoreFile
  hasRepository : Bool
  errors : List String
  deriving Inhabited

namespace Level

/-- The ignore file with a given name in a directory. -/
def fileIn (directory : FileTree) (names : List String) : IgnoreFile :=
  ((directory.bytesAt? names).map .ofBytes).getD .empty

/-- The exclude file of the repository in a directory, and the wording of the errors in it. -/
def excludeOf (fs : FileSystem) (names : List String) (directory : FileTree) :
    IgnoreFile × List String :=
  let git := names ++ [".git"]
  match directory.at? [".git"] with
  | some (.file link) =>
      match Repository.linkedExclude fs (.ofNames git) link with
      | .missing => (.empty, [])
      | .unreadable path error => (.empty, [path.text ++ ": " ++ error.message])
      | .found path =>
          let file := ((fs.readBytes path).toOption.map .ofBytes).getD .empty
          (file, file.messages path)
  | _ =>
      let file := fileIn directory (".git" :: Repository.excludeNames)
      (file, file.messages (.ofNames (git ++ Repository.excludeNames)))

/-- The ignore files of a directory. -/
def of (fs : FileSystem) (options : Options) (names : List String) (directory : FileTree) :
    Level :=
  let ignore := fileIn directory [".ignore"]
  let gitignore := if options.respectGitignore then fileIn directory [".gitignore"] else .empty
  let (exclude, excludeErrors) := excludeOf fs names directory
  { names := names
    ignore := ignore
    gitignore := gitignore
    exclude := exclude
    hasRepository := Repository.markers.any fun name ↦ (directory.at? [name]).isSome
    errors :=
      ignore.messages (.ofNames (names ++ [".ignore"])) ++
        gitignore.messages (.ofNames (names ++ [".gitignore"])) ++ excludeErrors }

/-- The ignore files of a directory above the one that is walked. Without `.gitignore` files a
repository up there does not count. -/
def above (fs : FileSystem) (options : Options) (names : List String) : Level :=
  let level := of fs options names ((fs.root.at? names).getD (.directory []))
  { level with hasRepository := options.respectGitignore && level.hasRepository }

/-- What one of the ignore files of a directory says about a path. -/
def verdict? (file : Level → IgnoreFile) (path : List String) (isDirectory : Bool)
    (level : Level) : Option Verdict :=
  (file level).verdict? (join "/" (path.drop level.names.length)) isDirectory

end Level

/-- The levels up to the innermost repository, given innermost first. -/
def insideRepository : List Level → List Level
  | [] => []
  | level :: rest => if level.hasRepository then [level] else level :: insideRepository rest

/-- What the ignore files around a path say about it, innermost directory first, and at last the
ignore file `global` of all repositories. -/
def ruling? (global : IgnoreFile) (levels : List Level) (path : List String)
    (isDirectory : Bool) : Option Verdict :=
  -- outside of every repository only the files called `.ignore` count
  let isInside := levels.any Level.hasRepository
  let inside := if isInside then insideRepository levels else []
  (((levels.findSome? (Level.verdict? Level.ignore path isDirectory)).or
    (inside.findSome? (Level.verdict? Level.gitignore path isDirectory))).or
    (inside.findSome? (Level.verdict? Level.exclude path isDirectory))).or
    (if isInside then global.verdict? (join "/" path) isDirectory else none)

/-- Whether a path below `top` is left out of the walk of `top`. -/
def isIgnored (global : IgnoreFile) (options : Options) (top : List String)
    (levels : List Level) (path : List String) (isDirectory : Bool) : Bool :=
  let relative := join "/" (path.drop top.length)
  options.exclusions.any (fun rule ↦ rule.isMatch relative isDirectory) ||
    ruling? global levels path isDirectory == some .ignored

/-- The walks of the entries of a directory, each given with the place of its entry, one after
another in an order of these places. -/
def joined (order : List String → List String → Ordering)
    (walks : List (List String × List (List String))) : List (List String) :=
  (walks.mergeSort fun a b ↦ (order a.1 b.1).isLE).flatMap Prod.snd

mutual

/-- The places of a tree below `top` that are not ignored. -/
def below (global : IgnoreFile) (fs : FileSystem) (options : Options) (top : List String)
    (levels : List Level) (path : List String) : FileTree → List (List String)
  | .file _ => if isIgnored global options top levels path false then [] else [path]
  | .directory entries =>
      if isIgnored global options top levels path true then []
      else
        let levels := .of fs options path (.directory entries) :: levels
        path :: joined options.order (belowEntries global fs options top levels path entries)

/-- The places below each entry of a directory that are not ignored, with the place of the
entry. -/
def belowEntries (global : IgnoreFile) (fs : FileSystem) (options : Options)
    (top : List String) (levels : List Level) (path : List String) :
    List (String × FileTree) → List (List String × List (List String))
  | [] => []
  | (name, tree) :: rest =>
      (path ++ [name], below global fs options top levels (path ++ [name]) tree) ::
        belowEntries global fs options top levels path rest

end

/-- The proper prefixes of a list of names, longest first. -/
def parents (names : List String) : List (List String) :=
  ((List.range names.length).map fun n ↦ names.take n).reverse

/-- The walk of a path. The walk of a file lists that file. An error in an ignore file above a
directory that is walked is all that the walk lists. -/
def places (global : IgnoreFile) (fs : FileSystem) (options : Options) (top : List String) :
    List (Except String (List String)) :=
  match fs.root.at? top with
  | none => []
  | some (.file _) => [.ok top]
  | some (.directory entries) =>
      let outer := (parents top).map (Level.above fs options)
      let errors := outer.reverse.flatMap Level.errors
      if errors.isEmpty then
        let levels := .of fs options top (.directory entries) :: outer
        let walks := belowEntries global fs options top levels top entries
        (top :: joined options.order walks).map .ok
      else [.error (join "\n" errors)]

/-- The walker that follows ignore files, with an ignore file for all repositories. -/
def walker (global : IgnoreFile) : Walker IgnoreRule where
  readPattern pattern := (IgnoreRule.ofPattern pattern).mapError GlobError.message
  checkRules rules :=
    (Glob.checkNesting (rules.map IgnoreRule.glob)).mapError Glob.NestingError.message
  walk := places global

end MemberReach.Walk
