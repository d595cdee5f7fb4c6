import MemberReach.FileTree
import MemberReach.Glob.Expression

/-!
# Ignore rules

An ignore file holds one rule a line. A rule ignores what its glob matches or, after an
exclamation mark, keeps it; of several rules that match, the last decides. A rule with a slash
before its end is tied to the directory of its file, any other rule matches at every depth
below, and a slash at the end restricts a rule to directories.
-/

namespace MemberReach

open Text

/-- What a rule says about a path that it matches. -/
inductive Verdict where
  | ignored
  | kept
  deriving DecidableEq, Repr, Inhabited

/-- A rule of an ignore file. -/
structure IgnoreRule where
  glob : Glob
  verdict : Verdict
  onlyDirectories : Bool
  deriving Inhabited

namespace IgnoreRule

/-- The glob text of a rule without a slash before its end, which matches at every depth. -/
def atEveryDepth (body : List Char) : List Char :=
  if "**/".toList.isPrefixOf body || body == "**".toList then body else "**/".toList ++ body

/-- The glob text of a rule for all that is below a directory, without the directory itself. -/
def belowOnly (text : List Char) : List Char :=
  if "/**".toList.isSuffixOf text then text ++ "/*".toList else text

/-- The text of a rule without the slash at its end, which a backslash may precede. -/
def withoutFinalSlash (body : List Char) : List Char × Bool :=
  match dropSuffix? ['/'] body with
  | none => (body, false)
  | some rest => ((dropSuffix? ['\\'] rest).getD rest, true)

/-- The rule with a given text, its exclamation mark apart. -/
def ofBody (lenient : Bool) (verdict : Verdict) (body : List Char) :
    Except GlobError IgnoreRule := do
  let anchored := body.head? == some '/'
  let (body, onlyDirectories) := withoutFinalSlash (if anchored then body.tail else body)
  let text := if anchored || body.contains '/' then body else atEveryDepth body
  return ⟨← Glob.parse lenient (belowOnly text), verdict, onlyDirectories⟩

/-- Drops the blanks at the end of a line, unless a backslash keeps a last space. -/
def trimLine (line : List Char) : List Char :=
  if ['\\', ' '].isSuffixOf line then line else trimEnd line

/-- The rule on a line of an ignore file; a blank line or a comment holds none. -/
def ofLine (line : List Char) : Except GlobError (Option IgnoreRule) :=
  if line.head? == some '#' then .ok none
  else
    match trimLine line with
    | [] => .ok none
    | '\\' :: '!' :: body => some <$> ofBody true .ignored ('!' :: body)
    | '\\' :: '#' :: body => some <$> ofBody true .ignored ('#' :: body)
    | '!' :: body => some <$> ofBody true .kept body
    | body => some <$> ofBody true .ignored body

/-- The rule of an ignore pattern of the settings. -/
def ofPattern (pattern : String) : Except GlobError IgnoreRule :=
  ofBody false .ignored (trimLine pattern.toList)

/-- Whether a rule matches a path below its directory. -/
def isMatch (rule : IgnoreRule) (path : String) (isDirectory : Bool) : Bool :=
  (!rule.onlyDirectories || isDirectory) && rule.glob.isMatch path

end IgnoreRule

/-- What is wrong with a line of an ignore file. -/
inductive LineError where
  | notText
  | badGlob (text : String) (error : GlobError)
  deriving DecidableEq, Repr, Inhabited

namespace LineError

/-- The wording of an error in a line. -/
def message : LineError → String
  | notText => FileError.message .notText
  | badGlob text error => "error parsing glob '" ++ text ++ "': " ++ error.message

end LineError

/-- The rules of an ignore file, the lines that hold none because of an error, and why its rules
cannot be used together. -/
structure IgnoreFile where
  rules : List IgnoreRule
  errors : List (Nat × LineError)
  nesting : Option Glob.NestingError
  deriving Inhabited

namespace IgnoreFile

/-- A file without rules. -/
def empty : IgnoreFile :=
  ⟨[], [], none⟩

/-- The lines of a file as bytes. A carriage return before a line feed is not part of a line, and
neither is an empty text after the last line feed. -/
def rawLines (content : ByteArray) : List (List UInt8) :=
  let pieces := content.toList.splitOn 10
  let ended := pieces.dropLast.map fun line ↦ ([13].isSuffixOf? line).getD line
  ended ++ pieces.getLast?.toList.filter fun line ↦ !line.isEmpty

/-- Adds the lines of a file from a line number on. A line that is not text ends the file. -/
def addLines (file : IgnoreFile) (number : Nat) : List (List UInt8) → IgnoreFile
  | [] => file
  | line :: rest =>
      match String.fromUTF8? ⟨line.toArray⟩ with
      | none => { file with errors := file.errors ++ [(number, .notText)] }
      | some text =>
          let chars := text.toList
          let chars := if number == 1 then chars.dropWhile (· == '\uFEFF') else chars
          match IgnoreRule.ofLine chars with
          | .ok none => addLines file (number + 1) rest
          | .ok (some rule) =>
              addLines { file with rules := file.rules ++ [rule] } (number + 1) rest
          | .error error =>
              let text := String.ofList (IgnoreRule.trimLine chars)
              addLines { file with errors := file.errors ++ [(number, .badGlob text error)] }
                (number + 1) rest

/-- The ignore file with some bytes. It has no rules at all if one of them is nested too deeply. -/
def ofBytes (content : ByteArray) : IgnoreFile :=
  let file := addLines empty 1 (rawLines content)
  match Glob.checkNesting (file.rules.map IgnoreRule.glob) with
  | .ok () => file
  | .error error => { file with rules := [], nesting := some error }

/-- The errors of a file that are reported. A file whose only error is that it is not text is
passed over in silence. -/
def reported (file : IgnoreFile) : List (Nat × LineError) :=
  match file.errors with
  | [(_, .notText)] => []
  | errors => errors

/-- The wording of the errors of a file. -/
def messages (file : IgnoreFile) (path : Path) : List String :=
  let lines := file.reported.map fun (number, error) ↦
    path.text ++ ": line " ++ decimal number ++ ": " ++ error.message
  lines ++ (file.nesting.map Glob.NestingError.message).toList

/-- What the rules of a file say about a path below its directory; the last rule that matches
decides. -/
def verdict? (file : IgnoreFile) (path : String) (isDirectory : Bool) : Option Verdict :=
  (file.rules.reverse.find? fun rule ↦ rule.isMatch path isDirectory).map IgnoreRule.verdict

end IgnoreFile

end MemberReach
