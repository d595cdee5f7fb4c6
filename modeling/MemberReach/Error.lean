import MemberReach.Path

/-!
# Failures of an analysis

The causes for which loading or analysing a project can fail, and their wording.
-/

namespace MemberReach

/-- Why a file or directory cannot be used. -/
inductive FileError where
  | notFound
  | notDirectory
  | isDirectory
  | notText
  | nameTooLong
  | nulInName
  deriving DecidableEq, Repr, Inhabited

namespace FileError

/-- The wording of a file error. -/
def message : FileError → String
  | notFound => "No such file or directory (os error 2)"
  | notDirectory => "Not a directory (os error 20)"
  | isDirectory => "Is a directory (os error 21)"
  | notText => "stream did not contain valid UTF-8"
  | nameTooLong => "File name too long (os error 36)"
  | nulInName => "file name contained an unexpected NUL byte"

/-- The wording of a file error that ends an analysis. -/
def report (error : FileError) : String :=
  "IO error: " ++ error.message

end FileError

/-- Why an analysis fails. The four failures that name a seed mean that it was not found. -/
inductive AnalysisError where
  | invalidConfig (reason : String)
  | invalidPattern (pattern reason : String)
  | unknownUnit (index : Nat)
  | fileAccess (error : FileError)
  | ignoreRules (reason : String)
  | seedFileNotFound (file : Path)
  | seedFileUnreadable (file : Path) (error : FileError)
  | seedMethodNotFound (file : Path) (method : String)
  | seedSymbolUnresolved (file : Path) (method : String)
  deriving DecidableEq, Repr, Inhabited

namespace AnalysisError

/-- The wording of an error. -/
def message : AnalysisError → String
  | invalidConfig reason => "Configuration error: " ++ reason
  | invalidPattern pattern reason =>
      "Configuration error: Invalid ignore pattern '" ++ pattern ++ "': " ++ reason
  | unknownUnit index => "Parser error: Unknown source unit " ++ Text.decimal index
  | fileAccess error => error.report
  | ignoreRules reason => "File system error: " ++ reason
  | seedFileNotFound file => "Seed file not found: " ++ file.text
  | seedFileUnreadable file error =>
      "Seed file " ++ file.text ++ " could not be read: " ++ error.report
  | seedMethodNotFound file method => "Method '" ++ method ++ "' not found in " ++ file.text
  | seedSymbolUnresolved file method =>
      "Method '" ++ method ++ "' in " ++ file.text ++
        " could not be resolved to a declared symbol"

/-- Whether the seed was not found. Such failures end a run without a report. -/
def isNotFound : AnalysisError → Bool
  | seedFileNotFound _ | seedFileUnreadable _ _ | seedMethodNotFound _ _
  | seedSymbolUnresolved _ _ => true
  | _ => false

end AnalysisError

end MemberReach
