import MemberReach.Project
import MemberReach.Report

/-!
# Analysing a project

An analysis loads a project, finds the seed method in the seed file, closes over calls and
writes the report beside the seed file. Its result comes with the file system that it leaves behind,
whether it fails or not.
-/

namespace MemberReach

/-- What an analysis found. `skipped` counts the methods whose declaration was not found. -/
structure Outcome where
  report : Report
  reportPath : Path
  skipped : Nat
  iterations : Nat
  bodiesClassified : Nat
  deriving Inhabited

namespace Analysis

/-- The root of a project that is not given one: the directory of the seed file. -/
def defaultRoot (seed : Path) : Path :=
  (seed.parent?.filter fun directory ↦ directory.text != "").getD ⟨"."⟩

/-- No declared type is external and no method hidden in an analysis. -/
def closureOf (config : Config) (model : Model) (seed : MethodSymbol) : Closure :=
  model.closure (fun _ ↦ false) (fun _ ↦ false) config.worklistOrder seed

section Run

variable {Rule : Type} (walker : Walker Rule) (parse : String → Node) (config : Config)
  (fs : FileSystem) (seed : Path) (method : String) (root : Option Path)

/-- What an analysis finds, before anything is written. -/
def outcome : Except AnalysisError Outcome := do
  if !fs.isFile seed then .error (.seedFileNotFound seed)
  let (units, seedUnit) ←
    Project.load walker parse config.parsing fs (root.getD (defaultRoot seed)) seed
  let model := Model.ofUnits units
  let symbol ← model.findSeed seedUnit method
  let closure := closureOf config model symbol
  return {
    report := .ofClosure closure seed.text method
    reportPath := Report.path seed method config.output.fileSuffix
    skipped := closure.skipped.size
    iterations := closure.iterations
    bodiesClassified := closure.bodiesClassified }

/-- Writes the report of an outcome; the result is the outcome. -/
def writeReport (found : Outcome) : Except AnalysisError Outcome × FileSystem :=
  let text := found.report.render config.output.pretty
  let (written, after) := fs.write found.reportPath text.toUTF8
  ((written.mapError .fileAccess).map fun () ↦ found, after)

/-- Analyses a method of a file and writes the report. -/
def run : Except AnalysisError Outcome × FileSystem :=
  match outcome walker parse config fs seed method root with
  | .error error => (.error error, fs)
  | .ok found => writeReport config fs found

end Run

end Analysis

end MemberReach
