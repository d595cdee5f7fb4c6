import MemberReach.Analysis

/-!
# The command line

Arguments name the seed file and the seed method, in this order; options name the project root
and a configuration file. `Arguments.parse` reads them and stops at the first mistake, and
`run` carries out an analysis and gives the text that it prints.
-/

namespace MemberReach.CommandLine

/-- Why arguments are not carried out: a mistake, or a question about the program. -/
inductive Usage where
  | missingRequiredArgument
  | unknownArgument
  | invalidValue
  | argumentConflict
  | tooManyValues
  | displayHelp
  | displayVersion
  deriving DecidableEq, Repr, Inhabited

namespace Usage

/-- The exit code of the program; a question is not a mistake. -/
def exitCode : Usage → Nat
  | displayHelp | displayVersion => 0
  | _ => 2

/-- How the program is called. -/
def synopsis : String :=
  "Usage: member-reach [--root <ROOT>] [--config <CONFIG>] [--verbose] <FILE> <METHOD>"

/-- What the program says instead of carrying out arguments. -/
def message : Usage → String
  | missingRequiredArgument => "error: a required argument is missing\n" ++ synopsis
  | unknownArgument => "error: unexpected argument\n" ++ synopsis
  | invalidValue => "error: invalid or missing value\n" ++ synopsis
  | argumentConflict => "error: an argument is given twice\n" ++ synopsis
  | tooManyValues => "error: an argument takes no value\n" ++ synopsis
  | displayHelp =>
      "Find the string properties and methods reachable from a C# method\n" ++ synopsis
  | displayVersion => "member-reach 0.1.0"

end Usage

/-- The arguments of a run. -/
structure Arguments where
  file : Path
  method : String
  root : Option Path
  config : Option Path
  verbose : Bool
  deriving DecidableEq, Repr, Inhabited

/-- The arguments that take a value. -/
inductive Slot where
  | file
  | method
  | root
  | config
  deriving DecidableEq, Repr, Inhabited

/-- The arguments read so far. A value stays `pending` until the next argument shows that it is
complete; a pending slot without a value is an option that waits for one. -/
structure Reading where
  values : List (Slot × String)
  verbose : Bool
  pending : Option (Slot × Option String)
  positions : List Slot
  deriving Inhabited

namespace Reading

/-- Before the first argument. -/
def initial : Reading :=
  ⟨[], false, none, [.file, .method]⟩

/-- Accepts a value. Each slot takes one value, and only the method may be empty. -/
def accept (r : Reading) (slot : Slot) (value : String) : Except Usage Reading :=
  if (r.values.lookup slot).isSome then .error .argumentConflict
  else if value == "" && slot != .method then .error .invalidValue
  else .ok { r with values := r.values ++ [(slot, value)] }

/-- Accepts the pending value. An option without a value is a mistake. -/
def settle (r : Reading) : Except Usage Reading :=
  match r.pending with
  | none => .ok r
  | some (_, none) => .error .invalidValue
  | some (slot, some value) => accept { r with pending := none } slot value

/-- Reads an option that takes a value, which may be attached to it. -/
def option (r : Reading) (slot : Slot) (attached : Option String) : Except Usage Reading := do
  let r ← r.settle
  match attached with
  | some value => r.accept slot value
  | none => return { r with pending := some (slot, none) }

/-- Reads the switch for verbose logging, which may be given once. -/
def switch (r : Reading) : Except Usage Reading := do
  let r ← r.settle
  if r.verbose then .error .argumentConflict else return { r with verbose := true }

/-- Reads a question, which ends the reading. -/
def question (r : Reading) (usage : Usage) : Except Usage Reading := do
  let _ ← r.settle
  .error usage

/-- Refuses a value that is attached to a switch or question. -/
def withoutValue (attached : Option String) (result : Except Usage Reading) :
    Except Usage Reading :=
  if attached.isSome then .error .tooManyValues else result

/-- Reads an option by its long name, which stands before an equals sign. -/
def long (r : Reading) (text : List Char) : Except Usage Reading :=
  let name := text.takeWhile (· != '=')
  let attached :=
    if name.length < text.length then some (String.ofList (text.drop (name.length + 1)))
    else none
  match String.ofList name with
  | "root" => r.option .root attached
  | "config" => r.option .config attached
  | "verbose" => withoutValue attached r.switch
  | "help" => withoutValue attached (r.question .displayHelp)
  | "version" => withoutValue attached (r.question .displayVersion)
  | _ => .error .unknownArgument

/-- The value that follows the letter of an option directly. -/
def attachedTo : List Char → Option String
  | [] => none
  | '=' :: value => some (String.ofList value)
  | value => some (String.ofList value)

/-- Reads options by their letters. -/
def short (r : Reading) : List Char → Except Usage Reading
  | [] => .ok r
  | 'r' :: rest => r.option .root (attachedTo rest)
  | 'c' :: rest => r.option .config (attachedTo rest)
  | 'v' :: rest => do short (← r.switch) rest
  | 'h' :: _ => r.question .displayHelp
  | 'V' :: _ => r.question .displayVersion
  | _ => .error .unknownArgument

/-- Reads an argument that is given by its position. -/
def positional (r : Reading) (value : String) : Except Usage Reading :=
  match r.positions with
  | [] => .error .unknownArgument
  | slot :: rest => do
      let r ← r.settle
      return { r with pending := some (slot, some value), positions := rest }

/-- Reads an argument that is not an option: the value of an option that waits for one, or else
an argument by position. -/
def value (r : Reading) (text : String) : Except Usage Reading :=
  match r.pending with
  | some (slot, none) => .ok { r with pending := some (slot, some text) }
  | _ => r.positional text

/-- Reads all arguments. After two dashes alone every argument is given by its position. -/
def readAll (r : Reading) : List String → Except Usage Reading
  | [] => .ok r
  | text :: rest =>
      match text.toList with
      -- an option that still waits for a value does not get one from here on
      | ['-', '-'] => rest.foldlM positional r
      | '-' :: '-' :: name => do readAll (← r.long name) rest
      | '-' :: c :: letters => do readAll (← r.short (c :: letters)) rest
      | _ => do readAll (← r.value text) rest

/-- The arguments, if none is missing. -/
def finish (r : Reading) : Except Usage Arguments := do
  let r ← r.settle
  match r.values.lookup .file, r.values.lookup .method with
  | some file, some method =>
      return {
        file := ⟨file⟩
        method := method
        root := (r.values.lookup .root).map Path.mk
        config := (r.values.lookup .config).map Path.mk
        verbose := r.verbose }
  | _, _ => .error .missingRequiredArgument

end Reading

/-- The arguments that some texts give. -/
def Arguments.parse (texts : List String) : Except Usage Arguments := do
  (← Reading.initial.readAll texts).finish

/-! ### Settings -/

/-- The configuration files that are looked for in the working directory. -/
def configCandidates : List Path :=
  [⟨"reachlens.toml"⟩, ⟨".reachlens.toml"⟩]

/-- The settings in a file. -/
def readConfig (fs : FileSystem) (path : Path) : Except AnalysisError Config := do
  let text ← (fs.readText path).mapError .fileAccess
  match Config.parse? text with
  | some config => return config
  | none => .error (.invalidConfig ("invalid settings in " ++ path.text))

/-- The settings of a run: those of the file that is named, or else of the first candidate. A
file that does not exist leaves the defaults. -/
def loadConfig (fs : FileSystem) (path : Option Path) : Except AnalysisError Config :=
  match (path.map fun p ↦ [p]).getD configCandidates |>.find? fs.exists? with
  | some found => readConfig fs found
  | none => .ok .standard

/-! ### Runs -/

/-- The lines under a heading, or a note that there are none. -/
def listing (heading : String) (lines : List String) : List String :=
  ["", heading] ++ if lines.isEmpty then ["  (none)"] else lines

/-- The line of a property. -/
def propertyLine (p : PropertyEntry) : String :=
  "  " ++ p.fullName ++ " (" ++ p.typeName ++ ") at " ++ p.location

/-- The line of a method. -/
def methodLine (m : MethodEntry) : String :=
  "  " ++ m.fullName ++ " -> " ++ m.returnType ++ " at " ++ m.location

/-- The lines about an outcome. -/
def outcomeLines (outcome : Outcome) : List String :=
  listing "Properties Accessed:" (outcome.report.properties.map propertyLine) ++
    listing "Methods Called:" (outcome.report.methods.map methodLine) ++
    (if outcome.skipped = 0 then []
      else ["", Text.decimal outcome.skipped ++
        " reached methods had no declaration in the loaded sources"]) ++
    ["", "Results written to " ++ outcome.reportPath.text]

/-- What a run prints, the error that it ends with, and the files after it. -/
structure Run where
  output : List String
  failure : Option AnalysisError
  files : FileSystem

/-- Carries out a run. A seed that is not found is printed and is not an error of the run. -/
def run {Rule : Type} (walker : Walker Rule) (parse : String → Node) (fs : FileSystem)
    (arguments : Arguments) : Run :=
  match loadConfig fs arguments.config with
  | .error error => ⟨[], some error, fs⟩
  | .ok config =>
      let opening :=
        ["Starting analysis...", "File: " ++ arguments.file.text, "Method: " ++ arguments.method]
      let (result, after) :=
        Analysis.run walker parse config fs arguments.file arguments.method arguments.root
      match result with
      | .ok outcome => ⟨opening ++ outcomeLines outcome ++ ["Analysis completed."], none, after⟩
      | .error error =>
          if error.isNotFound then ⟨opening ++ [error.message], none, after⟩
          else ⟨opening, some error, after⟩

/-- The text of some lines. -/
def textOf (lines : List String) : String :=
  String.join (lines.map fun line ↦ line ++ "\n")

end MemberReach.CommandLine
