import MemberReach.Closure
import MemberReach.Toml.Document

/-!
# Settings

The settings of an analysis and how they are read from a configuration document. A setting
that a document leaves out keeps its default; names that stand for no setting are passed over;
a value of the wrong form makes the document invalid.
-/

namespace MemberReach

/-- Which files of a project are loaded. -/
structure ParsingConfig where
  fileExtensions : List String
  maxFileSize : Nat
  ignorePatterns : List String
  respectGitignore : Bool
  deriving DecidableEq, Repr, Inhabited

/-- How reports are written. -/
structure OutputConfig where
  pretty : Bool
  fileSuffix : String
  deriving DecidableEq, Repr, Inhabited

/-- The settings of an analysis. -/
structure Config where
  parsing : ParsingConfig
  worklistOrder : WorklistOrder
  output : OutputConfig
  deriving DecidableEq, Repr, Inhabited

namespace Config

/-- Source files of up to a mebibyte outside of build directories. -/
def defaultParsing : ParsingConfig :=
  { fileExtensions := ["cs"]
    maxFileSize := 1024 * 1024
    ignorePatterns := ["bin/", "obj/", ".git/"]
    respectGitignore := true }

/-- Indented reports. -/
def defaultOutput : OutputConfig :=
  { pretty := true, fileSuffix := "analysis" }

/-- The settings without a document. -/
def standard : Config :=
  { parsing := defaultParsing, worklistOrder := .fifo, output := defaultOutput }

open Toml

/-- The settings of a group by name. A group is a table, or lists its settings in order; a date
stands for a group without settings. -/
def members? (names : List String) : Value → Option Entries
  | .inline entries | .table _ _ entries => some entries
  | .array items => some (names.zip items)
  | .tables elements => some (names.zip (elements.map (.table false false)))
  | .dateTime => some []
  | _ => none

/-- A setting that may be left out. -/
def setting {α : Type} (entries : Entries) (name : String) (standard : α)
    (read? : Value → Option α) : Option α :=
  match entries.lookup name with
  | none => some standard
  | some value => read? value

/-- A setting that is a text. -/
def text? : Value → Option String
  | .text value => some value
  | _ => none

/-- A setting that is a list of texts. -/
def texts? : Value → Option (List String)
  | .array items => items.mapM text?
  | _ => none

/-- A setting that is true or false. -/
def boolean? : Value → Option Bool
  | .boolean value => some value
  | _ => none

/-- A setting that is a number of bytes. -/
def size? : Value → Option Nat
  | .integer value => if 0 ≤ value then some value.toNat else none
  | _ => none

/-- Whether a value is a collection without content. -/
def isEmpty : Value → Bool
  | .array items => items.isEmpty
  | .inline entries | .table _ _ entries => entries.isEmpty
  | .tables elements => elements.isEmpty
  | _ => false

/-- The order with a given name. -/
def orderNamed? : String → Option WorklistOrder
  | "fifo" => some .fifo
  | "lifo" => some .lifo
  | _ => none

/-- A setting that is an order: its name, or a table in which its name alone stands, with an
empty collection. -/
def order? : Value → Option WorklistOrder
  | .text name => orderNamed? name
  | .inline [(name, value)] | .table _ _ [(name, value)] =>
      if isEmpty value then orderNamed? name else none
  | _ => none

/-- The group of settings about loading. -/
def parsing? (value : Value) : Option ParsingConfig := do
  let names := ["file_extensions", "max_file_size", "ignore_patterns", "respect_gitignore"]
  let entries ← members? names value
  return {
    fileExtensions := ← setting entries "file_extensions" defaultParsing.fileExtensions texts?
    maxFileSize := ← setting entries "max_file_size" defaultParsing.maxFileSize size?
    ignorePatterns := ← setting entries "ignore_patterns" defaultParsing.ignorePatterns texts?
    respectGitignore :=
      ← setting entries "respect_gitignore" defaultParsing.respectGitignore boolean? }

/-- The group of settings about the closure. -/
def analysis? (value : Value) : Option WorklistOrder := do
  setting (← members? ["worklist_order"] value) "worklist_order" .fifo order?

/-- The group of settings about reports. -/
def output? (value : Value) : Option OutputConfig := do
  let entries ← members? ["pretty", "file_suffix"] value
  return {
    pretty := ← setting entries "pretty" defaultOutput.pretty boolean?
    fileSuffix := ← setting entries "file_suffix" defaultOutput.fileSuffix text? }

/-- The settings of a document. -/
def ofEntries? (entries : Entries) : Option Config := do
  return {
    parsing := ← setting entries "parsing" defaultParsing parsing?
    worklistOrder := ← setting entries "analysis" .fifo analysis?
    output := ← setting entries "output" defaultOutput output? }

/-- The settings that the text of a document gives. -/
def parse? (text : String) : Option Config :=
  (document? text).bind ofEntries?

end Config

end MemberReach
