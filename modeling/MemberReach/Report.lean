import MemberReach.Closure
import MemberReach.Json

/-!
# Reports

The report of a closure lists its properties and methods by full name; members of one full
name keep the order of their identities. A report is written as a JSON object.
-/

namespace MemberReach

/-- A property as a report shows it. -/
structure PropertyEntry where
  name : String
  containingType : String
  fullName : String
  typeName : String
  location : String
  deriving DecidableEq, Repr, Inhabited

/-- A method as a report shows it. -/
structure MethodEntry where
  name : String
  containingType : String
  fullName : String
  returnType : String
  parameters : List Parameter
  location : String
  deriving DecidableEq, Repr, Inhabited

/-- The seed, and the properties and methods reachable from it. -/
structure Report where
  seedFile : String
  seedMethod : String
  properties : List PropertyEntry
  methods : List MethodEntry
  deriving DecidableEq, Repr, Inhabited

namespace PropertyEntry

/-- How a report shows a property. -/
def ofSymbol (p : PropertySymbol) : PropertyEntry :=
  ⟨p.id.name, p.ownerName, p.fullName, p.typeName, p.location.display⟩

/-- The members of a property entry. -/
def toJson (entry : PropertyEntry) : Json :=
  .object [
    ("name", .text entry.name),
    ("containingType", .text entry.containingType),
    ("fullName", .text entry.fullName),
    ("type", .text entry.typeName),
    ("location", .text entry.location)]

end PropertyEntry

namespace MethodEntry

/-- How a report shows a method. -/
def ofSymbol (m : MethodSymbol) : MethodEntry :=
  ⟨m.id.name, m.ownerName, m.fullName, m.returnType, m.parameters, m.location.display⟩

/-- The members of a parameter. -/
def parameterJson (p : Parameter) : Json :=
  .object [("name", .text p.name), ("type", .text p.typeName)]

/-- The members of a method entry. -/
def toJson (entry : MethodEntry) : Json :=
  .object [
    ("name", .text entry.name),
    ("containingType", .text entry.containingType),
    ("fullName", .text entry.fullName),
    ("returnType", .text entry.returnType),
    ("parameters", .list (entry.parameters.map parameterJson)),
    ("location", .text entry.location)]

end MethodEntry

namespace Report

/-- The symbols of a set as entries, in the order of their full names. -/
def sorted {α β : Type} (fullName : β → String) (entry : α → β) (symbols : List α) : List β :=
  (symbols.map entry).mergeSort fun a b ↦ decide (fullName a ≤ fullName b)

/-- The report of some properties and methods. -/
def ofSets (properties : SymbolSet PropertySymbol) (methods : SymbolSet MethodSymbol)
    (seedFile seedMethod : String) : Report :=
  { seedFile := seedFile
    seedMethod := seedMethod
    properties := sorted PropertyEntry.fullName PropertyEntry.ofSymbol properties.toList
    methods := sorted MethodEntry.fullName MethodEntry.ofSymbol methods.toList }

/-- The report of a closure. -/
def ofClosure (closure : Closure) (seedFile seedMethod : String) : Report :=
  .ofSets closure.properties closure.methods seedFile seedMethod

/-- The members of a report. -/
def toJson (report : Report) : Json :=
  .object [
    ("seedFile", .text report.seedFile),
    ("seedMethod", .text report.seedMethod),
    ("properties", .list (report.properties.map PropertyEntry.toJson)),
    ("methods", .list (report.methods.map MethodEntry.toJson))]

/-- The text of a report, indented or compact. -/
def render (indented : Bool) (report : Report) : String :=
  report.toJson.render indented

/-- The path of the report of a method: beside the seed file, named after the file, the method
and the suffix. -/
def path (seedFile : Path) (seedMethod suffix : String) : Path :=
  let stem := seedFile.stem?.getD "source"
  let tail := if suffix.isEmpty then "" else "_" ++ suffix
  let file : Path := ⟨stem ++ "_" ++ seedMethod ++ tail ++ ".json"⟩
  match seedFile.parent? with
  | some directory => directory.join file
  | none => file

end Report

end MemberReach
