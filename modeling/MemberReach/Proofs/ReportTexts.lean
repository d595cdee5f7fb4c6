import MemberReach.Proofs.JsonTexts
import MemberReach.Report

/-!
# What a report's text says

A report can be taken from the value it is written as, by the names of the members
(`Report.of_to_json`), and a compact text is read as the value that was written. So a compact text
can be read as its report. An indented text is the compact text with blanks between its parts.
Hence `text_determines_report`: reports of equal text are equal, whatever characters stand in their
fields.
-/

namespace MemberReach

namespace Json

/-- The member of an object with a name. -/
def member? (name : String) : Json → Option Json
  | .object members => members.lookup name
  | _ => none

/-- The text under a name. -/
def textAt? (v : Json) (name : String) : Option String :=
  match v.member? name with
  | some (.text value) => some value
  | _ => none

/-- The items under a name, if each of them can be read. -/
def listAt? {α : Type} (v : Json) (name : String) (ofJson? : Json → Option α) : Option (List α) :=
  match v.member? name with
  | some (.list items) => items.mapM ofJson?
  | _ => none

/-- Items are read one by one. -/
theorem map_m_of_json {α : Type} {toJson : α → Json} {ofJson? : Json → Option α}
    (h : ∀ a, ofJson? (toJson a) = some a) (items : List α) :
    (items.map toJson).mapM ofJson? = some items := by
  have hread : ofJson? ∘ toJson = fun a ↦ pure (id a) := funext h
  rw [List.mapM_map, hread, List.mapM_pure, List.map_id]
  rfl

end Json

namespace PropertyEntry

/-- The property entry that an object describes. -/
def ofJson? (v : Json) : Option PropertyEntry := do
  return {
    name := ← v.textAt? "name"
    containingType := ← v.textAt? "containingType"
    fullName := ← v.textAt? "fullName"
    typeName := ← v.textAt? "type"
    location := ← v.textAt? "location" }

/-- A property entry can be taken from its members. -/
theorem of_to_json (entry : PropertyEntry) : ofJson? entry.toJson = some entry :=
  rfl

end PropertyEntry

namespace MethodEntry

/-- The parameter that an object describes. -/
def parameterOfJson? (v : Json) : Option Parameter := do
  return {
    name := ← v.textAt? "name"
    typeName := ← v.textAt? "type" }

/-- A parameter can be taken from its members. -/
theorem parameter_of_json (p : Parameter) : parameterOfJson? (parameterJson p) = some p :=
  rfl

/-- The method entry that an object describes. -/
def ofJson? (v : Json) : Option MethodEntry := do
  return {
    name := ← v.textAt? "name"
    containingType := ← v.textAt? "containingType"
    fullName := ← v.textAt? "fullName"
    returnType := ← v.textAt? "returnType"
    parameters := ← v.listAt? "parameters" parameterOfJson?
    location := ← v.textAt? "location" }

/-- A method entry can be taken from its members. -/
theorem of_to_json (entry : MethodEntry) : ofJson? entry.toJson = some entry := by
  have hparameters : entry.toJson.listAt? "parameters" parameterOfJson? = some entry.parameters :=
    Json.map_m_of_json parameter_of_json entry.parameters
  rw [ofJson?, hparameters]
  rfl

end MethodEntry

namespace Report

/-- The report that an object describes. -/
def ofJson? (v : Json) : Option Report := do
  return {
    seedFile := ← v.textAt? "seedFile"
    seedMethod := ← v.textAt? "seedMethod"
    properties := ← v.listAt? "properties" PropertyEntry.ofJson?
    methods := ← v.listAt? "methods" MethodEntry.ofJson? }

/-- A report can be taken from its members. -/
theorem of_to_json (report : Report) : ofJson? report.toJson = some report := by
  have hproperties : report.toJson.listAt? "properties" PropertyEntry.ofJson? =
      some report.properties := Json.map_m_of_json PropertyEntry.of_to_json report.properties
  have hmethods : report.toJson.listAt? "methods" MethodEntry.ofJson? = some report.methods :=
    Json.map_m_of_json MethodEntry.of_to_json report.methods
  rw [ofJson?, hproperties, hmethods]
  rfl

/-- The compact text of a report is read as the object that describes it. -/
theorem parse_render (report : Report) :
    Json.parse? (report.render false).toList = some report.toJson := by
  rw [render, Json.render, String.toList_ofList, if_neg Bool.false_ne_true]
  exact Json.parse_compact report.toJson

/-- Without the blanks outside strings, the indented text of a report is its compact text. -/
theorem strip_render (report : Report) :
    Json.strip (report.render true).toList = (report.render false).toList := by
  rw [render, render, Json.render, Json.render, String.toList_ofList, String.toList_ofList,
    if_pos rfl, if_neg Bool.false_ne_true]
  exact Json.strip_pretty 0 report.toJson

/-- Reports with one compact text are equal. -/
theorem render_compact_injective {report other : Report}
    (h : report.render false = other.render false) : report = other := by
  have hvalue : some report.toJson = some other.toJson := by
    rw [← parse_render, ← parse_render, h]
  apply Option.some.inj
  rw [← of_to_json report, ← of_to_json other, Option.some.inj hvalue]

/-- The compact text of a report is read as its members, with their names and nesting, and these are
those of no other report; the indented text differs from it by blanks outside strings only. So
two reports are equal as soon as their texts are, be they compact or indented. -/
theorem text_determines_report (report : Report) :
    Json.parse? (report.render false).toList = some report.toJson ∧
      ofJson? report.toJson = some report ∧
      Json.strip (report.render true).toList = (report.render false).toList ∧
      ∀ (indented : Bool) (other : Report),
        report.render indented = other.render indented ↔ report = other := by
  refine ⟨parse_render report, of_to_json report, strip_render report, fun indented other ↦
    ⟨fun htext ↦ ?_, fun heq ↦ by rw [heq]⟩⟩
  cases indented with
  | false => exact render_compact_injective htext
  | true =>
      -- Equal indented texts stay equal without their blanks.
      apply render_compact_injective
      rw [← String.toList_inj, ← strip_render report, ← strip_render other, htext]

end Report

end MemberReach
