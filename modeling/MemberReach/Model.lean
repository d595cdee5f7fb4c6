import MemberReach.Error
import MemberReach.Registry.Collect
import MemberReach.Typing

/-!
# The model of a project

A model is the source units of a project with the registry of what they declare. It finds
the seed of an analysis and answers, through a `Resolver`, the questions that the closure
asks: what a node denotes, which types are declared, and where the body of a method is. A
resolver may be told to treat declared types as external and to hide methods.
-/

namespace MemberReach

/-- A method declaration found by identity, with its executable body if it has one. -/
structure MethodBody where
  unit : Nat
  declaration : Cursor
  body : Option Cursor

/-- Answers about symbols and types. What a resolver cannot answer is out of scope. -/
structure Resolver where
  symbol? : Nat → Cursor → Option Symbol
  isDeclared : TypeKey → Bool
  isTarget : String → Bool
  methodBody? : MethodSymbol → Option MethodBody

/-- Source units and the registry of what they declare. -/
structure Model where
  units : List SourceUnit
  registry : Registry

/-- The first method declaration with some bytes among a node and those above it. -/
def Cursor.climb (c : Cursor) (start stop : Nat) : Option Cursor :=
  (c :: c.ancestors).find? fun d ↦
    d.named && d.kind == .methodDeclaration && d.start == start && d.stop == stop

namespace Model

/-- The model of some source units. -/
def ofUnits (units : List SourceUnit) : Model :=
  ⟨units, .build units⟩

/-- The method declarations of a unit, in document order. -/
def methodDeclarations (unit : SourceUnit) : List Cursor :=
  unit.root.descendants.filter fun c ↦ c.kind == .methodDeclaration

/-- The symbol of the first method called `name` that a unit declares, in document order. -/
def findSeed (model : Model) (unitId : Nat) (name : String) :
    Except AnalysisError MethodSymbol :=
  match model.units[unitId]? with
  | none => .error (.unknownUnit unitId)
  | some unit =>
      match (methodDeclarations unit).find? fun c ↦ c.declaredName? == some name with
      | none => .error (.seedMethodNotFound unit.path name)
      | some declaration =>
          match (Registry.methodIdentity? declaration).bind model.registry.method? with
          | none => .error (.seedSymbolUnresolved unit.path name)
          | some m => .ok m.symbol

/-- The symbol that a node of a unit denotes. -/
def symbol? (model : Model) (unitId : Nat) (c : Cursor) : Option Symbol :=
  if unitId < model.units.length then
    Typing.resolve? model.registry Typing.defaultLimit unitId c
  else none

/-- The method declaration with some bytes of a unit: the first on the way up from the innermost
node around them. -/
def methodAt? (unit : SourceUnit) (start stop : Nat) : Option Cursor :=
  (unit.root.innermostAround start stop).climb start stop

/-- The declaration of a method, found by its unit and its bytes. -/
def methodBody? (model : Model) (method : MethodSymbol) : Option MethodBody := do
  let m ← model.registry.method? method.id
  let unit ← model.units[m.unit]?
  let declaration ← methodAt? unit m.start m.stop
  return ⟨m.unit, declaration, declaration.body?⟩

/-- The answers of a model, with some types external and some methods hidden. -/
def resolver (model : Model) (external : TypeKey → Bool) (hidden : SymbolId → Bool) :
    Resolver :=
  { symbol? := model.symbol?
    isDeclared := fun key ↦ model.registry.isDeclared key && !external key
    isTarget := Descriptor.isTarget
    methodBody? := fun method ↦ if hidden method.id then none else model.methodBody? method }

end Model

end MemberReach
