import MemberReach.Registry.Basic
import MemberReach.SourceUnit

/-!
# Collecting the declarations of a project

The registry of some source units is built in two passes. The first walks the type
declarations of every unit in document order and records types and members with their
descriptors as written; declarations of one type merge. The second resolves every recorded
descriptor against the complete set of types.
-/

namespace MemberReach.Registry

/-! ### Identities and parts of declarations -/

/-- The identity of the method that a node declares. -/
def methodIdentity? (c : Cursor) : Option SymbolId := do
  let name ← c.declaredName?
  let owner ← (Scope.of c).typeKey?
  return .method owner name (c.parameters.map Prod.snd)

/-- The node of a base type as written in a base list; constructor arguments are no type. -/
def baseTypeNode? (c : Cursor) : Option Cursor :=
  match c.kind with
  | .argumentList => none
  | .primaryConstructorBaseType => some ((c.child? .type).getD c)
  | _ => some c

/-- The descriptors of the base types that a type declaration names. -/
def baseNames (c : Cursor) : List String :=
  let lists := c.namedChildren.filter fun child ↦ child.kind == .baseList
  ((lists.flatMap Cursor.namedChildren).filterMap baseTypeNode?).map Cursor.descriptor
    |>.filter fun name ↦ !name.isEmpty

/-- Name and type nodes of the positional parameters of a record. -/
def positionalParameters (c : Cursor) : List (Cursor × Cursor) :=
  if c.kind.isRecord then
    match c.parameterList? with
    | none => []
    | some list =>
        (list.namedChildren.filter fun p ↦ p.kind == .parameter).filterMap fun p ↦ do
          return (← p.child? .name, ← p.child? .type)
  else []

/-- The members that the body of a type declaration lists. -/
def members (c : Cursor) : List Cursor :=
  match (c.child? .body).or (c.childOfKind? .declarationList) with
  | none => []
  | some body => body.namedChildren

/-- The node at whose start a declaration is located: its name, or else the whole. -/
def anchor (c : Cursor) : Cursor :=
  (c.child? .name).getD c

/-! ### Recording declarations -/

/-- Changes the declaration of a type, if there is one. -/
def modifyType (r : Registry) (key : TypeKey) (f : TypeDecl → TypeDecl) : Registry :=
  { r with types := r.types.map fun t ↦ if t.key == key then f t else t }

/-- Records a declaration of a type. Later declarations add to the base types of the first. -/
def addType (r : Registry) (key : TypeKey) (bases : List (String × LookupContext)) :
    Registry :=
  if r.isDeclared key then
    r.modifyType key fun t ↦ { t with baseNames := t.baseNames ++ bases }
  else
    { r with types := r.types ++ [⟨key, key.simpleName, bases, [], [], [], []⟩] }

/-- Records a property, unless one of its identity is recorded. -/
def addProperty (r : Registry) (p : PropertyDecl) : Registry :=
  if (r.property? p.symbol.id).isSome then r
  else
    let r := r.modifyType p.symbol.id.owner fun t ↦
      { t with properties := t.properties ++ [p.symbol.id] }
    { r with properties := r.properties ++ [p] }

/-- Records a field of a type. -/
def addField (r : Registry) (key : TypeKey) (field : FieldDecl) : Registry :=
  r.modifyType key fun t ↦ { t with fields := t.fields ++ [field] }

/-- Puts a declaration in the place of the one with its identity. -/
def replaceMethod (r : Registry) (m : MethodDecl) : Registry :=
  { r with
    methods := r.methods.map fun old ↦ if old.symbol.id == m.symbol.id then m else old }

/-- Records a method for the first time: in its type, among the methods and, if it is an
extension method, among those. -/
def addNewMethod (r : Registry) (key : TypeKey) (m : MethodDecl) : Registry :=
  let id := m.symbol.id
  let r := r.modifyType key fun t ↦ { t with methods := t.methods ++ [id] }
  { r with
    methods := r.methods ++ [m]
    extensions := if m.isExtension then r.extensions ++ [id] else r.extensions }

/-- Records a declaration of a method. A later declaration takes the place of an earlier one,
except that a declaration without a body never replaces one that has a body. -/
def addMethod (r : Registry) (key : TypeKey) (m : MethodDecl) : Registry :=
  match r.method? m.symbol.id with
  | none => r.addNewMethod key m
  | some old => if old.hasBody && !m.hasBody then r else r.replaceMethod m

/-! ### The first pass -/

/-- Where the declarations of one type declaration stand. -/
structure Site where
  unitId : Nat
  unit : SourceUnit
  key : TypeKey
  scope : Scope

namespace Site

/-- The place at which the descriptors of the declaration are looked up. -/
def context (site : Site) : LookupContext :=
  ⟨site.unitId, site.scope⟩

/-- A property, located at the node that names it. -/
def property (site : Site) (name : String) (named type : Cursor) : PropertyDecl :=
  { symbol :=
      { id := .property site.key name
        ownerName := site.key.simpleName
        typeName := type.descriptor
        location := site.unit.location named }
    context := site.context
    typeKey := none }

/-- The method that a node declares. -/
def method? (site : Site) (c : Cursor) : Option MethodDecl := do
  let id ← methodIdentity? c
  return {
    symbol :=
      { id := id
        ownerName := site.key.simpleName
        returnType := (c.returnType?.map Cursor.descriptor).getD "void"
        parameters := c.parameters.map fun (name, type) ↦ ⟨name, type⟩
        location := site.unit.location (anchor c) }
    unit := site.unitId
    start := c.start
    stop := c.stop
    hasBody := c.body?.isSome
    isExtension := c.isExtensionMethod
    context := site.context
    returnKey := none
    extendedKey := none }

/-- The fields that a node declares. -/
def fields (site : Site) (c : Cursor) : List FieldDecl :=
  match c.variableDeclaration? with
  | none => []
  | some declaration =>
      let typeName := ((declaration.child? .type).map Cursor.descriptor).getD ""
      (declaration.declarators.filterMap Cursor.identifier?).map fun name ↦
        { name := name, typeName := typeName, context := site.context, typeKey := none }

/-- The property that a node declares. -/
def property? (site : Site) (c : Cursor) : Option PropertyDecl := do
  let name ← c.declaredName?
  let type ← c.child? .type
  return site.property name (anchor c) type

/-- Records the member that a node declares. -/
def collectMember (site : Site) (r : Registry) (c : Cursor) : Registry :=
  match c.kind with
  | .methodDeclaration => ((site.method? c).map (r.addMethod site.key)).getD r
  | .propertyDeclaration => ((site.property? c).map r.addProperty).getD r
  | .fieldDeclaration => (site.fields c).foldl (fun r field ↦ r.addField site.key field) r
  | _ => r

/-- Records a type declaration and its members. The positional parameters of a record are
properties and come first. -/
def collect (site : Site) (r : Registry) (c : Cursor) : Registry :=
  let r := r.addType site.key ((baseNames c).map fun name ↦ (name, site.context))
  -- a property that a parameter declares is the first of its name, so it stays
  let r := (positionalParameters c).foldl
    (fun r (name, type) ↦ r.addProperty (site.property name.text name type)) r
  (members c).foldl site.collectMember r

end Site

/-- Records the type that a node declares, with its members. -/
def collectType (unitId : Nat) (unit : SourceUnit) (r : Registry) (c : Cursor) : Registry :=
  let scope := Scope.of c
  match scope.typeKey? with
  | none => r
  | some key => Site.collect ⟨unitId, unit, key, scope⟩ r c

/-- The type declarations of a unit, in document order. -/
def typeDeclarations (unit : SourceUnit) : List Cursor :=
  unit.root.descendants.filter fun c ↦ c.kind.isTypeDeclaration

/-- Records what a unit imports and declares. -/
def collectUnit (r : Registry) (entry : SourceUnit × Nat) : Registry :=
  let (unit, unitId) := entry
  (typeDeclarations unit).foldl (collectType unitId unit)
    { r with imports := r.imports ++ [Scope.imports unit.root] }

/-! ### The second pass -/

/-- Resolves the base types and the field types of a type. A type is not its own base. -/
def resolveTypeDecl (r : Registry) (t : TypeDecl) : TypeDecl :=
  { t with
    bases := (t.baseNames.filterMap fun (name, context) ↦ r.resolveType? name context).filter
      fun base ↦ base != t.key
    fields := t.fields.map fun field ↦
      { field with typeKey := r.resolveType? field.typeName field.context } }

/-- Resolves the return type of a method and the type that it extends. -/
def resolveMethodDecl (r : Registry) (m : MethodDecl) : MethodDecl :=
  { m with
    returnKey := r.resolveType? m.symbol.returnType m.context
    extendedKey :=
      if m.isExtension then
        m.symbol.parameters.head?.bind fun p ↦ r.resolveType? p.typeName m.context
      else none }

/-- Resolves the type of a property. -/
def resolvePropertyDecl (r : Registry) (p : PropertyDecl) : PropertyDecl :=
  { p with typeKey := r.resolveType? p.symbol.typeName p.context }

/-- Resolves every recorded descriptor. -/
def resolveAll (r : Registry) : Registry :=
  { r with
    types := r.types.map r.resolveTypeDecl
    methods := r.methods.map r.resolveMethodDecl
    properties := r.properties.map r.resolvePropertyDecl }

/-- The declarations of some units with unresolved descriptors. -/
def collectAll (units : List SourceUnit) : Registry :=
  units.zipIdx.foldl collectUnit empty

/-- The registry of everything that some units declare. -/
def build (units : List SourceUnit) : Registry :=
  (collectAll units).resolveAll

end MemberReach.Registry
