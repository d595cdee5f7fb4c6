import MemberReach.Scope

/-!
# The registry of declared types and members

A registry holds every type, method, property and field that the source units of a project
declare, in the order in which they are first met, and answers questions about them: which
declared type a descriptor denotes, what a type inherits, and which members a name finds on
a type and its bases.
-/

namespace MemberReach

open Text

/-- Where a descriptor is written: the position of its source unit and its scope. -/
structure LookupContext where
  unit : Nat
  scope : Scope
  deriving DecidableEq, Repr, Inhabited

/-- A declared field; `typeKey` is the declared type that its descriptor denotes. -/
structure FieldDecl where
  name : String
  typeName : String
  context : LookupContext
  typeKey : Option TypeKey
  deriving DecidableEq, Repr, Inhabited

/-- A declared property; `typeKey` is the declared type that its descriptor denotes. -/
structure PropertyDecl where
  symbol : PropertySymbol
  context : LookupContext
  typeKey : Option TypeKey
  deriving DecidableEq, Repr, Inhabited

/-- A declared method: the unit and the bytes of its declaration, whether it has a body, and
the declared types that it returns and, as an extension method, extends. -/
structure MethodDecl where
  symbol : MethodSymbol
  unit : Nat
  start : Nat
  stop : Nat
  hasBody : Bool
  isExtension : Bool
  context : LookupContext
  returnKey : Option TypeKey
  extendedKey : Option TypeKey
  deriving DecidableEq, Repr, Inhabited

/-- A declared type, merged from all its declarations: the base types as written and as
resolved, and its members in the order of their first declaration. -/
structure TypeDecl where
  key : TypeKey
  name : String
  baseNames : List (String × LookupContext)
  bases : List TypeKey
  methods : List SymbolId
  properties : List SymbolId
  fields : List FieldDecl
  deriving DecidableEq, Repr, Inhabited

/-- Every type and member that a project declares. `extensions` lists the extension methods
in the order of their first declaration, `imports` the imported namespaces of each unit. -/
structure Registry where
  types : List TypeDecl
  methods : List MethodDecl
  properties : List PropertyDecl
  extensions : List SymbolId
  imports : List (List String)
  deriving Inhabited

namespace Registry

/-- The registry without declarations. -/
def empty : Registry :=
  ⟨[], [], [], [], []⟩

/-- The declaration of a type. -/
def type? (r : Registry) (key : TypeKey) : Option TypeDecl :=
  r.types.find? fun t ↦ t.key == key

/-- The declaration of a method. -/
def method? (r : Registry) (id : SymbolId) : Option MethodDecl :=
  r.methods.find? fun m ↦ m.symbol.id == id

/-- The declaration of a property. -/
def property? (r : Registry) (id : SymbolId) : Option PropertyDecl :=
  r.properties.find? fun p ↦ p.symbol.id == id

/-- Whether a type is declared in the project. -/
def isDeclared (r : Registry) (key : TypeKey) : Bool :=
  (r.type? key).isSome

/-- The number of declared types. -/
def typeCount (r : Registry) : Nat :=
  r.types.length

/-- The number of declared methods. -/
def methodCount (r : Registry) : Nat :=
  r.methods.length

/-! ### Descriptors -/

/-- The keys that a dotted name may stand for without imports: the name itself, then the name
below each enclosing namespace, innermost first. -/
def qualifiedCandidates (scope : Scope) (name : String) : List TypeKey :=
  ⟨name⟩ :: (Scope.prefixes scope.spaces).map fun spaces ↦ .nested (join "." spaces) name

/-- The namespaces that a unit imports. -/
def importsOf (r : Registry) (unit : Nat) : List String :=
  (r.imports[unit]?).getD []

/-- The keys that a name may stand for, in the order in which they are tried; types below the
imported namespaces come last. -/
def candidates (r : Registry) (context : LookupContext) (name : String) : List TypeKey :=
  (if name.toList.contains '.' then qualifiedCandidates context.scope name
    else context.scope.candidates name) ++
    (r.importsOf context.unit).map fun space ↦ .nested space name

/-- The declared type that a descriptor denotes where it is written. -/
def resolveType? (r : Registry) (descriptor : String) (context : LookupContext) :
    Option TypeKey := do
  let name ← Descriptor.lookupName? descriptor
  (r.candidates context name).find? r.isDeclared

/-! ### Inheritance -/

/-- The number of base types of the types that are not in `seen`. -/
def openBases (seen : List TypeKey) : List TypeDecl → Nat
  | [] => 0
  | t :: rest => (if t.key ∈ seen then 0 else t.bases.length) + openBases seen rest

/-- Seeing one more type cannot open new base types. -/
theorem open_bases_cons_le (key : TypeKey) (seen : List TypeKey) (types : List TypeDecl) :
    openBases (key :: seen) types ≤ openBases seen types := by
  induction types with
  | nil => exact Nat.le_refl _
  | cons t rest ih =>
      simp only [openBases, List.mem_cons]
      by_cases hkey : t.key = key <;> by_cases hseen : t.key ∈ seen <;> simp [hkey, hseen] <;>
        omega

/-- Seeing a type closes at least its own base types. -/
theorem open_bases_cons_add_le {types : List TypeDecl} {t : TypeDecl} {seen : List TypeKey}
    (hmem : t ∈ types) (hseen : t.key ∉ seen) :
    openBases (t.key :: seen) types + t.bases.length ≤ openBases seen types := by
  induction types with
  | nil => cases hmem
  | cons u rest ih =>
      simp only [openBases, List.mem_cons]
      rcases List.mem_cons.1 hmem with rfl | hmem
      · have h := open_bases_cons_le t.key seen rest
        simp [hseen]
        omega
      · have h := ih hmem
        by_cases hkey : u.key = t.key <;> by_cases hu : u.key ∈ seen <;> simp [hkey, hu] <;>
          omega

/-- The declarations of the types on a stack and of all that they inherit from, each once:
the top of the stack first, and its bases take its place. Types in `seen` are left out. -/
def chainFrom (r : Registry) (seen : List TypeKey) : List TypeKey → List TypeDecl
  | [] => []
  | key :: rest =>
      if _ : key ∈ seen then r.chainFrom seen rest
      else
        match _ : r.type? key with
        | none => r.chainFrom (key :: seen) rest
        | some t => t :: r.chainFrom (key :: seen) (t.bases ++ rest)
termination_by stack => openBases seen r.types + stack.length
decreasing_by
  · simp
  · have h := open_bases_cons_le key seen r.types
    simp
    omega
  · rename_i hseen htype
    have hkey : t.key = key := by simpa using List.find?_some htype
    have h := open_bases_cons_add_le (List.mem_of_find?_eq_some htype) (hkey ▸ hseen)
    rw [hkey] at h
    simp
    omega

/-- A type followed by the types it inherits from, depth first, each once. -/
def typeChain (r : Registry) (key : TypeKey) : List TypeDecl :=
  r.chainFrom [] [key]

/-! ### Members -/

/-- The methods of a name on a type and its bases, most derived first. -/
def findMethods (r : Registry) (key : TypeKey) (name : String) : List MethodDecl :=
  ((r.typeChain key).flatMap TypeDecl.methods).filter (fun id ↦ id.name == name)
    |>.filterMap r.method?

/-- The first property of a name on a type and its bases. -/
def findProperty? (r : Registry) (key : TypeKey) (name : String) : Option PropertyDecl :=
  (((r.typeChain key).flatMap TypeDecl.properties).find? fun id ↦ id.name == name)
    |>.bind r.property?

/-- The first field of a name on a type and its bases. -/
def findField? (r : Registry) (key : TypeKey) (name : String) : Option FieldDecl :=
  ((r.typeChain key).flatMap TypeDecl.fields).find? fun field ↦ field.name == name

/-- The extension methods of a name, in order of declaration. -/
def findExtensions (r : Registry) (name : String) : List MethodDecl :=
  (r.extensions.filter fun id ↦ id.name == name).filterMap r.method?

/-- The declared type of a parameter, by position. -/
def parameterType? (r : Registry) (id : SymbolId) (index : Nat) : Option TypeKey := do
  let m ← r.method? id
  let parameter ← m.symbol.parameters[index]?
  r.resolveType? parameter.typeName m.context

end Registry

end MemberReach
