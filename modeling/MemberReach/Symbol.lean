import MemberReach.Text

/-!
# Symbols

Types, methods and properties that a project declares. A symbol is identified by its
`SymbolId`, which is read off the declaration and not off any occurrence, so every
reference to one declaration has the same identity. Identities are totally ordered: by
kind, owner, name and parameter types, texts by their characters.
-/

namespace MemberReach

open Std Text

/-- The qualified name of a declared type, such as `Ns.Outer.Inner`. -/
structure TypeKey where
  path : String
  deriving DecidableEq, Repr, Inhabited

namespace TypeKey

/-- The key of a type with the given enclosing namespaces and types, outermost first, its own
name last. -/
def ofParts (spaces types : List String) : TypeKey :=
  ⟨join "." (spaces ++ types)⟩

/-- The last segment of a key, which is the type's own name. -/
def simpleName (key : TypeKey) : String :=
  ((pieces '.' key.path).getLast?).getD key.path

/-- The key of a type called `name` below `outer`. -/
def nested (outer name : String) : TypeKey :=
  ⟨outer ++ "." ++ name⟩

instance : Ord TypeKey := ⟨compareOn TypeKey.path⟩

instance : TransOrd TypeKey := inferInstanceAs (TransCmp (compareOn TypeKey.path))

instance : LawfulEqOrd TypeKey where
  eq_of_compare {a b} h := by
    cases a
    cases b
    exact congrArg TypeKey.mk (LawfulEqOrd.eq_of_compare (α := String) h)

end TypeKey

/-- What a member is. -/
inductive SymbolKind where
  | method
  | property
  deriving DecidableEq, Repr, Inhabited

namespace SymbolKind

/-- Methods come before properties. -/
def rank : SymbolKind → Nat
  | method => 0
  | property => 1

instance : Ord SymbolKind := ⟨compareOn rank⟩

instance : TransOrd SymbolKind := inferInstanceAs (TransCmp (compareOn rank))

instance : LawfulEqOrd SymbolKind where
  eq_of_compare {a b} h := by
    revert h
    cases a <;> cases b <;> decide

end SymbolKind

/-- The identity of a declared member. Parameter types are part of a method's identity, so
overloads stay apart; a property has none. -/
structure SymbolId where
  kind : SymbolKind
  owner : TypeKey
  name : String
  parameterTypes : List String
  deriving DecidableEq, Repr, Inhabited

namespace SymbolId

/-- The identity of a method. -/
def method (owner : TypeKey) (name : String) (parameterTypes : List String) : SymbolId :=
  ⟨.method, owner, name, parameterTypes⟩

/-- The identity of a property. -/
def property (owner : TypeKey) (name : String) : SymbolId :=
  ⟨.property, owner, name, []⟩

/-- A method is written with its parameter types, a property without. -/
def display (id : SymbolId) : String :=
  match id.kind with
  | .method =>
      id.owner.path ++ "." ++ id.name ++ "(" ++ join ", " id.parameterTypes ++ ")"
  | .property => id.owner.path ++ "." ++ id.name

/-- The comparison of two identities, field by field. -/
def order : SymbolId → SymbolId → Ordering :=
  compareLex (compareOn SymbolId.kind)
    (compareLex (compareOn SymbolId.owner)
      (compareLex (compareOn SymbolId.name) (compareOn SymbolId.parameterTypes)))

instance : Ord SymbolId := ⟨order⟩

instance : TransOrd SymbolId :=
  inferInstanceAs (TransCmp (compareLex (compareOn SymbolId.kind)
    (compareLex (compareOn SymbolId.owner)
      (compareLex (compareOn SymbolId.name) (compareOn SymbolId.parameterTypes)))))

instance : LawfulEqOrd SymbolId where
  eq_of_compare {a b} h := by
    obtain ⟨kind, owner, name, types⟩ := a
    obtain ⟨kind', owner', name', types'⟩ := b
    change order _ _ = .eq at h
    simp only [order, compareLex, compareOn, Ordering.then_eq_eq] at h
    obtain ⟨hkind, howner, hname, htypes⟩ := h
    have hkind := LawfulEqOrd.eq_of_compare (α := SymbolKind) hkind
    have howner := LawfulEqOrd.eq_of_compare (α := TypeKey) howner
    have hname := LawfulEqOrd.eq_of_compare (α := String) hname
    have htypes := LawfulEqOrd.eq_of_compare (α := List String) htypes
    subst hkind howner hname htypes
    rfl

end SymbolId

/-- A place in a source file; lines and columns count from one, columns in bytes. -/
structure Location where
  file : String
  line : Nat
  column : Nat
  deriving DecidableEq, Repr, Inhabited

namespace Location

/-- File, line and column with colons between them. -/
def display (location : Location) : String :=
  location.file ++ ":" ++ decimal location.line ++ ":" ++ decimal location.column

end Location

/-- A declared parameter; the type is the descriptor as written, normalised. -/
structure Parameter where
  name : String
  typeName : String
  deriving DecidableEq, Repr, Inhabited

/-- A declared method. `ownerName` is the simple name of the declaring type. -/
structure MethodSymbol where
  id : SymbolId
  ownerName : String
  returnType : String
  parameters : List Parameter
  location : Location
  deriving DecidableEq, Repr, Inhabited

/-- A declared property. `ownerName` is the simple name of the declaring type. -/
structure PropertySymbol where
  id : SymbolId
  ownerName : String
  typeName : String
  location : Location
  deriving DecidableEq, Repr, Inhabited

/-- The simple name of the declaring type and the method's own name. -/
def MethodSymbol.fullName (method : MethodSymbol) : String :=
  method.ownerName ++ "." ++ method.id.name

/-- The simple name of the declaring type and the property's own name. -/
def PropertySymbol.fullName (property : PropertySymbol) : String :=
  property.ownerName ++ "." ++ property.id.name

/-- What a name or a member access denotes. -/
inductive Symbol where
  | method (symbol : MethodSymbol)
  | property (symbol : PropertySymbol)
  deriving DecidableEq, Repr

end MemberReach
