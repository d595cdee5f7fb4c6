import MemberReach.Symbol
import MemberReach.Tree.Declaration

/-!
# Scopes

The scope of a node is the list of the namespaces and the list of the types it is declared
in. A scope has a key for each of its types and orders the keys that a simple type name may
stand for. The module also reads the namespaces that a file imports.
-/

namespace MemberReach

open Text

/-- Enclosing namespaces and types of a node, outermost first. -/
structure Scope where
  spaces : List String
  types : List String
  deriving DecidableEq, Repr, Inhabited

namespace Scope

/-- The segments of a dotted name, trimmed; empty ones are left out. -/
def namespaceParts (name : String) : List String :=
  ((pieces '.' name).map trimmed).filter fun part ↦ !part.isEmpty

/-- The type that a node declares, if it declares a named one. -/
def declaredType? (c : Cursor) : Option String :=
  if c.kind.isTypeDeclaration then c.declaredName? else none

/-- The segments of the field `name`. -/
def nameParts (c : Cursor) : List String :=
  ((c.child? .name).map fun name ↦ namespaceParts name.text).getD []

/-- The namespace segments that a node opens for what is below it. -/
def openedSpaces (c : Cursor) : List String :=
  match c.kind with
  | .namespaceDeclaration | .fileScopedNamespaceDeclaration => nameParts c
  | _ => []

/-- The segments of a file-scoped namespace that stands beside the declarations of a file. -/
def siblingSpaces (root : Cursor) : List String :=
  ((root.childOfKind? .fileScopedNamespaceDeclaration).map nameParts).getD []

/-- The scope of a node; a type declaration belongs to its own scope. A file-scoped namespace
either encloses the node or, failing that, stands directly below the root. -/
def of (c : Cursor) : Scope :=
  -- the node itself counts, so the scope of a type is the scope of its members
  let outermostFirst := (c :: c.ancestors).reverse
  let inFileScope := outermostFirst.any fun n ↦ n.kind == .fileScopedNamespaceDeclaration
  { spaces :=
      (if inFileScope then [] else siblingSpaces c.root) ++ outermostFirst.flatMap openedSpaces
    types := outermostFirst.filterMap declaredType? }

/-- The key of the innermost type, if there is one. -/
def typeKey? (scope : Scope) : Option TypeKey :=
  if scope.types.isEmpty then none else some (.ofParts scope.spaces scope.types)

/-- The nonempty prefixes of a list, longest first. -/
def prefixes {α : Type} (l : List α) : List (List α) :=
  ((List.range l.length).map fun n ↦ l.take (n + 1)).reverse

/-- The keys of the types of a scope, innermost first. -/
def enclosingTypes (scope : Scope) : List TypeKey :=
  (prefixes scope.types).map (.ofParts scope.spaces)

/-- The keys that a simple type name may stand for, innermost first: a type nested in one of the
enclosing types, then a type of one of the enclosing namespaces or of none. -/
def candidates (scope : Scope) (name : String) : List TypeKey :=
  ((prefixes scope.types).map fun types ↦ .ofParts scope.spaces (types ++ [name])) ++
    (prefixes scope.spaces ++ [[]]).map fun spaces ↦ .ofParts spaces [name]

/-- The namespace that the text of an import names; aliases and static imports name none. -/
def importedNamespace? (directive : String) : Option String :=
  let text := dropEndWhile (· == ';') (trim directive.toList)
  if text.contains '=' then none else
  let names := (words text).filter fun w ↦ w != "global".toList && w != "using".toList
  if names.head? == some "static".toList then none else
  let name := names.flatten
  if name.isEmpty then none
  else some (String.ofList (dropMarkers Descriptor.globalMarker name))

/-- The namespaces that a file imports, in order. -/
def imports (root : Cursor) : List String :=
  (root.descendants.filter fun c ↦ c.kind == .usingDirective)
    |>.filterMap fun c ↦ importedNamespace? c.text

end Scope

end MemberReach
