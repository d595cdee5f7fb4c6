import MemberReach.Descriptor
import MemberReach.Tree.Node

/-!
# Reading declarations and calls off a tree

What a node of a tree declares or calls: names, return types, bodies, parameters,
declarators with their initialisers, and the arguments of a call. Grammars differ in where
they hang a part, so most parts are looked for as a field first and by kind after that.
-/

namespace MemberReach.Cursor

/-- The declared name; an empty name counts as none. -/
def declaredName? (c : Cursor) : Option String :=
  ((c.child? .name).map text).filter fun name ↦ !name.isEmpty

/-- The descriptor that a node spells out. -/
def descriptor (c : Cursor) : String :=
  Descriptor.normalize c.text

/-- The text of the field `name`, or of the first identifier below. -/
def identifier? (c : Cursor) : Option String :=
  match c.child? .name with
  | some name => some name.text
  | none => (c.childOfKind? .identifier).map text

/-- The identifier of a simple name, with or without type arguments. -/
def simpleName? (c : Cursor) : Option String :=
  match c.kind with
  | .identifier => some c.text
  | .genericName => c.identifier?
  | _ => none

/-- The return type of a method or local function. -/
def returnType? (c : Cursor) : Option Cursor :=
  (c.child? .returns).or (c.child? .type)

/-- The executable body: a block or an arrow clause. -/
def body? (c : Cursor) : Option Cursor :=
  ((c.child? .body).filter fun body ↦ body.kind != .semicolon).or
    (c.childOfKind? .arrowExpressionClause)

/-- The list that holds the parameters. -/
def parameterList? (c : Cursor) : Option Cursor :=
  (c.child? .parameters).or (c.childOfKind? .parameterList)

/-- The parts of a parameter other than attributes, modifiers and default value. -/
def parameterParts (c : Cursor) : List Cursor :=
  c.namedChildren.filter fun part ↦
    match part.kind with
    | .attributeList | .modifier | .parameterModifier | .equalsValueClause => false
    | _ => true

/-- Name and type of a parameter. Without the fields for them, the last part is the name and,
if there are two parts or more, the first is the type; a missing type is empty. -/
def parameter? (c : Cursor) : Option (String × String) := do
  let parts := c.parameterParts
  let name ← ((c.child? .name).or parts.getLast?).map text
  let first := if parts.length ≥ 2 then parts.head? else none
  return (name, (((c.child? .type).or first).map descriptor).getD "")

/-- Names and types of the parameters, in order. -/
def parameters (c : Cursor) : List (String × String) :=
  match c.parameterList? with
  | none => []
  | some list =>
      (list.namedChildren.filter fun p ↦ p.kind == .parameter || p.kind == .parameterArray)
        |>.filterMap parameter?

/-- The first part of the first parameter that is not an attribute list. -/
def leadingPart? (c : Cursor) : Option Cursor := do
  let first ← (← c.parameterList?).childOfKind? .parameter
  first.children.find? fun part ↦ part.kind != .attributeList

/-- Whether the first parameter carries the modifier of an extension method. -/
def isExtensionMethod (c : Cursor) : Bool :=
  c.leadingPart?.any fun part ↦ part.text == "this"

/-- The initialiser of a declarator: what follows its equals sign. -/
def initializer? (c : Cursor) : Option Cursor :=
  match c.childOfKind? .equalsValueClause with
  | some clause => clause.namedChild? 0
  | none => c.namedChildren.tail.find? fun part ↦ part.kind != .bracketedArgumentList

/-- The declarators of a variable declaration. -/
def declarators (c : Cursor) : List Cursor :=
  c.namedChildren.filter fun child ↦ child.kind == .variableDeclarator

/-- The variable declaration of a field or of a local declaration. -/
def variableDeclaration? (c : Cursor) : Option Cursor :=
  c.childOfKind? .variableDeclaration

/-- The arguments in an argument list. -/
def argumentNodes (c : Cursor) : List Cursor :=
  c.namedChildren.filter fun child ↦ child.kind == .argument

/-- The number of arguments of a call. -/
def argumentCount (c : Cursor) : Nat :=
  ((c.child? .arguments).map fun list ↦ list.argumentNodes.length).getD 0

/-- The call whose callee a node is. -/
def call? (c : Cursor) : Option Cursor :=
  c.parent?.filter fun parent ↦
    parent.kind == .invocationExpression &&
      (parent.child? .function).any fun function ↦ function.sameNode c

/-- Whether a node is the callee of its parent. -/
def isCallee (c : Cursor) : Bool :=
  c.call?.isSome

end MemberReach.Cursor
