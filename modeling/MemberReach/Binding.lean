import MemberReach.Tree.Declaration

/-!
# Local names

The binding of a name at a node is the parameter or local declaration that the name refers
to there. Parameters of the enclosing functions come first, innermost function first; after
them the last visible local declaration that starts before the node, in document order.
-/

namespace MemberReach

/-- How a parameter or local is declared: with a descriptor (`var` where nothing better is
known), with an initial value, as the element of a collection, or as an output argument. -/
inductive Binding where
  | declared (descriptor : String)
  | initialized (value : Cursor)
  | element (collection : Cursor)
  | outArgument (declaration : Cursor)

namespace Binding

/-- The descriptor that leaves the type of a local open. -/
def inferred : String :=
  "var"

/-- The nodes above a node within the same member, innermost first. -/
def enclosing (c : Cursor) : List Cursor :=
  c.ancestors.takeWhile fun n ↦ !n.kind.endsMember

/-- The member around a node: the last node above it that is still part of the member. -/
def member (c : Cursor) : Cursor :=
  (enclosing c).getLast?.getD c

/-- The type of the parameter called `name` of a function. -/
def parameterOf? (name : String) (c : Cursor) : Option String :=
  if c.kind.isFunction then
    (c.parameters.find? fun p ↦ p.1 == name).map Prod.snd
  else none

/-- The type of the innermost parameter called `name` that is visible at a node. -/
def parameterType? (c : Cursor) (name : String) : Option String :=
  (enclosing c).findSome? (parameterOf? name)

/-- The descriptor in the field `type` of a node. -/
def writtenType (c : Cursor) : String :=
  ((c.child? .type).map Cursor.descriptor).getD inferred

/-- A declared type, or what stands for it if the type is left open. -/
def orInferred (descriptor : String) (source : Option Binding) : Binding :=
  if descriptor == inferred then source.getD (.declared descriptor) else .declared descriptor

/-- Type and name of a declaration pattern or declaration expression. -/
def designation? (c : Cursor) : Option (Cursor × Cursor) := do
  let type ← (c.child? .type).or (c.namedChild? 0)
  let name ← (c.child? .name).or c.namedChildren.getLast?
  if name.sameNode type then none else
  match name.kind with
  | .identifier => some (type, name)
  | .singleVariableDesignation => some (type, (name.namedChild? 0).getD name)
  | _ => none

/-- How a declarator declares `name`. -/
def ofDeclarator? (name : String) (c : Cursor) : Option Binding :=
  if c.identifier? == some name then
    let type := (c.parent?.map writtenType).getD inferred
    some (orInferred type (c.initializer?.map .initialized))
  else none

/-- How a declaration pattern or declaration expression declares `name`. -/
def ofDesignation? (name : String) (c : Cursor) : Option Binding := do
  let (type, designated) ← designation? c
  if designated.text == name then
    let source := if c.kind == .declarationExpression then some (.outArgument c) else none
    some (orInferred type.descriptor source)
  else none

/-- How a loop over a collection declares `name`. -/
def ofLoop? (name : String) (c : Cursor) : Option Binding :=
  if (c.child? .left).any fun left ↦ left.text == name then
    some (orInferred (writtenType c) ((c.child? .right).map .element))
  else none

/-- How a node declares `name`, if it declares it. -/
def declaredBy? (name : String) (c : Cursor) : Option Binding :=
  match c.kind with
  | .variableDeclarator => ofDeclarator? name c
  | .declarationPattern | .declarationExpression => ofDesignation? name c
  | .foreachStatement => ofLoop? name c
  | _ => none

/-- The node that bounds the visibility of a local. -/
def localScope? (c : Cursor) : Option Cursor :=
  c.ancestors.find? fun n ↦ n.kind.isLocalScope

/-- Whether what a node declares is visible at another node. A loop variable is visible inside
its loop; any other local inside the scope around it, but not in its own declaration. -/
def isVisibleAt (declaration c : Cursor) : Bool :=
  match declaration.kind with
  | .foreachStatement => declaration.encloses c
  | _ => (localScope? declaration).all (fun scope ↦ scope.encloses c) && !declaration.encloses c

/-- The binding of `name` that a declaration gives at a node. -/
def givenBy? (c : Cursor) (name : String) (declaration : Cursor) : Option Binding :=
  (declaredBy? name declaration).filter fun _ ↦ isVisibleAt declaration c

/-- The nodes of a member that start before a node. -/
def earlier (c : Cursor) : List Cursor :=
  (member c).descendants.takeWhile fun n ↦ decide (n.start < c.start)

/-- The local declaration of `name` that is visible at a node; the last one counts. -/
def local? (c : Cursor) (name : String) : Option Binding :=
  ((earlier c).filterMap (givenBy? c name)).getLast?

/-- The binding of `name` at a node. -/
def find? (c : Cursor) (name : String) : Option Binding :=
  ((parameterType? c name).map .declared).or (local? c name)

end Binding

end MemberReach
