import MemberReach.Binding
import MemberReach.Registry.Basic

/-!
# Typing expressions and resolving names

The type of an expression is the declared type that it has, when one can be read off the
declarations around it. Types of receivers, initial values and callees are found by recursion
into other expressions; `limit` bounds how deep that goes, and expressions beyond the limit
have no type. `resolve?` gives the symbol that a name or a member access denotes.
-/

namespace MemberReach.Typing

/-- What expressions are typed against: the declarations of the project, and the place of the
node whose symbol is asked for. -/
structure Env where
  registry : Registry
  context : LookupContext
  deriving Inhabited

namespace Env

/-- The scope of the node whose symbol is asked for. -/
def scope (env : Env) : Scope :=
  env.context.scope

/-- The declared type that a descriptor denotes. -/
def resolveType? (env : Env) (descriptor : String) : Option TypeKey :=
  env.registry.resolveType? descriptor env.context

/-! ### Members -/

/-- The overload of a method that takes the given number of arguments, or else the first. -/
def pickOverload? (env : Env) (key : TypeKey) (name : String) (arguments : Nat) :
    Option MethodSymbol :=
  let found := env.registry.findMethods key name
  ((found.find? fun m ↦ m.symbol.parameters.length == arguments).or found.head?).map
    MethodDecl.symbol

/-- Whether an extension method applies to a receiver. A receiver of a declared type needs an
extension of that type or of one it inherits from; a receiver of any other type needs an
extension of a type that is not declared. -/
def applies (env : Env) (receiver : Option TypeKey) (m : MethodDecl) : Bool :=
  match m.extendedKey, receiver with
  | some target, some key => (env.registry.typeChain key).any fun t ↦ t.key == target
  | none, none => true
  | _, _ => false

/-- The extension method that applies to a receiver and takes the given number of arguments
beside it, or else the first that applies. -/
def pickExtension? (env : Env) (receiver : Option TypeKey) (name : String)
    (arguments : Nat) : Option MethodSymbol :=
  let found := (env.registry.findExtensions name).filter (env.applies receiver)
  ((found.find? fun m ↦ m.symbol.parameters.length == arguments + 1).or found.head?).map
    MethodDecl.symbol

/-- The declared type of the property or field of a name on the enclosing types; the innermost
type that gives one counts. -/
def memberType? (env : Env) (name : String) : Option TypeKey :=
  env.scope.enclosingTypes.findSome? fun key ↦
    match env.registry.findProperty? key name with
    | some property => property.typeKey
    | none => (env.registry.findField? key name).bind FieldDecl.typeKey

/-- The descriptor of the property or field of a name on a type. -/
def memberDescriptor? (env : Env) (key : TypeKey) (name : String) : Option String :=
  match env.registry.findProperty? key name with
  | some property => some property.symbol.typeName
  | none => (env.registry.findField? key name).map FieldDecl.typeName

/-- The declared type of the property, field or nested type of a name on a receiver. -/
def memberTypeOn? (env : Env) (receiver : TypeKey) (name : String) : Option TypeKey :=
  match env.registry.findProperty? receiver name with
  | some property => property.typeKey
  | none =>
      match env.registry.findField? receiver name with
      | some field => field.typeKey
      | none =>
          let nested := TypeKey.nested receiver.path name
          if env.registry.isDeclared nested then some nested else none

/-! ### Symbols -/

/-- The symbol that a member access denotes, given the type of its receiver. A called name is a
method of the receiver or an extension method; any other is a property, or else a method. -/
def accessSymbol? (env : Env) (receiver : Option TypeKey) (name : String) (c : Cursor) :
    Option Symbol :=
  match c.call? with
  | some call =>
      ((receiver.bind fun key ↦ env.pickOverload? key name call.argumentCount).or
        (env.pickExtension? receiver name call.argumentCount)).map .method
  | none => do
      let key ← receiver
      match env.registry.findProperty? key name with
      | some property => some (.property property.symbol)
      | none => (env.registry.findMethods key name).head?.map fun m ↦ .method m.symbol

/-- Name and receiver of a member access. -/
def access? (c : Cursor) : Option (String × Cursor) := do
  return (← (← c.child? .name).simpleName?, ← c.child? .expression)

/-- The symbol that a member access denotes, given how receivers are typed. -/
def memberAccess? (env : Env) (typeOf? : Cursor → Option TypeKey) (c : Cursor) :
    Option Symbol := do
  let (name, receiver) ← access? c
  env.accessSymbol? (typeOf? receiver) name c

/-- The symbol that a simple name denotes. A called name is a method of the innermost enclosing
type that has one; any other is a property of the innermost type, unless it is local. -/
def simpleName? (env : Env) (c : Cursor) : Option Symbol := do
  let name ← c.simpleName?
  let key ← env.scope.typeKey?
  match c.call? with
  | some call =>
      (env.scope.enclosingTypes.findSome? fun key ↦
        env.pickOverload? key name call.argumentCount).map .method
  | none =>
      if (Binding.find? c name).isSome then none
      else (env.registry.findProperty? key name).map fun p ↦ .property p.symbol

/-- The symbol that a node denotes, given how receivers are typed. -/
def symbol? (env : Env) (typeOf? : Cursor → Option TypeKey) (c : Cursor) : Option Symbol :=
  match c.kind with
  | .memberAccessExpression => env.memberAccess? typeOf? c
  | .identifier | .genericName => env.simpleName? c
  | _ => none

/-- The method that a call invokes, given how receivers are typed. -/
def callee? (env : Env) (typeOf? : Cursor → Option TypeKey) (call : Cursor) :
    Option MethodSymbol := do
  match ← env.symbol? typeOf? (← call.child? .function) with
  | .method symbol => some symbol
  | .property _ => none

/-- The declared type of an output argument: that of the parameter it is passed for. A call of
an extension method on a receiver passes the receiver first. -/
def outArgumentType? (env : Env) (typeOf? : Cursor → Option TypeKey) (declaration : Cursor) :
    Option TypeKey := do
  let argument ← declaration.parent?.filter fun parent ↦ parent.kind == .argument
  let list ← argument.parent?
  let call ← list.parent?.filter fun parent ↦ parent.kind == .invocationExpression
  let arguments := list.argumentNodes
  let index ← arguments.findIdx? fun other ↦ other.sameNode argument
  let method ← env.callee? typeOf? call
  let m ← env.registry.method? method.id
  let passesReceiver :=
    m.isExtension && method.parameters.length == arguments.length + 1
  env.registry.parameterType? method.id (if passesReceiver then index + 1 else index)

/-- The declared type that the field `type` of a node denotes. -/
def spelledType? (env : Env) (c : Cursor) : Option TypeKey :=
  (c.child? .type).bind fun type ↦ env.resolveType? type.text

/-- The declared type of the current object as its base type. -/
def baseType? (env : Env) : Option TypeKey := do
  (← env.registry.type? (← env.scope.typeKey?)).bases.head?

end Env

/-! ### Types of expressions -/

mutual

/-- The declared type of an expression at a nesting depth. -/
def typeOf? (env : Env) (limit depth : Nat) (c : Cursor) : Option TypeKey :=
  if _ : limit < depth then none else
  match c.kind with
  | .parenthesizedExpression => (c.namedChild? 0).bind fun inner ↦
      typeOf? env limit (depth + 1) inner
  | .objectCreationExpression | .castExpression => env.spelledType? c
  | .identifier =>
      match Binding.find? c c.text with
      | some (.declared descriptor) => env.resolveType? descriptor
      | some (.initialized value) => typeOf? env limit (depth + 1) value
      | some (.element collection) =>
          ((descriptorOf? env limit (depth + 1) collection).bind Descriptor.elementType?).bind
            env.resolveType?
      | some (.outArgument declaration) =>
          -- one level for the local, and two for the call that it is passed to
          env.outArgumentType? (fun receiver ↦ typeOf? env limit (depth + 3) receiver) declaration
      | none => (env.memberType? c.text).or (env.resolveType? c.text)
  | .genericName | .qualifiedName | .aliasQualifiedName => env.resolveType? c.text
  | .memberAccessExpression =>
      let viaReceiver := (Env.access? c).bind fun (name, receiver) ↦
        (typeOf? env limit (depth + 1) receiver).bind fun key ↦ env.memberTypeOn? key name
      viaReceiver.or (env.resolveType? c.text)
  | .invocationExpression =>
      (env.callee? (fun receiver ↦ typeOf? env limit (depth + 2) receiver) c).bind fun method ↦
        (env.registry.method? method.id).bind MethodDecl.returnKey
  | kind =>
      if kind.isThis then env.scope.typeKey?
      else if kind.isBase then env.baseType?
      else none
termination_by limit + 1 - depth

/-- The descriptor of an expression at a nesting depth, when a declaration spells one out. -/
def descriptorOf? (env : Env) (limit depth : Nat) (c : Cursor) : Option String :=
  if _ : limit < depth then none else
  match c.kind with
  | .parenthesizedExpression => (c.namedChild? 0).bind fun inner ↦
      descriptorOf? env limit (depth + 1) inner
  | .objectCreationExpression | .castExpression | .arrayCreationExpression =>
      (c.child? .type).map Cursor.descriptor
  | .identifier =>
      match Binding.find? c c.text with
      | some (.declared descriptor) => some descriptor
      | some (.initialized value) => descriptorOf? env limit (depth + 1) value
      | some _ => none
      | none => env.scope.typeKey?.bind fun key ↦ env.memberDescriptor? key c.text
  | .memberAccessExpression => (Env.access? c).bind fun (name, receiver) ↦
      (typeOf? env limit (depth + 1) receiver).bind fun key ↦ env.memberDescriptor? key name
  | .invocationExpression =>
      (env.callee? (fun receiver ↦ typeOf? env limit (depth + 2) receiver) c).map
        MethodSymbol.returnType
  | _ => none
termination_by limit + 1 - depth

end

/-- The depth beyond which receiver chains are left untyped. -/
def defaultLimit : Nat :=
  32

/-- The symbol that a node of a unit denotes. -/
def resolve? (registry : Registry) (limit : Nat) (unit : Nat) (c : Cursor) : Option Symbol :=
  let env : Env := ⟨registry, ⟨unit, Scope.of c⟩⟩
  env.symbol? (typeOf? env limit 1) c

end MemberReach.Typing
