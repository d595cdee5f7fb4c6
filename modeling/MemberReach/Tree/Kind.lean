/-!
# Kinds and fields of tree nodes

The grammar gives every node of a tree a kind, and some nodes a field: the part they play
in their parent. The kinds and fields that the analysis looks at have a constructor of
their own; every other one keeps its name.
-/

namespace MemberReach

/-- The kind of a node. -/
inductive Kind where
  | classDeclaration
  | structDeclaration
  | interfaceDeclaration
  | recordDeclaration
  | recordStructDeclaration
  | enumDeclaration
  | compilationUnit
  | namespaceDeclaration
  | fileScopedNamespaceDeclaration
  | usingDirective
  | declarationList
  | baseList
  | primaryConstructorBaseType
  | methodDeclaration
  | constructorDeclaration
  | propertyDeclaration
  | fieldDeclaration
  | eventFieldDeclaration
  | delegateDeclaration
  | operatorDeclaration
  | indexerDeclaration
  | localFunctionStatement
  | parameterList
  | parameter
  | parameterArray
  | parameterModifier
  | modifier
  | attributeList
  | equalsValueClause
  | arrowExpressionClause
  | localDeclarationStatement
  | variableDeclaration
  | variableDeclarator
  | bracketedArgumentList
  | declarationPattern
  | declarationExpression
  | singleVariableDesignation
  | foreachStatement
  | block
  | switchSection
  | switchExpressionArm
  | forStatement
  | usingStatement
  | fixedStatement
  | catchClause
  | identifier
  | genericName
  | qualifiedName
  | aliasQualifiedName
  | invocationExpression
  | argumentList
  | argument
  | memberAccessExpression
  | parenthesizedExpression
  | objectCreationExpression
  | arrayCreationExpression
  | castExpression
  | lambdaExpression
  | anonymousMethodExpression
  | thisExpression
  | baseExpression
  | thisToken
  | baseToken
  | semicolon
  | comment
  | other (name : String)
  deriving DecidableEq, Repr, Inhabited

namespace Kind

/-- The kinds with a constructor of their own. -/
def known : List Kind :=
  [.classDeclaration, .structDeclaration, .interfaceDeclaration, .recordDeclaration,
    .recordStructDeclaration, .enumDeclaration, .compilationUnit, .namespaceDeclaration,
    .fileScopedNamespaceDeclaration, .usingDirective, .declarationList, .baseList,
    .primaryConstructorBaseType, .methodDeclaration, .constructorDeclaration,
    .propertyDeclaration, .fieldDeclaration, .eventFieldDeclaration, .delegateDeclaration,
    .operatorDeclaration, .indexerDeclaration, .localFunctionStatement, .parameterList,
    .parameter, .parameterArray, .parameterModifier, .modifier, .attributeList,
    .equalsValueClause, .arrowExpressionClause, .localDeclarationStatement,
    .variableDeclaration, .variableDeclarator, .bracketedArgumentList, .declarationPattern,
    .declarationExpression, .singleVariableDesignation, .foreachStatement, .block,
    .switchSection, .switchExpressionArm, .forStatement, .usingStatement, .fixedStatement,
    .catchClause, .identifier, .genericName, .qualifiedName, .aliasQualifiedName,
    .invocationExpression, .argumentList, .argument, .memberAccessExpression,
    .parenthesizedExpression, .objectCreationExpression, .arrayCreationExpression,
    .castExpression, .lambdaExpression, .anonymousMethodExpression, .thisExpression,
    .baseExpression, .thisToken, .baseToken, .semicolon, .comment]

/-- The name that the grammar has for a kind. -/
def name : Kind → String
  | classDeclaration => "class_declaration"
  | structDeclaration => "struct_declaration"
  | interfaceDeclaration => "interface_declaration"
  | recordDeclaration => "record_declaration"
  | recordStructDeclaration => "record_struct_declaration"
  | enumDeclaration => "enum_declaration"
  | compilationUnit => "compilation_unit"
  | namespaceDeclaration => "namespace_declaration"
  | fileScopedNamespaceDeclaration => "file_scoped_namespace_declaration"
  | usingDirective => "using_directive"
  | declarationList => "declaration_list"
  | baseList => "base_list"
  | primaryConstructorBaseType => "primary_constructor_base_type"
  | methodDeclaration => "method_declaration"
  | constructorDeclaration => "constructor_declaration"
  | propertyDeclaration => "property_declaration"
  | fieldDeclaration => "field_declaration"
  | eventFieldDeclaration => "event_field_declaration"
  | delegateDeclaration => "delegate_declaration"
  | operatorDeclaration => "operator_declaration"
  | indexerDeclaration => "indexer_declaration"
  | localFunctionStatement => "local_function_statement"
  | parameterList => "parameter_list"
  | parameter => "parameter"
  | parameterArray => "parameter_array"
  | parameterModifier => "parameter_modifier"
  | modifier => "modifier"
  | attributeList => "attribute_list"
  | equalsValueClause => "equals_value_clause"
  | arrowExpressionClause => "arrow_expression_clause"
  | localDeclarationStatement => "local_declaration_statement"
  | variableDeclaration => "variable_declaration"
  | variableDeclarator => "variable_declarator"
  | bracketedArgumentList => "bracketed_argument_list"
  | declarationPattern => "declaration_pattern"
  | declarationExpression => "declaration_expression"
  | singleVariableDesignation => "single_variable_designation"
  | foreachStatement => "foreach_statement"
  | block => "block"
  | switchSection => "switch_section"
  | switchExpressionArm => "switch_expression_arm"
  | forStatement => "for_statement"
  | usingStatement => "using_statement"
  | fixedStatement => "fixed_statement"
  | catchClause => "catch_clause"
  | identifier => "identifier"
  | genericName => "generic_name"
  | qualifiedName => "qualified_name"
  | aliasQualifiedName => "alias_qualified_name"
  | invocationExpression => "invocation_expression"
  | argumentList => "argument_list"
  | argument => "argument"
  | memberAccessExpression => "member_access_expression"
  | parenthesizedExpression => "parenthesized_expression"
  | objectCreationExpression => "object_creation_expression"
  | arrayCreationExpression => "array_creation_expression"
  | castExpression => "cast_expression"
  | lambdaExpression => "lambda_expression"
  | anonymousMethodExpression => "anonymous_method_expression"
  | thisExpression => "this_expression"
  | baseExpression => "base_expression"
  | thisToken => "this"
  | baseToken => "base"
  | semicolon => ";"
  | comment => "comment"
  | other name => name

/-- The kind with a given name. -/
def ofName (name : String) : Kind :=
  (known.find? fun kind ↦ kind.name == name).getD (.other name)

/-- Declarations of classes, structures, interfaces and records. -/
def isTypeDeclaration : Kind → Bool
  | classDeclaration | structDeclaration | interfaceDeclaration | recordDeclaration
  | recordStructDeclaration => true
  | _ => false

/-- Declarations whose positional parameters are properties. -/
def isRecord : Kind → Bool
  | recordDeclaration | recordStructDeclaration => true
  | _ => false

/-- The expression for the current object. -/
def isThis : Kind → Bool
  | thisToken | thisExpression => true
  | _ => false

/-- The expression for the current object as its base type. -/
def isBase : Kind → Bool
  | baseToken | baseExpression => true
  | _ => false

/-- Nodes whose parameters are visible in everything below them. -/
def isFunction : Kind → Bool
  | methodDeclaration | constructorDeclaration | localFunctionStatement | lambdaExpression
  | anonymousMethodExpression => true
  | _ => false

/-- Nodes at which the search for the member around a node ends. -/
def endsMember (kind : Kind) : Bool :=
  kind == declarationList || kind == compilationUnit || kind.isTypeDeclaration

/-- Nodes that bound the visibility of the locals declared inside them. -/
def isLocalScope : Kind → Bool
  | block | switchSection | switchExpressionArm | forStatement | usingStatement
  | fixedStatement | catchClause | lambdaExpression | arrowExpressionClause => true
  | _ => false

end Kind

/-- The part a node plays in its parent. -/
inductive Field where
  | name
  | type
  | returns
  | body
  | parameters
  | arguments
  | function
  | expression
  | left
  | right
  | other (name : String)
  deriving DecidableEq, Repr, Inhabited

namespace Field

/-- The fields with a constructor of their own, by name. -/
def known : List (String × Field) :=
  [("name", name), ("type", type), ("returns", returns), ("body", body),
    ("parameters", parameters), ("arguments", arguments), ("function", function),
    ("expression", expression), ("left", left), ("right", right)]

/-- The field with a given name. -/
def ofName (name : String) : Field :=
  (known.lookup name).getD (.other name)

end Field

end MemberReach
