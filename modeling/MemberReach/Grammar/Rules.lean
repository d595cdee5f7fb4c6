import MemberReach.Grammar.Pattern

/-!
# The grammar of sources

The rules for the part of C# that is read: directives, namespaces, types and their members,
statements and expressions, without attributes, preprocessor lines, queries and unsafe code.
`Node.ofSource` gives the tree of a source; a source outside of these rules is one node of kind
`ERROR`.
-/

namespace MemberReach

/-- The rules of the grammar. -/
inductive Rule where
  | identifier
  | simpleName
  | name
  | type
  | variableType
  | typeParameters
  | parameters
  | arguments
  | argument
  | block
  | statement
  | embedded
  | expression
  | disjunction
  | conjunction
  | equality
  | relation
  | sum
  | product
  | unary
  | primary
  | atom
  | modifiers
  | bases
  | members
  | member
  | arrowBody
  | functionBody
  deriving DecidableEq, Repr, Inhabited

namespace Rule

open Pattern

/-- A node of a kind that only this grammar names. -/
def named (kind : String) (parts : List (Pattern Rule)) : Pattern Rule :=
  node (.ofName kind) parts

/-- A part of a node that only this grammar names. -/
def part (field : String) (pattern : Pattern Rule) : Pattern Rule :=
  .field (.ofName field) pattern

/-- One of some tokens. -/
def oneOf (texts : List String) : Pattern Rule :=
  choice (texts.map token)

/-- One or more of what a pattern describes, with a token between them. -/
def separated (separator : String) (pattern : Pattern Rule) : Pattern Rule :=
  sequence [pattern, many (sequence [token separator, pattern])]

/-- A declared name. -/
def declaredName : Pattern Rule :=
  .field .name (rule identifier)

/-- The type that is left out of a declaration. -/
def implicitType : Pattern Rule :=
  named "implicit_type" [token "var"]

/-- The types that have a keyword. -/
def predefinedType : Pattern Rule :=
  leaf (.ofName "predefined_type") (Token.isAnyOf
    ["bool", "byte", "char", "decimal", "double", "float", "int", "long", "object", "sbyte",
      "short", "string", "uint", "ulong", "ushort", "void"])

/-- The growth of a binary expression by one of some operators of a precedence. -/
def binary (operators : List String) (operand : Rule) : Growth (Pattern Rule) :=
  ⟨.ofName "binary_expression", .left,
    sequence [part "operator" (oneOf operators), .field .right (rule operand)]⟩

/-- What may follow an expression that names a value. -/
def accesses : List (Growth (Pattern Rule)) :=
  [⟨.memberAccessExpression, .expression, sequence [token ".", .field .name (rule simpleName)]⟩,
    ⟨.invocationExpression, .function, .field .arguments (rule arguments)⟩]

/-- An expression in parentheses. -/
def parenthesized : Pattern Rule :=
  node .parenthesizedExpression [token "(", rule expression, token ")"]

/-- A variable that is declared where it is used. -/
def declaringPattern (kind : Kind) : Pattern Rule :=
  node kind [.field .type (rule variableType), declaredName]

/-- Variables of one type, each with the value that it may start with. -/
def variablesOf (kind : Rule) : Pattern Rule :=
  node .variableDeclaration [.field .type (rule kind),
    separated "," (node .variableDeclarator
      [declaredName, optional (sequence [token "=", rule expression])])]

/-- A declaration of a type with members. -/
def typeDeclaration (kind : Kind) (keyword : String) : Pattern Rule :=
  node kind [rule modifiers, token keyword, declaredName, optional (rule typeParameters),
    optional (rule bases), .field .body (rule members)]

/-- The only parameter of a function, written without parentheses and type. -/
def bareParameter : Pattern Rule :=
  leaf (.ofName "implicit_parameter") Token.isName

/-- The front of a method or local function. -/
def functionHead (typePart : Field) : List (Pattern Rule) :=
  [rule modifiers, .field typePart (rule type), declaredName, .field .parameters (rule parameters)]

/-- The pattern of a rule. -/
def pattern : Rule → Pattern Rule
  | identifier => leaf .identifier Token.isName
  | simpleName =>
      choice [
        node .genericName [rule identifier,
          named "type_argument_list" [token "<", separated "," (rule type), token ">"]],
        rule identifier]
  | name =>
      grows (rule simpleName)
        [⟨.qualifiedName, .ofName "qualifier",
          sequence [token ".", .field .name (rule simpleName)]⟩]
  | type =>
      grows (choice [predefinedType, rule name])
        [⟨.ofName "nullable_type", .type, token "?"⟩,
          ⟨.ofName "array_type", .type,
            part "rank" (named "array_rank_specifier" [token "[", token "]"])⟩]
  | variableType => choice [implicitType, rule type]
  | typeParameters =>
      named "type_parameter_list" [token "<", separated "," (named "type_parameter" [declaredName]),
        token ">"]
  | parameters =>
      node .parameterList [token "(",
        optional (separated "," (node .parameter
          [many (leaf .modifier (Token.isAnyOf ["this", "ref", "out", "in"])),
            .field .type (rule type), declaredName,
            optional (sequence [token "=", rule expression])])),
        token ")"]
  | arguments =>
      node .argumentList [token "(", optional (separated "," (rule argument)), token ")"]
  | argument =>
      choice [
        node .argument [token "out", declaringPattern .declarationExpression],
        node .argument [optional (oneOf ["out", "ref", "in"]), rule expression]]
  | block => node .block [token "\x7b", many (rule statement), token "\x7d"]
  | statement =>
      choice [
        rule embedded,
        node .localDeclarationStatement [variablesOf variableType, token ";"],
        node .localFunctionStatement (functionHead .type ++ [rule functionBody])]
  | embedded =>
      choice [
        rule block,
        named "return_statement" [token "return", optional (rule expression), token ";"],
        named "if_statement" [token "if", token "(", part "condition" (rule expression), token ")",
          part "consequence" (rule embedded),
          optional (sequence [token "else", part "alternative" (rule embedded)])],
        named "while_statement" [token "while", token "(", part "condition" (rule expression),
          token ")", .field .body (rule embedded)],
        node .foreachStatement [token "foreach", token "(", .field .type (rule variableType),
          .field .left (rule identifier), token "in", .field .right (rule expression), token ")",
          .field .body (rule embedded)],
        named "expression_statement" [rule expression, token ";"]]
  | expression =>
      choice [
        node .lambdaExpression [.field .parameters (choice [rule parameters, bareParameter]),
          token "=>", .field .body (choice [rule block, rule expression])],
        grows (rule disjunction)
          [⟨.ofName "assignment_expression", .left,
            sequence [part "operator" (oneOf ["=", "+=", "-="]),
              .field .right (rule expression)]⟩]]
  | disjunction => grows (rule conjunction) [binary ["||"] conjunction]
  | conjunction => grows (rule equality) [binary ["&&"] equality]
  | equality => grows (rule relation) [binary ["==", "!="] relation]
  | relation =>
      grows (rule sum)
        [binary ["<=", ">=", "<", ">"] sum,
          ⟨.ofName "is_pattern_expression", .expression,
            sequence [token "is", part "pattern" (declaringPattern .declarationPattern)]⟩]
  | sum => grows (rule product) [binary ["+", "-"] product]
  | product => grows (rule unary) [binary ["*", "/", "%"] unary]
  | unary =>
      choice [
        node .castExpression [token "(", .field .type (rule type), token ")",
          part "value" (grows (rule atom) accesses)],
        rule primary]
  | primary => grows (choice [parenthesized, rule atom]) accesses
  | atom =>
      choice [
        leaf (.ofName "integer_literal") fun token ↦ token.form == .number,
        named "string_literal" [token "\"",
          optional (leaf (.ofName "string_literal_content") fun token ↦ token.form == .content),
          token "\""],
        leaf (.ofName "null_literal") (Token.isAnyOf ["null"]),
        named "boolean_literal" [oneOf ["true", "false"]],
        node .objectCreationExpression [token "new", .field .type (rule name),
          .field .arguments (rule arguments)],
        oneOf ["this", "base"],
        rule simpleName]
  | modifiers =>
      many (node .modifier [oneOf
        ["public", "private", "protected", "internal", "static", "abstract", "virtual", "override",
          "sealed", "readonly", "partial", "async", "const"]])
  | bases => node .baseList [token ":", separated "," (rule type)]
  | members =>
      node .declarationList [token "\x7b", many (rule member), token "\x7d"]
  | member =>
      choice [
        typeDeclaration .classDeclaration "class",
        typeDeclaration .structDeclaration "struct",
        node .interfaceDeclaration [rule modifiers, token "interface", declaredName,
          optional (part "type_parameters" (rule typeParameters)), optional (rule bases),
          .field .body (rule members)],
        node .recordDeclaration [rule modifiers, token "record",
          optional (oneOf ["class", "struct"]), declaredName, optional (rule typeParameters),
          optional (rule parameters), optional (rule bases),
          choice [.field .body (rule members), token ";"]],
        node .namespaceDeclaration
          [token "namespace", .field .name (rule name), .field .body (rule members)],
        node .fieldDeclaration [rule modifiers, variablesOf type, token ";"],
        node .propertyDeclaration [rule modifiers, .field .type (rule type), declaredName,
          choice [
            sequence [part "accessors" (named "accessor_list" [token "\x7b",
              many (named "accessor_declaration" [rule modifiers,
                .field .name (oneOf ["get", "set", "init"]), rule functionBody]), token "\x7d"]),
              optional (sequence [token "=", part "value" (rule expression), token ";"])],
            sequence [part "value" (rule arrowBody), token ";"]]],
        node .methodDeclaration (functionHead .returns ++ [rule functionBody]),
        node .constructorDeclaration [rule modifiers, declaredName,
          .field .parameters (rule parameters), rule functionBody]]
  | arrowBody => node .arrowExpressionClause [token "=>", rule expression]
  | functionBody =>
      choice [
        .field .body (rule block),
        sequence [.field .body (rule arrowBody), token ";"],
        token ";"]

/-- A whole source: directives, then declarations. -/
def unit : Pattern Rule :=
  sequence [
    many (node .usingDirective [optional (token "global"), token "using",
      optional (token "static"), rule name, token ";"]),
    optional (node .fileScopedNamespaceDeclaration
      [token "namespace", .field .name (rule name), token ";"]),
    many (rule member)]

/-- The number of patterns that can stand inside each other without a token being read. -/
def depthPerToken : Nat :=
  64

end Rule

namespace Node

/-- The nodes of a source at its top level, if the grammar describes it. -/
def topLevel? (source : String) : Option (List Node) := do
  let tokens ← Token.scan? source
  let fuel := Rule.depthPerToken * (tokens.length + 1)
  let (nodes, rest) ← Rule.unit.read source.toUTF8 Rule.pattern fuel tokens
  match Pattern.comments rest with
  | (comments, []) => some (nodes ++ comments)
  | _ => none

/-- The tree of a source from its nodes at the top level. It spans to the end of the source. -/
def unitOf (source : String) (nodes : List Node) : Node :=
  let start := (nodes.head?.map fun node ↦ node.label.start).getD source.utf8ByteSize
  let stop := source.utf8ByteSize
  .mk ⟨.compilationUnit, true, none, start, stop, sourceText source.toUTF8 start stop⟩ nodes

/-- The tree of a source, if the grammar describes it. -/
def ofSource? (source : String) : Option Node :=
  (topLevel? source).map (unitOf source)

/-- The tree of a source. -/
def ofSource (source : String) : Node :=
  (ofSource? source).getD
    (unitOf source [.mk ⟨.ofName "ERROR", true, none, 0, source.utf8ByteSize, source⟩ []])

end Node

end MemberReach
