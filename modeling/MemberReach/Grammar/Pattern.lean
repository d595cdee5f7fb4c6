import MemberReach.Grammar.Token
import MemberReach.Tree.Rows

/-!
# Patterns of trees

A pattern describes a sequence of nodes and the tokens that make it up. Patterns are tried from
left to right without going back: a choice takes the first alternative that can be read, and a
repetition takes as much as it can. A pattern may refer to the rules of a grammar by name, and
`grows` stands for rules that start with themselves: what was read so far becomes the first part
of a larger node.
-/

namespace MemberReach

/-- How a node grows: it becomes the part `field` of a node of the given kind, followed by what a
pattern describes. -/
structure Growth (α : Type) where
  kind : Kind
  field : Field
  rest : α

/-- A pattern over rules that are named by `R`. -/
inductive Pattern (R : Type) where
  | token (text : String)
  | leaf (kind : Kind) (accepts : Token → Bool)
  | node (kind : Kind) (parts : List (Pattern R))
  | field (part : Field) (pattern : Pattern R)
  | sequence (parts : List (Pattern R))
  | choice (alternatives : List (Pattern R))
  | many (pattern : Pattern R)
  | optional (pattern : Pattern R)
  | grows (start : Pattern R) (growths : List (Growth (Pattern R)))
  | rule (name : R)

namespace Pattern

variable {R : Type}

/-- Some nodes and the tokens after them. -/
abbrev Reading := Option (List Node × List Token)

/-- The node of a single token. -/
def tokenNode (kind : Kind) (named : Bool) (token : Token) : Node :=
  .mk ⟨kind, named, none, token.start, token.stop, token.text⟩ []

/-- The nodes of the comments at the front, and the tokens from the first that is none. -/
def comments (tokens : List Token) : List Node × List Token :=
  let (before, rest) := tokens.span fun token ↦ token.form == .comment
  (before.map (tokenNode .comment true), rest)

/-- Reads one token that is accepted, with the comments before it. -/
def readToken (accepts : Token → Bool) (kind : Kind) (named : Bool) (tokens : List Token) :
    Reading :=
  match comments tokens with
  | (before, first :: rest) =>
      if accepts first then some (before ++ [tokenNode kind named first], rest) else none
  | (_, []) => none

/-- Whether a node is a comment. -/
def isComment (node : Node) : Bool :=
  node.label.kind == .comment

/-- Gives nodes a part to play; comments play none. -/
def asField (part : Field) (nodes : List Node) : List Node :=
  nodes.map fun node ↦
    if isComment node then node else .mk { node.label with field := some part } node.children

/-- A node with some children, which spans from the first of them to the last. Comments before the
first child stay before the node. -/
def enclose (source : ByteArray) (kind : Kind) (children : List Node) : List Node :=
  let (before, inside) := children.span isComment
  match inside.head?, inside.getLast? with
  | some first, some last =>
      let text := sourceText source first.label.start last.label.stop
      before ++ [.mk ⟨kind, true, none, first.label.start, last.label.stop, text⟩ inside]
  | _, _ => before

mutual

/-- Reads what a pattern describes, with at most `fuel` patterns inside each other. -/
def read (source : ByteArray) (rules : R → Pattern R) : Nat → Pattern R → List Token → Reading
  | 0, _, _ => none
  | fuel + 1, pattern, tokens =>
      match pattern with
      | token text =>
          readToken (fun t ↦ (t.form == .word || t.form == .mark) && t.text == text)
            (.ofName text) false tokens
      | leaf kind accepts => readToken accepts kind true tokens
      | node kind parts =>
          (readSequence source rules fuel parts tokens).map fun (nodes, rest) ↦
            (enclose source kind nodes, rest)
      | field part pattern =>
          (read source rules fuel pattern tokens).map fun (nodes, rest) ↦
            (asField part nodes, rest)
      | sequence parts => readSequence source rules fuel parts tokens
      | choice alternatives => readChoice source rules fuel alternatives tokens
      | many pattern => readMany source rules fuel pattern tokens
      | optional pattern =>
          match read source rules fuel pattern tokens with
          | none => some ([], tokens)
          | result => result
      | grows start growths => do
          let (nodes, rest) ← read source rules fuel start tokens
          grow source rules fuel growths nodes rest
      | rule name => read source rules fuel (rules name) tokens

/-- Reads patterns one after another. -/
def readSequence (source : ByteArray) (rules : R → Pattern R) :
    Nat → List (Pattern R) → List Token → Reading
  | 0, _, _ => none
  | _ + 1, [], tokens => some ([], tokens)
  | fuel + 1, pattern :: patterns, tokens => do
      let (nodes, rest) ← read source rules fuel pattern tokens
      let (more, rest) ← readSequence source rules fuel patterns rest
      return (nodes ++ more, rest)

/-- Reads the first of some patterns that can be read. -/
def readChoice (source : ByteArray) (rules : R → Pattern R) :
    Nat → List (Pattern R) → List Token → Reading
  | 0, _, _ => none
  | _ + 1, [], _ => none
  | fuel + 1, pattern :: patterns, tokens =>
      match read source rules fuel pattern tokens with
      | none => readChoice source rules fuel patterns tokens
      | result => result

/-- Reads a pattern as often as it can be read. -/
def readMany (source : ByteArray) (rules : R → Pattern R) :
    Nat → Pattern R → List Token → Reading
  | 0, _, _ => none
  | fuel + 1, pattern, tokens =>
      match read source rules fuel pattern tokens with
      | none => some ([], tokens)
      | some (nodes, rest) => do
          let (more, rest) ← readMany source rules fuel pattern rest
          return (nodes ++ more, rest)

/-- Lets nodes grow as often as they can. -/
def grow (source : ByteArray) (rules : R → Pattern R) :
    Nat → List (Growth (Pattern R)) → List Node → List Token → Reading
  | 0, _, _, _ => none
  | fuel + 1, growths, nodes, tokens =>
      match growOnce source rules fuel growths nodes tokens with
      | none => some (nodes, tokens)
      | some (nodes, rest) => grow source rules fuel growths nodes rest

/-- Lets nodes grow by the first growth that can be read. -/
def growOnce (source : ByteArray) (rules : R → Pattern R) :
    Nat → List (Growth (Pattern R)) → List Node → List Token → Reading
  | 0, _, _, _ => none
  | _ + 1, [], _, _ => none
  | fuel + 1, growth :: growths, nodes, tokens =>
      match read source rules fuel growth.rest tokens with
      | none => growOnce source rules fuel growths nodes tokens
      | some (more, rest) =>
          some (enclose source growth.kind (asField growth.field nodes ++ more), rest)

end

end Pattern

end MemberReach
