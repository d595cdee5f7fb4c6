import MemberReach.Tree.Node

/-!
# Trees as lists of rows

A tree can be written as one row for each node, parents before children and children in
order, each row with the depth of its node. `Node.ofRows?` reads such a list back, taking the
text of each node from the source.
-/

namespace MemberReach

/-- One node of a tree that is written as a list. -/
structure Row where
  depth : Nat
  kind : Kind
  named : Bool
  field : Option Field
  start : Nat
  length : Nat
  deriving Repr, Inhabited

/-- The text between two byte offsets, empty if they do not cut it at characters. -/
def sourceText (bytes : ByteArray) (start stop : Nat) : String :=
  (String.fromUTF8? (bytes.extract start stop)).getD ""

namespace Row

/-- What the node of a row says about itself. -/
def label (bytes : ByteArray) (row : Row) : Label :=
  { kind := row.kind
    named := row.named
    field := row.field
    start := row.start
    stop := row.start + row.length
    text := sourceText bytes row.start (row.start + row.length) }

/-- Takes a row in front of the trees of the rows after it: those that are deeper than the row,
up to the first that is not, are its children. -/
def plant (bytes : ByteArray) (row : Row) (forest : List (Nat × Node)) : List (Nat × Node) :=
  let (inner, rest) := forest.span fun tree ↦ decide (row.depth < tree.1)
  (row.depth, .mk (row.label bytes) (inner.map Prod.snd)) :: rest

end Row

/-- The tree that a list of rows describes; none if the rows describe no tree or several. -/
def Node.ofRows? (source : String) (rows : List Row) : Option Node :=
  match rows.foldr (Row.plant source.toUTF8) [] with
  | [(_, node)] => some node
  | _ => none

end MemberReach
