import MemberReach.Tree.Kind

/-!
# Trees and positions in them

A tree node carries its kind, its field in the parent, the bytes it spans, the text it
covers and its children. A `Cursor` is a node together with the nodes above it; two cursors
of one tree stand at the same node exactly when their paths agree. `Cursor.descendants`
lists the named nodes below a cursor with an explicit stack, and
`descendants_eq_below` says that this is document order.
-/

namespace MemberReach

/-- What a node says about itself. `start` and `stop` are byte offsets into the source, `text`
is the source between them; tokens such as punctuation are not named. -/
structure Label where
  kind : Kind
  named : Bool
  field : Option Field
  start : Nat
  stop : Nat
  text : String
  deriving DecidableEq, Repr, Inhabited

/-- A node and everything below it. -/
inductive Node where
  | mk (label : Label) (children : List Node)
  deriving Inhabited

namespace Node

/-- What the node says about itself. -/
def label : Node → Label
  | mk label _ => label

/-- The nodes directly below, in document order. -/
def children : Node → List Node
  | mk _ children => children

mutual

/-- The number of nodes of a tree. -/
def size : Node → Nat
  | mk _ children => sizeAll children + 1

/-- The number of nodes of some trees. -/
def sizeAll : List Node → Nat
  | [] => 0
  | node :: rest => node.size + sizeAll rest

end

end Node

/-- A step down the tree: the node that is left and the position of the child that is entered. -/
structure Frame where
  node : Node
  index : Nat
  deriving Inhabited

/-- A node and the steps that lead to it, the last step first. -/
structure Cursor where
  node : Node
  above : List Frame
  deriving Inhabited

namespace Cursor

/-- The cursor at the root of a tree. -/
def atRoot (node : Node) : Cursor :=
  ⟨node, []⟩

/-- The kind of the node. -/
def kind (c : Cursor) : Kind :=
  c.node.label.kind

/-- Whether the node is a named one. -/
def named (c : Cursor) : Bool :=
  c.node.label.named

/-- The part the node plays in its parent. -/
def field (c : Cursor) : Option Field :=
  c.node.label.field

/-- The offset of the first byte. -/
def start (c : Cursor) : Nat :=
  c.node.label.start

/-- The offset after the last byte. -/
def stop (c : Cursor) : Nat :=
  c.node.label.stop

/-- The source text of the node. -/
def text (c : Cursor) : String :=
  c.node.label.text

/-- The positions of the children entered, the last one first. -/
def path (c : Cursor) : List Nat :=
  c.above.map Frame.index

/-- Whether two cursors of one tree stand at the same node. -/
def sameNode (a b : Cursor) : Bool :=
  a.path == b.path

/-- The node above, if there is one. -/
def parent? (c : Cursor) : Option Cursor :=
  match c.above with
  | [] => none
  | frame :: rest => some ⟨frame.node, rest⟩

/-- The nodes on a path, innermost first. -/
def along : List Frame → List Cursor
  | [] => []
  | frame :: rest => ⟨frame.node, rest⟩ :: along rest

/-- The nodes above a node, innermost first. -/
def ancestors (c : Cursor) : List Cursor :=
  along c.above

/-- The root of the tree. -/
def root (c : Cursor) : Cursor :=
  c.ancestors.getLast?.getD c

/-- The cursors at some children of `parent`, the first of them at position `index`. -/
def childrenFrom (parent : Node) (above : List Frame) : Nat → List Node → List Cursor
  | _, [] => []
  | index, child :: rest =>
      ⟨child, ⟨parent, index⟩ :: above⟩ :: childrenFrom parent above (index + 1) rest

/-- The nodes directly below, in document order. -/
def children (c : Cursor) : List Cursor :=
  childrenFrom c.node c.above 0 c.node.children

/-- The named nodes directly below, in document order. -/
def namedChildren (c : Cursor) : List Cursor :=
  c.children.filter named

/-- The first child that plays a given part. -/
def child? (c : Cursor) (field : Field) : Option Cursor :=
  c.children.find? fun child ↦ child.field == some field

/-- The first named child of a given kind. -/
def childOfKind? (c : Cursor) (kind : Kind) : Option Cursor :=
  c.namedChildren.find? fun child ↦ child.kind == kind

/-- The named child at a position. -/
def namedChild? (c : Cursor) (index : Nat) : Option Cursor :=
  c.namedChildren[index]?

/-- Whether the span of a node lies within that of another. -/
def encloses (outer inner : Cursor) : Bool :=
  decide (outer.start ≤ inner.start) && decide (inner.stop ≤ outer.stop)

/-- The number of nodes below and including some cursors. -/
def weight : List Cursor → Nat
  | [] => 0
  | c :: rest => c.node.size + weight rest

/-- Two stacks together weigh what each of them weighs. -/
theorem weight_append (a b : List Cursor) : weight (a ++ b) = weight a + weight b := by
  induction a with
  | nil => simp [weight]
  | cons c rest ih => simp [weight, ih, Nat.add_assoc]

/-- The children of a node weigh as much as the trees below it. -/
theorem weight_children_from (parent : Node) (above : List Frame) (index : Nat)
    (nodes : List Node) :
    weight (childrenFrom parent above index nodes) = Node.sizeAll nodes := by
  induction nodes generalizing index with
  | nil => rfl
  | cons node rest ih =>
      simp [childrenFrom, weight, Node.sizeAll, ih (index + 1)]

/-- Leaving cursors out cannot add weight. -/
theorem weight_filter_le (keep : Cursor → Bool) (stack : List Cursor) :
    weight (stack.filter keep) ≤ weight stack := by
  induction stack with
  | nil => exact Nat.le_refl _
  | cons c rest ih =>
      by_cases h : keep c <;> simp [h, weight] <;> omega

/-- The named children of a node weigh less than the node. -/
theorem weight_named_children_lt (c : Cursor) : weight c.namedChildren < c.node.size := by
  obtain ⟨⟨label, nodes⟩, above⟩ := c
  have h := weight_filter_le named (childrenFrom (.mk label nodes) above 0 nodes)
  rw [weight_children_from] at h
  exact Nat.lt_of_le_of_lt h (by simp [Node.size])

/-- A child is smaller than its parent. -/
theorem size_lt_of_mem_children {c d : Cursor} (h : d ∈ c.children) :
    d.node.size < c.node.size := by
  have hweight : ∀ stack : List Cursor, d ∈ stack → d.node.size ≤ weight stack := by
    intro stack hd
    induction stack with
    | nil => cases hd
    | cons e rest ih =>
        rw [weight]
        rcases List.mem_cons.1 hd with rfl | hd
        · omega
        · have := ih hd
          omega
  have hle := hweight _ h
  obtain ⟨⟨label, nodes⟩, above⟩ := c
  rw [children, weight_children_from] at hle
  exact Nat.lt_of_le_of_lt hle (by simp [Node.children, Node.size])

/-- Whether a node stops behind the start of a piece of source and not before its end. -/
def stopsBehind (c : Cursor) (start stop : Nat) : Bool :=
  decide (stop ≤ c.stop) && decide (start < c.stop)

/-- The child of a node that lies around a piece of source: the first that stops behind it, if it
starts early enough. -/
def childAround? (c : Cursor) (start stop : Nat) : Option Cursor :=
  (c.children.find? fun d ↦ d.stopsBehind start stop).filter fun d ↦ decide (d.start ≤ start)

/-- A child around a piece of source is a child. -/
theorem mem_children_of_around {c d : Cursor} {start stop : Nat}
    (h : c.childAround? start stop = some d) : d ∈ c.children :=
  List.mem_of_find?_eq_some (Option.filter_eq_some_iff.1 h).1

/-- The innermost node around a piece of source, on the way down from a node. A word or a mark has
no parts to look into. -/
def innermostAround (c : Cursor) (start stop : Nat) : Cursor :=
  match _h : c.childAround? start stop with
  | none => c
  | some d => if d.named then d.innermostAround start stop else d
termination_by c.node.size
decreasing_by exact size_lt_of_mem_children (mem_children_of_around _h)

/-- Lists the nodes on a stack and the named nodes below them: the top of the stack is
listed, and its named children take its place. -/
def drain : List Cursor → List Cursor
  | [] => []
  | c :: rest => c :: drain (c.namedChildren ++ rest)
termination_by stack => weight stack
decreasing_by
  have h := weight_named_children_lt c
  rw [weight_append]
  simp only [weight]
  omega

/-- The nodes strictly below a node that are reached through named nodes, in document order. -/
def descendants (c : Cursor) : List Cursor :=
  drain c.namedChildren

mutual

/-- A node and the named nodes below it: the node first, then each named child with all that
is below it, from left to right. -/
def within (above : List Frame) : Node → List Cursor
  | .mk label nodes =>
      ⟨.mk label nodes, above⟩ :: withinAll (.mk label nodes) above 0 nodes

/-- The named ones among some children of `parent`, each with the named nodes below it. -/
def withinAll (parent : Node) (above : List Frame) : Nat → List Node → List Cursor
  | _, [] => []
  | index, node :: rest =>
      (if node.label.named then within (⟨parent, index⟩ :: above) node else []) ++
        withinAll parent above (index + 1) rest

end

/-- The nodes strictly below a node that are reached through named nodes, by recursion. -/
def below (c : Cursor) : List Cursor :=
  withinAll c.node c.above 0 c.node.children

/-- A node comes first among the nodes within it. -/
theorem within_eq_cons (c : Cursor) : within c.above c.node = c :: c.below := by
  obtain ⟨⟨label, nodes⟩, above⟩ := c
  simp only [within, below, Node.children]

/-- What is listed for children is listed for the named ones among them. -/
theorem within_all_eq_flat_map (parent : Node) (above : List Frame) (index : Nat)
    (nodes : List Node) :
    withinAll parent above index nodes =
      ((childrenFrom parent above index nodes).filter named).flatMap
        fun c ↦ within c.above c.node := by
  induction nodes generalizing index with
  | nil => simp [withinAll, childrenFrom]
  | cons node rest ih =>
      by_cases h : node.label.named <;>
        simp [withinAll, childrenFrom, named, h, ih (index + 1)]

/-- The stack is listed from top to bottom, each of its nodes with all that is below it. -/
theorem drain_eq_flat_map (stack : List Cursor) :
    drain stack = stack.flatMap fun c ↦ within c.above c.node := by
  fun_induction drain stack with
  | case1 => rfl
  | case2 c rest ih =>
      rw [ih, List.flatMap_append, List.flatMap_cons, within_eq_cons]
      simp only [below, within_all_eq_flat_map, namedChildren, children, List.cons_append]

/-- The explicit stack lists the nodes below a node in document order. -/
theorem descendants_eq_below (c : Cursor) : c.descendants = c.below := by
  rw [descendants, drain_eq_flat_map, below, within_all_eq_flat_map]
  rfl

end Cursor

end MemberReach
