import MemberReach.Proofs.TreePositions
import MemberReach.SourceUnit

/-!
# Removing comments from a tree

`Node.prune drop` removes the comments that `drop` selects by their paths; source text and spans
of all other nodes stay. Each remaining node of the tree has its place in the pruned tree
(`Cursor.prune`), and moving about the pruned tree is moving about the tree past the removed
comments: `children_prune` says so for children, and the other steps follow from it.
-/

namespace MemberReach

namespace Node

/-- A comment: nothing is below it, and it plays no part in its parent. -/
def isComment (node : Node) : Bool :=
  node.label.kind == .comment && node.label.field.isNone && node.children.isEmpty

mutual

/-- The tree of a node at `path` without the comments whose paths `drop` selects. -/
def prune (drop : List Nat → Bool) (path : List Nat) : Node → Node
  | mk label children => mk label (pruneAll drop path 0 children)

/-- Some children of a node at `path` without the comments that `drop` selects. -/
def pruneAll (drop : List Nat → Bool) (path : List Nat) : Nat → List Node → List Node
  | _, [] => []
  | index, node :: rest =>
      if node.isComment && drop (index :: path) then pruneAll drop path (index + 1) rest
      else node.prune drop (index :: path) :: pruneAll drop path (index + 1) rest

end

variable (drop : List Nat → Bool) (path : List Nat)

/-- Pruning changes nothing that a node says about itself. -/
@[simp] theorem label_prune (node : Node) : (node.prune drop path).label = node.label := by
  obtain ⟨info, nodes⟩ := node
  rw [prune, label, label]

/-- The children of a pruned node are what is left of its children. -/
theorem children_prune (node : Node) :
    (node.prune drop path).children = pruneAll drop path 0 node.children := by
  obtain ⟨info, nodes⟩ := node
  rw [prune, children, children]

/-- What is left of some children and more children is what is left of both. -/
theorem prune_all_append (index : Nat) (first second : List Node) :
    pruneAll drop path index (first ++ second) =
      pruneAll drop path index first ++ pruneAll drop path (index + first.length) second := by
  induction first generalizing index with
  | nil => simp [pruneAll]
  | cons node rest ih =>
      rw [List.cons_append, pruneAll, pruneAll, ih, List.length_cons, Nat.add_assoc,
        Nat.add_comm 1]
      split <;> rfl

end Node

namespace Cursor

variable (drop : List Nat → Bool)

/-- Whether the node is one of the removed comments; the root of a tree always stays. -/
def isPruned (c : Cursor) : Bool :=
  c.node.isComment && !c.above.isEmpty && drop c.path

/-- The position that a child has in the pruned tree: the number of its earlier siblings that are
left. -/
def prunedIndex (path : List Nat) (frame : Frame) : Nat :=
  (Node.pruneAll drop path 0 (frame.node.children.take frame.index)).length

/-- The steps that lead to a node in the pruned tree. -/
def pruneAbove : List Frame → List Frame
  | [] => []
  | frame :: rest =>
      ⟨frame.node.prune drop (rest.map Frame.index),
        prunedIndex drop (rest.map Frame.index) frame⟩ :: pruneAbove rest

/-- The place of a node in the pruned tree. -/
def prune (c : Cursor) : Cursor :=
  ⟨c.node.prune drop c.path, pruneAbove drop c.above⟩

/-- The places of some nodes in the pruned tree, without the removed ones. -/
def pruneList (nodes : List Cursor) : List Cursor :=
  (nodes.filter fun c ↦ !c.isPruned drop).map (prune drop)

/-! ### Labels -/

@[simp] theorem label_prune (c : Cursor) : (c.prune drop).node.label = c.node.label :=
  Node.label_prune drop c.path c.node

@[simp] theorem kind_prune (c : Cursor) : (c.prune drop).kind = c.kind :=
  congrArg Label.kind (label_prune drop c)

@[simp] theorem named_prune (c : Cursor) : (c.prune drop).named = c.named :=
  congrArg Label.named (label_prune drop c)

@[simp] theorem field_prune (c : Cursor) : (c.prune drop).field = c.field :=
  congrArg Label.field (label_prune drop c)

@[simp] theorem start_prune (c : Cursor) : (c.prune drop).start = c.start :=
  congrArg Label.start (label_prune drop c)

@[simp] theorem stop_prune (c : Cursor) : (c.prune drop).stop = c.stop :=
  congrArg Label.stop (label_prune drop c)

@[simp] theorem text_prune (c : Cursor) : (c.prune drop).text = c.text :=
  congrArg Label.text (label_prune drop c)

@[simp] theorem encloses_prune (a b : Cursor) :
    (a.prune drop).encloses (b.prune drop) = a.encloses b := by
  simp only [encloses, start_prune, stop_prune]

variable {drop}

/-- A removed node is a comment. -/
theorem kind_of_is_pruned {c : Cursor} (h : c.isPruned drop) : c.kind = .comment := by
  simp only [isPruned, Node.isComment, Bool.and_eq_true, beq_iff_eq] at h
  exact h.1.1.1.1

/-- A removed node plays no part in its parent. -/
theorem field_of_is_pruned {c : Cursor} (h : c.isPruned drop) : c.field = none := by
  simp only [isPruned, Node.isComment, Bool.and_eq_true, Option.isNone_iff_eq_none] at h
  exact h.1.1.1.2

/-- A node of any other kind stays. -/
theorem not_pruned_of_kind {c : Cursor} (h : c.kind ≠ .comment) : c.isPruned drop = false := by
  rw [Bool.eq_false_iff]
  intro hpruned
  exact h (kind_of_is_pruned hpruned)

/-- A node that plays a part in its parent stays. -/
theorem not_pruned_of_field {c : Cursor} {field : Field} (h : c.field = some field) :
    c.isPruned drop = false := by
  rw [Bool.eq_false_iff]
  intro hpruned
  rw [field_of_is_pruned hpruned] at h
  cases h

/-- Nothing is below a removed node. -/
theorem children_of_is_pruned {c : Cursor} (h : c.isPruned drop) : c.children = [] := by
  simp only [isPruned, Node.isComment, Bool.and_eq_true, List.isEmpty_iff] at h
  rw [children, h.1.1.2]
  rfl

/-- Nothing named is below a removed node. -/
theorem named_children_of_is_pruned {c : Cursor} (h : c.isPruned drop) :
    c.namedChildren = [] := by
  rw [namedChildren, children_of_is_pruned h]
  rfl

/-! ### Lists of nodes -/

/-- A node that is left is listed with its place. -/
theorem prune_list_cons_of_kept {c : Cursor} {rest : List Cursor} (h : c.isPruned drop = false) :
    pruneList drop (c :: rest) = c.prune drop :: pruneList drop rest := by
  simp [pruneList, h]

/-- A removed node is not listed. -/
theorem prune_list_cons_of_pruned {c : Cursor} {rest : List Cursor} (h : c.isPruned drop = true) :
    pruneList drop (c :: rest) = pruneList drop rest := by
  simp [pruneList, h]

/-- Two lists are pruned one after the other. -/
theorem prune_list_append (first second : List Cursor) :
    pruneList drop (first ++ second) = pruneList drop first ++ pruneList drop second := by
  simp [pruneList]

/-- A list is pruned from either end. -/
theorem prune_list_reverse (nodes : List Cursor) :
    pruneList drop nodes.reverse = (pruneList drop nodes).reverse := by
  simp [pruneList]

/-- The first node of a list that is left has its place first. -/
theorem head_prune_list {nodes : List Cursor}
    (h : ∀ c, nodes.head? = some c → c.isPruned drop = false) :
    (pruneList drop nodes).head? = nodes.head?.map (prune drop) := by
  cases nodes with
  | nil => rfl
  | cons c rest => rw [prune_list_cons_of_kept (h c rfl), List.head?_cons, List.head?_cons,
      Option.map_some]

/-- The last node of a list that is left has its place last. -/
theorem last_prune_list {nodes : List Cursor}
    (h : ∀ c, nodes.getLast? = some c → c.isPruned drop = false) :
    (pruneList drop nodes).getLast? = nodes.getLast?.map (prune drop) := by
  rw [← List.head?_reverse, ← prune_list_reverse, ← List.head?_reverse]
  exact head_prune_list fun c hc ↦ h c (by rwa [List.head?_reverse] at hc)

/-- A filter that looks at what pruning keeps filters the pruned list alike. -/
theorem filter_prune_list {nodes : List Cursor} {p q : Cursor → Bool}
    (h : ∀ c ∈ nodes, q (c.prune drop) = p c) :
    (pruneList drop nodes).filter q = pruneList drop (nodes.filter p) := by
  rw [pruneList, pruneList, List.filter_map, List.filter_filter, List.filter_filter]
  congr 1
  apply List.filter_congr
  intro c hc
  rw [Function.comp_apply, h c hc, Bool.and_comm]

/-- A search that finds a node that is left, or nothing at all, finds the same node. -/
theorem find_prune_list {nodes : List Cursor} {p q : Cursor → Bool}
    (h : ∀ c ∈ nodes, q (c.prune drop) = p c)
    (hfound : ∀ c, nodes.find? p = some c → c.isPruned drop = false) :
    (pruneList drop nodes).find? q = (nodes.find? p).map (prune drop) := by
  induction nodes with
  | nil => rfl
  | cons c rest ih =>
      have hq := h c List.mem_cons_self
      cases hp : p c with
      | true =>
          have hkept := hfound c (List.find?_cons_of_pos hp)
          rw [prune_list_cons_of_kept hkept, List.find?_cons_of_pos hp,
            List.find?_cons_of_pos (hq.trans hp), Option.map_some]
      | false =>
          rw [List.find?_cons_of_neg (by simp [hp])] at hfound ⊢
          rw [← ih (fun d hd ↦ h d (List.mem_cons_of_mem c hd)) hfound]
          cases hpruned : c.isPruned drop with
          | true => rw [prune_list_cons_of_pruned hpruned]
          | false =>
              rw [prune_list_cons_of_kept hpruned, List.find?_cons_of_neg (by simp [hq, hp])]

/-- A collection from nodes that takes nothing from removed nodes collects the same. -/
theorem filter_map_prune_list {α : Type} {nodes : List Cursor} {f g : Cursor → Option α}
    (h : ∀ c ∈ nodes, c.isPruned drop = false → g (c.prune drop) = f c)
    (hskip : ∀ c ∈ nodes, c.isPruned drop = true → f c = none) :
    (pruneList drop nodes).filterMap g = nodes.filterMap f := by
  induction nodes with
  | nil => rfl
  | cons c rest ih =>
      have hrest := ih (fun d hd ↦ h d (List.mem_cons_of_mem c hd))
        fun d hd ↦ hskip d (List.mem_cons_of_mem c hd)
      cases hpruned : c.isPruned drop with
      | true =>
          rw [prune_list_cons_of_pruned hpruned, hrest,
            List.filterMap_cons_none (hskip c List.mem_cons_self hpruned)]
      | false =>
          rw [prune_list_cons_of_kept hpruned, List.filterMap_cons, List.filterMap_cons, hrest,
            h c List.mem_cons_self hpruned]

/-- A fold over nodes that passes over removed nodes gives the same. -/
theorem foldl_prune_list {α : Type} {nodes : List Cursor} {f g : α → Cursor → α}
    (h : ∀ c ∈ nodes, c.isPruned drop = false → ∀ a, g a (c.prune drop) = f a c)
    (hskip : ∀ c ∈ nodes, c.isPruned drop = true → ∀ a, f a c = a) (a : α) :
    (pruneList drop nodes).foldl g a = nodes.foldl f a := by
  induction nodes generalizing a with
  | nil => rfl
  | cons c rest ih =>
      have hrest := ih (fun d hd ↦ h d (List.mem_cons_of_mem c hd))
        fun d hd ↦ hskip d (List.mem_cons_of_mem c hd)
      cases hpruned : c.isPruned drop with
      | true =>
          rw [prune_list_cons_of_pruned hpruned, hrest, List.foldl_cons,
            hskip c List.mem_cons_self hpruned]
      | false =>
          rw [prune_list_cons_of_kept hpruned, List.foldl_cons, hrest, List.foldl_cons,
            h c List.mem_cons_self hpruned]

/-- Where no node is removed, pruning is a map. -/
theorem prune_list_eq_map {nodes : List Cursor} (h : ∀ c ∈ nodes, c.isPruned drop = false) :
    pruneList drop nodes = nodes.map (prune drop) := by
  rw [pruneList, List.filter_eq_self.2 fun c hc ↦ by simp [h c hc]]

/-- Nodes of kinds other than comments all have their places. -/
theorem filter_kind_prune_list (nodes : List Cursor) {p : Kind → Bool} (hp : p .comment = false) :
    ((pruneList drop nodes).filter fun c ↦ p c.kind) =
      (nodes.filter fun c ↦ p c.kind).map (prune drop) := by
  rw [filter_prune_list (p := fun c ↦ p c.kind) fun c _ ↦ by rw [kind_prune]]
  apply prune_list_eq_map
  intro c hc
  apply not_pruned_of_kind
  intro hkind
  have hpos := (List.mem_filter.1 hc).2
  rw [hkind, hp] at hpos
  cases hpos

/-! ### Moving about the pruned tree -/

/-- The node above a node has its place above. -/
theorem parent_prune (c : Cursor) : (c.prune drop).parent? = c.parent?.map (prune drop) := by
  obtain ⟨node, above⟩ := c
  cases above with
  | nil => rfl
  | cons frame rest => rfl

/-- The nodes above a node have their places above, in the same order. -/
theorem ancestors_prune (c : Cursor) :
    (c.prune drop).ancestors = c.ancestors.map (prune drop) := by
  obtain ⟨node, above⟩ := c
  show along (pruneAbove drop above) = (along above).map (prune drop)
  induction above with
  | nil => rfl
  | cons frame rest ih =>
      rw [pruneAbove, along, ih]
      rfl

/-- The root of the tree is the root of the pruned tree. -/
theorem root_prune (c : Cursor) : (c.prune drop).root = c.root.prune drop := by
  rw [root, root, ancestors_prune, List.getLast?_map]
  cases c.ancestors.getLast? <;> rfl

/-- Children of a node have their places at the children of its place, one after the other. The
children before them decide at which position they stand. -/
theorem children_from_prune {parent : Node} (above : List Frame) (before nodes : List Node)
    (h : parent.children = before ++ nodes) :
    childrenFrom (parent.prune drop (above.map Frame.index)) (pruneAbove drop above)
        (Node.pruneAll drop (above.map Frame.index) 0 before).length
        (Node.pruneAll drop (above.map Frame.index) before.length nodes) =
      pruneList drop (childrenFrom parent above before.length nodes) := by
  induction nodes generalizing before with
  | nil => rfl
  | cons node rest ih =>
      have hnext := ih (before ++ [node]) (by rw [h, List.append_assoc]; rfl)
      rw [Node.prune_all_append, Nat.zero_add, List.length_append, List.length_append,
        List.length_singleton] at hnext
      have hpruned : isPruned drop ⟨node, ⟨parent, before.length⟩ :: above⟩ =
          (node.isComment && drop (before.length :: above.map Frame.index)) := by
        rw [isPruned, List.isEmpty_cons, Bool.not_false, Bool.and_true]
        rfl
      have hindex : prunedIndex drop (above.map Frame.index) ⟨parent, before.length⟩ =
          (Node.pruneAll drop (above.map Frame.index) 0 before).length := by
        rw [prunedIndex, h, List.take_left]
      -- a removed child does not count for the position of the next one, any other does
      rw [Node.pruneAll, childrenFrom]
      cases hdrop : node.isComment && drop (before.length :: above.map Frame.index) with
      | true =>
          rw [prune_list_cons_of_pruned (hpruned.trans hdrop), if_pos rfl, ← hnext, Node.pruneAll,
            if_pos hdrop]
          rfl
      | false =>
          rw [prune_list_cons_of_kept (hpruned.trans hdrop), if_neg (by simp), childrenFrom,
            ← hnext, Node.pruneAll, if_neg (by simp [hdrop])]
          simp only [prune, pruneAbove, hindex]
          rfl

/-- The children of the place of a node are the places of its children. -/
theorem children_prune (c : Cursor) : (c.prune drop).children = pruneList drop c.children := by
  rw [children, prune, Node.children_prune]
  exact children_from_prune c.above [] c.node.children rfl

/-- The named children of the place of a node are the places of its named children. -/
theorem named_children_prune (c : Cursor) :
    (c.prune drop).namedChildren = pruneList drop c.namedChildren := by
  rw [namedChildren, children_prune]
  exact filter_prune_list fun d _ ↦ named_prune drop d

/-- The child that plays a part is not removed. -/
theorem not_pruned_of_child {c d : Cursor} {field : Field} (h : c.child? field = some d) :
    d.isPruned drop = false := by
  have hfield := List.find?_some h
  exact not_pruned_of_field (eq_of_beq hfield)

/-- A child that plays a part is found at its place. -/
theorem child_prune (c : Cursor) (field : Field) :
    (c.prune drop).child? field = (c.child? field).map (prune drop) := by
  rw [child?, children_prune]
  exact find_prune_list (fun d _ ↦ by rw [field_prune]) fun d hd ↦ not_pruned_of_child hd

/-- A child of another kind than comments is found at its place. -/
theorem child_of_kind_prune (c : Cursor) {kind : Kind} (hkind : kind ≠ .comment) :
    (c.prune drop).childOfKind? kind = (c.childOfKind? kind).map (prune drop) := by
  rw [childOfKind?, named_children_prune]
  refine find_prune_list (fun d _ ↦ by rw [kind_prune]) fun d hd ↦ ?_
  have hfound := List.find?_some hd
  exact not_pruned_of_kind (eq_of_beq hfound ▸ hkind)

/-- The first named child is found at its place if it is left. -/
theorem named_child_prune {c : Cursor}
    (h : ∀ d, c.namedChild? 0 = some d → d.isPruned drop = false) :
    (c.prune drop).namedChild? 0 = (c.namedChild? 0).map (prune drop) := by
  rw [namedChild?, named_children_prune, namedChild?, ← List.head?_eq_getElem?,
    ← List.head?_eq_getElem?]
  apply head_prune_list
  intro d hd
  apply h d
  rwa [namedChild?, ← List.head?_eq_getElem?]

/-- A stack of places is listed as the stack of the nodes is. -/
theorem drain_prune (stack : List Cursor) :
    drain (pruneList drop stack) = pruneList drop (drain stack) := by
  fun_induction drain stack with
  | case1 => rw [pruneList, List.filter_nil, List.map_nil, drain]
  | case2 c rest ih =>
      rw [prune_list_append, ← named_children_prune] at ih
      cases h : c.isPruned drop with
      | true =>
          -- nothing is below a comment, so the rest of the stack is what is listed next
          rw [named_children_prune, named_children_of_is_pruned h] at ih
          rw [prune_list_cons_of_pruned h, prune_list_cons_of_pruned h,
            named_children_of_is_pruned h]
          exact ih
      | false => rw [prune_list_cons_of_kept h, prune_list_cons_of_kept h, drain, ih]

/-- The descendants of the place of a node are the places of its descendants. -/
theorem descendants_prune (c : Cursor) :
    (c.prune drop).descendants = pruneList drop c.descendants := by
  rw [descendants, named_children_prune, drain_prune, descendants]

/-- Of two children that are left, the earlier one has the earlier position. -/
theorem pruned_index_lt {c d : Cursor} {i j : Nat} {n : Node}
    (hn : c.node.children[i]? = some n) (hd : d = ⟨n, ⟨c.node, i⟩ :: c.above⟩)
    (hkept : d.isPruned drop = false) (hlt : i < j) :
    prunedIndex drop c.path ⟨c.node, i⟩ < prunedIndex drop c.path ⟨c.node, j⟩ := by
  have hkeep : (n.isComment && drop (i :: c.path)) = false := by
    rw [hd, isPruned, List.isEmpty_cons, Bool.not_false, Bool.and_true] at hkept
    exact hkept
  obtain ⟨hi, rfl⟩ := List.getElem?_eq_some_iff.1 hn
  -- the children before position `j` are those before `i`, the one at `i`, and some more
  have htake : c.node.children.take j =
      c.node.children.take i ++ (c.node.children.drop i).take (j - i) := by
    rw [← List.take_add]
    congr 1
    omega
  have hdrop : (c.node.children.drop i).take (j - i) =
      c.node.children[i] :: (c.node.children.drop (i + 1)).take (j - i - 1) := by
    rw [List.drop_eq_getElem_cons hi]
    obtain ⟨k, hk⟩ : ∃ k, j - i = k + 1 := ⟨j - i - 1, by omega⟩
    rw [hk, List.take_succ_cons, Nat.add_sub_cancel]
  have hlength : (c.node.children.take i).length = i := by
    rw [List.length_take]
    omega
  simp only [prunedIndex]
  rw [htake, Node.prune_all_append, hdrop, Nat.zero_add, hlength, Node.pruneAll,
    if_neg (by simp [hkeep]), List.length_append, List.length_cons]
  omega

/-- Children that are left stay the same or different. -/
theorem same_node_prune {c d e : Cursor} (hd : d ∈ c.children) (he : e ∈ c.children)
    (hdkept : d.isPruned drop = false) (hekept : e.isPruned drop = false) :
    (d.prune drop).sameNode (e.prune drop) = d.sameNode e := by
  obtain ⟨i, n, hn, rfl⟩ := mem_children.1 hd
  obtain ⟨j, m, hm, rfl⟩ := mem_children.1 he
  rw [Bool.eq_iff_iff, sameNode, sameNode, beq_iff_eq, beq_iff_eq]
  simp only [path, prune, pruneAbove, List.map_cons, List.cons.injEq, and_true]
  constructor
  · intro h
    rcases Nat.lt_trichotomy i j with hlt | heq | hlt
    · have := pruned_index_lt hn rfl hdkept hlt
      exact absurd h (Nat.ne_of_lt this)
    · exact heq
    · have := pruned_index_lt hm rfl hekept hlt
      exact absurd h (Nat.ne_of_gt this)
  · rintro rfl
    rfl

/-! ### The nodes of the pruned tree -/

/-- A node with children is not removed. -/
theorem not_pruned_of_mem_children {c d : Cursor} (h : d ∈ c.children) :
    c.isPruned drop = false := by
  apply Bool.eq_false_iff.2
  intro hpruned
  simp only [isPruned, Node.isComment, Bool.and_eq_true, List.isEmpty_iff] at hpruned
  obtain ⟨i, n, hn, _⟩ := mem_children.1 h
  rw [hpruned.1.1.2] at hn
  cases hn

/-- The places of some nodes are the places of those that are left. -/
theorem mem_prune_list {nodes : List Cursor} {d : Cursor} :
    d ∈ pruneList drop nodes ↔ ∃ c ∈ nodes, c.isPruned drop = false ∧ c.prune drop = d := by
  simp only [pruneList, List.mem_map, List.mem_filter, Bool.not_eq_true', and_assoc]

/-- The nodes of the pruned tree are the places of the nodes that are left. -/
theorem is_in_prune_iff {tree : Node} {d : Cursor} :
    IsIn (tree.prune drop []) d ↔
      ∃ c, IsIn tree c ∧ c.isPruned drop = false ∧ c.prune drop = d := by
  constructor
  · intro h
    induction h with
    | root => exact ⟨.atRoot tree, .root, by simp [isPruned, atRoot], rfl⟩
    | child _ hmem ih =>
        obtain ⟨c, hc, -, rfl⟩ := ih
        rw [children_prune] at hmem
        obtain ⟨d, hd, hkept, rfl⟩ := mem_prune_list.1 hmem
        exact ⟨d, hc.child hd, hkept, rfl⟩
  · rintro ⟨c, hc, hkept, rfl⟩
    induction hc with
    | root => exact .root
    | @child c d _ hmem ih =>
        refine (ih (not_pruned_of_mem_children hmem)).child ?_
        rw [children_prune]
        exact mem_prune_list.2 ⟨d, hmem, hkept, rfl⟩

end Cursor

namespace SourceUnit

variable (drop : List Nat → Bool)

/-- The unit with its tree pruned; its text stays. -/
def prune (unit : SourceUnit) : SourceUnit :=
  { unit with tree := unit.tree.prune drop [] }

/-- The root of a pruned unit is the place of the root. -/
theorem root_prune (unit : SourceUnit) : (unit.prune drop).root = unit.root.prune drop :=
  rfl

/-- A node is located where its place in the pruned unit is. -/
theorem location_prune (unit : SourceUnit) (c : Cursor) :
    (unit.prune drop).location (c.prune drop) = unit.location c := by
  simp only [location, Cursor.start_prune]
  rfl

end SourceUnit

/-- Some units with their trees pruned, where `drop` selects comments of each unit. -/
def pruneUnits (drop : Nat → List Nat → Bool) (units : List SourceUnit) : List SourceUnit :=
  units.mapIdx fun index unit ↦ unit.prune (drop index)

end MemberReach
