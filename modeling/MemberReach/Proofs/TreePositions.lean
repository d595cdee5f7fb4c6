import MemberReach.Tree.Node

/-!
# Positions in a tree

Which cursors stand at nodes of a given tree, and where. `Cursor.IsIn` is closed under every step
that the analysis takes: to children, parents, ancestors and descendants. A tree is well formed if
the children of each node stand in order, beside each other, inside the node; then the descendants
of a node start in the order in which they are listed (`descendants_sorted`).
-/

namespace MemberReach

namespace Cursor

/-! ### Nodes of a tree -/

/-- A cursor at a node of `tree`: the root, or a child of such a cursor. -/
inductive IsIn (tree : Node) : Cursor → Prop where
  | root : IsIn tree (.atRoot tree)
  | child {c d : Cursor} : IsIn tree c → d ∈ c.children → IsIn tree d

/-- The cursors at a list of children are those at its members, each at its position. -/
theorem mem_children_from {parent : Node} {above : List Frame} {index : Nat} {nodes : List Node}
    {d : Cursor} :
    d ∈ childrenFrom parent above index nodes ↔
      ∃ i n, nodes[i]? = some n ∧ d = ⟨n, ⟨parent, index + i⟩ :: above⟩ := by
  induction nodes generalizing index with
  | nil => simp [childrenFrom]
  | cons node rest ih =>
      rw [childrenFrom, List.mem_cons, ih]
      constructor
      · rintro (rfl | ⟨i, n, hn, rfl⟩)
        · exact ⟨0, node, rfl, rfl⟩
        · exact ⟨i + 1, n, hn, by rw [Nat.add_assoc, Nat.add_comm 1 i]⟩
      · rintro ⟨i, n, hn, rfl⟩
        cases i with
        | zero => exact Or.inl (by rw [Option.some.inj hn, Nat.add_zero])
        | succ i => exact Or.inr ⟨i, n, hn, by rw [Nat.add_assoc, Nat.add_comm 1 i]⟩

/-- A child stands at a position among the nodes below its parent. -/
theorem mem_children {c d : Cursor} :
    d ∈ c.children ↔
      ∃ i n, c.node.children[i]? = some n ∧ d = ⟨n, ⟨c.node, i⟩ :: c.above⟩ := by
  rw [children, mem_children_from]
  simp

/-- A child leads back to the node that it is a child of. -/
theorem parent_of_mem_children {c d : Cursor} (h : d ∈ c.children) : d.parent? = some c := by
  obtain ⟨i, n, _, rfl⟩ := mem_children.1 h
  rfl

/-- The nodes above a child are its parent and the nodes above that. -/
theorem ancestors_of_mem_children {c d : Cursor} (h : d ∈ c.children) :
    d.ancestors = c :: c.ancestors := by
  obtain ⟨i, n, _, rfl⟩ := mem_children.1 h
  rfl

/-- Named children are children. -/
theorem mem_children_of_named {c d : Cursor} (h : d ∈ c.namedChildren) : d ∈ c.children :=
  (List.mem_filter.1 h).1

/-- The child that plays a part is a child. -/
theorem mem_children_of_child {c d : Cursor} {field : Field} (h : c.child? field = some d) :
    d ∈ c.children :=
  List.mem_of_find?_eq_some h

/-- The child of a kind is a child. -/
theorem mem_children_of_kind {c d : Cursor} {kind : Kind} (h : c.childOfKind? kind = some d) :
    d ∈ c.children :=
  mem_children_of_named (List.mem_of_find?_eq_some h)

/-- Children at different positions have different paths. -/
theorem children_from_apart (parent : Node) (above : List Frame) (index : Nat)
    (nodes : List Node) :
    (childrenFrom parent above index nodes).Pairwise fun a b ↦ a.path ≠ b.path := by
  induction nodes generalizing index with
  | nil => exact List.Pairwise.nil
  | cons node rest ih =>
      rw [childrenFrom]
      refine List.pairwise_cons.2 ⟨fun d hd hpath ↦ ?_, ih (index + 1)⟩
      obtain ⟨i, n, _, rfl⟩ := mem_children_from.1 hd
      have hindex : index = index + 1 + i := (List.cons.inj hpath).1
      omega

/-- Two children of a node that are the same node are equal. -/
theorem eq_of_same_node {c d e : Cursor} (hd : d ∈ c.children) (he : e ∈ c.children)
    (h : d.sameNode e) : d = e := by
  obtain ⟨i, n, hn, rfl⟩ := mem_children.1 hd
  obtain ⟨j, m, hm, rfl⟩ := mem_children.1 he
  obtain rfl : i = j := (List.cons.inj (eq_of_beq h)).1
  rw [hn] at hm
  cases hm
  rfl

variable {tree : Node}

/-- The parent of a node is a node, and the node is one of its children. -/
theorem IsIn.parent {c d : Cursor} (hd : IsIn tree d) (h : d.parent? = some c) :
    IsIn tree c ∧ d ∈ c.children := by
  cases hd with
  | root => cases h
  | child hc hmem =>
      rw [parent_of_mem_children hmem] at h
      cases h
      exact ⟨hc, hmem⟩

/-- The ancestors of a node are nodes. -/
theorem IsIn.ancestor {a c : Cursor} (hc : IsIn tree c) (h : a ∈ c.ancestors) : IsIn tree a := by
  induction hc with
  | root => cases h
  | child hc hmem ih =>
      obtain ⟨i, n, _, rfl⟩ := mem_children.1 hmem
      rcases List.mem_cons.1 h with rfl | h
      · exact hc
      · exact ih h

/-- Two nodes of a tree with the same path are the same node. -/
theorem IsIn.eq_of_path {c d : Cursor} (hc : IsIn tree c) (hd : IsIn tree d)
    (h : c.path = d.path) : c = d := by
  induction hc generalizing d with
  | root =>
      cases hd with
      | root => rfl
      | child _ hmem =>
          obtain ⟨i, n, _, rfl⟩ := mem_children.1 hmem
          cases h
  | child _ hmem ih =>
      obtain ⟨i, n, hn, rfl⟩ := mem_children.1 hmem
      cases hd with
      | root => cases h
      | child hparent hmem =>
          obtain ⟨j, m, hm, rfl⟩ := mem_children.1 hmem
          obtain ⟨rfl, hpath⟩ := List.cons.inj h
          obtain rfl := ih hparent hpath
          rw [hn] at hm
          cases hm
          rfl

/-- Every node that is listed on the way down from some nodes is a node. -/
theorem is_in_of_mem_drain {stack : List Cursor} (hstack : ∀ c ∈ stack, IsIn tree c) {d : Cursor}
    (h : d ∈ drain stack) : IsIn tree d := by
  fun_induction drain stack with
  | case1 => cases h
  | case2 c rest ih =>
      rcases List.mem_cons.1 h with rfl | h
      · exact hstack d List.mem_cons_self
      · refine ih (fun e he ↦ ?_) h
        rcases List.mem_append.1 he with he | he
        · exact (hstack c List.mem_cons_self).child (mem_children_of_named he)
        · exact hstack e (List.mem_cons_of_mem c he)

/-- The descendants of a node are nodes. -/
theorem IsIn.descendant {c d : Cursor} (hc : IsIn tree c) (h : d ∈ c.descendants) :
    IsIn tree d :=
  is_in_of_mem_drain (fun _ he ↦ hc.child (mem_children_of_named he)) h

/-! ### Listing the nodes of a tree -/

mutual

/-- A node and every node below it, named or not. -/
def reach (above : List Frame) : Node → List Cursor
  | .mk label nodes => ⟨.mk label nodes, above⟩ :: reachAll (.mk label nodes) above 0 nodes

/-- Some children of `parent`, each with every node below it. -/
def reachAll (parent : Node) (above : List Frame) : Nat → List Node → List Cursor
  | _, [] => []
  | index, node :: rest =>
      reach (⟨parent, index⟩ :: above) node ++ reachAll parent above (index + 1) rest

end

/-- What is listed for some children is listed for each of them. -/
theorem reach_all_eq_flat_map (parent : Node) (above : List Frame) (index : Nat)
    (nodes : List Node) :
    reachAll parent above index nodes =
      (childrenFrom parent above index nodes).flatMap fun c ↦ reach c.above c.node := by
  induction nodes generalizing index with
  | nil => simp [reachAll, childrenFrom]
  | cons node rest ih => simp [reachAll, childrenFrom, ih (index + 1)]

/-- A node is listed before what is below its children. -/
theorem reach_eq_cons (c : Cursor) :
    reach c.above c.node = c :: c.children.flatMap fun d ↦ reach d.above d.node := by
  obtain ⟨⟨label, nodes⟩, above⟩ := c
  rw [reach, reach_all_eq_flat_map]
  rfl

/-- The list of the nodes below a node holds the children of its members. -/
theorem child_mem_reach {c d e : Cursor} (hd : d ∈ reach c.above c.node) (he : e ∈ d.children) :
    e ∈ reach c.above c.node := by
  induction hsize : c.node.size using Nat.strongRecOn generalizing c with
  | _ size ih =>
      rw [reach_eq_cons, List.mem_cons] at hd ⊢
      rcases hd with rfl | hd
      · refine Or.inr (List.mem_flatMap.2 ⟨e, he, ?_⟩)
        rw [reach_eq_cons]
        exact List.mem_cons_self
      · obtain ⟨f, hf, hd⟩ := List.mem_flatMap.1 hd
        have hlt := size_lt_of_mem_children hf
        exact Or.inr (List.mem_flatMap.2 ⟨f, hf, ih _ (hsize ▸ hlt) hd rfl⟩)

/-- What is listed below a node of a tree is a node of the tree. -/
theorem is_in_of_mem_reach {c d : Cursor} (hc : IsIn tree c) (hd : d ∈ reach c.above c.node) :
    IsIn tree d := by
  induction hsize : c.node.size using Nat.strongRecOn generalizing c with
  | _ size ih =>
      rw [reach_eq_cons, List.mem_cons] at hd
      rcases hd with rfl | hd
      · exact hc
      · obtain ⟨e, he, hd⟩ := List.mem_flatMap.1 hd
        have hlt := size_lt_of_mem_children he
        exact ih _ (hsize ▸ hlt) (hc.child he) hd rfl

/-- The nodes of a tree are those that are listed. -/
theorem is_in_iff_mem_reach {c : Cursor} : IsIn tree c ↔ c ∈ reach [] tree := by
  constructor
  · intro h
    induction h with
    | root =>
        have hroot := reach_eq_cons (.atRoot tree)
        exact hroot ▸ List.mem_cons_self
    | child _ hmem ih => exact child_mem_reach (c := .atRoot tree) ih hmem
  · exact is_in_of_mem_reach IsIn.root

/-- A property of all nodes of a tree is decided on the listed ones. -/
instance {p : Cursor → Prop} [DecidablePred p] : Decidable (∀ c, IsIn tree c → p c) :=
  decidable_of_iff (∀ c ∈ reach [] tree, p c)
    (forall_congr' fun _ ↦ imp_congr_left is_in_iff_mem_reach.symm)

end Cursor

/-! ### Well-formed trees -/

namespace Node

mutual

/-- The children of every node of the tree stand in order, beside each other, inside the node. -/
def wellFormed : Node → Bool
  | mk label children => wellFormedIn label.start label.stop children

/-- Some well-formed trees stand in order and beside each other between two offsets. -/
def wellFormedIn (start stop : Nat) : List Node → Bool
  | [] => decide (start ≤ stop)
  | node :: rest =>
      decide (start ≤ node.label.start) && node.wellFormed &&
        wellFormedIn node.label.stop stop rest

end

mutual

/-- A well-formed tree starts before it stops. -/
theorem start_le_stop : ∀ {node : Node}, node.wellFormed → node.label.start ≤ node.label.stop
  | mk label children, h => by
      rw [wellFormed] at h
      exact le_of_well_formed_in h

/-- Trees fit between two offsets only if these are in order. -/
theorem le_of_well_formed_in : ∀ {nodes : List Node} {start stop : Nat},
    wellFormedIn start stop nodes → start ≤ stop
  | [], start, stop, h => by simpa [wellFormedIn] using h
  | node :: rest, start, stop, h => by
      simp only [wellFormedIn, Bool.and_eq_true, decide_eq_true_eq] at h
      have hnode := start_le_stop h.1.2
      have hrest := le_of_well_formed_in h.2
      omega

end

/-- The children of a well-formed tree are well formed. -/
theorem well_formed_of_mem {nodes : List Node} {start stop : Nat}
    (h : wellFormedIn start stop nodes) {node : Node} (hmem : node ∈ nodes) :
    node.wellFormed := by
  induction nodes generalizing start with
  | nil => cases hmem
  | cons first rest ih =>
      simp only [wellFormedIn, Bool.and_eq_true] at h
      rcases List.mem_cons.1 hmem with rfl | hmem
      · exact h.1.2
      · exact ih h.2 hmem

end Node

namespace Cursor

/-- The children of a well-formed node are well formed. -/
theorem well_formed_of_mem_children {c d : Cursor} (h : c.node.wellFormed)
    (hd : d ∈ c.children) : d.node.wellFormed := by
  obtain ⟨i, n, hn, rfl⟩ := mem_children.1 hd
  obtain ⟨⟨label, nodes⟩, above⟩ := c
  rw [Node.wellFormed] at h
  exact Node.well_formed_of_mem h (List.mem_of_getElem? hn)

/-- Every node of a well-formed tree is well formed. -/
theorem IsIn.well_formed {tree : Node} (htree : tree.wellFormed) {c : Cursor}
    (h : IsIn tree c) : c.node.wellFormed := by
  induction h with
  | root => exact htree
  | child _ hmem ih => exact well_formed_of_mem_children ih hmem

mutual

/-- The nodes within a well-formed node start in the order in which they are listed, none of them
before the node starts or after it stops. -/
theorem within_sorted (above : List Frame) : ∀ {node : Node}, node.wellFormed →
    (within above node).Pairwise (fun a b ↦ a.start ≤ b.start) ∧
      ∀ x ∈ within above node, node.label.start ≤ x.start ∧ x.start ≤ node.label.stop
  | .mk label nodes, h => by
      have hle := Node.start_le_stop h
      rw [Node.wellFormed] at h
      obtain ⟨hsorted, hbounds⟩ := within_all_sorted (.mk label nodes) above 0 h
      rw [within]
      refine ⟨List.pairwise_cons.2 ⟨fun x hx ↦ (hbounds x hx).1, hsorted⟩, ?_⟩
      intro x hx
      rcases List.mem_cons.1 hx with rfl | hx
      · exact ⟨Nat.le_refl _, hle⟩
      · exact hbounds x hx

/-- The nodes within some well-formed trees that stand in order start in the order in which they
are listed. -/
theorem within_all_sorted (parent : Node) (above : List Frame) (index : Nat) :
    ∀ {nodes : List Node} {start stop : Nat}, Node.wellFormedIn start stop nodes →
      (withinAll parent above index nodes).Pairwise (fun a b ↦ a.start ≤ b.start) ∧
        ∀ x ∈ withinAll parent above index nodes, start ≤ x.start ∧ x.start ≤ stop
  | [], _, _, _ => by simp [withinAll]
  | node :: rest, start, stop, h => by
      simp only [Node.wellFormedIn, Bool.and_eq_true, decide_eq_true_eq] at h
      obtain ⟨⟨hstart, hnode⟩, hrest⟩ := h
      obtain ⟨hsortedRest, hboundsRest⟩ := within_all_sorted parent above (index + 1) hrest
      obtain ⟨hsorted, hbounds⟩ := within_sorted (⟨parent, index⟩ :: above) hnode
      have hle := Node.start_le_stop hnode
      have hleRest := Node.le_of_well_formed_in hrest
      rw [withinAll]
      split
      · refine ⟨List.pairwise_append.2 ⟨hsorted, hsortedRest, fun x hx y hy ↦ ?_⟩, ?_⟩
        · exact Nat.le_trans (hbounds x hx).2 (hboundsRest y hy).1
        · intro x hx
          rcases List.mem_append.1 hx with hx | hx
          · have := hbounds x hx
            omega
          · have := hboundsRest x hx
            omega
      · refine ⟨hsortedRest, fun x hx ↦ ?_⟩
        have := hboundsRest x hx
        omega

end

/-- The descendants of a well-formed node start in the order in which they are listed. -/
theorem descendants_sorted {c : Cursor} (h : c.node.wellFormed) :
    c.descendants.Pairwise fun a b ↦ a.start ≤ b.start := by
  rw [descendants_eq_below]
  obtain ⟨⟨label, nodes⟩, above⟩ := c
  rw [Node.wellFormed] at h
  exact (within_all_sorted _ above 0 h).1

end Cursor

end MemberReach
