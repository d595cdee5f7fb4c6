import MemberReach.Proofs.TreeSpans

/-!
# Nodes that come one after the other

Of two nodes of a tree that are not above each other, one precedes the other (`order_cases`): they
stand in two children of one node. This is a matter of the tree alone, where spans do not tell empty
nodes apart. The rank of a node counts the nodes in it and in front of it. It falls from a node to
the nodes below it (`rank_lt_of_mem_ancestors`) and to the nodes that precede it
(`Precedes.rank_lt`), so it bounds every walk that goes down and back only.
-/

namespace MemberReach

namespace Cursor

variable {tree : Node} {a b c d p : Cursor}

/-! ### Paths between nodes -/

/-- The root is above every other node. -/
theorem IsIn.root_mem (hc : IsIn tree c) : .atRoot tree ∈ c :: c.ancestors := by
  induction hc with
  | root => exact List.mem_cons_self
  | child _ hmem ih =>
      rw [ancestors_of_mem_children hmem]
      exact List.mem_cons_of_mem _ ih

/-- On the way down from a node to one below it there is a child of the upper one. -/
theorem IsIn.exists_child_above (hc : IsIn tree c) (hp : p ∈ c.ancestors) :
    ∃ d ∈ p.children, d ∈ c :: c.ancestors := by
  induction hc with
  | root => cases hp
  | @child q c _ hmem ih =>
      rw [ancestors_of_mem_children hmem] at hp ⊢
      rcases List.mem_cons.1 hp with rfl | hp
      · exact ⟨c, hmem, List.mem_cons_self⟩
      · obtain ⟨d, hd, habove⟩ := ih hp
        exact ⟨d, hd, List.mem_cons_of_mem c habove⟩

/-- On the way up from a node, what is met later is above what is met earlier. -/
theorem mem_ancestors_of_append {first rest : List Cursor}
    (h : a :: a.ancestors = first ++ c :: rest) (hd : d ∈ first) : c ∈ d.ancestors := by
  obtain ⟨before, after, rfl⟩ := List.append_of_mem hd
  have hlater : c ∈ after ++ c :: rest := List.mem_append_right after List.mem_cons_self
  rw [List.append_assoc, List.cons_append] at h
  cases before with
  | nil =>
      obtain ⟨rfl, habove⟩ := List.cons.inj h
      exact habove ▸ hlater
  | cons _ before =>
      rw [ancestors_of_append (List.cons.inj h).2]
      exact hlater

/-- What is above a node that is above another one is above that one too. -/
theorem mem_ancestors_trans (hb : b ∈ c.ancestors) (ha : a ∈ b.ancestors) : a ∈ c.ancestors := by
  obtain ⟨first, rest, hsplit⟩ := List.append_of_mem hb
  rw [ancestors_of_append hsplit] at ha
  rw [hsplit]
  exact List.mem_append_right first (List.mem_cons_of_mem b ha)

/-! ### Preceding nodes -/

/-- A node stands in a child of some node, another one in a later child. -/
def Precedes (a b : Cursor) : Prop :=
  ∃ p x y : Cursor, [x, y].Sublist p.children ∧ x ∈ a :: a.ancestors ∧ y ∈ b :: b.ancestors

/-- What is above a node, or is the node, is so for what is below it too. -/
theorem mem_above_of_below (hb : b ∈ c.ancestors) (ha : a ∈ b :: b.ancestors) :
    a ∈ c :: c.ancestors := by
  rcases List.mem_cons.1 ha with rfl | ha
  · exact List.mem_cons_of_mem c hb
  · exact List.mem_cons_of_mem c (mem_ancestors_trans hb ha)

/-- What is below a node precedes what the node precedes. -/
theorem Precedes.of_below (h : a.Precedes b) (ha : a ∈ c.ancestors) : c.Precedes b := by
  obtain ⟨p, x, y, hchildren, hx, hy⟩ := h
  exact ⟨p, x, y, hchildren, mem_above_of_below ha hx, hy⟩

/-- What precedes a node precedes what is below it. -/
theorem Precedes.to_below (h : a.Precedes b) (hb : b ∈ c.ancestors) : a.Precedes c := by
  obtain ⟨p, x, y, hchildren, hx, hy⟩ := h
  exact ⟨p, x, y, hchildren, hx, mem_above_of_below hb hy⟩

/-- A node is above the nodes that are below it. -/
theorem mem_ancestors_of_mem_below (h : d ∈ c.below) : c ∈ d.ancestors := by
  obtain ⟨e, he, hd⟩ := mem_below.1 h
  refine mem_ancestors_of_within (List.mem_cons.2 hd) ?_
  rw [ancestors_of_mem_children (mem_children_of_named he)]
  exact List.mem_cons_self

/-- Of two members of a list, one comes before the other, unless they are the same. -/
theorem sublist_cases {α : Type} {x y : α} {l : List α} (hx : x ∈ l) (hy : y ∈ l) :
    x = y ∨ [x, y].Sublist l ∨ [y, x].Sublist l := by
  obtain ⟨first, rest, rfl⟩ := List.append_of_mem hx
  rcases List.mem_append.1 hy with hy | hy
  · have hfirst : [y].Sublist first := List.singleton_sublist.2 hy
    exact Or.inr (Or.inr (hfirst.append (List.singleton_sublist.2 List.mem_cons_self)))
  · rcases List.mem_cons.1 hy with rfl | hy
    · exact Or.inl rfl
    · have hrest : [x, y].Sublist (x :: rest) := (List.singleton_sublist.2 hy).cons_cons x
      exact Or.inr (Or.inl (hrest.trans (List.sublist_append_right first _)))

/-- Of two nodes, one is above the other or precedes it, unless they are the same. -/
theorem order_cases (ha : IsIn tree a) (hb : IsIn tree b) :
    a ∈ b :: b.ancestors ∨ b ∈ a.ancestors ∨ a.Precedes b ∨ b.Precedes a := by
  induction ha with
  | root => exact Or.inl hb.root_mem
  | @child p a hp hmem ih =>
      have habove : p ∈ a.ancestors := by
        rw [ancestors_of_mem_children hmem]
        exact List.mem_cons_self
      rcases ih with hpb | hbp | hpb | hbp
      · rcases List.mem_cons.1 hpb with rfl | hpb
        · exact Or.inr (Or.inl habove)
        · -- the child of `p` on the way to `b` is `a`, or before or after it
          obtain ⟨d, hd, hdb⟩ := hb.exists_child_above hpb
          rcases sublist_cases hmem hd with rfl | had | hda
          · exact Or.inl hdb
          · exact Or.inr (Or.inr (Or.inl ⟨p, a, d, had, List.mem_cons_self, hdb⟩))
          · exact Or.inr (Or.inr (Or.inr ⟨p, d, a, hda, hdb, List.mem_cons_self⟩))
      · exact Or.inr (Or.inl (mem_ancestors_trans habove hbp))
      · exact Or.inr (Or.inr (Or.inl (hpb.of_below habove)))
      · exact Or.inr (Or.inr (Or.inr (hbp.to_below habove)))

/-- A node lies within what is above it. -/
theorem IsIn.span_of_above (htree : tree.wellFormed) (hc : IsIn tree c)
    (ha : a ∈ c :: c.ancestors) : a.start ≤ c.start ∧ c.stop ≤ a.stop := by
  rcases List.mem_cons.1 ha with rfl | ha
  · exact ⟨Nat.le_refl _, Nat.le_refl _⟩
  · have hencloses := hc.ancestor_encloses htree ha
    simpa only [encloses, Bool.and_eq_true, decide_eq_true_eq] using hencloses

/-- The node above a child of some node in the tree is in the tree. -/
theorem IsIn.of_child (hd : IsIn tree d) (h : d ∈ p.children) : IsIn tree p :=
  (hd.parent (parent_of_mem_children h)).1

/-- What is above a node of the tree is in the tree. -/
theorem IsIn.of_above (hc : IsIn tree c) (ha : a ∈ c :: c.ancestors) : IsIn tree a := by
  rcases List.mem_cons.1 ha with rfl | ha
  · exact hc
  · exact hc.ancestor ha

/-- A node that precedes another one stops before that one starts. -/
theorem Precedes.stop_le_start (h : a.Precedes b) (htree : tree.wellFormed) (ha : IsIn tree a)
    (hb : IsIn tree b) : a.stop ≤ b.start := by
  obtain ⟨p, x, y, hchildren, hx, hy⟩ := h
  have hp : IsIn tree p :=
    (ha.of_above hx).of_child (hchildren.subset List.mem_cons_self)
  have hbeside := (children_beside (hp.well_formed htree)).sublist hchildren
  have hxy : x.stop ≤ y.start := List.rel_of_pairwise_cons hbeside (List.mem_singleton_self y)
  have hxa := ha.span_of_above htree hx
  have hyb := hb.span_of_above htree hy
  omega

/-- A node that starts before another one and does not enclose it precedes it. -/
theorem precedes_of_start_lt (htree : tree.wellFormed) (ha : IsIn tree a) (hb : IsIn tree b)
    (hlt : a.start < b.start) (hencloses : a.encloses b = false) : a.Precedes b := by
  have hstop := Node.start_le_stop (hb.well_formed htree)
  change b.start ≤ b.stop at hstop
  rcases order_cases ha hb with hab | hba | hab | hba
  · obtain ⟨hstart, hstop⟩ := hb.span_of_above htree hab
    simp [encloses, hstart, hstop] at hencloses
  · have := (ha.span_of_above htree (List.mem_cons_of_mem a hba)).1
    omega
  · exact hab
  · have := hba.stop_le_start htree hb ha
    omega

/-! ### The rank of a node -/

/-- The number of nodes in front of those on a path. -/
def before : List Frame → Nat
  | [] => 0
  | frame :: rest => Node.sizeAll (frame.node.children.take frame.index) + before rest

/-- The number of nodes in front of a node and in it. -/
def rank (c : Cursor) : Nat :=
  before c.above + c.node.size

/-- Two lists of trees together have the nodes of both. -/
theorem size_all_append (first second : List Node) :
    Node.sizeAll (first ++ second) = Node.sizeAll first + Node.sizeAll second := by
  induction first with
  | nil => rw [List.nil_append, Node.sizeAll, Nat.zero_add]
  | cons node first ih => rw [List.cons_append, Node.sizeAll, Node.sizeAll, ih, Nat.add_assoc]

/-- A tree has at least one node. -/
theorem size_pos (node : Node) : 0 < node.size := by
  obtain ⟨label, nodes⟩ := node
  rw [Node.size]
  exact Nat.succ_pos _

/-- In front of some children of a node there is what is in front of the node, the earlier children
and what is in them. -/
theorem children_from_rank {parent : Node} {above : List Frame} (first : List Node)
    {nodes : List Node} (h : parent.children = first ++ nodes) :
    (childrenFrom parent above first.length nodes).Pairwise (fun x y ↦ x.rank ≤ before y.above) ∧
      ∀ x ∈ childrenFrom parent above first.length nodes,
        Node.sizeAll first + before above ≤ before x.above ∧
          x.rank ≤ Node.sizeAll parent.children + before above := by
  induction nodes generalizing first with
  | nil => simp [childrenFrom]
  | cons node rest ih =>
      have hsplit : parent.children = (first ++ [node]) ++ rest := by
        rw [h, List.append_assoc, List.singleton_append]
      have hfirst : Node.sizeAll (first ++ [node]) = Node.sizeAll first + node.size := by
        rw [size_all_append, Node.sizeAll, Node.sizeAll, Nat.add_zero]
      have hall : Node.sizeAll parent.children =
          Node.sizeAll first + node.size + Node.sizeAll rest := by
        rw [hsplit, size_all_append, hfirst]
      have hbefore : before (⟨parent, first.length⟩ :: above) =
          Node.sizeAll first + before above := by
        rw [before, h, List.take_left]
      have hrank : rank ⟨node, ⟨parent, first.length⟩ :: above⟩ =
          Node.sizeAll first + before above + node.size := congrArg (· + node.size) hbefore
      obtain ⟨hpairwise, hbounds⟩ := ih (first ++ [node]) hsplit
      rw [List.length_append, List.length_singleton] at hpairwise hbounds
      rw [hfirst] at hbounds
      rw [childrenFrom]
      refine ⟨List.pairwise_cons.2 ⟨fun y hy ↦ ?_, hpairwise⟩, fun x hx ↦ ?_⟩
      · have := (hbounds y hy).1
        rw [hrank]
        omega
      · rcases List.mem_cons.1 hx with rfl | hx
        · rw [hrank, hbefore]
          omega
        · have := hbounds x hx
          omega

/-- Of two children of a node, the later one has all of the earlier one in front of it. -/
theorem children_rank (c : Cursor) :
    c.children.Pairwise fun x y ↦ x.rank ≤ before y.above := by
  exact (children_from_rank [] rfl).1

/-- A child has in front of it what its parent has, and a lower rank than the parent. -/
theorem rank_of_mem_children (hd : d ∈ c.children) :
    before c.above ≤ before d.above ∧ d.rank < c.rank := by
  obtain ⟨hbefore, hrank⟩ := (children_from_rank [] rfl).2 d hd
  obtain ⟨⟨label, nodes⟩, above⟩ := c
  simp only [Node.sizeAll, Node.children, rank, Node.size] at *
  omega

/-- What is above a node has no more in front of it, and a rank that is not lower. -/
theorem IsIn.rank_of_above (hc : IsIn tree c) (ha : a ∈ c :: c.ancestors) :
    before a.above ≤ before c.above ∧ c.rank ≤ a.rank := by
  induction hc with
  | root =>
      rw [List.mem_singleton.1 ha]
      exact ⟨Nat.le_refl _, Nat.le_refl _⟩
  | @child p c _ hmem ih =>
      rcases List.mem_cons.1 ha with rfl | ha
      · exact ⟨Nat.le_refl _, Nat.le_refl _⟩
      · rw [ancestors_of_mem_children hmem] at ha
        have hchild := rank_of_mem_children hmem
        have habove := ih ha
        omega

/-- A node has no higher rank than the tree has nodes. -/
theorem IsIn.rank_le (hc : IsIn tree c) : c.rank ≤ tree.size := by
  have hroot : rank (.atRoot tree) = tree.size := Nat.zero_add _
  exact hroot ▸ (hc.rank_of_above hc.root_mem).2

/-- A node below another one has a lower rank. -/
theorem IsIn.rank_lt_of_mem_ancestors (hc : IsIn tree c) (ha : a ∈ c.ancestors) :
    c.rank < a.rank := by
  obtain ⟨d, hd, hdc⟩ := hc.exists_child_above ha
  exact Nat.lt_of_le_of_lt (hc.rank_of_above hdc).2 (rank_of_mem_children hd).2

/-- A node that precedes another one has a lower rank. -/
theorem Precedes.rank_lt (h : a.Precedes b) (ha : IsIn tree a) (hb : IsIn tree b) :
    a.rank < b.rank := by
  obtain ⟨p, x, y, hchildren, hx, hy⟩ := h
  have hxy : x.rank ≤ before y.above :=
    List.rel_of_pairwise_cons ((children_rank p).sublist hchildren) (List.mem_singleton_self y)
  have hxa := ha.rank_of_above hx
  have hyb := hb.rank_of_above hy
  have hpos := size_pos b.node
  have hrank : b.rank = before b.above + b.node.size := rfl
  omega

/-- A node is not above itself. -/
theorem IsIn.not_mem_ancestors (hc : IsIn tree c) : c ∉ c.ancestors :=
  fun h ↦ Nat.lt_irrefl _ (hc.rank_lt_of_mem_ancestors h)

/-- A node that precedes another one is not above it. -/
theorem Precedes.not_above (h : a.Precedes b) (ha : IsIn tree a) (hb : IsIn tree b) :
    a ∉ b :: b.ancestors :=
  fun habove ↦ Nat.not_lt.2 (hb.rank_of_above habove).2 (h.rank_lt ha hb)

end Cursor

end MemberReach
