import Mathlib.Data.List.Pairwise
import MemberReach.Proofs.TreePositions

/-!
# Spans of the nodes of a tree

In a well-formed tree the children of a node stand beside each other (`children_beside`), and so do
any two nodes of which neither is below the other: of two descendants, the later one is below the
earlier one or starts where that one has stopped (`below_beside`). Hence of the nodes of a list in
document order that have the span of a node, the node itself comes last, unless a node below it has
the same span (`find_last_span`). The nodes above the earlier one are above the later one too, or
have stopped before it starts (`below_shared_or_stopped`).
-/

namespace MemberReach.Cursor

/-- The nodes below a node are its named children and the nodes below those. -/
theorem below_eq_flat_map (c : Cursor) :
    c.below = c.namedChildren.flatMap fun d ↦ d :: d.below := by
  rw [below, within_all_eq_flat_map, funext within_eq_cons]
  rfl

/-- A node is below another if it is a named child of it or below one. -/
theorem mem_below {c e : Cursor} :
    e ∈ c.below ↔ ∃ d ∈ c.namedChildren, e = d ∨ e ∈ d.below := by
  simp only [below_eq_flat_map c, List.mem_flatMap, List.mem_cons]

/-- A named child of a node below another is below that one. -/
theorem mem_below_of_child {c d e : Cursor} (hd : d ∈ c.below) (he : e ∈ d.namedChildren) :
    e ∈ c.below := by
  induction hsize : c.node.size using Nat.strongRecOn generalizing c with
  | _ size ih =>
      obtain ⟨f, hf, hd⟩ := mem_below.1 hd
      refine mem_below.2 ⟨f, hf, Or.inr ?_⟩
      rcases hd with rfl | hd
      · exact mem_below.2 ⟨e, he, Or.inl rfl⟩
      · have hlt := size_lt_of_mem_children (mem_children_of_named hf)
        exact ih _ (hsize ▸ hlt) hd rfl

/-- What is below a node below another is below that one. -/
theorem mem_below_trans {c d e : Cursor} (hd : d ∈ c.below) (he : e ∈ d.below) : e ∈ c.below := by
  induction hsize : d.node.size using Nat.strongRecOn generalizing d with
  | _ size ih =>
      obtain ⟨f, hf, he⟩ := mem_below.1 he
      have hfbelow := mem_below_of_child hd hf
      rcases he with rfl | he
      · exact hfbelow
      · exact ih _ (hsize ▸ size_lt_of_mem_children (mem_children_of_named hf)) hfbelow he rfl

/-- A node below another is smaller and named. -/
theorem size_lt_of_mem_below {c d : Cursor} (h : d ∈ c.below) :
    d.node.size < c.node.size ∧ d.named := by
  induction hsize : c.node.size using Nat.strongRecOn generalizing c with
  | _ size ih =>
      obtain ⟨e, he, hbelow⟩ := mem_below.1 h
      have hlt : e.node.size < size := hsize ▸ size_lt_of_mem_children (mem_children_of_named he)
      rcases hbelow with rfl | hbelow
      · exact ⟨hlt, (List.mem_filter.1 he).2⟩
      · obtain ⟨hinner, hnamed⟩ := ih _ hlt hbelow rfl
        exact ⟨Nat.lt_trans hinner hlt, hnamed⟩

/-- If words and marks have no parts, every named node below the root is a descendant of it. -/
theorem IsIn.mem_descendants {tree : Node}
    (htokens : ∀ c, IsIn tree c → c.named = false → c.children = []) {c : Cursor}
    (hc : IsIn tree c) (hnamed : c.named) :
    c = .atRoot tree ∨ c ∈ (atRoot tree).descendants := by
  induction hc with
  | root => exact Or.inl rfl
  | @child p c hp hmem ih =>
      have hchild : c ∈ p.namedChildren := List.mem_filter.2 ⟨hmem, hnamed⟩
      have hpnamed : p.named := by
        by_contra hp'
        rw [htokens p hp (Bool.eq_false_iff.2 hp')] at hmem
        cases hmem
      rw [descendants_eq_below] at ih ⊢
      rcases ih hpnamed with rfl | hpbelow
      · exact Or.inr (mem_below.2 ⟨c, hchild, Or.inl rfl⟩)
      · exact Or.inr (mem_below_of_child hpbelow hchild)

/-! ### Nodes beside each other -/

/-- Trees that fit between two offsets stand beside each other between them. -/
theorem children_from_beside (parent : Node) (above : List Frame) (index : Nat)
    {nodes : List Node} {start stop : Nat} (h : Node.wellFormedIn start stop nodes) :
    (childrenFrom parent above index nodes).Pairwise (fun a b ↦ a.stop ≤ b.start) ∧
      ∀ d ∈ childrenFrom parent above index nodes, start ≤ d.start ∧ d.stop ≤ stop := by
  induction nodes generalizing start index with
  | nil => simp [childrenFrom]
  | cons node rest ih =>
      simp only [Node.wellFormedIn, Bool.and_eq_true, decide_eq_true_eq] at h
      obtain ⟨⟨hstart, hnode⟩, hrest⟩ := h
      obtain ⟨hbeside, hbounds⟩ := ih (index + 1) hrest
      have hle := Node.start_le_stop hnode
      have hstop := Node.le_of_well_formed_in hrest
      rw [childrenFrom]
      refine ⟨List.pairwise_cons.2 ⟨fun d hd ↦ (hbounds d hd).1, hbeside⟩, ?_⟩
      intro d hd
      rcases List.mem_cons.1 hd with rfl | hd
      · exact ⟨hstart, hstop⟩
      · have := hbounds d hd
        omega

/-- The children of a well-formed node stand beside each other. -/
theorem children_beside {c : Cursor} (h : c.node.wellFormed) :
    c.children.Pairwise fun a b ↦ a.stop ≤ b.start := by
  obtain ⟨⟨label, nodes⟩, above⟩ := c
  rw [Node.wellFormed] at h
  exact (children_from_beside _ above 0 h).1

/-- The children of a well-formed node lie within it. -/
theorem span_of_mem_children {c d : Cursor} (h : c.node.wellFormed) (hd : d ∈ c.children) :
    c.start ≤ d.start ∧ d.stop ≤ c.stop := by
  obtain ⟨⟨label, nodes⟩, above⟩ := c
  rw [Node.wellFormed] at h
  exact (children_from_beside _ above 0 h).2 d hd

/-- The nodes below a well-formed node lie within it. -/
theorem span_of_mem_below {c e : Cursor} (h : c.node.wellFormed) (he : e ∈ c.below) :
    c.start ≤ e.start ∧ e.stop ≤ c.stop := by
  induction hsize : c.node.size using Nat.strongRecOn generalizing c with
  | _ size ih =>
      obtain ⟨d, hd, he⟩ := mem_below.1 he
      have hd := mem_children_of_named hd
      have hspan := span_of_mem_children h hd
      rcases he with rfl | he
      · exact hspan
      · have hlt := size_lt_of_mem_children hd
        have := ih _ (hsize ▸ hlt) (well_formed_of_mem_children h hd) he rfl
        omega

/-- A well-formed node and the nodes below it lie within it. -/
theorem span_of_mem_within {c e : Cursor} (h : c.node.wellFormed) (he : e ∈ c :: c.below) :
    c.start ≤ e.start ∧ e.stop ≤ c.stop := by
  rcases List.mem_cons.1 he with rfl | he
  · exact ⟨Nat.le_refl _, Nat.le_refl _⟩
  · exact span_of_mem_below h he

/-- Of two nodes below a well-formed node, the later one is below the earlier one, or starts where
that one has stopped. -/
theorem below_beside {c : Cursor} (h : c.node.wellFormed) :
    c.below.Pairwise fun a b ↦ b ∈ a.below ∨ a.stop ≤ b.start := by
  induction hsize : c.node.size using Nat.strongRecOn generalizing c with
  | _ size ih =>
      -- within one child by induction, across two children because their spans are apart
      rw [below_eq_flat_map, List.pairwise_flatMap]
      constructor
      · intro d hd
        have hd := mem_children_of_named hd
        have hlt := size_lt_of_mem_children hd
        refine List.pairwise_cons.2 ⟨fun x hx ↦ Or.inl hx, ?_⟩
        exact ih _ (hsize ▸ hlt) (well_formed_of_mem_children h hd) rfl
      · refine ((children_beside h).filter named).imp_of_mem ?_
        intro a b ha hb hbeside x hx y hy
        have ha := mem_children_of_named ha
        have hb := mem_children_of_named hb
        have hx := span_of_mem_within (well_formed_of_mem_children h ha) hx
        have hy := span_of_mem_within (well_formed_of_mem_children h hb) hy
        exact Or.inr (by omega)

/-- Two nodes of which one stops before the other starts. -/
def Beside (a b : Cursor) : Prop :=
  a.stop ≤ b.start ∨ b.stop ≤ a.start

instance : Std.Symm Beside :=
  ⟨fun _ _ ↦ Or.symm⟩

/-- Two children of a well-formed node stand beside each other, unless they are the same. -/
theorem eq_or_beside {c d e : Cursor} (h : c.node.wellFormed) (hd : d ∈ c.children)
    (he : e ∈ c.children) : d = e ∨ Beside d e := by
  have hbeside : c.children.Pairwise Beside := (children_beside h).imp Or.inl
  by_cases heq : d = e
  · exact Or.inl heq
  · exact Or.inr (hbeside.forall hd he heq)

/-! ### Nodes above -/

/-- What is above a node is above the nodes below it. -/
theorem mem_ancestors_of_within {c d a : Cursor} (hd : d ∈ c :: c.below) (ha : a ∈ c.ancestors) :
    a ∈ d.ancestors := by
  induction hsize : c.node.size using Nat.strongRecOn generalizing c with
  | _ size ih =>
      rcases List.mem_cons.1 hd with rfl | hd
      · exact ha
      · obtain ⟨e, he, hd⟩ := mem_below.1 hd
        have he := mem_children_of_named he
        have hlt := size_lt_of_mem_children he
        refine ih _ (hsize ▸ hlt) (List.mem_cons.2 hd) ?_ rfl
        rw [ancestors_of_mem_children he]
        exact List.mem_cons_of_mem c ha

/-- What is above a node below another is above that one too, or is that one or below it. -/
theorem ancestor_cases {c d a : Cursor} (hd : d ∈ c :: c.below) (ha : a ∈ d.ancestors) :
    a ∈ c.ancestors ∨ a ∈ c :: c.below := by
  induction hsize : c.node.size using Nat.strongRecOn generalizing c with
  | _ size ih =>
      rcases List.mem_cons.1 hd with rfl | hd
      · exact Or.inl ha
      · obtain ⟨e, hnamed, hd⟩ := mem_below.1 hd
        have he := mem_children_of_named hnamed
        have hlt := size_lt_of_mem_children he
        rcases ih _ (hsize ▸ hlt) (List.mem_cons.2 hd) rfl with habove | hwithin
        · rw [ancestors_of_mem_children he, List.mem_cons] at habove
          rcases habove with rfl | habove
          · exact Or.inr List.mem_cons_self
          · exact Or.inl habove
        · exact Or.inr (List.mem_cons_of_mem c
            (mem_below.2 ⟨e, hnamed, List.mem_cons.1 hwithin⟩))

/-- Of two nodes below a well-formed node, what is above the earlier one is above the later one, or
has stopped where that one starts. -/
theorem below_shared_or_stopped {c : Cursor} (h : c.node.wellFormed) :
    c.below.Pairwise fun a b ↦ ∀ s ∈ a.ancestors, s ∈ b.ancestors ∨ s.stop ≤ b.start := by
  induction hsize : c.node.size using Nat.strongRecOn generalizing c with
  | _ size ih =>
      rw [below_eq_flat_map, List.pairwise_flatMap]
      constructor
      · intro d hd
        have hd := mem_children_of_named hd
        have hlt := size_lt_of_mem_children hd
        refine List.pairwise_cons.2 ⟨fun x hx s hs ↦ ?_, ?_⟩
        · exact Or.inl (mem_ancestors_of_within (List.mem_cons_of_mem d hx) hs)
        · exact ih _ (hsize ▸ hlt) (well_formed_of_mem_children h hd) rfl
      · -- across two children: what is above one is above the other, the rest lies in the first
        refine ((children_beside h).filter named).imp_of_mem ?_
        intro a b ha hb hbeside x hx y hy s hs
        have ha := mem_children_of_named ha
        have hb := mem_children_of_named hb
        rcases ancestor_cases hx hs with habove | hwithin
        · rw [ancestors_of_mem_children ha, ← ancestors_of_mem_children hb] at habove
          exact Or.inl (mem_ancestors_of_within hy habove)
        · have hs := span_of_mem_within (well_formed_of_mem_children h ha) hwithin
          have hy := span_of_mem_within (well_formed_of_mem_children h hb) hy
          exact Or.inr (by omega)

/-- The nodes above a node of a well-formed tree enclose it. -/
theorem IsIn.ancestor_encloses {tree : Node} (htree : tree.wellFormed) {c a : Cursor}
    (hc : IsIn tree c) (ha : a ∈ c.ancestors) : a.encloses c = true := by
  rw [encloses, Bool.and_eq_true, decide_eq_true_eq, decide_eq_true_eq]
  induction hc with
  | root => cases ha
  | child hparent hmem ih =>
      have hspan := span_of_mem_children (hparent.well_formed htree) hmem
      rw [ancestors_of_mem_children hmem] at ha
      rcases List.mem_cons.1 ha with rfl | ha
      · exact hspan
      · have := ih ha
        omega

/-- What stands behind a node in the list of the nodes above another is above that node. -/
theorem ancestors_of_append {c t : Cursor} {first rest : List Cursor}
    (h : c.ancestors = first ++ t :: rest) : t.ancestors = rest := by
  obtain ⟨node, above⟩ := c
  show along t.above = rest
  change along above = first ++ t :: rest at h
  induction above generalizing first with
  | nil => simp [along] at h
  | cons frame above ih =>
      rw [along] at h
      cases first with
      | nil =>
          obtain ⟨rfl, rfl⟩ := List.cons.inj h
          rfl
      | cons _ first => exact ih (List.cons.inj h).2

/-! ### Nodes of one span -/

/-- A node below another has the span of that one only if it lies in the child that has it, and that
is the one child that is not empty. -/
theorem mem_below_of_span {c d e : Cursor} (h : c.node.wellFormed) (he : e ∈ c.below)
    (hstart : e.start = c.start) (hstop : e.stop = c.stop) (hd : d ∈ c.children)
    (hnonempty : d.start < d.stop) : e = d ∨ e ∈ d.below := by
  obtain ⟨f, hf, he⟩ := mem_below.1 he
  have hf := mem_children_of_named hf
  have hspan := span_of_mem_within (well_formed_of_mem_children h hf) (List.mem_cons.2 he)
  have hwithin := span_of_mem_children h hd
  rcases eq_or_beside h hf hd with rfl | hbeside | hbeside
  · exact he
  · omega
  · omega

/-- Of the nodes in document order that have the span of a node, the node itself comes last, unless
a node below it has the same span. -/
theorem find_last_span {c e : Cursor} {keep : Cursor → Bool} (h : c.node.wellFormed)
    (he : e ∈ c.descendants.filter keep) (hnonempty : e.start < e.stop)
    (hinner : ∀ f ∈ e.below, keep f → f.start = e.start → f.stop ≠ e.stop) :
    (c.descendants.filter keep).reverse.find? (fun f ↦ f.start == e.start && f.stop == e.stop) =
      some e := by
  have hbeside := (descendants_eq_below c ▸ below_beside h).filter keep
  obtain ⟨first, rest, hlist⟩ := List.append_of_mem he
  rw [hlist] at hbeside ⊢
  have hrest : ∀ f ∈ rest, ¬ (f.start == e.start && f.stop == e.stop) := by
    intro f hf hspan
    simp only [Bool.and_eq_true, beq_iff_eq] at hspan
    have hkeep : keep f := by
      have hmem : f ∈ c.descendants.filter keep := by simp [hlist, hf]
      exact (List.mem_filter.1 hmem).2
    -- a later node is below the node or starts after it, and the node is not empty
    rcases List.rel_of_pairwise_cons (List.pairwise_append.1 hbeside).2.1 hf with hbelow | hafter
    · exact hinner f hbelow hkeep hspan.1 hspan.2
    · omega
  rw [List.reverse_append, List.reverse_cons, List.append_assoc, List.find?_append,
    List.find?_eq_none.2 fun f hf ↦ hrest f (List.mem_reverse.1 hf)]
  simp

end MemberReach.Cursor
