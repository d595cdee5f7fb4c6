import MemberReach.Model
import MemberReach.Proofs.TreeSpans

/-!
# Innermost nodes around a piece of source

A search for a piece of source goes down from a node through the children around it. In a
well-formed tree it passes every node below that lies around the piece (`innermost_of_below`). So
the first method declaration with some bytes on the way up from the innermost node around them is
the last one with these bytes in document order (`method_at_eq_find_last`).
-/

namespace MemberReach

namespace Cursor

variable {tree : Node} {c d e : Cursor} {start stop : Nat}

/-- A node that lies around a piece of source. -/
def Spans (c : Cursor) (start stop : Nat) : Prop :=
  c.start ≤ start ∧ stop ≤ c.stop

/-! ### The way down -/

/-- A node stops behind a piece of source if its offset is large enough. -/
theorem stops_behind_iff : c.stopsBehind start stop = true ↔ stop ≤ c.stop ∧ start < c.stop := by
  rw [stopsBehind, Bool.and_eq_true, decide_eq_true_eq, decide_eq_true_eq]

/-- The search stays where no child lies around the piece of source. -/
theorem innermost_of_none (h : c.childAround? start stop = none) :
    c.innermostAround start stop = c := by
  rw [innermostAround]
  split
  next => rfl
  next hsome => cases h.symm.trans hsome

/-- The search goes on in a child around the piece of source, and ends at one that is a token. -/
theorem innermost_of_some (h : c.childAround? start stop = some d) :
    c.innermostAround start stop = if d.named then d.innermostAround start stop else d := by
  rw [innermostAround]
  split
  next hnone => cases h.symm.trans hnone
  next hsome =>
    cases h.symm.trans hsome
    rfl

/-- The innermost node around a piece of source is a node of the tree. -/
theorem IsIn.innermost (hc : IsIn tree c) : IsIn tree (c.innermostAround start stop) := by
  fun_induction innermostAround c start stop with
  | case1 c => exact hc
  | case2 c d hchild _ ih => exact ih (hc.child (mem_children_of_around hchild))
  | case3 c d hchild => exact hc.child (mem_children_of_around hchild)

/-- The child of a well-formed node around a piece of source is the only one that lies around it. -/
theorem child_around_of_spans (h : c.node.wellFormed) (hlt : start < stop) (hd : d ∈ c.children)
    (hspans : d.Spans start stop) : c.childAround? start stop = some d := by
  obtain ⟨hstart, hstop⟩ := hspans
  obtain ⟨before, after, hsplit⟩ := List.append_of_mem hd
  have hbeside := children_beside h
  rw [hsplit] at hbeside
  have hbefore : ∀ e ∈ before, ¬ e.stopsBehind start stop := by
    intro e he hbehind
    have := (List.pairwise_append.1 hbeside).2.2 e he d List.mem_cons_self
    have := stops_behind_iff.1 hbehind
    omega
  have hbehind : d.stopsBehind start stop := stops_behind_iff.2 (by omega)
  rw [childAround?, hsplit, List.find?_append, List.find?_eq_none.2 hbefore, Option.none_or,
    List.find?_cons, hbehind, Option.filter_some, if_pos (decide_eq_true hstart)]

/-- The search from a well-formed node passes the nodes below that lie around the piece of
source. -/
theorem innermost_of_below (h : c.node.wellFormed) (hlt : start < stop) (hd : d ∈ c.below)
    (hspans : d.Spans start stop) :
    c.innermostAround start stop = d.innermostAround start stop := by
  induction hsize : c.node.size using Nat.strongRecOn generalizing c with
  | _ size ih =>
      obtain ⟨e, he, hbelow⟩ := mem_below.1 hd
      have hchild := mem_children_of_named he
      have hformed := well_formed_of_mem_children h hchild
      have hespans : e.Spans start stop := by
        obtain ⟨hstart, hstop⟩ := span_of_mem_within hformed (List.mem_cons.2 hbelow)
        exact ⟨Nat.le_trans hstart hspans.1, Nat.le_trans hspans.2 hstop⟩
      rw [innermost_of_some (child_around_of_spans h hlt hchild hespans),
        if_pos (List.mem_filter.1 he).2]
      rcases hbelow with rfl | hbelow
      · rfl
      · exact ih _ (hsize ▸ size_lt_of_mem_children hchild) hformed hbelow rfl

/-- The innermost node around a piece of source stands below the node where the search starts, and
so do the named nodes between them. -/
theorem exists_above_innermost (c : Cursor) (start stop : Nat) :
    ∃ inner, c.innermostAround start stop :: (c.innermostAround start stop).ancestors =
        inner ++ c :: c.ancestors ∧ ∀ e ∈ inner, e.named → e ∈ c.below := by
  fun_induction innermostAround c start stop with
  | case1 c => exact ⟨[], rfl, nofun⟩
  | case2 c d hchild hnamed ih =>
      have hd := mem_children_of_around hchild
      have hdnamed : d ∈ c.namedChildren := List.mem_filter.2 ⟨hd, hnamed⟩
      obtain ⟨inner, hsplit, hinner⟩ := ih
      rw [ancestors_of_mem_children hd] at hsplit
      refine ⟨inner ++ [d], hsplit.trans (List.append_cons _ _ _), fun e he henamed ↦ ?_⟩
      rcases List.mem_append.1 he with he | he
      · exact mem_below.2 ⟨d, hdnamed, Or.inr (hinner e he henamed)⟩
      · exact mem_below.2 ⟨d, hdnamed, Or.inl (List.mem_singleton.1 he)⟩
  | case3 c d hchild hnamed =>
      rw [ancestors_of_mem_children (mem_children_of_around hchild)]
      refine ⟨[d], rfl, fun e he henamed ↦ ?_⟩
      rw [List.mem_singleton.1 he] at henamed
      exact absurd henamed hnamed

/-! ### The way up -/

/-- A node that is no method declaration is passed on the way up. -/
theorem climb_of_not_method (hd : d ∈ c.children) (h : d.kind ≠ .methodDeclaration) :
    d.climb start stop = c.climb start stop := by
  rw [climb, climb, ancestors_of_mem_children hd, List.find?_cons_of_neg]
  simp [h]

/-- The last node of a list in document order that has some bytes has no node of the list below it
that has them too. -/
theorem not_span_of_last (h : c.node.wellFormed) {keep : Cursor → Bool} (hlt : start < stop)
    (hlast : (c.descendants.filter keep).reverse.find?
      (fun f ↦ f.start == start && f.stop == stop) = some e) :
    ∀ f ∈ e.below, keep f → f.start = start → f.stop ≠ stop := by
  intro f hf hkeep hstart hstop
  obtain ⟨hspan, rest, first, hlist, hrest⟩ := List.find?_eq_some_iff_append.1 hlast
  simp only [Bool.and_eq_true, beq_iff_eq] at hspan
  have hsplit : c.descendants.filter keep = first.reverse ++ e :: rest.reverse := by
    rw [← List.reverse_reverse (c.descendants.filter keep), hlist]
    simp
  have hbeside := (descendants_eq_below c ▸ below_beside h).filter keep
  have he : e ∈ c.descendants.filter keep := by
    rw [hsplit]
    exact List.mem_append_right _ List.mem_cons_self
  have hmem : f ∈ first.reverse ++ e :: rest.reverse := by
    rw [descendants_eq_below] at he hsplit
    rw [← hsplit]
    exact List.mem_filter.2 ⟨mem_below_trans (List.mem_filter.1 he).1 hf, hkeep⟩
  have hsize := (size_lt_of_mem_below hf).1
  rw [hsplit] at hbeside
  rcases List.mem_append.1 hmem with hfirst | hmem
  · rcases (List.pairwise_append.1 hbeside).2.2 f hfirst e List.mem_cons_self with hbelow | hafter
    · exact absurd (size_lt_of_mem_below hbelow).1 (Nat.lt_asymm hsize)
    · omega
  · rcases List.mem_cons.1 hmem with rfl | hmem
    · exact Nat.lt_irrefl _ hsize
    · have hnot := hrest f (List.mem_reverse.1 hmem)
      simp [hstart, hstop] at hnot

end Cursor

namespace Model

open Cursor

/-- In a well-formed tree, the method declaration that is found with some bytes is the last one with
them in document order, if there is any. -/
theorem method_at_eq_find_last {unit : SourceUnit} (h : unit.tree.wellFormed) {start stop : Nat}
    (hlt : start < stop) {c : Cursor}
    (hlast : (methodDeclarations unit).reverse.find?
      (fun d ↦ d.start == start && d.stop == stop) = some c) :
    methodAt? unit start stop = some c := by
  have hmem := List.mem_reverse.1 (List.mem_of_find?_eq_some hlast)
  obtain ⟨hbelow, hkind⟩ := List.mem_filter.1 hmem
  rw [descendants_eq_below] at hbelow
  have hspan := List.find?_some hlast
  rw [Bool.and_eq_true, beq_iff_eq, beq_iff_eq] at hspan
  have hinside := not_span_of_last h hlt hlast
  have hspans : c.Spans start stop := ⟨Nat.le_of_eq hspan.1, Nat.le_of_eq hspan.2.symm⟩
  obtain ⟨inner, hsplit, hinner⟩ := c.exists_above_innermost start stop
  rw [methodAt?, innermost_of_below h hlt hbelow hspans, climb, hsplit, List.find?_append,
    List.find?_eq_none.2 fun d hd ↦ ?_]
  · simp [(size_lt_of_mem_below hbelow).2, eq_of_beq hkind, hspan]
  · simp only [Bool.and_eq_true, beq_iff_eq, not_and]
    exact fun hmethod hstop ↦ hinside d (hinner d hd hmethod.1.1) (beq_iff_eq.2 hmethod.1.2)
      hmethod.2 hstop

end Model

end MemberReach
