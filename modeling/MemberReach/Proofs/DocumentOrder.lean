import Mathlib.Logic.Function.Iterate
import MemberReach.Grammar.Rules
import MemberReach.Proofs.ReadsAndCalls
import MemberReach.Proofs.TreeOrder

/-!
# Document order

The nodes below a node are found by a loop over a stack. Read `turn_cases` first: whatever is on the
stack, the nodes that the loop is still going to take are known (`pending`), and a turn takes the
first of them. So the loop ends after a turn for each of them (`stack_run`), and what it has listed
then is fixed from the start (`listed_run`). `descendants_document_order` adds what this list is:
the nodes below, each once, in the order of the recursive walk, in which a node comes before the
nodes below it and before those that it precedes.
-/

namespace MemberReach.Cursor

variable {a b c x : Cursor}

/-! ### Paths tell nodes apart -/

/-- The nodes on a path have shorter paths, which are parts of it. -/
theorem path_of_mem_along {frames : List Frame} (h : x ∈ along frames) :
    x.path <:+ frames.map Frame.index ∧ x.path.length < frames.length := by
  induction frames with
  | nil => cases h
  | cons frame rest ih =>
      rw [along] at h
      rcases List.mem_cons.1 h with rfl | h
      · refine ⟨List.suffix_cons frame.index _, ?_⟩
        show (rest.map Frame.index).length < rest.length + 1
        rw [List.length_map]
        omega
      · obtain ⟨hsuffix, hlength⟩ := ih h
        refine ⟨hsuffix.trans (List.suffix_cons frame.index _), ?_⟩
        rw [List.length_cons]
        omega

/-- A node above another has another path. -/
theorem path_ne_of_ancestor (h : a ∈ b.ancestors) : a.path ≠ b.path := by
  intro hpath
  have hlength := (path_of_mem_along h).2
  rw [hpath, path, List.length_map] at hlength
  omega

/-- The path of a node ends with that of each node above it. -/
theorem path_suffix_of_above (h : x ∈ a :: a.ancestors) : x.path <:+ a.path := by
  rcases List.mem_cons.1 h with rfl | h
  · exact List.suffix_refl _
  · exact (path_of_mem_along h).1

/-- The path of a child is one step longer than that of its parent. -/
theorem path_length_of_child {p : Cursor} (h : x ∈ p.children) :
    x.path.length = p.path.length + 1 := by
  obtain ⟨i, n, _, rfl⟩ := mem_children.1 h
  rfl

/-- Nodes of which one precedes the other have different paths. -/
theorem Precedes.path_ne (h : a.Precedes b) : a.path ≠ b.path := by
  obtain ⟨p, x, y, hchildren, hx, hy⟩ := h
  intro hpath
  have hapart : x.path ≠ y.path := by
    have hpairwise := (children_from_apart p.node p.above 0 p.node.children).sublist hchildren
    exact List.rel_of_pairwise_cons hpairwise (List.mem_singleton_self y)
  have hxlength := path_length_of_child (hchildren.subset List.mem_cons_self)
  have hylength := path_length_of_child (hchildren.subset (by simp : y ∈ [x, y]))
  have hlength : x.path.length = y.path.length := by omega
  -- both are the same number of last steps of one path
  have hxa := path_suffix_of_above hx
  have hyb := path_suffix_of_above hy
  rw [← hpath] at hyb
  have hsuffix := List.suffix_of_suffix_length_le hxa hyb (Nat.le_of_eq hlength)
  exact hapart (hsuffix.eq_of_length hlength)

/-! ### The order of the list -/

/-- A node is on the way to each node within it. -/
theorem mem_above_of_within (h : x ∈ a :: a.below) : a ∈ x :: x.ancestors := by
  rcases List.mem_cons.1 h with rfl | h
  · exact List.mem_cons_self
  · exact List.mem_cons_of_mem x (mem_ancestors_of_mem_below h)

/-- Of two nodes below a node, the earlier one is above the later one or precedes it. -/
theorem below_ordered (c : Cursor) :
    c.below.Pairwise fun a b ↦ a ∈ b.ancestors ∨ a.Precedes b := by
  induction hsize : c.node.size using Nat.strongRecOn generalizing c with
  | _ size ih =>
      rw [below_eq_flat_map, List.pairwise_flatMap]
      constructor
      · intro d hd
        have hlt := size_lt_of_mem_children (mem_children_of_named hd)
        refine List.pairwise_cons.2 ⟨fun x hx ↦ ?_, ih _ (hsize ▸ hlt) d rfl⟩
        exact Or.inl (mem_ancestors_of_mem_below hx)
      · -- the nodes within two children stand in two children of the node
        refine List.pairwise_iff_forall_sublist.2 fun {d e} hchildren x hx y hy ↦ ?_
        have hsublist : [d, e].Sublist c.children := hchildren.trans List.filter_sublist
        exact Or.inr ⟨c, d, e, hsublist, mem_above_of_within hx, mem_above_of_within hy⟩

/-- No two nodes below a node have the same path. -/
theorem below_apart (c : Cursor) : c.below.Pairwise fun a b ↦ a.sameNode b = false := by
  refine (below_ordered c).imp fun {a b} h ↦ ?_
  rw [sameNode, beq_eq_false_iff_ne]
  rcases h with habove | hbefore
  · exact path_ne_of_ancestor habove
  · exact hbefore.path_ne

/-- A node is none of the nodes below it. -/
theorem same_node_of_mem_below (h : x ∈ c.below) : x.sameNode c = false := by
  rw [sameNode, beq_eq_false_iff_ne]
  exact (path_ne_of_ancestor (mem_ancestors_of_mem_below h)).symm

/-! ### The loop -/

/-- What the loop holds between two turns: the nodes that wait, the next one last, and the nodes
that are listed so far. -/
structure Traversal where
  stack : List Cursor
  listed : List Cursor

namespace Traversal

variable {origin : Cursor} {t : Traversal}

/-- At the start, only the node itself waits. -/
def start (origin : Cursor) : Traversal :=
  ⟨[origin], []⟩

/-- A turn takes the last node of the stack, lists it unless it is the one that the loop started
with, and puts its named children in its place, the first of them last. Without a node nothing
happens any more. -/
def turn (origin : Cursor) (t : Traversal) : Traversal :=
  match t.stack.getLast? with
  | none => t
  | some c =>
      { stack := t.stack.dropLast ++ c.namedChildren.reverse
        listed := if c.sameNode origin then t.listed else t.listed ++ [c] }

/-- The nodes that the loop is going to take, in this order. -/
def pending (t : Traversal) : List Cursor :=
  drain t.stack.reverse

/-- The list that the loop is going to end with. -/
def result (origin : Cursor) (t : Traversal) : List Cursor :=
  t.listed ++ t.pending.filter fun c ↦ !c.sameNode origin

/-- What a turn does: nothing if no node waits, else it takes the first of the pending nodes and
lists it unless it is the one that the loop started with. -/
theorem turn_cases (origin : Cursor) (t : Traversal) :
    (t.stack = [] ∧ t.turn origin = t) ∨
      ∃ c, t.pending = c :: (t.turn origin).pending ∧
        (t.turn origin).listed = if c.sameNode origin then t.listed else t.listed ++ [c] := by
  rcases List.eq_nil_or_concat t.stack with hstack | ⟨front, c, hstack⟩
  · refine Or.inl ⟨hstack, ?_⟩
    rw [turn, hstack]
    rfl
  · rw [List.concat_eq_append] at hstack
    have hturn : t.turn origin =
        { stack := front ++ c.namedChildren.reverse
          listed := if c.sameNode origin then t.listed else t.listed ++ [c] } := by
      simp [turn, hstack]
    refine Or.inr ⟨c, ?_, by rw [hturn]⟩
    -- read from its end, the stack is the top and then the rest, as it is drained
    simp only [hturn, pending, hstack, List.reverse_append, List.reverse_reverse,
      List.reverse_singleton, List.singleton_append]
    rw [drain]

/-- Nodes are pending as long as any wait. -/
theorem pending_eq_nil_iff : t.pending = [] ↔ t.stack = [] := by
  rw [pending, ← @List.reverse_eq_nil_iff _ t.stack]
  cases t.stack.reverse with
  | nil => rw [drain]
  | cons c rest =>
      rw [drain]
      exact iff_of_false (List.cons_ne_nil c _) (List.cons_ne_nil c rest)

/-- A turn takes the first of the pending nodes. -/
theorem pending_turn (origin : Cursor) (t : Traversal) :
    (t.turn origin).pending = t.pending.tail := by
  obtain ⟨hstack, hturn⟩ | ⟨c, htaken, _⟩ := turn_cases origin t
  · rw [hturn, pending_eq_nil_iff.2 hstack, List.tail_nil]
  · rw [htaken, List.tail_cons]

/-- A turn keeps the list that the loop ends with. -/
theorem result_turn (origin : Cursor) (t : Traversal) :
    (t.turn origin).result origin = t.result origin := by
  obtain ⟨_, hturn⟩ | ⟨c, htaken, hlisted⟩ := turn_cases origin t
  · rw [hturn]
  · rw [result, result, htaken, hlisted]
    by_cases hsame : c.sameNode origin
    · simp [hsame]
    · simp [hsame]

/-- After some turns, the first of the nodes that were pending are taken. -/
theorem pending_run (origin : Cursor) (t : Traversal) (turns : Nat) :
    ((turn origin)^[turns] t).pending = t.pending.drop turns := by
  induction turns generalizing t with
  | zero => rfl
  | succ turns ih =>
      rw [Function.iterate_succ_apply, ih, pending_turn, List.drop_tail]

/-- The loop ends after a turn for each pending node, and not before. -/
theorem stack_run (origin : Cursor) (t : Traversal) (turns : Nat) :
    ((turn origin)^[turns] t).stack = [] ↔ t.pending.length ≤ turns := by
  rw [← pending_eq_nil_iff, pending_run, List.drop_eq_nil_iff]

/-- Any number of turns keeps the list that the loop ends with. -/
theorem result_run (origin : Cursor) (t : Traversal) (turns : Nat) :
    ((turn origin)^[turns] t).result origin = t.result origin := by
  induction turns generalizing t with
  | zero => rfl
  | succ turns ih => rw [Function.iterate_succ_apply, ih, result_turn]

/-- When the loop has ended, the list is complete. -/
theorem listed_run {turns : Nat} (h : t.pending.length ≤ turns) :
    ((turn origin)^[turns] t).listed = t.result origin := by
  have hpending : ((turn origin)^[turns] t).pending = [] := by
    rw [pending_run]
    exact List.drop_eq_nil_of_le h
  rw [← result_run origin t turns, result, hpending, List.filter_nil, List.append_nil]

/-- At the start, the node itself and the nodes below it are pending. -/
theorem pending_start (origin : Cursor) :
    (start origin).pending = origin :: origin.descendants := by
  show drain [origin] = _
  rw [drain, List.append_nil, descendants]

/-- The loop ends with the nodes below the node that it started with. -/
theorem result_start (origin : Cursor) : (start origin).result origin = origin.descendants := by
  have hself : origin.sameNode origin = true := beq_self_eq_true origin.path
  have hbelow : ∀ d ∈ origin.descendants, (!d.sameNode origin) = true := by
    intro d hd
    rw [descendants_eq_below] at hd
    rw [same_node_of_mem_below hd]
    rfl
  rw [result, pending_start, List.filter_cons_of_neg (by simp [hself]),
    List.filter_eq_self.2 hbelow]
  rfl

end Traversal

/-- A list of nodes is what is below a node, in document order. -/
structure InDocumentOrder (c : Cursor) (nodes : List Cursor) : Prop where
  /-- The loop ends after a turn for the node and one for each node of the list. -/
  ended : ∀ turns, ((Traversal.turn c)^[turns] (.start c)).stack = [] ↔ nodes.length < turns
  /-- It ends with the list. -/
  listed : ∀ turns, nodes.length < turns →
    ((Traversal.turn c)^[turns] (.start c)).listed = nodes
  /-- The nodes of the list are those that are reached from the node through named nodes. -/
  mem_iff : ∀ d, d ∈ nodes ↔ d.IsBelow c
  /-- No node is listed twice. -/
  apart : nodes.Pairwise fun a b ↦ a.sameNode b = false
  /-- The node itself is not listed. -/
  other : ∀ d ∈ nodes, d.sameNode c = false
  /-- The order is that of the recursive walk. -/
  walked : nodes = c.below
  /-- A node comes before those below it and before those in later children of a node above it. -/
  ordered : nodes.Pairwise fun a b ↦ a ∈ b.ancestors ∨ a.Precedes b
  /-- In a well-formed tree no node starts before one that is listed earlier. -/
  sorted : c.node.wellFormed → nodes.Pairwise fun a b ↦ a.start ≤ b.start

/-- The descendants of a node are the nodes below it, in document order. -/
theorem descendants_document_order (c : Cursor) : c.InDocumentOrder c.descendants where
  ended turns := by
    rw [Traversal.stack_run, Traversal.pending_start, List.length_cons]
    exact Nat.succ_le_iff
  listed turns h := by
    have hlength : (Traversal.start c).pending.length ≤ turns := by
      rw [Traversal.pending_start, List.length_cons]
      exact h
    rw [Traversal.listed_run hlength, Traversal.result_start]
  mem_iff _ := mem_descendants_iff
  apart := descendants_eq_below c ▸ below_apart c
  other d hd := same_node_of_mem_below (descendants_eq_below c ▸ hd)
  walked := descendants_eq_below c
  ordered := descendants_eq_below c ▸ below_ordered c
  sorted := descendants_sorted

/-- A type with a field and a method. -/
def outline : Node :=
  .ofSource "class A \x7b int x; void M() \x7b \x7d \x7d"

/-- In a small file, the parts of a declaration come between it and the next one. -/
theorem descendants_document_order_outline :
    outline.wellFormed ∧ (atRoot outline).descendants.map start =
        [0, 6, 8, 10, 10, 10, 14, 14, 17, 17, 22, 23, 26] ∧
      (atRoot outline).descendants.Pairwise fun a b ↦ a.start ≤ b.start := by
  have hfacts : outline.wellFormed ∧ (atRoot outline).below.map start =
      [0, 6, 8, 10, 10, 10, 14, 14, 17, 17, 22, 23, 26] := by decide +kernel
  have horder := descendants_document_order (atRoot outline)
  refine ⟨hfacts.1, ?_, horder.sorted hfacts.1⟩
  rw [horder.walked, hfacts.2]

end MemberReach.Cursor
