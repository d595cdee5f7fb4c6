import MemberReach.Proofs.Comments.Readers

/-!
# Local names in a pruned tree

The binding of a name at a node is the place of its binding at the node in the pruned tree
(`find_prune`). The locals that count are those before the node in document order; the nodes of a
well-formed tree start in that order, so leaving comments out of the list does not move the point
at which the search stops.
-/

namespace MemberReach.Binding

open Cursor

variable {drop : List Nat → Bool}

/-- The place of what a binding refers to. -/
def prune (drop : List Nat → Bool) : Binding → Binding
  | declared descriptor => .declared descriptor
  | initialized value => .initialized (value.prune drop)
  | element collection => .element (collection.prune drop)
  | outArgument declaration => .outArgument (declaration.prune drop)

/-- The node that a binding refers to. -/
def node? : Binding → Option Cursor
  | declared _ => none
  | initialized node | element node | outArgument node => some node

/-- What a binding refers to is a node of the tree that is left. -/
def IsKept (drop : List Nat → Bool) (tree : Node) (binding : Binding) : Prop :=
  ∀ d, binding.node? = some d → IsIn tree d ∧ d.isPruned drop = false

/-! ### Around a node -/

/-- The nodes around a node in its member are found at their places. -/
theorem enclosing_prune (c : Cursor) :
    enclosing (c.prune drop) = (enclosing c).map (Cursor.prune drop) := by
  rw [enclosing, ancestors_prune, List.takeWhile_map, enclosing]
  congr 2
  funext n
  exact congrArg (fun kind ↦ !Kind.endsMember kind) (kind_prune drop n)

/-- The member around a node is found at its place. -/
theorem member_prune (c : Cursor) : member (c.prune drop) = (member c).prune drop := by
  rw [member, enclosing_prune, List.getLast?_map, member]
  cases (enclosing c).getLast? <;> rfl

/-- The scope of a local is found at its place. -/
theorem local_scope_prune (c : Cursor) :
    localScope? (c.prune drop) = (localScope? c).map (Cursor.prune drop) := by
  rw [localScope?, ancestors_prune, List.find?_map, localScope?]
  congr 2
  funext n
  exact congrArg Kind.isLocalScope (kind_prune drop n)

/-- Whether a declaration is visible at a node stays. -/
theorem is_visible_at_prune (declaration c : Cursor) :
    isVisibleAt (declaration.prune drop) (c.prune drop) = isVisibleAt declaration c := by
  unfold isVisibleAt
  rw [kind_prune, encloses_prune, local_scope_prune]
  cases localScope? declaration with
  | none => rfl
  | some scope => simp only [Option.map_some, Option.all_some, encloses_prune]

/-- The written type of a declaration stays. -/
theorem written_type_prune (c : Cursor) : writtenType (c.prune drop) = writtenType c := by
  rw [writtenType, child_prune, map_descriptor_prune, writtenType]

/-- What stands for an open type is found at its place. -/
theorem or_inferred_prune (descriptor : String) (source : Option Binding) :
    orInferred descriptor (source.map (prune drop)) =
      (orInferred descriptor source).prune drop := by
  unfold orInferred
  split
  · cases source <;> rfl
  · rfl

section Declarations

variable {tree : Node} (htree : Transparent drop tree) {c : Cursor} (hc : IsIn tree c)

include htree hc

/-- The type of a parameter of a function stays. -/
theorem parameter_of_prune (name : String) :
    parameterOf? name (c.prune drop) = parameterOf? name c := by
  unfold parameterOf?
  rw [kind_prune]
  split
  · rename_i hkind
    rw [htree.parameters hc hkind]
  · rfl

/-- The type of the innermost parameter of a name stays. -/
theorem parameter_type_prune (name : String) :
    parameterType? (c.prune drop) name = parameterType? c name := by
  rw [parameterType?, enclosing_prune, List.findSome?_map, parameterType?]
  have hin : ∀ n ∈ enclosing c, IsIn tree n := fun n hn ↦
    hc.ancestor ((List.takeWhile_sublist _).subset hn)
  generalize enclosing c = nodes at hin
  induction nodes with
  | nil => rfl
  | cons n rest ih =>
      rw [List.findSome?_cons, List.findSome?_cons, Function.comp_apply,
        parameter_of_prune htree (hin n List.mem_cons_self),
        ih fun m hm ↦ hin m (List.mem_cons_of_mem n hm)]

/-- How a declarator declares a name is found at its place. -/
theorem of_declarator_prune (hkind : c.kind = .variableDeclarator) (name : String) :
    ofDeclarator? name (c.prune drop) = (ofDeclarator? name c).map (prune drop) := by
  have hparent : ((c.prune drop).parent?.map writtenType).getD inferred =
      (c.parent?.map writtenType).getD inferred := by
    rw [parent_prune]
    cases c.parent? with
    | none => rfl
    | some parent => exact written_type_prune parent
  unfold ofDeclarator?
  rw [identifier_prune, hparent]
  split
  · rw [Option.map_some, ← or_inferred_prune, Option.map_map]
    by_cases htype : (c.parent?.map writtenType).getD inferred = inferred
    · rw [htree.initializer hc hkind htype, Option.map_map]
      rfl
    · simp [orInferred, htype]
  · rfl

/-- How a declaration pattern or declaration expression declares a name is found at its place. -/
theorem of_designation_prune
    (hkind : c.kind = .declarationPattern ∨ c.kind = .declarationExpression) (name : String) :
    ofDesignation? name (c.prune drop) = (ofDesignation? name c).map (prune drop) := by
  unfold ofDesignation?
  rw [htree.designation hc hkind]
  cases designation? c with
  | none => rfl
  | some pair =>
      obtain ⟨type, designated⟩ := pair
      simp only [Option.map_some, Prod.map_apply, Option.bind_eq_bind, Option.bind_some,
        text_prune, descriptor_prune, kind_prune]
      split
      · rw [Option.map_some, ← or_inferred_prune]
        split <;> rfl
      · rfl

omit htree hc in
/-- How a loop declares a name is found at its place. -/
theorem of_loop_prune (c : Cursor) (name : String) :
    ofLoop? name (c.prune drop) = (ofLoop? name c).map (prune drop) := by
  have hleft : ((c.prune drop).child? .left).any (fun left ↦ left.text == name) =
      (c.child? .left).any fun left ↦ left.text == name := by
    rw [child_prune]
    cases c.child? .left with
    | none => rfl
    | some left => simp only [Option.map_some, Option.any_some, text_prune]
  unfold ofLoop?
  rw [hleft, written_type_prune, child_prune]
  split
  · rw [Option.map_some, ← or_inferred_prune, Option.map_map, Option.map_map]
    rfl
  · rfl

/-- How a node declares a name is found at its place. -/
theorem declared_by_prune (name : String) :
    declaredBy? name (c.prune drop) = (declaredBy? name c).map (prune drop) := by
  unfold declaredBy?
  rw [kind_prune]
  split
  · rename_i hkind
    exact of_declarator_prune htree hc hkind name
  · rename_i hkind
    exact of_designation_prune htree hc (Or.inl hkind) name
  · rename_i hkind
    exact of_designation_prune htree hc (Or.inr hkind) name
  · exact of_loop_prune c name
  · rfl

omit htree hc in
/-- A declared type refers to no node, and what stands for an open type may be relied on. -/
theorem or_inferred_kept {descriptor : String} {source : Option Binding}
    (h : descriptor = inferred → ∀ binding, source = some binding → IsKept drop tree binding) :
    IsKept drop tree (orInferred descriptor source) := by
  have hdeclared : IsKept drop tree (.declared descriptor) := by
    intro d hd
    cases hd
  unfold orInferred
  split
  · rename_i hinferred
    cases source with
    | none => exact hdeclared
    | some binding => exact h (eq_of_beq hinferred) binding rfl
  · exact hdeclared

omit htree in
/-- The initialiser of a declarator is a node of the tree. -/
theorem is_in_initializer {d : Cursor} (hd : c.initializer? = some d) : IsIn tree d := by
  unfold initializer? at hd
  split at hd
  · rename_i clause hclause
    exact (hc.child (mem_children_of_kind hclause)).child
      (mem_children_of_named (List.mem_of_getElem? hd))
  · have hmem := List.mem_of_mem_tail (List.mem_of_find?_eq_some hd)
    exact hc.child (mem_children_of_named hmem)

/-- What a declarator refers to is a node of the tree that is left. -/
theorem of_declarator_kept (hkind : c.kind = .variableDeclarator) {name : String}
    {binding : Binding} (h : ofDeclarator? name c = some binding) :
    IsKept drop tree binding := by
  unfold ofDeclarator? at h
  split at h
  · cases h
    apply or_inferred_kept
    intro htype source hsource
    obtain ⟨value, hvalue, rfl⟩ := Option.map_eq_some_iff.1 hsource
    intro d hd
    cases hd
    exact ⟨is_in_initializer hc hvalue, htree.initializer_kept hc hkind htype hvalue⟩
  · cases h

omit htree in
/-- What a declaration pattern or declaration expression refers to is a node of the tree that is
left. -/
theorem of_designation_kept {name : String} {binding : Binding}
    (h : ofDesignation? name c = some binding) : IsKept drop tree binding := by
  simp only [ofDesignation?, Option.bind_eq_bind, Option.bind_eq_some_iff] at h
  obtain ⟨⟨type, designated⟩, _, h⟩ := h
  split at h
  · cases h
    apply or_inferred_kept
    intro _ source hsource
    split at hsource
    · rename_i hkind
      cases hsource
      intro d hd
      cases hd
      exact ⟨hc, not_pruned_of_kind (by rw [eq_of_beq hkind]; decide)⟩
    · cases hsource
  · cases h

omit htree in
/-- What a loop refers to is a node of the tree that is left. -/
theorem of_loop_kept {name : String} {binding : Binding} (h : ofLoop? name c = some binding) :
    IsKept drop tree binding := by
  unfold ofLoop? at h
  split at h
  · cases h
    apply or_inferred_kept
    intro _ source hsource
    obtain ⟨collection, hcollection, rfl⟩ := Option.map_eq_some_iff.1 hsource
    intro d hd
    cases hd
    exact ⟨hc.child (mem_children_of_child hcollection), not_pruned_of_child hcollection⟩
  · cases h

/-- What a node refers to as it declares a name is a node of the tree that is left. -/
theorem declared_by_kept {name : String} {binding : Binding}
    (h : declaredBy? name c = some binding) : IsKept drop tree binding := by
  unfold declaredBy? at h
  split at h
  · rename_i hkind
    exact of_declarator_kept htree hc hkind h
  · exact of_designation_kept hc h
  · exact of_designation_kept hc h
  · exact of_loop_kept hc h
  · cases h

/-! ### Before a node -/

omit htree in
/-- The member around a node is a node of the tree. -/
theorem is_in_member : IsIn tree (member c) := by
  rw [member]
  cases hlast : (enclosing c).getLast? with
  | none => exact hc
  | some n =>
      have hmem := List.mem_of_getLast? hlast
      exact hc.ancestor ((List.takeWhile_sublist _).subset hmem)

omit htree hc in
/-- Of nodes that start in order, those up to an offset are those before it. -/
theorem take_while_eq_filter {nodes : List Cursor}
    (h : nodes.Pairwise fun a b ↦ a.start ≤ b.start) (offset : Nat) :
    (nodes.takeWhile fun n ↦ decide (n.start < offset)) =
      nodes.filter fun n ↦ decide (n.start < offset) := by
  induction nodes with
  | nil => rfl
  | cons n rest ih =>
      obtain ⟨hle, hrest⟩ := List.pairwise_cons.1 h
      by_cases hlt : n.start < offset
      · rw [List.takeWhile_cons_of_pos (by simpa using hlt), ih hrest,
          List.filter_cons_of_pos (by simpa using hlt)]
      · rw [List.takeWhile_cons_of_neg (by simpa using hlt),
          List.filter_cons_of_neg (by simpa using hlt)]
        symm
        apply List.filter_eq_nil_iff.2
        intro m hm
        have := hle m hm
        simp only [decide_eq_true_eq]
        omega

/-- The nodes of a member before a node are found at their places. -/
theorem earlier_prune : earlier (c.prune drop) = pruneList drop (earlier c) := by
  have hsorted : (member c).descendants.Pairwise fun a b ↦ a.start ≤ b.start :=
    descendants_sorted ((is_in_member hc).well_formed htree.wellFormed)
  have hpruned : (pruneList drop (member c).descendants).Pairwise fun a b ↦ a.start ≤ b.start := by
    rw [pruneList, List.pairwise_map]
    simpa only [start_prune] using hsorted.filter _
  rw [earlier, member_prune, descendants_prune, start_prune, take_while_eq_filter hpruned,
    earlier, take_while_eq_filter hsorted]
  exact filter_prune_list fun d _ ↦ by rw [start_prune]

omit htree in
/-- The nodes of a member before a node are nodes of the tree. -/
theorem is_in_of_mem_earlier {d : Cursor} (hd : d ∈ earlier c) : IsIn tree d :=
  (is_in_member hc).descendant ((List.takeWhile_sublist _).subset hd)

/-- The local declaration of a name that is visible at a node is found at its place. -/
theorem local_prune (name : String) :
    local? (c.prune drop) name = (local? c name).map (prune drop) := by
  have hgiven : (pruneList drop (earlier c)).filterMap (givenBy? (c.prune drop) name) =
      (earlier c).filterMap fun d ↦ (givenBy? c name d).map (prune drop) := by
    refine filter_map_prune_list (fun d hd _ ↦ ?_) fun d _ hpruned ↦ ?_
    · rw [givenBy?, givenBy?, declared_by_prune htree (is_in_of_mem_earlier hc hd),
        is_visible_at_prune]
      cases declaredBy? name d with
      | none => rfl
      | some binding =>
          rw [Option.map_some, Option.filter_some, Option.filter_some]
          split <;> rfl
    · simp [givenBy?, declaredBy?, kind_of_is_pruned hpruned]
  rw [local?, earlier_prune htree hc, hgiven, local?, ← List.getLast?_map, List.map_filterMap]

/-- The binding of a name at a node is found at its place. -/
theorem find_prune (name : String) :
    find? (c.prune drop) name = (find? c name).map (prune drop) := by
  rw [find?, find?, parameter_type_prune htree hc, local_prune htree hc, Option.map_or,
    Option.map_map]
  rfl

/-- What a name at a node refers to is a node of the tree that is left. -/
theorem find_kept {name : String} {binding : Binding} (h : find? c name = some binding) :
    IsKept drop tree binding := by
  rw [find?, Option.or_eq_some_iff] at h
  rcases h with h | ⟨_, h⟩
  · obtain ⟨descriptor, _, rfl⟩ := Option.map_eq_some_iff.1 h
    intro d hd
    cases hd
  · obtain ⟨d, hd, hgiven⟩ := List.mem_filterMap.1 (List.mem_of_getLast? h)
    obtain ⟨hdeclared, _⟩ := Option.filter_eq_some_iff.1 hgiven
    exact declared_by_kept htree (is_in_of_mem_earlier hc hd) hdeclared

end Declarations

end MemberReach.Binding
