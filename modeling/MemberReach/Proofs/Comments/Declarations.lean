import MemberReach.Registry.Collect
import MemberReach.Proofs.Comments.Bindings

/-!
# Scopes and declarations in a pruned tree

The scope of a node and the members that a node declares are the same in the pruned tree. The one
thing that comments can change is the list of the base types of a type as written: a comment
between them is recorded like a type, so `base_names_prune` speaks of what is left of the list once
certain entries are dropped.
-/

namespace MemberReach

open Cursor

variable {drop : List Nat → Bool}

namespace Scope

/-! ### Scopes -/

/-- The segments of the name of a namespace stay. -/
theorem name_parts_prune (c : Cursor) : nameParts (c.prune drop) = nameParts c := by
  rw [nameParts, child_prune, nameParts]
  cases c.child? .name with
  | none => rfl
  | some name => rw [Option.map_some, Option.map_some, text_prune, Option.map_some]

/-- The namespace that a node opens stays. -/
theorem opened_spaces_prune (c : Cursor) : openedSpaces (c.prune drop) = openedSpaces c := by
  rw [openedSpaces, kind_prune, name_parts_prune, openedSpaces]

/-- The type that a node declares stays. -/
theorem declared_type_prune (c : Cursor) : declaredType? (c.prune drop) = declaredType? c := by
  rw [declaredType?, kind_prune, declared_name_prune, declaredType?]

/-- The file-scoped namespace beside the declarations of a file stays. -/
theorem sibling_spaces_prune (root : Cursor) :
    siblingSpaces (root.prune drop) = siblingSpaces root := by
  rw [siblingSpaces, child_of_kind_prune root (by decide), siblingSpaces]
  cases root.childOfKind? .fileScopedNamespaceDeclaration with
  | none => rfl
  | some sibling => rw [Option.map_some, Option.map_some, name_parts_prune, Option.map_some]

/-- The scope of a node stays. -/
theorem of_prune (c : Cursor) : Scope.of (c.prune drop) = Scope.of c := by
  have hnodes : (c.prune drop :: (c.prune drop).ancestors).reverse =
      (c :: c.ancestors).reverse.map (prune drop) := by
    rw [ancestors_prune, ← List.map_cons, List.map_reverse]
  have hspaces : openedSpaces ∘ prune drop = openedSpaces := funext opened_spaces_prune
  have htypes : declaredType? ∘ prune drop = declaredType? := funext declared_type_prune
  unfold Scope.of
  rw [hnodes, root_prune, sibling_spaces_prune]
  simp only [List.any_map, List.flatMap_map, List.filterMap_map, htypes, Function.comp_def,
    kind_prune, opened_spaces_prune]

/-- The namespaces that a file imports stay. -/
theorem imports_prune (root : Cursor) : imports (root.prune drop) = imports root := by
  rw [imports, descendants_prune,
    filter_kind_prune_list _ (p := fun kind ↦ kind == .usingDirective) (by decide),
    List.filterMap_map, imports]
  apply List.filterMap_congr
  intro d _
  rw [Function.comp_apply, text_prune]

end Scope

namespace Registry

/-! ### Members -/

/-- The node at whose start a declaration is located is found at its place. -/
theorem anchor_prune (c : Cursor) : anchor (c.prune drop) = (anchor c).prune drop := by
  rw [anchor, child_prune, anchor]
  cases c.child? .name <;> rfl

/-- The identity of the method that a node declares stays. -/
theorem method_identity_prune {tree : Node} (htree : Transparent drop tree) {c : Cursor}
    (hc : IsIn tree c) (hkind : c.kind = .methodDeclaration) :
    methodIdentity? (c.prune drop) = methodIdentity? c := by
  unfold methodIdentity?
  rw [declared_name_prune, Scope.of_prune, htree.parameters hc (by rw [hkind]; rfl)]

/-- The positional parameters of a record are found at their places. -/
theorem positional_parameters_prune (c : Cursor) :
    positionalParameters (c.prune drop) =
      (positionalParameters c).map (Prod.map (prune drop) (prune drop)) := by
  unfold positionalParameters
  rw [kind_prune, parameter_list_prune]
  split
  · cases c.parameterList? with
    | none => rfl
    | some list =>
        simp only [Option.map_some]
        rw [filter_kind_prune list (p := fun kind ↦ kind == .parameter) (by decide),
          List.filterMap_map, List.map_filterMap]
        apply List.filterMap_congr
        intro p _
        rw [Function.comp_apply, child_prune, child_prune]
        cases p.child? .name with
        | none => rfl
        | some name => cases p.child? .type <;> rfl
  · rfl

/-- The members of a type are found at their places. -/
theorem members_prune (c : Cursor) : members (c.prune drop) = pruneList drop (members c) := by
  unfold members
  rw [child_prune, child_of_kind_prune c (by decide), ← Option.map_or]
  cases (c.child? .body).or (c.childOfKind? .declarationList) with
  | none => rfl
  | some body => exact named_children_prune body

/-- The members of a type declaration are nodes of the tree. -/
theorem is_in_of_mem_members {tree : Node} {c d : Cursor} (hc : IsIn tree c)
    (hd : d ∈ members c) : IsIn tree d := by
  unfold members at hd
  split at hd
  · cases hd
  · rename_i body hbody
    refine IsIn.child (c := body) ?_ (mem_children_of_named hd)
    rcases Option.or_eq_some_iff.1 hbody with hbody | ⟨_, hbody⟩
    · exact hc.child (mem_children_of_child hbody)
    · exact hc.child (mem_children_of_kind hbody)

/-! ### Base types as written -/

/-- What the base lists of a type declaration hold. -/
def baseEntries (c : Cursor) : List Cursor :=
  (c.namedChildren.filter fun child ↦ child.kind == .baseList).flatMap namedChildren

/-- The descriptor that is recorded for a node of a base list. -/
def baseName? (c : Cursor) : Option String :=
  ((baseTypeNode? c).map descriptor).filter fun name ↦ !name.isEmpty

/-- The recorded descriptors are those of what the base lists hold. -/
theorem base_names_eq (c : Cursor) : baseNames c = (baseEntries c).filterMap baseName? := by
  rw [baseNames, List.map_filterMap, List.filter_filterMap]
  rfl

/-- What the base lists hold is found at its place. -/
theorem base_entries_prune (c : Cursor) :
    baseEntries (c.prune drop) = pruneList drop (baseEntries c) := by
  rw [baseEntries, filter_kind_prune c (p := fun kind ↦ kind == .baseList) (by decide),
    baseEntries]
  induction c.namedChildren.filter fun child ↦ child.kind == .baseList with
  | nil => rfl
  | cons list rest ih =>
      rw [List.map_cons, List.flatMap_cons, List.flatMap_cons, prune_list_append, ih,
        named_children_prune]

/-- The descriptor that is recorded for a node of a base list stays. -/
theorem base_name_prune (c : Cursor) : baseName? (c.prune drop) = baseName? c := by
  have hnode : baseTypeNode? (c.prune drop) = (baseTypeNode? c).map (prune drop) := by
    unfold baseTypeNode?
    rw [kind_prune, child_prune]
    split
    · rfl
    · cases c.child? .type <;> rfl
    · rfl
  rw [baseName?, hnode, map_descriptor_prune, baseName?]

/-- The base types as written stay, apart from entries that come from removed comments. -/
theorem base_names_prune {c : Cursor} {context : LookupContext}
    {junk : String × LookupContext → Bool}
    (h : ∀ d ∈ baseEntries c, d.isPruned drop = true → junk (d.descriptor, context) = true) :
    ((baseNames (c.prune drop)).map fun name ↦ (name, context)).filter (fun base ↦ !junk base) =
      ((baseNames c).map fun name ↦ (name, context)).filter fun base ↦ !junk base := by
  simp only [base_names_eq, List.map_filterMap, List.filter_filterMap]
  rw [base_entries_prune]
  refine filter_map_prune_list (fun d _ _ ↦ by rw [base_name_prune]) fun d hd hpruned ↦ ?_
  -- a comment is recorded under its own text, which is to be left out
  have hjunk := h d hd hpruned
  have hname : baseName? d = (some d.descriptor).filter fun name ↦ !name.isEmpty := by
    simp [baseName?, baseTypeNode?, kind_of_is_pruned hpruned]
  rw [hname, Option.filter_some]
  split
  · simp [hjunk]
  · rfl

end Registry

end MemberReach
