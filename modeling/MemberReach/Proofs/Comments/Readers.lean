import Mathlib.Data.List.Basic
import MemberReach.Binding
import MemberReach.Proofs.Comments.Pruning

/-!
# Reading declarations off a pruned tree

Most readers of declarations ask for a part by its field or its kind, and removing comments changes
nothing for them. A few take the first or the last named child, whatever it is. `Cursor.picked`
lists what they take: as long as no removed comment is among it, these readers too give the same
answer on the pruned tree.
-/

namespace MemberReach

namespace Cursor

variable {drop : List Nat → Bool}

/-! ### Parts found by field or kind -/

/-- The descriptor of a node stays. -/
@[simp] theorem descriptor_prune (c : Cursor) : (c.prune drop).descriptor = c.descriptor := by
  rw [descriptor, text_prune, descriptor]

/-- The text of a part stays. -/
@[simp] theorem map_text_prune (part : Option Cursor) :
    (part.map (prune drop)).map text = part.map text := by
  cases part with
  | none => rfl
  | some d => rw [Option.map_some, Option.map_some, text_prune, Option.map_some]

/-- The descriptor of a part stays. -/
@[simp] theorem map_descriptor_prune (part : Option Cursor) :
    (part.map (prune drop)).map descriptor = part.map descriptor := by
  cases part with
  | none => rfl
  | some d => rw [Option.map_some, Option.map_some, descriptor_prune, Option.map_some]

/-- The name that a node declares stays. -/
theorem declared_name_prune (c : Cursor) : (c.prune drop).declaredName? = c.declaredName? := by
  rw [declaredName?, child_prune, map_text_prune, declaredName?]

/-- The identifier of a node stays. -/
theorem identifier_prune (c : Cursor) : (c.prune drop).identifier? = c.identifier? := by
  unfold identifier?
  rw [child_prune, child_of_kind_prune c (by decide), map_text_prune]
  cases c.child? .name with
  | none => rfl
  | some name => exact congrArg some (text_prune drop name)

/-- The identifier of a simple name stays. -/
theorem simple_name_prune (c : Cursor) : (c.prune drop).simpleName? = c.simpleName? := by
  rw [simpleName?, simpleName?, kind_prune, text_prune, identifier_prune]

/-- The return type is found at its place. -/
theorem return_type_prune (c : Cursor) :
    (c.prune drop).returnType? = c.returnType?.map (prune drop) := by
  rw [returnType?, child_prune, child_prune, ← Option.map_or, returnType?]

/-- The body is found at its place. -/
theorem body_prune (c : Cursor) : (c.prune drop).body? = c.body?.map (prune drop) := by
  rw [body?, body?, child_prune, child_of_kind_prune c (by decide), Option.map_or]
  congr 1
  cases c.child? .body with
  | none => rfl
  | some body =>
      rw [Option.map_some, Option.filter_some, Option.filter_some, kind_prune]
      split <;> rfl

/-- The parameter list is found at its place. -/
theorem parameter_list_prune (c : Cursor) :
    (c.prune drop).parameterList? = c.parameterList?.map (prune drop) := by
  rw [parameterList?, child_prune, child_of_kind_prune c (by decide), ← Option.map_or,
    parameterList?]

/-- The variable declaration is found at its place. -/
theorem variable_declaration_prune (c : Cursor) :
    (c.prune drop).variableDeclaration? = c.variableDeclaration?.map (prune drop) :=
  child_of_kind_prune c (by decide)

/-- The named children of a kind other than comments are found at their places. -/
theorem filter_kind_prune (c : Cursor) {p : Kind → Bool} (hp : p .comment = false) :
    ((c.prune drop).namedChildren.filter fun d ↦ p d.kind) =
      (c.namedChildren.filter fun d ↦ p d.kind).map (prune drop) := by
  rw [named_children_prune]
  exact filter_kind_prune_list _ hp

/-- The declarators of a declaration are found at their places. -/
theorem declarators_prune (c : Cursor) :
    (c.prune drop).declarators = c.declarators.map (prune drop) :=
  filter_kind_prune c (p := fun kind ↦ kind == .variableDeclarator) (by decide)

/-- The arguments of a list are found at their places. -/
theorem argument_nodes_prune (c : Cursor) :
    (c.prune drop).argumentNodes = c.argumentNodes.map (prune drop) :=
  filter_kind_prune c (p := fun kind ↦ kind == .argument) (by decide)

/-- The number of arguments of a call stays. -/
theorem argument_count_prune (c : Cursor) :
    (c.prune drop).argumentCount = c.argumentCount := by
  rw [argumentCount, argumentCount, child_prune]
  cases c.child? .arguments with
  | none => rfl
  | some list =>
      rw [Option.map_some, Option.map_some, Option.map_some, argument_nodes_prune,
        List.length_map]

/-! ### Parameters -/

/-- The parameters of a function. -/
def parameterNodes (c : Cursor) : List Cursor :=
  match c.parameterList? with
  | none => []
  | some list =>
      list.namedChildren.filter fun p ↦ p.kind == .parameter || p.kind == .parameterArray

/-- The parts of a parameter that are taken by position: the last part unless name and type have
their fields, and the first part unless the type has its field. -/
def pickedParts (c : Cursor) : List Cursor :=
  (if (c.child? .name).isNone || (c.child? .type).isNone then c.parameterParts.getLast?.toList
    else []) ++
    if (c.child? .type).isNone then c.parameterParts.head?.toList else []

/-- The parts of the parameters of a function that are taken by position. -/
def pickedOfParameters (c : Cursor) : List Cursor :=
  c.parameterNodes.flatMap pickedParts

/-- Names and types are those of the parameters. -/
theorem parameters_eq (c : Cursor) : c.parameters = c.parameterNodes.filterMap parameter? := by
  rw [parameters, parameterNodes]
  cases c.parameterList? <;> rfl

/-- The parameters of a function are found at their places. -/
theorem parameter_nodes_prune (c : Cursor) :
    (c.prune drop).parameterNodes = c.parameterNodes.map (prune drop) := by
  unfold parameterNodes
  rw [parameter_list_prune]
  cases c.parameterList? with
  | none => rfl
  | some list =>
      exact filter_kind_prune list
        (p := fun kind ↦ kind == .parameter || kind == .parameterArray) (by decide)

/-- The parts of a parameter are found at their places. -/
theorem parameter_parts_prune (c : Cursor) :
    (c.prune drop).parameterParts = pruneList drop c.parameterParts := by
  rw [parameterParts, named_children_prune]
  exact filter_prune_list fun d _ ↦ by rw [kind_prune]

/-- Where the first and the last node are left, two nodes are left of two or more. -/
theorem two_le_length_prune_list {nodes : List Cursor}
    (hhead : ∀ d, nodes.head? = some d → d.isPruned drop = false)
    (hlast : ∀ d, nodes.getLast? = some d → d.isPruned drop = false) :
    2 ≤ (pruneList drop nodes).length ↔ 2 ≤ nodes.length := by
  match nodes with
  | [] => exact Iff.rfl
  | [d] => rw [prune_list_cons_of_kept (hhead d rfl)]; exact Iff.rfl
  | d :: e :: rest =>
      -- the last node is not the first, so it is left beside it
      have hmem : (e :: rest).getLast (by simp) ∈ (e :: rest) := List.getLast_mem _
      have hkept := hlast ((e :: rest).getLast (by simp)) (by
        rw [List.getLast?_cons_cons, List.getLast?_eq_some_getLast])
      have hpos := List.length_pos_of_mem (mem_prune_list.2 ⟨_, hmem, hkept, rfl⟩)
      rw [prune_list_cons_of_kept (hhead d rfl), List.length_cons, List.length_cons,
        List.length_cons]
      omega

/-- The node whose text is the name of a parameter is found at its place. -/
theorem parameter_name_prune {c : Cursor} (h : ∀ d ∈ c.pickedParts, d.isPruned drop = false) :
    (((c.prune drop).child? .name).or (c.prune drop).parameterParts.getLast?) =
      ((c.child? .name).or c.parameterParts.getLast?).map (prune drop) := by
  rw [child_prune, parameter_parts_prune, Option.map_or]
  cases hname : c.child? .name with
  | some name => rfl
  | none =>
      apply last_prune_list
      intro d hd
      apply h d
      simp [pickedParts, hname, hd]

/-- The node whose text is the type of a parameter is found at its place. -/
theorem parameter_type_prune {c : Cursor} (h : ∀ d ∈ c.pickedParts, d.isPruned drop = false) :
    (((c.prune drop).child? .type).or
        (if (c.prune drop).parameterParts.length ≥ 2 then (c.prune drop).parameterParts.head?
          else none)) =
      ((c.child? .type).or
        (if c.parameterParts.length ≥ 2 then c.parameterParts.head? else none)).map
          (prune drop) := by
  rw [child_prune, parameter_parts_prune, Option.map_or]
  cases htype : c.child? .type with
  | some type => rfl
  | none =>
      have hhead : ∀ d, c.parameterParts.head? = some d → d.isPruned drop = false := by
        intro d hd
        refine h d ?_
        simp [pickedParts, htype, hd]
      have hlast : ∀ d, c.parameterParts.getLast? = some d → d.isPruned drop = false := by
        intro d hd
        refine h d ?_
        simp [pickedParts, htype, hd]
      have hlength := two_le_length_prune_list hhead hlast
      rw [head_prune_list hhead, Option.map_none, Option.none_or, Option.none_or]
      by_cases htwo : 2 ≤ c.parameterParts.length
      · rw [if_pos (hlength.2 htwo), if_pos htwo]
      · rw [if_neg fun hle ↦ htwo (hlength.1 hle), if_neg htwo, Option.map_none]

/-- Name and type of a parameter stay. -/
theorem parameter_prune {c : Cursor} (h : ∀ d ∈ c.pickedParts, d.isPruned drop = false) :
    (c.prune drop).parameter? = c.parameter? := by
  unfold parameter?
  simp only [parameter_name_prune h, parameter_type_prune h, map_text_prune,
    map_descriptor_prune]

/-- Names and types of the parameters of a function stay. -/
theorem parameters_prune {c : Cursor} (h : ∀ d ∈ c.pickedOfParameters, d.isPruned drop = false) :
    (c.prune drop).parameters = c.parameters := by
  rw [parameters_eq, parameters_eq, parameter_nodes_prune, List.filterMap_map]
  apply List.filterMap_congr
  intro p hp
  exact parameter_prune fun d hd ↦ h d (List.mem_flatMap.2 ⟨p, hp, hd⟩)

/-- Whether a method is an extension method stays. -/
theorem is_extension_method_prune {c : Cursor}
    (h : ∀ d, c.leadingPart? = some d → d.isPruned drop = false) :
    (c.prune drop).isExtensionMethod = c.isExtensionMethod := by
  have hpart : (c.prune drop).leadingPart? = c.leadingPart?.map (prune drop) := by
    unfold leadingPart? at h ⊢
    rw [parameter_list_prune]
    cases hlist : c.parameterList? with
    | none => rfl
    | some list =>
        rw [hlist] at h
        simp only [Option.map_some, Option.bind_eq_bind, Option.bind_some] at h ⊢
        rw [child_of_kind_prune list (by decide)]
        cases hfirst : list.childOfKind? .parameter with
        | none => rfl
        | some first =>
            rw [hfirst] at h
            simp only [Option.map_some, Option.bind_some] at h ⊢
            rw [children_prune]
            exact find_prune_list (fun d _ ↦ by rw [kind_prune]) h
  rw [isExtensionMethod, isExtensionMethod, hpart]
  cases c.leadingPart? with
  | none => rfl
  | some part => rw [Option.map_some, Option.any_some, Option.any_some, text_prune]

/-! ### Declarators and designations -/

/-- The nodes below a declarator of a local without a written type that are taken by position: its
initialiser, and the child that is passed over to find one without a clause for it. -/
def pickedOfDeclarator (c : Cursor) : List Cursor :=
  if (c.parent?.map Binding.writtenType).getD Binding.inferred == Binding.inferred then
    (if (c.childOfKind? .equalsValueClause).isNone then c.namedChildren.head?.toList else []) ++
      c.initializer?.toList
  else []

/-- The nodes below a declaration pattern or declaration expression that are taken by position:
type and name where they have no field, and the name inside a designation. -/
def pickedOfDesignation (c : Cursor) : List Cursor :=
  (if (c.child? .type).isNone then (c.namedChild? 0).toList else []) ++
    (if (c.child? .name).isNone then c.namedChildren.getLast?.toList else []) ++
    (((c.child? .name).or c.namedChildren.getLast?).filter fun name ↦
      name.kind == .singleVariableDesignation).toList.flatMap fun name ↦ (name.namedChild? 0).toList

/-- Passing over the first node commutes with removing others. -/
theorem tail_prune_list {nodes : List Cursor}
    (h : ∀ d, nodes.head? = some d → d.isPruned drop = false) :
    (pruneList drop nodes).tail = pruneList drop nodes.tail := by
  cases nodes with
  | nil => rfl
  | cons d rest => rw [prune_list_cons_of_kept (h d rfl), List.tail_cons, List.tail_cons]

/-- The initialiser of a declarator is found at its place. -/
theorem initializer_prune {c : Cursor}
    (hhead : c.childOfKind? .equalsValueClause = none →
      ∀ d, c.namedChildren.head? = some d → d.isPruned drop = false)
    (h : ∀ d, c.initializer? = some d → d.isPruned drop = false) :
    (c.prune drop).initializer? = c.initializer?.map (prune drop) := by
  unfold initializer? at h ⊢
  rw [child_of_kind_prune c (by decide)]
  cases hclause : c.childOfKind? .equalsValueClause with
  | some clause =>
      rw [hclause] at h
      exact named_child_prune h
  | none =>
      rw [hclause] at h
      show (c.prune drop).namedChildren.tail.find? _ = _
      rw [named_children_prune, tail_prune_list (hhead hclause)]
      exact find_prune_list (fun d _ ↦ by rw [kind_prune]) h

/-- The type of a declaration pattern or declaration expression is found at its place. -/
theorem designated_type_prune {c : Cursor}
    (h : ∀ d ∈ c.pickedOfDesignation, d.isPruned drop = false) :
    ((c.prune drop).child? .type).or ((c.prune drop).namedChild? 0) =
      ((c.child? .type).or (c.namedChild? 0)).map (prune drop) := by
  rw [child_prune, Option.map_or]
  cases htype : c.child? .type with
  | some type => rfl
  | none =>
      apply named_child_prune
      intro d hd
      apply h d
      simp [pickedOfDesignation, htype, hd]

/-- The name of a declaration pattern or declaration expression is found at its place. -/
theorem designated_name_prune {c : Cursor}
    (h : ∀ d ∈ c.pickedOfDesignation, d.isPruned drop = false) :
    ((c.prune drop).child? .name).or (c.prune drop).namedChildren.getLast? =
      ((c.child? .name).or c.namedChildren.getLast?).map (prune drop) := by
  rw [child_prune, named_children_prune, Option.map_or]
  cases hname : c.child? .name with
  | some name => rfl
  | none =>
      apply last_prune_list
      intro d hd
      apply h d
      simp [pickedOfDesignation, hname, hd]

/-- Type and name of a declaration pattern or declaration expression are children of it, and no
removed comments. -/
theorem designated_kept {c d : Cursor} {field : Field} {picked : Option Cursor}
    (hpicked : ∀ d, picked = some d → d ∈ c.children)
    (hkept : c.child? field = none → ∀ d, picked = some d → d.isPruned drop = false)
    (h : (c.child? field).or picked = some d) : d ∈ c.children ∧ d.isPruned drop = false := by
  cases hfield : c.child? field with
  | some e =>
      rw [hfield, Option.some_or] at h
      cases h
      exact ⟨mem_children_of_child hfield, not_pruned_of_child hfield⟩
  | none =>
      rw [hfield, Option.none_or] at h
      exact ⟨hpicked d h, hkept hfield d h⟩

/-- Type and name of a declaration pattern or declaration expression are found at their places. -/
theorem designation_prune {c : Cursor}
    (h : ∀ d ∈ c.pickedOfDesignation, d.isPruned drop = false) :
    Binding.designation? (c.prune drop) =
      (Binding.designation? c).map (Prod.map (prune drop) (prune drop)) := by
  unfold Binding.designation?
  rw [designated_type_prune h, designated_name_prune h]
  cases htype : (c.child? .type).or (c.namedChild? 0) with
  | none => rfl
  | some type =>
      cases hname : (c.child? .name).or c.namedChildren.getLast? with
      | none => rfl
      | some name =>
          obtain ⟨htypeMem, htypeKept⟩ := designated_kept
            (fun d hd ↦ mem_children_of_named (List.mem_of_getElem? hd))
            (fun hnone d hd ↦ h d (by simp [pickedOfDesignation, namedChild?, hnone, hd])) htype
          obtain ⟨hnameMem, hnameKept⟩ := designated_kept
            (fun d hd ↦ mem_children_of_named (List.mem_of_getLast? hd))
            (fun hnone d hd ↦ h d (by simp [pickedOfDesignation, hnone, hd])) hname
          have hsame := same_node_prune hnameMem htypeMem hnameKept htypeKept
          simp only [Option.map_some, Option.bind_eq_bind, Option.bind_some, hsame, kind_prune]
          split
          · rfl
          · split
            · rfl
            · rename_i hkind
              have hinner : ∀ d, name.namedChild? 0 = some d → d.isPruned drop = false := by
                intro d hd
                refine h d ?_
                simp [pickedOfDesignation, hname, hkind, hd]
              rw [named_child_prune hinner]
              cases name.namedChild? 0 <;> rfl
            · rfl

/-! ### Calls -/

/-- The call whose callee a node is is found at its place. -/
theorem call_prune {tree : Node} {c : Cursor} (hc : IsIn tree c) (hkept : c.isPruned drop = false) :
    (c.prune drop).call? = c.call?.map (prune drop) := by
  rw [call?, call?, parent_prune]
  cases hparent : c.parent? with
  | none => rfl
  | some parent =>
      have hmem := (hc.parent hparent).2
      have hfunction : ((parent.prune drop).child? .function).any
            (fun function ↦ function.sameNode (c.prune drop)) =
          (parent.child? .function).any fun function ↦ function.sameNode c := by
        rw [child_prune]
        cases hchild : parent.child? .function with
        | none => rfl
        | some function =>
            exact same_node_prune (mem_children_of_child hchild) hmem
              (not_pruned_of_child hchild) hkept
      rw [Option.map_some, Option.filter_some, Option.filter_some, kind_prune, hfunction]
      split <;> rfl

/-- Whether a node is a callee stays. -/
theorem is_callee_prune {tree : Node} {c : Cursor} (hc : IsIn tree c)
    (hkept : c.isPruned drop = false) : (c.prune drop).isCallee = c.isCallee := by
  rw [isCallee, call_prune hc hkept, Option.isSome_map, isCallee]

/-! ### What is taken by position -/

/-- The nodes below a node that the analysis takes by their position, whatever they are. -/
def picked (c : Cursor) : List Cursor :=
  match c.kind with
  | .parenthesizedExpression => (c.namedChild? 0).toList
  | .variableDeclarator => c.pickedOfDeclarator
  | .declarationPattern | .declarationExpression => c.pickedOfDesignation
  | .methodDeclaration => c.pickedOfParameters ++ c.leadingPart?.toList
  | .constructorDeclaration | .localFunctionStatement | .lambdaExpression
  | .anonymousMethodExpression => c.pickedOfParameters
  | _ => []

/-- What is taken by position from the parameters of a function is taken by position. -/
theorem mem_picked_of_function {c d : Cursor} (hkind : c.kind.isFunction = true)
    (h : d ∈ c.pickedOfParameters) : d ∈ c.picked := by
  unfold picked
  unfold Kind.isFunction at hkind
  split at hkind
  case h_6 => cases hkind
  case h_1 hmethod =>
    rw [hmethod]
    exact List.mem_append_left _ h
  all_goals
    rename_i hfunction
    rw [hfunction]
    exact h

/-- A tree whose nodes stand in order and from which no comment is removed that is taken by its
position. -/
structure Transparent (drop : List Nat → Bool) (tree : Node) : Prop where
  wellFormed : tree.wellFormed
  kept : ∀ c, IsIn tree c → ∀ d ∈ c.picked, d.isPruned drop = false

/-- Only the listed nodes of a tree need to be looked at. -/
theorem transparent_iff {tree : Node} :
    Transparent drop tree ↔
      tree.wellFormed = true ∧ ∀ c ∈ reach [] tree, ∀ d ∈ c.picked, d.isPruned drop = false := by
  constructor
  · intro h
    exact ⟨h.wellFormed, fun c hc ↦ h.kept c (is_in_iff_mem_reach.2 hc)⟩
  · rintro ⟨hwellFormed, hkept⟩
    exact ⟨hwellFormed, fun c hc ↦ hkept c (is_in_iff_mem_reach.1 hc)⟩

instance (tree : Node) : Decidable (Transparent drop tree) :=
  decidable_of_iff _ transparent_iff.symm

namespace Transparent

variable {tree : Node} (htree : Transparent drop tree) {c : Cursor} (hc : IsIn tree c)

include htree hc

/-- Names and types of the parameters of every function stay. -/
theorem parameters (hkind : c.kind.isFunction = true) :
    (c.prune drop).parameters = c.parameters :=
  parameters_prune fun d hd ↦ htree.kept c hc d (mem_picked_of_function hkind hd)

/-- Whether a method is an extension method stays. -/
theorem is_extension_method (hkind : c.kind = .methodDeclaration) :
    (c.prune drop).isExtensionMethod = c.isExtensionMethod := by
  apply is_extension_method_prune
  intro d hd
  apply htree.kept c hc d
  simp [picked, hkind, hd]

/-- The expression in parentheses is found at its place. -/
theorem parenthesized (hkind : c.kind = .parenthesizedExpression) :
    (c.prune drop).namedChild? 0 = (c.namedChild? 0).map (prune drop) := by
  apply named_child_prune
  intro d hd
  apply htree.kept c hc d
  simp [picked, hkind, hd]

/-- The expression in parentheses is no removed comment. -/
theorem parenthesized_kept (hkind : c.kind = .parenthesizedExpression) {d : Cursor}
    (hd : c.namedChild? 0 = some d) : d.isPruned drop = false := by
  refine htree.kept c hc d ?_
  simp [picked, hkind, hd]

/-- Type and name of every declaration pattern and declaration expression stay. -/
theorem designation (hkind : c.kind = .declarationPattern ∨ c.kind = .declarationExpression) :
    Binding.designation? (c.prune drop) =
      (Binding.designation? c).map (Prod.map (prune drop) (prune drop)) := by
  apply designation_prune
  intro d hd
  apply htree.kept c hc d
  rcases hkind with hkind | hkind <;> simpa [picked, hkind] using hd

/-- The initialiser of a local without a written type is no removed comment. -/
theorem initializer_kept (hkind : c.kind = .variableDeclarator)
    (htype : (c.parent?.map Binding.writtenType).getD Binding.inferred = Binding.inferred)
    {d : Cursor} (hd : c.initializer? = some d) : d.isPruned drop = false := by
  refine htree.kept c hc d ?_
  simp [picked, hkind, pickedOfDeclarator, htype, hd]

/-- The initialiser of a local without a written type is found at its place. -/
theorem initializer (hkind : c.kind = .variableDeclarator)
    (htype : (c.parent?.map Binding.writtenType).getD Binding.inferred = Binding.inferred) :
    (c.prune drop).initializer? = c.initializer?.map (prune drop) := by
  refine initializer_prune (fun hclause d hd ↦ htree.kept c hc d ?_) fun d hd ↦
    htree.initializer_kept hc hkind htype hd
  simp [picked, hkind, pickedOfDeclarator, htype, hclause, hd]

end Transparent

end Cursor

end MemberReach
