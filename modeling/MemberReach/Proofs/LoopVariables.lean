import MemberReach.Proofs.LocalScopes
import MemberReach.Proofs.TreeOrder

/-!
# Loop variables and their collections

Any local other than a loop variable precedes what it is visible to (`precedes_of_visible`), so an
initial value or an output argument that a name is bound to stands in front of the name. A loop
variable is visible in the whole loop, the collection included. A name in the collection of a loop
is therefore bound to the variable of the loop (`BoundToLoop.find_eq`), unless a parameter or a
declaration inside the loop comes before it, and then the loop makes no difference
(`find_eq_without`).
-/

namespace MemberReach.Binding

open Cursor

variable {tree : Node} {c d loop collection value : Cursor} {name : String}

/-! ### Where declarations stand -/

/-- A visible declaration is a node of the tree. -/
theorem is_in_of_visible (hc : IsIn tree c) (hd : d ∈ visible c name) : IsIn tree d :=
  (is_in_member hc).descendant (mem_visible.1 hd).1

/-- A visible declaration that is no loop precedes the node. -/
theorem precedes_of_visible (htree : tree.wellFormed) (hc : IsIn tree c)
    (hd : d ∈ visible c name) (hkind : d.kind ≠ .foreachStatement) : d.Precedes c := by
  obtain ⟨_, hstart, hgiven⟩ := mem_visible.1 hd
  rw [given_by_is_some, is_visible_at_eq hkind, Bool.and_eq_true, Bool.and_eq_true,
    Bool.not_eq_true'] at hgiven
  exact precedes_of_start_lt htree (is_in_of_visible hc hd) hc hstart hgiven.2.2

/-- What a binding refers to is a part of the node that declares the name. -/
def BelongsTo (d : Cursor) : Binding → Prop
  | declared _ => True
  | initialized value => d.kind = .variableDeclarator ∧ d.initializer? = some value
  | element collection => d.kind = .foreachStatement ∧ d.child? .right = some collection
  | outArgument declaration => d.kind = .declarationExpression ∧ d = declaration

/-- A type, or what stands for it if the type is left open, refers to what the latter does. -/
theorem belongs_of_or_inferred {descriptor : String} {source : Option Binding}
    (h : ∀ binding, source = some binding → BelongsTo d binding) :
    BelongsTo d (orInferred descriptor source) := by
  unfold orInferred
  split
  · cases source with
    | none => trivial
    | some binding => exact h binding rfl
  · trivial

/-- A designation refers to the declaration expression that it stands in, if to anything. -/
theorem belongs_of_designation {binding : Binding} (h : ofDesignation? name d = some binding) :
    BelongsTo d binding := by
  simp only [ofDesignation?, Option.bind_eq_bind, Option.bind_eq_some_iff] at h
  obtain ⟨⟨type, designated⟩, _, h⟩ := h
  split at h
  next =>
    cases h
    refine belongs_of_or_inferred fun source hsource ↦ ?_
    split at hsource
    next hkind =>
      cases hsource
      exact ⟨eq_of_beq hkind, rfl⟩
    next => cases hsource
  next => cases h

/-- What a node declares a name with refers to a part of the node. -/
theorem belongs_of_declared_by {binding : Binding} (h : declaredBy? name d = some binding) :
    BelongsTo d binding := by
  unfold declaredBy? at h
  split at h
  next hkind =>
    unfold ofDeclarator? at h
    split at h
    next =>
      cases h
      refine belongs_of_or_inferred fun source hsource ↦ ?_
      obtain ⟨value, hvalue, rfl⟩ := Option.map_eq_some_iff.1 hsource
      exact ⟨hkind, hvalue⟩
    next => cases h
  next => exact belongs_of_designation h
  next => exact belongs_of_designation h
  next hkind =>
    unfold ofLoop? at h
    split at h
    next =>
      cases h
      refine belongs_of_or_inferred fun source hsource ↦ ?_
      obtain ⟨collection, hcollection, rfl⟩ := Option.map_eq_some_iff.1 hsource
      exact ⟨hkind, hcollection⟩
    next => cases h
  next => cases h

/-- The initial value of a declarator stands in the declarator. -/
theorem mem_ancestors_of_initializer (h : d.initializer? = some value) : d ∈ value.ancestors := by
  unfold initializer? at h
  split at h
  next clause hclause =>
    have hvalue := mem_children_of_named (List.mem_of_getElem? h)
    rw [ancestors_of_mem_children hvalue, ancestors_of_mem_children (mem_children_of_kind hclause)]
    exact List.mem_cons_of_mem clause List.mem_cons_self
  next =>
    have hvalue := List.mem_of_mem_tail (List.mem_of_find?_eq_some h)
    rw [ancestors_of_mem_children (mem_children_of_named hvalue)]
    exact List.mem_cons_self

/-! ### What a name is bound to -/

section WellFormed

variable (htree : tree.wellFormed) (hc : IsIn tree c)

include htree hc

/-- A name that is bound to anything but a written type is bound by the last visible declaration,
and no function around it has a parameter of the name. -/
theorem last_of_find {binding : Binding} (h : find? c name = some binding)
    (hopen : ∀ type, binding ≠ .declared type) :
    (∀ f ∈ enclosing c, parameterOf? name f = none) ∧
      ∃ d, (visible c name).getLast? = some d ∧ declaredBy? name d = some binding := by
  rw [find?, local_eq_last htree hc] at h
  cases hparameter : parameterType? c name with
  | some type =>
      rw [hparameter] at h
      exact absurd (Option.some.inj h).symm (hopen type)
  | none =>
      rw [hparameter, Option.map_none, Option.none_or] at h
      exact ⟨List.findSome?_eq_none_iff.1 hparameter, Option.bind_eq_some_iff.1 h⟩

/-- What a name is bound to is a node of the tree. -/
theorem is_in_of_find {binding : Binding} (h : find? c name = some binding)
    (hnode : binding.node? = some d) : IsIn tree d := by
  have hopen : ∀ type, binding ≠ .declared type := by
    rintro type rfl
    cases hnode
  obtain ⟨_, e, hlast, hdeclared⟩ := last_of_find htree hc h hopen
  have he := is_in_of_visible hc (List.mem_of_getLast? hlast)
  have hbelongs := belongs_of_declared_by hdeclared
  cases binding with
  | declared type => exact absurd rfl (hopen type)
  | initialized value =>
      cases hnode
      exact is_in_initializer he hbelongs.2
  | element collection =>
      cases hnode
      exact he.child (mem_children_of_child hbelongs.2)
  | outArgument declaration =>
      cases hnode
      exact hbelongs.2 ▸ he

/-- The initial value that a name is bound to precedes the name. -/
theorem initialized_precedes (h : find? c name = some (.initialized value)) : value.Precedes c := by
  obtain ⟨_, d, hlast, hdeclared⟩ := last_of_find htree hc h nofun
  obtain ⟨hkind, hvalue⟩ := belongs_of_declared_by hdeclared
  have hprecedes := precedes_of_visible htree hc (List.mem_of_getLast? hlast)
    (by rw [hkind]; exact nofun)
  exact hprecedes.of_below (mem_ancestors_of_initializer hvalue)

/-- The output argument that a name is bound to precedes the name. -/
theorem out_argument_precedes {declaration : Cursor}
    (h : find? c name = some (.outArgument declaration)) : declaration.Precedes c := by
  obtain ⟨_, d, hlast, hdeclared⟩ := last_of_find htree hc h nofun
  obtain ⟨hkind, rfl⟩ := belongs_of_declared_by hdeclared
  exact precedes_of_visible htree hc (List.mem_of_getLast? hlast) (by rw [hkind]; exact nofun)

end WellFormed

/-! ### Names in the collection of a loop -/

/-- A name is bound to a loop around it: no function around the name has a parameter of the name,
the loop is a visible declaration of it, and no declaration inside the loop is visible. -/
structure BoundToLoop (loop c : Cursor) (name : String) : Prop where
  parameters : ∀ f ∈ enclosing c, parameterOf? name f = none
  visible : loop ∈ visible c name
  inside : ∀ d ∈ Binding.visible c name, loop ∉ d.ancestors

/-- The binding that the other declarations give, if one of them is left out. -/
def without (loop c : Cursor) (name : String) : Option Binding :=
  ((parameterType? c name).map .declared).or
    (((visible c name).filter fun d ↦ !d.sameNode loop).getLast?.bind (declaredBy? name))

/-- The other declarations do not give the collection of a loop. -/
theorem without_ne_collection (hright : loop.child? .right = some collection) :
    without loop c name ≠ some (.element collection) := by
  intro h
  rw [without] at h
  rcases Option.or_eq_some_iff.1 h with h | ⟨_, h⟩
  · obtain ⟨type, _, heq⟩ := Option.map_eq_some_iff.1 h
    cases heq
  · obtain ⟨d, hlast, hdeclared⟩ := Option.bind_eq_some_iff.1 h
    obtain ⟨hd, hother⟩ := List.mem_filter.1 (List.mem_of_getLast? hlast)
    obtain ⟨_, hcollection⟩ := belongs_of_declared_by hdeclared
    -- a collection has one parent, and that is the loop that is left out
    have hparent := parent_of_mem_children (mem_children_of_child hcollection)
    rw [parent_of_mem_children (mem_children_of_child hright)] at hparent
    obtain rfl := Option.some.inj hparent
    simp [sameNode] at hother

/-- A loop is around what stands in its collection. -/
theorem mem_ancestors_of_right (hright : loop.child? .right = some collection)
    (hin : collection ∈ c :: c.ancestors) : loop ∈ c.ancestors := by
  have hloop : loop ∈ collection.ancestors := by
    rw [ancestors_of_mem_children (mem_children_of_child hright)]
    exact List.mem_cons_self
  rcases List.mem_cons.1 hin with rfl | hin
  · exact hloop
  · exact mem_ancestors_trans hin hloop

section WellFormed

variable (htree : tree.wellFormed) (hc : IsIn tree c)

include htree hc

/-- A loop around a node is the last declaration of a name that is visible there exactly if no
declaration inside the loop is. -/
theorem last_eq_loop_iff (hloop : loop ∈ c.ancestors) :
    (visible c name).getLast? = some loop ↔
      loop ∈ visible c name ∧ ∀ d ∈ visible c name, loop ∉ d.ancestors := by
  have hlin : IsIn tree loop := hc.ancestor hloop
  constructor
  · intro hlast
    refine ⟨List.mem_of_getLast? hlast, fun d hd hinside ↦ ?_⟩
    have hencloses := hc.ancestor_encloses htree hloop
    exact hlin.not_mem_ancestors (mem_ancestors_of_last htree hc hlast hd hinside hencloses)
  · rintro ⟨hvisible, hinside⟩
    obtain ⟨e, hlast⟩ := Option.isSome_iff_exists.1
      (List.getLast?_isSome.2 (List.ne_nil_of_mem hvisible))
    obtain ⟨first, hsplit⟩ := List.getLast?_eq_some_iff.1 hlast
    have he := List.mem_of_getLast? hlast
    have hordered : (visible c name).Pairwise fun a b ↦ b ∈ a.below ∨ a.stop ≤ b.start := by
      rw [visible, descendants_eq_below]
      exact (below_beside ((is_in_member hc).well_formed htree)).filter _
    rw [hlast]
    refine congrArg some ?_
    by_contra hne
    rw [hsplit] at hvisible hordered
    have hfirst : loop ∈ first := (List.mem_append.1 hvisible).resolve_right
      fun h ↦ hne (List.mem_singleton.1 h).symm
    rcases (List.pairwise_append.1 hordered).2.2 loop hfirst e (List.mem_singleton_self e) with
      hbelow | hafter
    · exact hinside e he (mem_ancestors_of_mem_below hbelow)
    · -- the loop reaches beyond the node, and the last declaration starts before it
      have hspan := hc.span_of_above htree (List.mem_cons_of_mem c hloop)
      have hstart := (mem_visible.1 he).2.1
      have hstop := Node.start_le_stop (hc.well_formed htree)
      change c.start ≤ c.stop at hstop
      omega

/-- A name that is bound to a loop has the binding that the loop declares. -/
theorem BoundToLoop.find_eq (h : BoundToLoop loop c name) (hloop : loop ∈ c.ancestors) :
    find? c name = declaredBy? name loop := by
  have hlast := (last_eq_loop_iff htree hc hloop).2 ⟨h.visible, h.inside⟩
  rw [find_eq_local h.parameters, local_eq_last htree hc, hlast, Option.bind_some]

/-- A name that is not bound to a loop has the binding that the other declarations give. -/
theorem find_eq_without (h : ¬ BoundToLoop loop c name) (hloop : loop ∈ c.ancestors) :
    find? c name = without loop c name := by
  rw [find?, local_eq_last htree hc, without]
  cases hparameter : parameterType? c name with
  | some type => rfl
  | none =>
      have hparameters := List.findSome?_eq_none_iff.1 hparameter
      cases hlast : (visible c name).getLast? with
      | none => rw [List.getLast?_eq_none_iff.1 hlast, List.filter_nil, List.getLast?_nil]
      | some e =>
          have hne : e ≠ loop := by
            rintro rfl
            obtain ⟨hvisible, hinside⟩ := (last_eq_loop_iff htree hc hloop).1 hlast
            exact h ⟨hparameters, hvisible, hinside⟩
          have hother : e.sameNode loop = false := by
            refine Bool.eq_false_iff.2 fun hsame ↦ hne ?_
            have he := is_in_of_visible hc (List.mem_of_getLast? hlast)
            exact he.eq_of_path (hc.ancestor hloop) (eq_of_beq hsame)
          -- the last declaration stays the last one if the loop is left out
          obtain ⟨first, hsplit⟩ := List.getLast?_eq_some_iff.1 hlast
          simp [hsplit, hother]

/-- A collection that a name in it is bound to is that of a loop to which the name is bound. -/
theorem bound_of_element (h : find? c name = some (.element collection))
    (hin : collection ∈ c :: c.ancestors) :
    ∃ loop, loop.kind = .foreachStatement ∧ loop.child? .right = some collection ∧
      BoundToLoop loop c name := by
  obtain ⟨hparameters, loop, hlast, hdeclared⟩ := last_of_find htree hc h nofun
  obtain ⟨hkind, hright⟩ := belongs_of_declared_by hdeclared
  obtain ⟨hvisible, hinside⟩ := (last_eq_loop_iff htree hc (mem_ancestors_of_right hright hin)).1
    hlast
  exact ⟨loop, hkind, hright, hparameters, hvisible, hinside⟩

end WellFormed

/-- What is in scope in the collections of loops: a name in the collection of a loop is bound as if
the loop did not declare it, and no name stands in the value or the collection that it is bound
to. -/
structure ScopedAt (c : Cursor) (name : String) : Prop where
  outside : ∀ loop collection, loop.kind = .foreachStatement →
    loop.child? .right = some collection → collection ∈ c :: c.ancestors →
      find? c name = without loop c name
  value : ∀ value, find? c name = some (.initialized value) → value ∉ c :: c.ancestors
  collection : ∀ collection, find? c name = some (.element collection) →
    collection ∉ c :: c.ancestors

/-- Names are in scope as they should exactly if no name in the collection of a loop is bound to the
loop, or the loop gives it the binding that the other declarations give. -/
theorem scoped_at_iff (htree : tree.wellFormed) (hc : IsIn tree c) (name : String) :
    ScopedAt c name ↔ ∀ loop collection, loop.kind = .foreachStatement →
      loop.child? .right = some collection → collection ∈ c :: c.ancestors →
        BoundToLoop loop c name → declaredBy? name loop = without loop c name := by
  constructor
  · intro h loop collection hkind hright hin hbound
    rw [← hbound.find_eq htree hc (mem_ancestors_of_right hright hin)]
    exact h.outside loop collection hkind hright hin
  · intro h
    refine ⟨fun loop collection hkind hright hin ↦ ?_, fun value hvalue ↦ ?_,
      fun collection hcollection hin ↦ ?_⟩
    · have hloop := mem_ancestors_of_right hright hin
      by_cases hbound : BoundToLoop loop c name
      · rw [hbound.find_eq htree hc hloop]
        exact h loop collection hkind hright hin hbound
      · exact find_eq_without htree hc hbound hloop
    · have hprecedes := initialized_precedes htree hc hvalue
      exact hprecedes.not_above (is_in_of_find htree hc hvalue rfl) hc
    · obtain ⟨loop, hkind, hright, hbound⟩ := bound_of_element htree hc hcollection hin
      have hsame := h loop collection hkind hright hin hbound
      rw [← hbound.find_eq htree hc (mem_ancestors_of_right hright hin), hcollection] at hsame
      exact without_ne_collection hright hsame.symm

end MemberReach.Binding
