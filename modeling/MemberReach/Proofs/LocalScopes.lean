import MemberReach.Grammar.Rules
import MemberReach.Proofs.Comments.Bindings
import MemberReach.Proofs.TreeSpans
import MemberReach.SourceUnit

/-!
# Scopes of local names

The search for a local looks at the nodes of a member one after another, stops where the node itself
starts, and keeps the last declaration that is visible there. In a well-formed tree nothing visible
is lost by stopping early (`mem_earlier_of_start_lt`), so the last visible declaration of the whole
member counts (`local_eq_last`). That one has the innermost scope: the scope of an earlier one is
around it as well, or has stopped before it starts and cannot reach the node (`scope_of_last`). So a
name resolves to the innermost declaration that is visible (`find_innermost_local`).
-/

namespace MemberReach.Binding

open Cursor

variable {tree : Node} {c : Cursor} {name : String}

/-! ### The last visible declaration -/

/-- The declarations of a name that are visible at a node, in document order. -/
def visible (c : Cursor) (name : String) : List Cursor :=
  (member c).descendants.filter fun d ↦ decide (d.start < c.start) && (givenBy? c name d).isSome

/-- A declaration is visible if it starts before the node and gives a binding there. -/
theorem mem_visible {d : Cursor} :
    d ∈ visible c name ↔
      d ∈ (member c).descendants ∧ d.start < c.start ∧ (givenBy? c name d).isSome := by
  simp only [visible, List.mem_filter, Bool.and_eq_true, decide_eq_true_eq]

/-- A node gives a binding of a name if it declares the name and is visible. -/
theorem given_by_is_some (d : Cursor) :
    (givenBy? c name d).isSome = ((declaredBy? name d).isSome && isVisibleAt d c) := by
  rw [givenBy?, Option.isSome_filter]
  cases declaredBy? name d <;> rfl

/-- A declaration that is no loop is visible in its scope, but not within itself. -/
theorem is_visible_at_eq {d : Cursor} (hkind : d.kind ≠ .foreachStatement) :
    isVisibleAt d c =
      ((localScope? d).all (fun scope ↦ scope.encloses c) && !d.encloses c) := by
  unfold isVisibleAt
  split
  · exact absurd ‹_› hkind
  · rfl

/-- What a node gives for a name is what it declares. -/
theorem given_by_eq_declared {d : Cursor} (h : (givenBy? c name d).isSome) :
    givenBy? c name d = declaredBy? name d := by
  obtain ⟨binding, hbinding⟩ := Option.isSome_iff_exists.1 h
  rw [hbinding, (Option.filter_eq_some_iff.1 hbinding).1]

/-- The last answer of a list is that of the last member that has one. -/
theorem last_filter_map {α β : Type} (f : α → Option β) (l : List α) :
    (l.filterMap f).getLast? = (l.filter fun a ↦ (f a).isSome).getLast?.bind f := by
  rw [List.getLast?_filterMap, List.getLast?_filter]
  induction l.reverse with
  | nil => rfl
  | cons a rest ih =>
      cases ha : f a with
      | none => simp [ha, ih]
      | some b => simp [ha]

/-- A node has no parameter of a name if it is no function, or none of its parameters has it. -/
theorem parameter_of_eq_none_iff {f : Cursor} :
    parameterOf? name f = none ↔ (f.kind.isFunction → ∀ p ∈ f.parameters, p.1 ≠ name) := by
  unfold parameterOf?
  split <;> simp_all

/-- Where no function around a node has a parameter of a name, the name is that of a local. -/
theorem find_eq_local (h : ∀ f ∈ enclosing c, parameterOf? name f = none) :
    find? c name = local? c name := by
  rw [find?, parameterType?, List.findSome?_eq_none_iff.2 h, Option.map_none, Option.none_or]

section WellFormed

variable (htree : tree.wellFormed) (hc : IsIn tree c)

include htree hc

/-- The nodes of the member of a node that come before it are those that start before it. -/
theorem earlier_eq_filter :
    earlier c = (member c).descendants.filter fun d ↦ decide (d.start < c.start) :=
  take_while_eq_filter (descendants_sorted ((is_in_member hc).well_formed htree)) c.start

/-- The search for a local reaches all that starts before the node. -/
theorem mem_earlier_of_start_lt {d : Cursor} (hd : d ∈ (member c).descendants)
    (hstart : d.start < c.start) : d ∈ earlier c := by
  rw [earlier_eq_filter htree hc]
  exact List.mem_filter.2 ⟨hd, decide_eq_true hstart⟩

/-- The local of a name is what the last visible declaration of it declares. -/
theorem local_eq_last :
    local? c name = (visible c name).getLast?.bind (declaredBy? name) := by
  have hvisible : (earlier c).filter (fun d ↦ (givenBy? c name d).isSome) = visible c name := by
    rw [earlier_eq_filter htree hc, List.filter_filter, visible]
    simp only [Bool.and_comm]
  rw [local?, last_filter_map, hvisible]
  refine Option.bind_congr fun d hd ↦ given_by_eq_declared ?_
  exact (mem_visible.1 (List.mem_of_getLast? hd)).2.2

/-- What is around a visible declaration and encloses the node is around the last one too. -/
theorem mem_ancestors_of_last {d e s : Cursor} (hlast : (visible c name).getLast? = some e)
    (hd : d ∈ visible c name) (hs : s ∈ d.ancestors) (hencloses : s.encloses c = true) :
    s ∈ e.ancestors := by
  obtain ⟨first, hsplit⟩ := List.getLast?_eq_some_iff.1 hlast
  have hordered : (visible c name).Pairwise
      fun a b ↦ ∀ s ∈ a.ancestors, s ∈ b.ancestors ∨ s.stop ≤ b.start := by
    rw [visible, descendants_eq_below]
    exact (below_shared_or_stopped ((is_in_member hc).well_formed htree)).filter _
  have hstart := (mem_visible.1 (List.mem_of_getLast? hlast)).2.1
  have hstop := Node.start_le_stop (hc.well_formed htree)
  simp only [encloses, Bool.and_eq_true, decide_eq_true_eq] at hencloses
  rw [hsplit] at hd hordered
  rcases List.mem_append.1 hd with hd | hd
  · rcases (List.pairwise_append.1 hordered).2.2 d hd e (List.mem_singleton_self e) s hs with h | h
    · exact h
    · -- a scope that has stopped by then does not reach the node
      change c.start ≤ c.stop at hstop
      omega
  · rw [List.mem_singleton.1 hd] at hs
    exact hs

end WellFormed

/-! ### The innermost scope -/

/-- The scope of a local lies within that of another. A local without a scope is visible in all of
its member. -/
def ScopeWithin (d e : Cursor) : Prop :=
  ∀ outer, localScope? e = some outer → ∃ inner, localScope? d = some inner ∧
    (inner = outer ∨ outer ∈ inner.ancestors) ∧ outer.encloses inner = true

/-- The scope of a declaration that stands in a scope is that one, or lies in it. -/
theorem local_scope_of_mem {d s : Cursor} (hs : s ∈ d.ancestors) (hkind : s.kind.isLocalScope) :
    ∃ t, localScope? d = some t ∧ (t = s ∨ s ∈ t.ancestors) := by
  cases hfind : localScope? d with
  | none => exact absurd hkind (List.find?_eq_none.1 hfind s hs)
  | some t =>
      refine ⟨t, rfl, ?_⟩
      obtain ⟨_, first, rest, hsplit, hfirst⟩ := List.find?_eq_some_iff_append.1 hfind
      rw [hsplit, List.mem_append, List.mem_cons] at hs
      rcases hs with hs | rfl | hs
      · have := hfirst s hs
        simp [hkind] at this
      · exact Or.inl rfl
      · exact Or.inr (ancestors_of_append hsplit ▸ hs)

/-- The last visible declaration has the innermost scope. -/
theorem scope_of_last (htree : tree.wellFormed) (hc : IsIn tree c) {d e : Cursor}
    (hlast : (visible c name).getLast? = some e) (hd : d ∈ visible c name)
    (hkind : d.kind ≠ .foreachStatement) : ScopeWithin e d := by
  intro outer houter
  have hmem : outer ∈ d.ancestors := List.mem_of_find?_eq_some houter
  have hscope : outer.kind.isLocalScope := by
    simpa using List.find?_some (p := fun n : Cursor ↦ n.kind.isLocalScope) houter
  have hencloses : outer.encloses c = true := by
    have hgiven := (mem_visible.1 hd).2.2
    rw [given_by_is_some, is_visible_at_eq hkind, houter, Option.all_some, Bool.and_eq_true,
      Bool.and_eq_true] at hgiven
    exact hgiven.2.1
  obtain ⟨inner, hinner, hwithin⟩ :=
    local_scope_of_mem (mem_ancestors_of_last htree hc hlast hd hmem hencloses) hscope
  refine ⟨inner, hinner, hwithin, ?_⟩
  rcases hwithin with rfl | hwithin
  · simp [encloses]
  · have he : IsIn tree e :=
      (is_in_member hc).descendant (mem_visible.1 (List.mem_of_getLast? hlast)).1
    exact (he.ancestor (List.mem_of_find?_eq_some hinner)).ancestor_encloses htree hwithin

/-! ### Locals other than loop variables -/

/-- The name that a declarator, declaration pattern or declaration expression declares. -/
def localName? (d : Cursor) : Option String :=
  match d.kind with
  | .variableDeclarator => d.identifier?
  | .declarationPattern | .declarationExpression =>
      (designation? d).map fun (_, designated) ↦ designated.text
  | _ => none

/-- Whether a local of a name is visible at a node: it starts before the node and does not enclose
it, and the scope of the local, if it has one, does. -/
def isVisibleLocal (c : Cursor) (name : String) (d : Cursor) : Bool :=
  localName? d == some name && decide (d.start < c.start) && !d.encloses c &&
    (localScope? d).all fun scope ↦ scope.encloses c

/-- The locals of a name in the member of a node that are visible at the node, in document order. -/
def visibleLocals (c : Cursor) (name : String) : List Cursor :=
  (member c).descendants.filter (isVisibleLocal c name)

/-- A declarator declares the name that it is called by. -/
theorem of_declarator_is_some (name : String) (d : Cursor) :
    (ofDeclarator? name d).isSome = (d.identifier? == some name) := by
  unfold ofDeclarator?
  split <;> simp_all

/-- A declaration pattern or declaration expression declares the name that it designates. -/
theorem of_designation_is_some (name : String) (d : Cursor) :
    (ofDesignation? name d).isSome =
      ((designation? d).map (fun (_, designated) ↦ designated.text) == some name) := by
  unfold ofDesignation?
  cases designation? d with
  | none => rfl
  | some pair =>
      simp only [Option.bind_eq_bind, Option.bind_some, Option.map_some]
      split <;> simp_all

/-- A node that is no loop declares a name exactly if it is a local of that name. -/
theorem declared_by_is_some {d : Cursor} (hkind : d.kind ≠ .foreachStatement) :
    (declaredBy? name d).isSome = (localName? d == some name) := by
  unfold declaredBy? localName?
  split
  next h => simp only [h, of_declarator_is_some]
  next h => simp only [h, of_designation_is_some]
  next h => simp only [h, of_designation_is_some]
  next h => exact absurd h hkind
  next => simp

/-- A loop declares the name of its variable. -/
theorem declared_by_loop {d : Cursor} (hkind : d.kind = .foreachStatement) :
    (declaredBy? name d).isSome = ((d.child? .left).map text == some name) := by
  simp only [declaredBy?, hkind, ofLoop?]
  cases d.child? .left with
  | none => rfl
  | some left =>
      simp only [Option.any_some, Option.map_some]
      split <;> simp_all

/-- Without a loop around the node that declares the name, the visible declarations are locals. -/
theorem visible_eq_locals (hloops : ∀ d ∈ (member c).descendants, d.kind = .foreachStatement →
      d.encloses c = true → (d.child? .left).map text ≠ some name) :
    visible c name = visibleLocals c name := by
  refine List.filter_congr fun d hd ↦ ?_
  rw [given_by_is_some, isVisibleLocal]
  by_cases hkind : d.kind = .foreachStatement
  · have hlocal : localName? d = none := by simp only [localName?, hkind]
    have hloop := hloops d hd hkind
    simp only [declared_by_loop hkind, hlocal, isVisibleAt, hkind]
    simpa [and_comm] using fun _ hname hencloses ↦ hloop hencloses hname
  · rw [declared_by_is_some hkind, is_visible_at_eq hkind]
    ac_rfl

/-- Where no function around a node has a parameter of a name and no loop around it declares the
name, the name resolves to the last local that is visible at the node. That one has the innermost
scope, and the search for it, which stops where the node starts, misses none of the visible ones. -/
theorem find_innermost_local (htree : tree.wellFormed) (hc : IsIn tree c)
    (hparameters : ∀ f ∈ enclosing c, f.kind.isFunction → ∀ p ∈ f.parameters, p.1 ≠ name)
    (hloops : ∀ d ∈ (member c).descendants, d.kind = .foreachStatement →
      d.encloses c = true → (d.child? .left).map text ≠ some name) :
    (find? c name = none ↔ visibleLocals c name = []) ∧
      (∀ d, (visibleLocals c name).getLast? = some d →
        find? c name = declaredBy? name d ∧ ∀ e ∈ visibleLocals c name, ScopeWithin d e) ∧
      ∀ d ∈ visibleLocals c name, d ∈ earlier c := by
  have hfind : find? c name = (visibleLocals c name).getLast?.bind (declaredBy? name) := by
    rw [find_eq_local fun f hf ↦ parameter_of_eq_none_iff.2 (hparameters f hf),
      local_eq_last htree hc, visible_eq_locals hloops]
  have hkind : ∀ d ∈ visibleLocals c name, d.kind ≠ .foreachStatement := by
    intro d hd hkind
    simp [visibleLocals, isVisibleLocal, localName?, hkind] at hd
  rw [hfind]
  simp only [← visible_eq_locals hloops] at hkind ⊢
  refine ⟨?_, ?_, ?_⟩
  · cases hlast : (visible c name).getLast? with
    | none => simp [List.getLast?_eq_none_iff.1 hlast]
    | some d =>
        have hd := List.mem_of_getLast? hlast
        have hgiven := (mem_visible.1 hd).2.2
        rw [given_by_eq_declared hgiven, Option.isSome_iff_ne_none] at hgiven
        simp [hgiven, List.ne_nil_of_mem hd]
  · intro d hlast
    refine ⟨by rw [hlast, Option.bind_some], fun e he ↦ ?_⟩
    exact scope_of_last htree hc hlast he (hkind e he)
  · intro d hd
    obtain ⟨hmem, hstart, _⟩ := mem_visible.1 hd
    exact mem_earlier_of_start_lt htree hc hmem hstart

end MemberReach.Binding

namespace MemberReach.Shadowed

/-- A local that is declared once more in a nested function, beside another nested function that
declares it too. -/
def source : String :=
  "class C \x7b void M() \x7b A x; g = () => \x7b D x; \x7d; " ++
    "f = (A y) => \x7b B x; x.N(y); \x7d; \x7d \x7d"

/-- The file with this text. -/
def unit : SourceUnit :=
  .create ⟨"C.cs"⟩ none source (Node.ofSource source)

end MemberReach.Shadowed

namespace MemberReach.Binding

open Cursor

/-- The name in the second nested function resolves to the local there; the one outside is visible
too, the one in the first nested function is not. -/
theorem find_innermost_local_shadowed :
    Shadowed.unit.tree.wellFormed ∧ ∃ c, IsIn Shadowed.unit.tree c ∧
      (visibleLocals c "x").length = 2 ∧ ∃ d, (visibleLocals c "x").getLast? = some d ∧
        find? c "x" = declaredBy? "x" d ∧ ∀ e ∈ visibleLocals c "x", ScopeWithin d e := by
  have hfacts : Shadowed.unit.tree.wellFormed ∧ ∃ c ∈ reach [] Shadowed.unit.tree,
      (c.field = some .expression ∧ c.text = "x") ∧ (visibleLocals c "x").length = 2 ∧
      (∀ f ∈ enclosing c, f.kind.isFunction → ∀ p ∈ f.parameters, p.1 ≠ "x") ∧
      ∀ d ∈ (member c).descendants, d.kind = .foreachStatement → d.encloses c = true →
        (d.child? .left).map text ≠ some "x" := by decide +kernel
  obtain ⟨htree, c, hc, _, hlength, hparameters, hloops⟩ := hfacts
  have hc := is_in_iff_mem_reach.2 hc
  have hinnermost := find_innermost_local htree hc hparameters hloops
  cases hlast : (visibleLocals c "x").getLast? with
  | none => simp [List.getLast?_eq_none_iff.1 hlast] at hlength
  | some d => exact ⟨htree, c, hc, hlength, d, hlast, hinnermost.2.1 d hlast⟩

end MemberReach.Binding
