import MemberReach.Proofs.LocalScopes

/-!
# Names in nested functions

A function that stands around a node hides the outer names that it declares again, as a parameter or
by a local inside it that is visible at the node. For parameters in a list the search gives the
innermost function that has one. A local inside a function is found as well, and none outside of it
instead, as long as no function around the node has a parameter of its name
(`nested_function_hides`): parameters are looked for first, all the way up to the member, so a
parameter of the method comes before a local of the nested function. The only parameter of a
function that is written without parentheses is no parameter in a list, and is not found at all
(`inner_declarations_missed`).
-/

namespace MemberReach

/-- Functions that stand inside the body of another one. -/
def Kind.isNestedFunction : Kind → Bool
  | lambdaExpression | anonymousMethodExpression | localFunctionStatement => true
  | _ => false

namespace Binding

open Cursor

variable {tree : Node} {c : Cursor} {name : String}

/-- The innermost function that has a parameter of a name gives the binding of the name. -/
theorem find_eq_parameter {inner outer : List Cursor} {f : Cursor} {type : String}
    (henclosing : enclosing c = inner ++ f :: outer)
    (hinner : ∀ g ∈ inner, parameterOf? name g = none) (hf : parameterOf? name f = some type) :
    find? c name = some (.declared type) := by
  have hfirst : parameterType? c name = some type := by
    rw [parameterType?]
    exact List.findSome?_eq_some_iff.2 ⟨inner, f, outer, henclosing, hf, hinner⟩
  rw [find?, hfirst, Option.map_some, Option.some_or]

/-- The nodes around a node in its member are above it. -/
theorem mem_ancestors_of_enclosing {f : Cursor} (hf : f ∈ enclosing c) : f ∈ c.ancestors :=
  (List.takeWhile_sublist _).subset hf

/-- If a declaration inside a function is visible at a node in it, the last one that is visible is
inside the function too. -/
theorem last_inside (htree : tree.wellFormed) (hc : IsIn tree c) {d f : Cursor}
    (hf : f ∈ enclosing c) (hd : d ∈ visible c name) (hinside : f ∈ d.ancestors) :
    ∃ e, (visible c name).getLast? = some e ∧ f ∈ e.ancestors := by
  cases hlast : (visible c name).getLast? with
  | none => exact absurd (List.getLast?_eq_none_iff.1 hlast) (List.ne_nil_of_mem hd)
  | some e =>
      have hencloses := hc.ancestor_encloses htree (mem_ancestors_of_enclosing hf)
      exact ⟨e, rfl, mem_ancestors_of_last htree hc hlast hd hinside hencloses⟩

/-- A function around a node gives the names that it declares. If it is the innermost one that has a
parameter of a name in its list, the name is bound to that parameter. If it has a visible local of
the name inside it and no function around the node has a parameter of the name, the name is bound to
the last such local, which is inside the function and in the scope of every other one. -/
theorem nested_function_hides (htree : tree.wellFormed) (hc : IsIn tree c) (name : String)
    {inner outer : List Cursor} {f : Cursor} (henclosing : enclosing c = inner ++ f :: outer)
    (hinner : ∀ g ∈ inner, parameterOf? name g = none) :
    (∀ type, parameterOf? name f = some type → find? c name = some (.declared type)) ∧
      ((∀ g ∈ f :: outer, parameterOf? name g = none) →
        ∀ d ∈ visible c name, f ∈ d.ancestors →
          ∃ e binding, (visible c name).getLast? = some e ∧ f ∈ e.ancestors ∧
            (d.kind ≠ .foreachStatement → ScopeWithin e d) ∧
            declaredBy? name e = some binding ∧ find? c name = some binding) := by
  refine ⟨fun type hf ↦ find_eq_parameter henclosing hinner hf, ?_⟩
  intro houter d hd hinside
  have hparameters : ∀ g ∈ enclosing c, parameterOf? name g = none := by
    intro g hg
    rw [henclosing, List.mem_append] at hg
    exact hg.elim (hinner g) (houter g)
  have hf : f ∈ enclosing c := henclosing ▸ List.mem_append_right inner List.mem_cons_self
  obtain ⟨e, hlast, he⟩ := last_inside htree hc hf hd hinside
  have hgiven := (mem_visible.1 (List.mem_of_getLast? hlast)).2.2
  rw [given_by_eq_declared hgiven] at hgiven
  obtain ⟨binding, hbinding⟩ := Option.isSome_iff_exists.1 hgiven
  refine ⟨e, binding, hlast, he, scope_of_last htree hc hlast hd, hbinding, ?_⟩
  rw [find_eq_local hparameters, local_eq_last htree hc, hlast, Option.bind_some, hbinding]

/-- In the sample, the second nested function gives its parameter, and its own local instead of the
one outside. -/
theorem nested_function_hides_shadowed :
    Shadowed.unit.tree.wellFormed ∧ ∃ c f, IsIn Shadowed.unit.tree c ∧ f ∈ enclosing c ∧
      f.kind = .lambdaExpression ∧ find? c "y" = some (.declared "A") ∧
      (visible c "x").length = 2 ∧ ∃ e binding, (visible c "x").getLast? = some e ∧
        f ∈ e.ancestors ∧ declaredBy? "x" e = some binding ∧ find? c "x" = some binding := by
  have hfacts : Shadowed.unit.tree.wellFormed ∧ ∃ c ∈ reach [] Shadowed.unit.tree,
      (c.field = some .expression ∧ c.text = "x") ∧ (visible c "x").length = 2 ∧
      (∀ g ∈ enclosing c, parameterOf? "x" g = none) ∧
      (∀ g ∈ enclosing c, g.kind ≠ .lambdaExpression → parameterOf? "y" g = none) ∧
      ∃ f ∈ (enclosing c).find? (fun g ↦ g.kind == .lambdaExpression),
        parameterOf? "y" f = some "A" ∧
          ∃ d ∈ visible c "x", ∃ g ∈ d.ancestors, g.path = f.path := by decide +kernel
  obtain ⟨htree, c, hc, _, hlength, hx, hy, f, hfind, hparameter, d, hd, g, hg, hpath⟩ := hfacts
  have hc := is_in_iff_mem_reach.2 hc
  obtain ⟨hkind, inner, outer, henclosing, hinner⟩ := List.find?_eq_some_iff_append.1 hfind
  have hmem : ∀ g, g ∈ inner ∨ g ∈ f :: outer → g ∈ enclosing c := by
    intro g hg
    rw [henclosing]
    exact List.mem_append.2 hg
  have hf : f ∈ enclosing c := hmem f (Or.inr List.mem_cons_self)
  -- the function around the reference is the one around the declaration
  have hin : IsIn Shadowed.unit.tree d := (is_in_member hc).descendant (mem_visible.1 hd).1
  obtain rfl := (hin.ancestor hg).eq_of_path (hc.ancestor (mem_ancestors_of_enclosing hf)) hpath
  have hparameterY := (nested_function_hides htree hc "y" henclosing
    fun h hh ↦ hy h (hmem h (Or.inl hh)) (by simpa using hinner h hh)).1 "A" hparameter
  obtain ⟨e, binding, hlast, he, _, hbinding, hbound⟩ :=
    (nested_function_hides htree hc "x" henclosing
      fun h hh ↦ hx h (hmem h (Or.inl hh))).2 (fun h hh ↦ hx h (hmem h (Or.inr hh))) d hd hg
  exact ⟨htree, c, g, hc, hf, eq_of_beq hkind, hparameterY, hlength, e, binding, hlast, he,
    hbinding, hbound⟩

end Binding

namespace Hidden

/-- A nested function with a local that has the name of a parameter of the method, and one with a
parameter that is written without parentheses. -/
def source : String :=
  "class C \x7b void M(A x) \x7b f = () => \x7b B x; x.N(); \x7d; g = y => y.N(); \x7d \x7d"

/-- The file with this text. -/
def unit : SourceUnit :=
  .create ⟨"C.cs"⟩ none source (Node.ofSource source)

end Hidden

namespace Binding

open Cursor

/-- The descriptor that a binding spells out. -/
def descriptor? : Binding → Option String
  | declared descriptor => some descriptor
  | _ => none

/-- A local inside a nested function is not found where the method has a parameter of its name, and
a parameter without parentheses is not found at all. -/
theorem inner_declarations_missed :
    (¬ ∀ (unit : SourceUnit) c f d name, unit.tree.wellFormed → IsIn unit.tree c →
      f ∈ enclosing c → f.kind.isNestedFunction → d ∈ visible c name → f ∈ d.ancestors →
        ∃ e ∈ visible c name, f ∈ e.ancestors ∧ find? c name = declaredBy? name e) ∧
    ¬ ∀ (unit : SourceUnit) c f p, unit.tree.wellFormed → IsIn unit.tree c →
      f ∈ enclosing c → f.kind.isNestedFunction → f.child? .parameters = some p →
        p.kind = .ofName "implicit_parameter" → (find? c p.text).isSome := by
  have hfacts : Hidden.unit.tree.wellFormed ∧
      (∃ c ∈ reach [] Hidden.unit.tree, (c.field = some .expression ∧ c.text = "x") ∧
        ∃ d ∈ visible c "x", (∃ f ∈ d.ancestors, f.kind.isNestedFunction ∧
          ∃ g ∈ enclosing c, g.path = f.path) ∧
        ∀ e ∈ visible c "x",
          (find? c "x").bind descriptor? ≠ (declaredBy? "x" e).bind descriptor?) ∧
      ∃ c ∈ reach [] Hidden.unit.tree, (c.field = some .expression ∧ c.text = "y") ∧
        (∃ f ∈ enclosing c, f.kind.isNestedFunction ∧ ∃ p ∈ f.child? .parameters,
          p.kind = .ofName "implicit_parameter" ∧ p.text = "y") ∧
        (find? c "y").isSome = false := by decide +kernel
  obtain ⟨htree, ⟨c, hc, _, d, hd, ⟨f, hf, hnested, g, hg, hpath⟩, hne⟩, b, hb, _,
    ⟨h, hh, hbare, p, hp, hkind, htext⟩, hnone⟩ := hfacts
  have hc := is_in_iff_mem_reach.2 hc
  constructor
  · intro hinnermost
    have hin : IsIn Hidden.unit.tree d := (is_in_member hc).descendant (mem_visible.1 hd).1
    obtain rfl := (hc.ancestor (mem_ancestors_of_enclosing hg)).eq_of_path (hin.ancestor hf) hpath
    obtain ⟨e, he, _, heq⟩ := hinnermost Hidden.unit c g d "x" htree hc hg hnested hd hf
    exact hne e he (by rw [heq])
  · intro hbound
    have hsome := hbound Hidden.unit b h p htree (is_in_iff_mem_reach.2 hb) hh hbare hp hkind
    rw [htext, hnone] at hsome
    exact absurd hsome (by decide)

end Binding

end MemberReach
