import MemberReach.Grammar.Rules
import MemberReach.Proofs.Callees

/-!
# Types of output arguments

An output argument without a written type has the type of the parameter that it is passed for. A
call of a member passes its arguments for the parameters at the same positions, a call of an
extension method on a receiver for those one further (`Route.parameter`). How the method was found
is not kept, though. It is taken for an extension method on a receiver if it is one and has one
parameter more than the call has arguments (`out_argument_type_eq`), which is right exactly if it
was found so, apart from parameters of the same type (`out_argument_type_iff`).
-/

namespace MemberReach

namespace Cursor

/-- A declaration is made in the argument at a position of a call, which has `count` arguments. -/
def IsArgument (declaration call : Cursor) (position count : Nat) : Prop :=
  call.kind = .invocationExpression ∧ ∃ list ∈ call.children, list.argumentNodes.length = count ∧
    ∃ argument ∈ list.argumentNodes[position]?, declaration ∈ argument.children

/-- The arguments in a list are children of it, of their kind. -/
theorem mem_argument_nodes {list argument : Cursor} (h : argument ∈ list.argumentNodes) :
    argument ∈ list.children ∧ argument.kind = .argument := by
  obtain ⟨hnamed, hkind⟩ := List.mem_filter.1 h
  exact ⟨mem_children_of_named hnamed, eq_of_beq hkind⟩

/-- An argument is found at its position. -/
theorem find_idx_argument {list argument : Cursor} {position : Nat}
    (h : list.argumentNodes[position]? = some argument) :
    (list.argumentNodes.findIdx? fun other ↦ other.sameNode argument) = some position := by
  have hsublist : list.argumentNodes.Sublist list.children :=
    List.filter_sublist.trans List.filter_sublist
  have hapart : list.argumentNodes.Pairwise fun a b ↦ a.path ≠ b.path :=
    (children_from_apart list.node list.above 0 list.node.children).sublist hsublist
  obtain ⟨hposition, hargument⟩ := List.getElem?_eq_some_iff.1 h
  refine List.findIdx?_eq_some_iff_getElem.2 ⟨hposition, ?_, fun earlier hlt ↦ ?_⟩
  · rw [hargument, sameNode, beq_self_eq_true]
  · have hpath := List.pairwise_iff_getElem.1 hapart earlier position (by omega) hposition hlt
    rw [hargument] at hpath
    simpa [sameNode] using hpath

end Cursor

namespace Typing

namespace Env

/-- Whether the registry has a method as an extension method. -/
def isExtension (env : Env) (m : MethodSymbol) : Bool :=
  (env.registry.method? m.id).any MethodDecl.isExtension

variable {env : Env} {typeOf? : Cursor → Option TypeKey} {declaration call : Cursor}
  {position count : Nat} {m : MethodSymbol}

/-- The method that a call invokes is declared. -/
theorem callee_declared (h : env.callee? typeOf? call = some m) : env.registry.Declares m := by
  obtain ⟨f, _, h⟩ := Option.bind_eq_some_iff.1 h
  obtain ⟨s, hsymbol, h⟩ := Option.bind_eq_some_iff.1 h
  cases s with
  | method symbol =>
      cases h
      exact symbol_declared hsymbol
  | property symbol => cases h

/-- An output argument has the type of the parameter one further if the method is an extension
method with one parameter more than there are arguments, and of the one at its position if not. -/
theorem out_argument_type_eq (hargument : declaration.IsArgument call position count)
    (hcallee : env.callee? typeOf? call = some m) :
    env.outArgumentType? typeOf? declaration = env.registry.parameterType? m.id
      (if env.isExtension m && m.parameters.length == count + 1 then position + 1
        else position) := by
  obtain ⟨hkind, list, hlist, rfl, argument, hposition, hdeclaration⟩ := hargument
  obtain ⟨hchild, hargumentKind⟩ := Cursor.mem_argument_nodes (List.mem_of_getElem? hposition)
  obtain ⟨decl, hdecl, _⟩ := callee_declared hcallee
  have hindex := Cursor.find_idx_argument hposition
  simp only [outArgumentType?, Cursor.parent_of_mem_children hdeclaration,
    Cursor.parent_of_mem_children hchild, Cursor.parent_of_mem_children hlist, hargumentKind, hkind,
    hindex, hcallee, hdecl, isExtension, Option.filter_some, Option.any_some, beq_self_eq_true,
    if_true, Option.bind_eq_bind, Option.bind_some]

/-- For an output argument of a call whose method was found along a route, the type is that of the
parameter that it is passed for exactly if the route is that of an extension method just when the
method is one and has one parameter more than there are arguments, or if both parameters that come
into question have the same type. -/
theorem out_argument_type_iff (hargument : declaration.IsArgument call position count)
    {route : Route} (hchosen : env.chosen? typeOf? call = some (route, m)) :
    env.callee? typeOf? call = some m ∧
      (env.outArgumentType? typeOf? declaration =
          env.registry.parameterType? m.id (route.parameter position) ↔
        (route = .extension ↔ env.isExtension m ∧ m.parameters.length = count + 1) ∨
          env.registry.parameterType? m.id position =
            env.registry.parameterType? m.id (position + 1)) := by
  have hcallee : env.callee? typeOf? call = some m := by
    rw [callee_eq_chosen hargument.1, hchosen, Option.map_some]
  refine ⟨hcallee, ?_⟩
  rw [out_argument_type_eq hargument hcallee]
  simp only [Bool.and_eq_true, beq_iff_eq]
  cases route with
  | member =>
      split
      next hshifted => simp [Route.parameter, hshifted, eq_comm]
      next hplain => simp [Route.parameter, hplain]
  | extension =>
      split
      next hshifted => simp [Route.parameter, hshifted]
      next hplain => simp [Route.parameter, hplain]

/-- Output arguments of calls whose method was found along a route have the type of the parameter
that they are passed for. -/
def PassesFor (route : Route) : Prop :=
  ∀ (env : Env) (typeOf? : Cursor → Option TypeKey) declaration call position count m,
    declaration.IsArgument call position count → env.chosen? typeOf? call = some (route, m) →
      env.outArgumentType? typeOf? declaration =
        env.registry.parameterType? m.id (route.parameter position)

end Env

end Typing

namespace Passing

open Cursor Typing

/-- A call of an extension method on a receiver. -/
def plainSource : String :=
  "class A \x7b \x7d class B \x7b \x7d static class E \x7b static void M(this A a, out B b) " ++
    "\x7b \x7d \x7d class C \x7b void T(A a) \x7b a.M(out var x); \x7d \x7d"

/-- Two calls of an extension method that leave out its last argument, one of them on a receiver. -/
def source : String :=
  "class A \x7b \x7d class B \x7b \x7d static class E \x7b " ++
    "static void M(this A a, out B b, int k = 0) \x7b \x7d \x7d " ++
    "class C \x7b void T(A a) \x7b a.M(out var x); E.M(a, out var y); \x7d \x7d"

/-- The file with a text. -/
def unit (text : String) : SourceUnit :=
  .create ⟨"A.cs"⟩ none text (Node.ofSource text)

/-- What the nodes of the file with a text are typed against. -/
def env (text : String) (c : Cursor) : Env :=
  ⟨.build [unit text], ⟨0, Scope.of c⟩⟩

/-- The types of the receivers of calls in the file. -/
def types (text : String) (c : Cursor) : Cursor → Option TypeKey :=
  typeOf? (env text c) defaultLimit 3

/-- In the file with a text there is an output argument at a position of a call whose method was
found along a route. The parameter that it is passed for has type `B`, and the argument has `type`;
`shifted` tells whether the method is taken for one that was called on a receiver. -/
def HasArgument (text : String) (route : Route) (position count : Nat) (shifted : Bool)
    (type : Option TypeKey) : Prop :=
  ∃ call ∈ reach [] (unit text).tree, call.kind = .invocationExpression ∧
    ∃ list ∈ call.children, list.argumentNodes.length = count ∧
      ∃ argument ∈ list.argumentNodes[position]?, ∃ declaration ∈ argument.children,
        declaration.kind = .declarationExpression ∧
        ∃ chosen ∈ (env text call).chosen? (types text call) call, chosen.1 = route ∧
          ((env text call).isExtension chosen.2 && chosen.2.parameters.length == count + 1) =
            shifted ∧
          (env text call).registry.parameterType? chosen.2.id (route.parameter position) =
            some ⟨"B"⟩ ∧
          (env text call).outArgumentType? (types text call) declaration = type

instance (text : String) (route : Route) (position count : Nat) (shifted : Bool)
    (type : Option TypeKey) : Decidable (HasArgument text route position count shifted type) :=
  inferInstanceAs (Decidable (∃ call ∈ reach [] (unit text).tree, _))

/-- The argument and the call of a file that has them. -/
theorem HasArgument.elim {text : String} {route : Route} {position count : Nat} {shifted : Bool}
    {type : Option TypeKey} (h : HasArgument text route position count shifted type) :
    ∃ declaration call m, declaration.IsArgument call position count ∧
      (env text call).chosen? (types text call) call = some (route, m) ∧
      ((env text call).isExtension m && m.parameters.length == count + 1) = shifted ∧
      (env text call).registry.parameterType? m.id (route.parameter position) = some ⟨"B"⟩ ∧
      (env text call).outArgumentType? (types text call) declaration = type := by
  obtain ⟨call, _, hkind, list, hlist, hcount, argument, hposition, declaration, hdeclaration, _,
    ⟨found, m⟩, hchosen, hroute, hshifted, hparameter, htype⟩ := h
  cases hroute
  exact ⟨declaration, call, m, ⟨hkind, list, hlist, hcount, argument, hposition, hdeclaration⟩,
    hchosen, hshifted, hparameter, htype⟩

end Passing

namespace Typing.Env

open Passing

/-- The argument of `a.M(out var x)` has the type of the second parameter of the extension
method. -/
theorem out_argument_type_iff_receiver :
    ∃ (env : Env) (typeOf? : Cursor → Option TypeKey) (declaration call : Cursor)
        (m : MethodSymbol),
      declaration.IsArgument call 0 1 ∧
      env.chosen? typeOf? call = some (.extension, m) ∧ env.callee? typeOf? call = some m ∧
      env.outArgumentType? typeOf? declaration = env.registry.parameterType? m.id 1 ∧
      env.registry.parameterType? m.id 1 = some ⟨"B"⟩ := by
  have hfile : HasArgument plainSource .extension 0 1 true (some ⟨"B"⟩) := by decide +kernel
  obtain ⟨declaration, call, m, hargument, hchosen, hshifted, hparameter, _⟩ := hfile.elim
  obtain ⟨hcallee, htype⟩ := out_argument_type_iff hargument hchosen
  refine ⟨_, _, declaration, call, m, hargument, hchosen, hcallee, htype.2 (Or.inl ?_), hparameter⟩
  simpa using hshifted

/-- If an optional argument is left out, neither a call on a receiver nor one that passes the
receiver as an argument gives an output argument the type of the parameter that it is passed for. -/
theorem out_argument_misplaced : ¬ PassesFor .extension ∧ ¬ PassesFor .member := by
  have hfile : HasArgument source .extension 0 1 false (some ⟨"A"⟩) ∧
      HasArgument source .member 1 2 true none := by
    decide +kernel
  obtain ⟨hextension, hmember⟩ := hfile
  refine ⟨fun h ↦ ?_, fun h ↦ ?_⟩
  · obtain ⟨declaration, call, m, hargument, hchosen, _, hparameter, htype⟩ := hextension.elim
    have hpasses := h _ _ declaration call 0 1 m hargument hchosen
    rw [hparameter, htype] at hpasses
    exact absurd hpasses (by decide)
  · obtain ⟨declaration, call, m, hargument, hchosen, _, hparameter, htype⟩ := hmember.elim
    have hpasses := h _ _ declaration call 1 2 m hargument hchosen
    rw [hparameter, htype] at hpasses
    exact absurd hpasses (by decide)

end Typing.Env

end MemberReach
