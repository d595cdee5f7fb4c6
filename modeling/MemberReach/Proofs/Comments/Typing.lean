import MemberReach.Typing
import MemberReach.Proofs.Comments.Registries

/-!
# Types and symbols in a pruned tree

Typing an expression asks the registry, the bindings of names and other expressions. In the pruned
tree the answers of the first two are the same (`Env.Agrees` and `Binding.find_prune`), and so, by
induction on the depth that is left, are the types (`types_prune`) and the symbols that nodes denote
(`resolve_prune`).
-/

namespace MemberReach.Typing

open Cursor

namespace Env

/-- The same place in two registries that are the same up to base types as written. -/
structure Agrees (env' env : Env) : Prop where
  context : env'.context = env.context
  registry : env'.registry.strip (fun _ ↦ true) = env.registry.strip fun _ ↦ true

namespace Agrees

variable {env' env : Env} (h : Agrees env' env)

include h

/-- A question that does not look at base types as written has the same answer. -/
theorem ask {α : Type} (question : Registry → α)
    (hquestion : ∀ r : Registry, question (r.strip fun _ ↦ true) = question r) :
    question env'.registry = question env.registry := by
  rw [← hquestion env'.registry, h.registry, hquestion]

theorem scope : env'.scope = env.scope :=
  congrArg LookupContext.scope h.context

theorem resolve_type : env'.resolveType? = env.resolveType? := by
  funext descriptor
  rw [resolveType?, h.ask Registry.resolveType? Registry.resolve_type_strip, h.context,
    resolveType?]

theorem find_methods : env'.registry.findMethods = env.registry.findMethods :=
  h.ask Registry.findMethods Registry.find_methods_strip

theorem find_property : env'.registry.findProperty? = env.registry.findProperty? :=
  h.ask Registry.findProperty? Registry.find_property_strip

theorem find_field : env'.registry.findField? = env.registry.findField? :=
  h.ask Registry.findField? Registry.find_field_strip

theorem method : env'.registry.method? = env.registry.method? :=
  h.ask Registry.method? fun _ ↦ rfl

theorem parameter_type : env'.registry.parameterType? = env.registry.parameterType? :=
  h.ask Registry.parameterType? Registry.parameter_type_strip

/-- The same overload is picked. -/
theorem pick_overload : env'.pickOverload? = env.pickOverload? := by
  funext key name arguments
  rw [pickOverload?, h.find_methods, pickOverload?]

/-- The same extension methods apply. -/
theorem applies (receiver : Option TypeKey) : env'.applies receiver = env.applies receiver := by
  funext m
  have hchain : ∀ key target : TypeKey,
      ((env'.registry.typeChain key).any fun t ↦ t.key == target) =
        (env.registry.typeChain key).any fun t ↦ t.key == target := by
    intro key target
    exact h.ask (fun r ↦ (r.typeChain key).any fun t ↦ t.key == target) fun r ↦
      Registry.any_type_chain_strip r key fun k ↦ k == target
  unfold Env.applies
  simp only [hchain]

/-- The same extension method is picked. -/
theorem pick_extension : env'.pickExtension? = env.pickExtension? := by
  funext receiver name arguments
  rw [pickExtension?, h.applies, h.ask Registry.findExtensions fun _ ↦ rfl, pickExtension?]

/-- A member of the enclosing types has the same type. -/
theorem member_type : env'.memberType? = env.memberType? := by
  funext name
  rw [memberType?, h.scope, h.find_property, h.find_field, memberType?]

/-- A member of a type has the same descriptor. -/
theorem member_descriptor : env'.memberDescriptor? = env.memberDescriptor? := by
  funext key name
  rw [memberDescriptor?, h.find_property, h.find_field, memberDescriptor?]

/-- A member of a receiver has the same type. -/
theorem member_type_on : env'.memberTypeOn? = env.memberTypeOn? := by
  funext receiver name
  rw [memberTypeOn?, h.find_property, h.find_field,
    h.ask Registry.isDeclared Registry.is_declared_strip, memberTypeOn?]

/-- The base type of the current object is the same. -/
theorem base_type : env'.baseType? = env.baseType? := by
  have hbase : ∀ key : TypeKey, ((env'.registry.type? key).bind fun t ↦ t.bases.head?) =
      (env.registry.type? key).bind fun t ↦ t.bases.head? := by
    intro key
    refine h.ask (fun r ↦ (r.type? key).bind fun t ↦ t.bases.head?) fun r ↦ ?_
    rw [Registry.type_strip]
    cases r.type? key <;> rfl
  unfold baseType?
  rw [h.scope]
  cases env.scope.typeKey? with
  | none => rfl
  | some key => exact hbase key

end Agrees

/-! ### Symbols, given how receivers are typed -/

/-- Name and receiver of a member access are found at their places. -/
theorem access_prune {drop : List Nat → Bool} (c : Cursor) :
    access? (c.prune drop) = (access? c).map (Prod.map id (prune drop)) := by
  unfold access?
  rw [child_prune, child_prune]
  cases c.child? .name with
  | none => rfl
  | some name =>
      simp only [Option.map_some, Option.bind_eq_bind, Option.bind_some, Cursor.simple_name_prune]
      cases name.simpleName? with
      | none => rfl
      | some text => cases c.child? .expression <;> rfl

/-- The receiver of a member access is a node of the tree that is left. -/
theorem access_kept {drop : List Nat → Bool} {tree : Node} {c receiver : Cursor}
    (hc : IsIn tree c) {name : String} (h : access? c = some (name, receiver)) :
    IsIn tree receiver ∧ receiver.isPruned drop = false := by
  simp only [access?, Option.bind_eq_bind, Option.bind_eq_some_iff, Option.pure_def,
    Option.some.injEq, Prod.mk.injEq] at h
  obtain ⟨_, _, _, _, expression, hexpression, _, rfl⟩ := h
  exact ⟨hc.child (mem_children_of_child hexpression), not_pruned_of_child hexpression⟩

section Symbols

variable {drop : List Nat → Bool} {tree : Node} (htree : Transparent drop tree)
  {env' env : Env} (henv : Agrees env' env) {typeOf' typeOf : Cursor → Option TypeKey}
  (htype : ∀ d, IsIn tree d → d.isPruned drop = false → typeOf' (d.prune drop) = typeOf d)
  {c : Cursor} (hc : IsIn tree c) (hkept : c.isPruned drop = false)

include henv hc hkept

/-- The symbol that a member access denotes stays. -/
theorem access_symbol_prune (receiver : Option TypeKey) (name : String) :
    env'.accessSymbol? receiver name (c.prune drop) = env.accessSymbol? receiver name c := by
  unfold accessSymbol?
  rw [call_prune hc hkept, henv.pick_overload, henv.pick_extension, henv.find_property,
    henv.find_methods]
  cases c.call? with
  | none => rfl
  | some call => simp only [Option.map_some, argument_count_prune]

include htype in
/-- The symbol that a member access denotes stays if its receiver is typed alike. -/
theorem member_access_prune :
    env'.memberAccess? typeOf' (c.prune drop) = env.memberAccess? typeOf c := by
  unfold memberAccess?
  rw [access_prune]
  cases haccess : access? c with
  | none => rfl
  | some pair =>
      obtain ⟨name, receiver⟩ := pair
      obtain ⟨hin, hreceiver⟩ : IsIn tree receiver ∧ receiver.isPruned drop = false :=
        access_kept hc haccess
      simp only [Option.map_some, Prod.map, id_eq, Option.bind_eq_bind, Option.bind_some]
      rw [htype receiver hin hreceiver, access_symbol_prune henv hc hkept]

include htree in
/-- The symbol that a simple name denotes stays. -/
theorem simple_name_symbol_prune : env'.simpleName? (c.prune drop) = env.simpleName? c := by
  unfold Env.simpleName?
  rw [Cursor.simple_name_prune, call_prune hc hkept, henv.scope, henv.pick_overload,
    henv.find_property]
  cases c.simpleName? with
  | none => rfl
  | some name =>
      cases env.scope.typeKey? with
      | none => rfl
      | some key =>
          cases c.call? with
          | none =>
              simp only [Option.map_none, Option.bind_eq_bind, Option.bind_some,
                Binding.find_prune htree hc, Option.isSome_map]
          | some call =>
              simp only [Option.map_some, Option.bind_eq_bind, Option.bind_some,
                argument_count_prune]

include htree htype in
/-- The symbol that a node denotes stays if receivers are typed alike. -/
theorem symbol_prune : env'.symbol? typeOf' (c.prune drop) = env.symbol? typeOf c := by
  unfold Env.symbol?
  rw [kind_prune, member_access_prune henv htype hc hkept,
    simple_name_symbol_prune htree henv hc hkept]

omit hkept in
include htree htype in
/-- The method that a call invokes stays if receivers are typed alike. -/
theorem callee_prune : env'.callee? typeOf' (c.prune drop) = env.callee? typeOf c := by
  unfold callee?
  rw [child_prune]
  cases hfunction : c.child? .function with
  | none => rfl
  | some function =>
      simp only [Option.map_some, Option.bind_eq_bind, Option.bind_some]
      rw [symbol_prune htree henv htype (hc.child (mem_children_of_child hfunction))
        (not_pruned_of_child hfunction)]

omit henv hc hkept in
/-- An argument has the same position in its list. -/
theorem find_idx_argument_prune {list argument : Cursor} (hmem : argument ∈ list.children)
    (hkind : argument.kind = .argument) :
    (list.prune drop).argumentNodes.findIdx? (fun other ↦ other.sameNode (argument.prune drop)) =
      list.argumentNodes.findIdx? fun other ↦ other.sameNode argument := by
  have hsame : ∀ other ∈ list.argumentNodes,
      (other.prune drop).sameNode (argument.prune drop) = other.sameNode argument := by
    intro other hother
    obtain ⟨hchild, hotherKind⟩ := List.mem_filter.1 hother
    exact same_node_prune (mem_children_of_named hchild) hmem
      (not_pruned_of_kind (by rw [eq_of_beq hotherKind]; decide))
      (not_pruned_of_kind (by rw [hkind]; decide))
  rw [argument_nodes_prune]
  generalize list.argumentNodes = nodes at hsame
  induction nodes with
  | nil => rfl
  | cons other rest ih =>
      rw [List.map_cons, List.findIdx?_cons, List.findIdx?_cons, hsame other List.mem_cons_self,
        ih fun d hd ↦ hsame d (List.mem_cons_of_mem other hd)]

omit hkept in
include htree htype in
/-- The declared type of an output argument stays if receivers are typed alike. -/
theorem out_argument_type_prune :
    env'.outArgumentType? typeOf' (c.prune drop) = env.outArgumentType? typeOf c := by
  -- from the declaration up to the argument, its list and the call
  unfold outArgumentType?
  rw [parent_prune, henv.method, henv.parameter_type]
  cases hargument : c.parent? with
  | none => rfl
  | some argument =>
      rw [Option.map_some, Option.filter_some, Option.filter_some, kind_prune]
      by_cases hkind : (argument.kind == .argument) = true
      · rw [if_pos hkind, if_pos hkind]
        simp only [Option.bind_eq_bind, Option.bind_some]
        rw [parent_prune]
        cases hlist : argument.parent? with
        | none => rfl
        | some list =>
            have hin := (hc.parent hargument).1
            obtain ⟨hlistIn, hmem⟩ := hin.parent hlist
            simp only [Option.map_some, Option.bind_some]
            rw [parent_prune, find_idx_argument_prune hmem (eq_of_beq hkind),
              argument_nodes_prune, List.length_map]
            cases hcall : list.parent? with
            | none => rfl
            | some call =>
                rw [Option.map_some, Option.filter_some, Option.filter_some, kind_prune]
                split
                · simp only [Option.bind_some]
                  rw [callee_prune htree henv htype (hlistIn.parent hcall).1]
                · rfl
      · rw [if_neg hkind, if_neg hkind]
        rfl

omit hc hkept in
/-- The type that a node spells out stays. -/
theorem spelled_type_prune (c : Cursor) :
    env'.spelledType? (c.prune drop) = env.spelledType? c := by
  rw [spelledType?, child_prune, henv.resolve_type, spelledType?]
  cases c.child? .type with
  | none => rfl
  | some type => rw [Option.map_some, Option.bind_some, Option.bind_some, text_prune]

end Symbols

end Env

/-! ### Types of expressions -/

variable {drop : List Nat → Bool} {tree : Node} (htree : Transparent drop tree)
  {env' env : Env} (henv : env'.Agrees env)

/-- Expressions of a tree have the same types and descriptors in the pruned tree, at a depth. -/
def AlikeAt (drop : List Nat → Bool) (tree : Node) (env' env : Env) (limit depth : Nat) : Prop :=
  ∀ c, IsIn tree c → c.isPruned drop = false →
    typeOf? env' limit depth (c.prune drop) = typeOf? env limit depth c ∧
      descriptorOf? env' limit depth (c.prune drop) = descriptorOf? env limit depth c

include htree henv

/-- The type of an expression stays if types and descriptors stay at greater depths. -/
theorem type_of_step {limit depth : Nat} (hdepth : ¬ limit < depth)
    (ih : ∀ further, depth < further → AlikeAt drop tree env' env limit further) {c : Cursor}
    (hc : IsIn tree c) :
    typeOf? env' limit depth (c.prune drop) = typeOf? env limit depth c := by
  have htypes : ∀ further, depth < further → ∀ d, IsIn tree d → d.isPruned drop = false →
      typeOf? env' limit further (d.prune drop) = typeOf? env limit further d :=
    fun further hfurther d hd hkept ↦ (ih further hfurther d hd hkept).1
  rw [typeOf?, dif_neg hdepth, typeOf?, dif_neg hdepth, kind_prune, text_prune]
  split
  · rename_i hkind
    rw [htree.parenthesized hc hkind]
    cases hinner : c.namedChild? 0 with
    | none => rfl
    | some inner =>
        exact htypes (depth + 1) (by omega) inner
          (hc.child (mem_children_of_named (List.mem_of_getElem? hinner)))
          (htree.parenthesized_kept hc hkind hinner)
  · -- a creation or a cast
    exact Env.spelled_type_prune henv c
  · exact Env.spelled_type_prune henv c
  · -- a name: what it is bound to, or a member or a type
    rw [Binding.find_prune htree hc, henv.resolve_type, henv.member_type]
    cases hfind : Binding.find? c c.text with
    | none => rfl
    | some binding =>
        have hbinding := Binding.find_kept htree hc hfind
        cases binding with
        | declared descriptor => rfl
        | initialized value =>
            obtain ⟨hin, hkept⟩ := hbinding value rfl
            exact htypes (depth + 1) (by omega) value hin hkept
        | element collection =>
            obtain ⟨hin, hkept⟩ := hbinding collection rfl
            exact congrArg (fun found ↦ (found.bind Descriptor.elementType?).bind env.resolveType?)
              (ih (depth + 1) (by omega) collection hin hkept).2
        | outArgument declaration =>
            obtain ⟨hin, _⟩ := hbinding declaration rfl
            exact Env.out_argument_type_prune htree henv (htypes (depth + 3) (by omega)) hin
  · -- a generic, qualified or alias-qualified name
    rw [henv.resolve_type]
  · rw [henv.resolve_type]
  · rw [henv.resolve_type]
  · rw [Env.access_prune, henv.resolve_type, henv.member_type_on]
    cases haccess : Env.access? c with
    | none => rfl
    | some pair =>
        obtain ⟨name, receiver⟩ := pair
        obtain ⟨hin, hkept⟩ : IsIn tree receiver ∧ receiver.isPruned drop = false :=
          Env.access_kept hc haccess
        simp only [Option.map_some, Prod.map, id_eq, Option.bind_some]
        rw [htypes (depth + 1) (by omega) receiver hin hkept]
  · rw [Env.callee_prune htree henv (htypes (depth + 2) (by omega)) hc, henv.method]
  · -- the current object, and after that as its base type
    rw [henv.scope, henv.base_type]

/-- The descriptor of an expression stays if types and descriptors stay at greater depths. -/
theorem descriptor_of_step {limit depth : Nat} (hdepth : ¬ limit < depth)
    (ih : ∀ further, depth < further → AlikeAt drop tree env' env limit further) {c : Cursor}
    (hc : IsIn tree c) :
    descriptorOf? env' limit depth (c.prune drop) = descriptorOf? env limit depth c := by
  rw [descriptorOf?, dif_neg hdepth, descriptorOf?, dif_neg hdepth, kind_prune, text_prune]
  split
  · rename_i hkind
    rw [htree.parenthesized hc hkind]
    cases hinner : c.namedChild? 0 with
    | none => rfl
    | some inner =>
        exact (ih (depth + 1) (by omega) inner
          (hc.child (mem_children_of_named (List.mem_of_getElem? hinner)))
          (htree.parenthesized_kept hc hkind hinner)).2
  · -- a creation of an object or an array, or a cast
    rw [child_prune, map_descriptor_prune]
  · rw [child_prune, map_descriptor_prune]
  · rw [child_prune, map_descriptor_prune]
  · rw [Binding.find_prune htree hc, henv.scope, henv.member_descriptor]
    cases hfind : Binding.find? c c.text with
    | none => rfl
    | some binding =>
        have hbinding := Binding.find_kept htree hc hfind
        cases binding with
        | declared descriptor => rfl
        | initialized value =>
            obtain ⟨hin, hkept⟩ := hbinding value rfl
            exact (ih (depth + 1) (by omega) value hin hkept).2
        | element collection => rfl
        | outArgument declaration => rfl
  · rw [Env.access_prune, henv.member_descriptor]
    cases haccess : Env.access? c with
    | none => rfl
    | some pair =>
        obtain ⟨name, receiver⟩ := pair
        obtain ⟨hin, hkept⟩ : IsIn tree receiver ∧ receiver.isPruned drop = false :=
          Env.access_kept hc haccess
        simp only [Option.map_some, Prod.map, id_eq, Option.bind_some]
        rw [(ih (depth + 1) (by omega) receiver hin hkept).1]
  · rw [Env.callee_prune htree henv
      (fun d hd hkept ↦ (ih (depth + 2) (by omega) d hd hkept).1) hc]
  · rfl

/-- Expressions of a tree have the same types and descriptors in the pruned tree. -/
theorem types_prune (limit depth : Nat) : AlikeAt drop tree env' env limit depth := by
  -- on the depth that is left, as the two functions call each other at greater depths only
  induction hleft : limit + 1 - depth using Nat.strongRecOn generalizing depth with
  | _ left ih =>
      intro c hc _
      by_cases hdepth : limit < depth
      · rw [typeOf?, dif_pos hdepth, typeOf?, dif_pos hdepth, descriptorOf?, dif_pos hdepth,
          descriptorOf?, dif_pos hdepth]
        exact ⟨rfl, rfl⟩
      · have hfurther : ∀ further, depth < further →
            AlikeAt drop tree env' env limit further :=
          fun further hlt ↦ ih (limit + 1 - further) (by omega) further rfl
        exact ⟨type_of_step htree henv hdepth hfurther hc,
          descriptor_of_step htree henv hdepth hfurther hc⟩

omit henv in
/-- The symbol that a node denotes is the same in the pruned tree, if the registries are the same
up to base types as written. -/
theorem resolve_prune {r' r : Registry} (hr : r'.strip (fun _ ↦ true) = r.strip fun _ ↦ true)
    (limit unitId : Nat) {c : Cursor} (hc : IsIn tree c) (hkept : c.isPruned drop = false) :
    resolve? r' limit unitId (c.prune drop) = resolve? r limit unitId c := by
  unfold resolve?
  rw [Scope.of_prune]
  have henv : Env.Agrees ⟨r', ⟨unitId, Scope.of c⟩⟩ ⟨r, ⟨unitId, Scope.of c⟩⟩ := ⟨rfl, hr⟩
  exact Env.symbol_prune htree henv
    (fun d hd hdkept ↦ (types_prune htree henv limit 1 d hd hdkept).1) hc hkept

end MemberReach.Typing
