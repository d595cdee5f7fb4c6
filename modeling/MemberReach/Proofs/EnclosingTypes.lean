import MemberReach.Proofs.MethodTable
import MemberReach.Proofs.RegistryInvariant
import MemberReach.Proofs.TreeOrder

/-!
# Scopes of uses and keys of declarations

A use computes the keys of the types around it from its own scope, and a declaration is recorded
under the key of its own scope. On the way down a tree only declarations change the scope, and below
a type only declarations of types do, so the keys of a use are those of the declarations around it
(`enclosing_types_eq`). In a tree as the parser gives it these declarations are all recorded, hence
every key of a use is registered (`enclosing_types_collected`), wherever its namespaces are written.
-/

namespace MemberReach

open Cursor

/-- A namespace is no type. -/
theorem Kind.not_type_of_namespace {kind : Kind} (h : kind.isNamespace) :
    kind.isTypeDeclaration = false := by
  simp only [isNamespace, Bool.or_eq_true, beq_iff_eq] at h
  rcases h with rfl | rfl <;> rfl

namespace Node

/-- A tree as far as scopes are concerned: its root is a whole file, no namespace is declared inside
a type, and words and marks have no parts. -/
structure Scoped (tree : Node) : Prop where
  root : tree.label.kind = .compilationUnit
  spaces : ∀ c, IsIn tree c → c.kind.isNamespace → ∀ a ∈ c.ancestors,
    a.kind.isTypeDeclaration = false
  tokens : ∀ c, IsIn tree c → c.named = false → c.children = []

instance (tree : Node) : Decidable tree.Scoped :=
  decidable_of_iff (tree.label.kind = .compilationUnit ∧
    (∀ c, IsIn tree c → (c.kind.isNamespace → ∀ a ∈ c.ancestors,
      a.kind.isTypeDeclaration = false) ∧ (c.named = false → c.children.isEmpty)))
    ⟨fun h ↦ ⟨h.1, fun c hc ↦ (h.2 c hc).1, fun c hc hnamed ↦
        List.isEmpty_iff.1 ((h.2 c hc).2 hnamed)⟩,
      fun h ↦ ⟨h.root, fun c hc ↦ ⟨h.spaces c hc, fun hnamed ↦
        List.isEmpty_iff.2 (h.tokens c hc hnamed)⟩⟩⟩

end Node

namespace Scope

/-- One more element gives one more prefix, the longest one. -/
theorem prefixes_concat {α : Type} (l : List α) (x : α) :
    prefixes (l ++ [x]) = (l ++ [x]) :: prefixes l := by
  have htake : ((List.range l.length).map fun n ↦ (l ++ [x]).take (n + 1)) =
      (List.range l.length).map fun n ↦ l.take (n + 1) := by
    refine List.map_congr_left fun n hn ↦ List.take_append_of_le_length ?_
    have := List.mem_range.1 hn
    omega
  rw [prefixes, List.length_append, List.length_singleton, List.range_succ, List.map_append, htake,
    List.reverse_append, prefixes]
  simp [List.take_of_length_le]

/-- A node that is no type declaration, or one without a name, declares no type. -/
theorem declared_type_of_kind {c : Cursor} (h : c.kind.isTypeDeclaration = false) :
    declaredType? c = none :=
  if_neg (by rw [h]; exact Bool.false_ne_true)

/-- What declares a type is a type declaration. -/
theorem kind_of_declared_type {c : Cursor} (h : (declaredType? c).isSome) :
    c.kind.isTypeDeclaration := by
  by_contra hkind
  rw [declared_type_of_kind (Bool.eq_false_iff.2 hkind)] at h
  cases h

/-- The declarations of named types that a node is or stands in, innermost first. -/
def declarationsAround (c : Cursor) : List Cursor :=
  (c :: c.ancestors).filter fun t ↦ (declaredType? t).isSome

/-- Outside of all types a scope has none. -/
theorem types_eq_nil {c : Cursor} (h : declarationsAround c = []) : (of c).types = [] := by
  refine List.filterMap_eq_nil_iff.2 fun t ht ↦ ?_
  have hnone := List.filter_eq_nil_iff.1 h t (List.mem_reverse.1 ht)
  simpa using hnone

/-- The declarations around a child are those around its parent and the child itself. -/
theorem declarations_around_child {c d : Cursor} (h : d ∈ c.children) :
    declarationsAround d =
      if (declaredType? d).isSome then d :: declarationsAround c else declarationsAround c := by
  rw [declarationsAround, ancestors_of_mem_children h, List.filter_cons]
  rfl

/-- The first key of a scope is that of its innermost type. -/
theorem head_enclosing_types (scope : Scope) : scope.enclosingTypes.head? = scope.typeKey? := by
  rcases List.eq_nil_or_concat scope.types with htypes | ⟨types, name, htypes⟩
  · rw [enclosingTypes, typeKey?, htypes]
    rfl
  · rw [enclosingTypes, typeKey?, htypes, List.concat_eq_append, prefixes_concat]
    simp

variable {tree : Node} {c : Cursor}

/-- The keys of a scope are the keys of the scopes of the declarations around the node. -/
theorem enclosing_types_eq (htree : tree.Scoped) (hc : IsIn tree c) :
    (of c).enclosingTypes.map some = (declarationsAround c).map fun t ↦ (of t).typeKey? := by
  have houtside : ∀ {d}, declarationsAround d = [] → (of d).enclosingTypes.map some =
      (declarationsAround d).map fun t ↦ (of t).typeKey? := by
    intro d hd
    rw [enclosingTypes, types_eq_nil hd, hd]
    rfl
  induction hc with
  | root =>
      refine houtside (List.filter_eq_nil_iff.2 fun t ht ↦ ?_)
      have hroot : t = .atRoot tree := by simpa [ancestors, atRoot, along] using ht
      have hkind : t.kind.isTypeDeclaration = false := by
        rw [hroot, kind, atRoot, htree.root]
        rfl
      rw [declared_type_of_kind hkind]
      exact Bool.false_ne_true
  | @child p d hp hd ih =>
      cases hspace : d.kind.isNamespace with
      | true =>
          -- nothing around a namespace is a type
          refine houtside (List.filter_eq_nil_iff.2 fun t ht hsome ↦ ?_)
          have hkind := kind_of_declared_type hsome
          rcases List.mem_cons.1 ht with rfl | ht
          · rw [Kind.not_type_of_namespace hspace] at hkind
            cases hkind
          · rw [htree.spaces d (hp.child hd) hspace t ht] at hkind
            cases hkind
      | false =>
          have hscope := of_child_types hd hspace
          rw [declarations_around_child hd]
          cases hname : declaredType? d with
          | none =>
              rw [hname, Option.toList_none, List.append_nil] at hscope
              rw [hscope]
              exact ih
          | some name =>
              rw [hname, Option.toList_some] at hscope
              rw [Option.isSome_some, if_pos rfl, List.map_cons, ← ih, enclosingTypes, typeKey?,
                hscope, prefixes_concat]
              simp [enclosingTypes]

/-- The declarations around a named node are type declarations that are listed for the unit. -/
theorem declarations_around_listed {unit : SourceUnit} (htree : unit.tree.Scoped)
    (hc : IsIn unit.tree c) (hnamed : c.named) {t : Cursor} (ht : t ∈ declarationsAround c) :
    t ∈ Registry.typeDeclarations unit := by
  obtain ⟨habove, hsome⟩ := List.mem_filter.1 ht
  have hkind := kind_of_declared_type hsome
  have htin : IsIn unit.tree t ∧ t.named := by
    rcases List.mem_cons.1 habove with rfl | habove
    · exact ⟨hc, hnamed⟩
    · -- what stands above a node has parts, so it is no word or mark
      have htin := hc.ancestor habove
      obtain ⟨d, hd, _⟩ := hc.exists_child_above habove
      refine ⟨htin, ?_⟩
      by_contra hword
      rw [htree.tokens t htin (Bool.eq_false_iff.2 hword)] at hd
      cases hd
  refine List.mem_filter.2 ⟨?_, hkind⟩
  refine (htin.1.mem_descendants htree.tokens htin.2).resolve_left ?_
  rintro rfl
  rw [kind, atRoot, htree.root] at hkind
  cases hkind

end Scope

namespace Placements

open Row

/-- Types in namespaces that are nested, one of them with a dotted name. -/
def blocks : String :=
  "namespace A.B \x7b namespace C \x7b class D \x7b class E \x7b \x7d \x7d \x7d \x7d"

/-- Types in a file whose namespace is written once. -/
def beside : String :=
  "namespace A.B; class F \x7b class G \x7b \x7d \x7d"

/-- A type in another such file. -/
def around : String :=
  "namespace A.B; class H \x7b \x7d"

/-- The nodes of the third file for a grammar that puts the declarations below the namespace, while
`beside` is read with the namespace beside them. -/
def rows : List Row :=
  [node 0 .compilationUnit 0 26, node 1 .fileScopedNamespaceDeclaration 0 26,
    token 2 "namespace" 0 9, part 2 (.other "qualified_name") .name 10 3,
    part 3 .identifier (.other "qualifier") 10 1, token 3 "." 11 1, part 3 .identifier .name 12 1,
    token 2 ";" 13 1, node 2 .classDeclaration 15 11, token 3 "class" 15 5,
    part 3 .identifier .name 21 1, part 3 .declarationList .body 23 3, token 4 "\x7b" 23 1,
    token 4 "\x7d" 25 1]

/-- A project of the three files. -/
def units : List SourceUnit :=
  [.create ⟨"A.cs"⟩ none blocks (Node.ofSource blocks),
    .create ⟨"B.cs"⟩ none beside (Node.ofSource beside),
    .create ⟨"C.cs"⟩ none around ((Node.ofRows? around rows).getD default)]

end Placements

namespace Registry

/-- The keys of the types around a named node are the keys under which the declarations of named
types around it are recorded, innermost first. They are all registered, and the first of them is the
key of the scope. -/
theorem enclosing_types_collected {units : List SourceUnit}
    (htrees : ∀ unit ∈ units, unit.tree.Scoped) {unit : SourceUnit} (hunit : unit ∈ units)
    {c : Cursor} (hc : IsIn unit.tree c) (hnamed : c.named) :
    (Scope.of c).enclosingTypes.map some =
        ((Scope.declarationsAround c).map fun t ↦ (Scope.of t).typeKey?) ∧
      (∀ t ∈ Scope.declarationsAround c, t ∈ typeDeclarations unit) ∧
      (∀ key ∈ (Scope.of c).enclosingTypes, (build units).isDeclared key) ∧
      (Scope.of c).enclosingTypes.head? = (Scope.of c).typeKey? := by
  have hkeys := Scope.enclosing_types_eq (htrees unit hunit) hc
  have hlisted : ∀ t ∈ Scope.declarationsAround c, t ∈ typeDeclarations unit :=
    fun t ↦ Scope.declarations_around_listed (htrees unit hunit) hc hnamed
  refine ⟨hkeys, hlisted, fun key hkey ↦ ?_, Scope.head_enclosing_types _⟩
  have hkey : some key ∈ (Scope.of c).enclosingTypes.map some := List.mem_map_of_mem hkey
  rw [hkeys] at hkey
  obtain ⟨t, ht, hkey⟩ := List.mem_map.1 hkey
  exact is_declared_build_iff.2 ⟨unit, hunit, t, hlisted t ht, hkey⟩

/-- Nodes in nested and dotted namespaces, beside the namespace of a file and below it. -/
theorem enclosing_types_collected_placements :
    (∀ unit ∈ Placements.units, unit.tree.Scoped) ∧
      ∀ keys ∈ ([[⟨"A.B.C.D.E"⟩, ⟨"A.B.C.D"⟩], [⟨"A.B.F.G"⟩, ⟨"A.B.F"⟩], [⟨"A.B.H"⟩]] :
          List (List TypeKey)),
        ∃ unit ∈ Placements.units, ∃ c, IsIn unit.tree c ∧ c.named ∧
          (Scope.of c).enclosingTypes = keys ∧ (Scope.of c).typeKey? = keys.head? ∧
            ∀ key ∈ keys, (build Placements.units).isDeclared key := by
  have hfacts : (∀ unit ∈ Placements.units, unit.tree.Scoped) ∧
      ∀ keys ∈ ([[⟨"A.B.C.D.E"⟩, ⟨"A.B.C.D"⟩], [⟨"A.B.F.G"⟩, ⟨"A.B.F"⟩], [⟨"A.B.H"⟩]] :
          List (List TypeKey)),
        ∃ unit ∈ Placements.units, ∃ c ∈ reach [] unit.tree, c.named ∧
          (Scope.of c).enclosingTypes = keys := by decide +kernel
  obtain ⟨htrees, hnodes⟩ := hfacts
  refine ⟨htrees, fun keys hkeys ↦ ?_⟩
  obtain ⟨unit, hunit, c, hc, hnamed, rfl⟩ := hnodes keys hkeys
  have hc := is_in_iff_mem_reach.2 hc
  obtain ⟨_, _, hdeclared, hfirst⟩ := enclosing_types_collected htrees hunit hc hnamed
  exact ⟨unit, hunit, c, hc, hnamed, rfl, hfirst.symm, hdeclared⟩

end Registry

end MemberReach
