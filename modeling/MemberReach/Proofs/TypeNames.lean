import Mathlib.Data.List.Infix
import MemberReach.Proofs.Descriptors
import MemberReach.Proofs.EnclosingTypes

/-!
# Simple type names

A simple name may stand for a type below any prefix of the path of namespaces and types around it.
The candidates are these keys, longest prefix first (`candidates_eq`), and they all differ, because
a longer prefix makes a longer key (`candidates_nodup`). So a simple name denotes the declared type
with the longest prefix, and only without one a type below an imported namespace
(`resolve_innermost`). For the declarations of a project this means that a type finds itself and the
types declared directly in its body (`simple_names_innermost`).
-/

namespace MemberReach

open Text

namespace Text

/-- Texts before a last one are joined to it with the separator after each of them. -/
theorem join_concat (parts : List String) (last : String) :
    (join "." (parts ++ [last])).toList =
      (parts.flatMap fun part ↦ part.toList ++ ['.']) ++ last.toList := by
  rw [join, String.toList_ofList]
  induction parts with
  | nil => exact List.intercalate_singleton
  | cons part parts ih =>
      rw [List.cons_append, List.map_cons, List.intercalate_cons_of_ne_nil (by simp), ih,
        List.flatMap_cons]
      simp

end Text

namespace TypeKey

/-- The last segment of a key is the name at its end, if that has no dot. -/
theorem simple_name_of_parts {parts : List String} {name : String} (h : '.' ∉ name.toList) :
    (ofParts parts [name]).simpleName = name := by
  have hlast : (pieces '.' (ofParts parts [name]).path).getLast? = some name := by
    rw [pieces, ofParts, join_concat]
    induction parts with
    | nil => rw [List.flatMap_nil, List.nil_append, List.splitOn_eq_singleton h]; simp
    | cons part parts ih =>
        rw [List.flatMap_cons, List.append_assoc, List.append_assoc, List.singleton_append,
          List.splitOn_append_cons_self, List.map_append, List.getLast?_append, ih]
        rfl
  rw [simpleName, hlast, Option.getD_some]

/-- A key below a path is the path, a dot and the name. -/
theorem nested_of_parts {parts : List String} (h : parts ≠ []) (name : String) :
    nested (join "." parts) name = ofParts parts [name] := by
  have hpath : join "." parts ++ "." ++ name = join "." (parts ++ [name]) := by
    obtain ⟨front, last, rfl⟩ := (List.eq_nil_or_concat parts).resolve_left h
    refine String.toList_injective ?_
    rw [List.concat_eq_append, join_concat, String.toList_append, String.toList_append,
      join_concat, List.flatMap_append]
    simp
  rw [nested, hpath, ofParts]

/-- A longer prefix of a path gives a longer key. -/
theorem of_parts_inj {p q : List String} {name : String} (hpq : p <+: q)
    (h : ofParts p [name] = ofParts q [name]) : p = q := by
  obtain ⟨rest, rfl⟩ := hpq
  have hlength := congrArg (fun key : TypeKey ↦ key.path.toList.length) h
  simp only [ofParts, join_concat, List.flatMap_append, List.length_append] at hlength
  cases rest with
  | nil => rw [List.append_nil]
  | cons part rest =>
      simp only [List.flatMap_cons, List.length_append, List.length_singleton] at hlength
      omega

end TypeKey

namespace Scope

/-- All namespaces and types of a scope, outermost first. -/
def path (scope : Scope) : List String :=
  scope.spaces ++ scope.types

/-- Of the prefixes of a longer list, the list itself is the longest. -/
theorem inits_concat {α : Type} (l : List α) (x : α) :
    (l ++ [x]).inits.reverse = (l ++ [x]) :: l.inits.reverse := by
  rw [List.inits_append]
  simp

/-- The nonempty prefixes and the empty one are all prefixes. -/
theorem prefixes_eq_inits {α : Type} (l : List α) : prefixes l ++ [[]] = l.inits.reverse := by
  induction l using List.reverseRecOn with
  | nil => rfl
  | append_singleton l x ih => rw [prefixes_concat, inits_concat, List.cons_append, ih]

/-- The candidates are the keys of the name below all prefixes of the path, longest first. -/
theorem candidates_eq (scope : Scope) (name : String) :
    scope.candidates name = scope.path.inits.reverse.map fun p ↦ .ofParts p [name] := by
  obtain ⟨spaces, types⟩ := scope
  simp only [candidates, path]
  -- the types are taken off from the inside, until only namespaces are left
  induction types using List.reverseRecOn with
  | nil => rw [List.append_nil, prefixes_eq_inits]; rfl
  | append_singleton types type ih =>
      rw [prefixes_concat, List.map_cons, List.cons_append, ih, ← List.append_assoc, inits_concat,
        List.map_cons]
      simp [TypeKey.ofParts]

/-- No two candidates are equal. -/
theorem candidates_nodup (scope : Scope) (name : String) : (scope.candidates name).Nodup := by
  rw [candidates_eq]
  induction scope.path using List.reverseRecOn with
  | nil => exact List.nodup_singleton _
  | append_singleton l x ih =>
      rw [inits_concat, List.map_cons, List.nodup_cons]
      refine ⟨fun hmem ↦ ?_, ih⟩
      obtain ⟨p, hp, hkey⟩ := List.mem_map.1 hmem
      have hshort : p <+: l := (List.mem_inits p l).1 (List.mem_reverse.1 hp)
      have heq := TypeKey.of_parts_inj (hshort.trans (List.prefix_append l [x])) hkey
      have hlength := hshort.length_le
      rw [heq, List.length_append, List.length_singleton] at hlength
      omega

/-- The key of a scope is its path, which is not empty. -/
theorem path_of_type_key {scope : Scope} {key : TypeKey} (h : scope.typeKey? = some key) :
    scope.path ≠ [] ∧ key = ⟨join "." scope.path⟩ := by
  rw [typeKey?] at h
  split at h
  next => cases h
  next htypes =>
    have htypes : scope.types ≠ [] := by simpa using htypes
    exact ⟨List.append_ne_nil_of_right_ne_nil _ htypes, (Option.some.inj h).symm⟩

/-- The path of a scope ends with its innermost type. -/
theorem path_of_last {scope : Scope} {name : String} (h : scope.types.getLast? = some name) :
    ∃ outer, scope.path = outer ++ [name] := by
  obtain ⟨types, htypes⟩ := List.getLast?_eq_some_iff.1 h
  exact ⟨scope.spaces ++ types, by rw [path, htypes, List.append_assoc]⟩

end Scope

namespace Registry

open Cursor

/-- What a simple name denotes in a context: the declared type with the longest prefix of the path,
or, without one, the first declared type below an imported namespace. -/
structure Innermost (r : Registry) (context : LookupContext) (name : String)
    (answer : Option TypeKey) : Prop where
  longest : ∀ p, p <+: context.scope.path → r.isDeclared (.ofParts p [name]) →
    (∀ q, q <+: context.scope.path → p.length < q.length →
      r.isDeclared (.ofParts q [name]) = false) → answer = some (.ofParts p [name])
  imported : (∀ p, p <+: context.scope.path → r.isDeclared (.ofParts p [name]) = false) →
    answer = ((r.importsOf context.unit).map fun space ↦ .nested space name).find? r.isDeclared

/-- The first key of all prefixes that is declared is the one with the longest prefix. -/
theorem find_inits {path p : List String} {key : List String → TypeKey} {keep : TypeKey → Bool}
    (hp : p <+: path) (hkeep : keep (key p))
    (hlonger : ∀ q, q <+: path → p.length < q.length → keep (key q) = false) :
    (path.inits.reverse.map key).find? keep = some (key p) := by
  induction path using List.reverseRecOn with
  | nil =>
      obtain rfl := List.prefix_nil.1 hp
      exact List.find?_cons_of_pos hkeep
  | append_singleton l x ih =>
      rw [Scope.inits_concat, List.map_cons]
      rcases List.prefix_concat_iff.1 hp with rfl | hp
      · exact List.find?_cons_of_pos hkeep
      · have hlength := hp.length_le
        have hlast := hlonger (l ++ [x]) List.prefix_rfl (by simp; omega)
        rw [List.find?_cons_of_neg (by rw [hlast]; exact Bool.false_ne_true)]
        exact ih hp fun q hq ↦ hlonger q (hq.trans (List.prefix_append l [x]))

/-- A simple name denotes the declared type with the longest prefix. -/
theorem resolve_innermost (r : Registry) (context : LookupContext) {name : String}
    (hname : Descriptor.isTypeName name) :
    Innermost r context name (r.resolveType? name context) := by
  have hdot : name.toList.contains '.' = false := by
    simpa using Descriptor.not_mem_of_mark hname (c := '.') rfl
  have hfound : r.resolveType? name context =
      ((context.scope.path.inits.reverse.map fun p ↦ .ofParts p [name]).find? r.isDeclared).or
        (((r.importsOf context.unit).map fun space ↦ .nested space name).find? r.isDeclared) := by
    rw [resolveType?, Descriptor.lookup_name_of_type_name hname, Option.bind_eq_bind,
      Option.bind_some, candidates, hdot, if_neg Bool.false_ne_true, Scope.candidates_eq,
      List.find?_append]
  constructor
  · intro p hp hdeclared hlonger
    rw [hfound, find_inits hp hdeclared hlonger, Option.some_or]
  · intro hnone
    have hall : (context.scope.path.inits.reverse.map fun p ↦ TypeKey.ofParts p [name]).find?
        r.isDeclared = none := by
      refine List.find?_eq_none.2 fun key hkey ↦ ?_
      obtain ⟨p, hp, rfl⟩ := List.mem_map.1 hkey
      rw [hnone p ((List.mem_inits p _).1 (List.mem_reverse.1 hp))]
      exact Bool.false_ne_true
    rw [hfound, hall, Option.none_or]

/-- In the scope of a type, a name denotes the type of that name below it, if there is one. -/
theorem resolve_below_type {r : Registry} {context : LookupContext} {key : TypeKey}
    (hkey : context.scope.typeKey? = some key) {name : String} (hname : Descriptor.isTypeName name)
    (hdeclared : r.isDeclared (.nested key.path name)) :
    r.resolveType? name context = some (.nested key.path name) := by
  obtain ⟨hpath, rfl⟩ := Scope.path_of_type_key hkey
  rw [TypeKey.nested_of_parts hpath] at hdeclared ⊢
  have hinner := resolve_innermost r context hname
  refine hinner.longest _ List.prefix_rfl hdeclared fun q hq hlonger ↦ ?_
  exact absurd hq.length_le (Nat.not_le_of_lt hlonger)

/-- In the scope of a type, its own name denotes it, if there is no type of that name below it. -/
theorem resolve_own_name {r : Registry} {context : LookupContext} {key : TypeKey}
    (hkey : context.scope.typeKey? = some key) (hdeclared : r.isDeclared key) {name : String}
    (hname : Descriptor.isTypeName name) (hlast : context.scope.types.getLast? = some name)
    (hnested : r.isDeclared (.nested key.path name) = false) :
    r.resolveType? name context = some key := by
  obtain ⟨hpath, rfl⟩ := Scope.path_of_type_key hkey
  rw [TypeKey.nested_of_parts hpath] at hnested
  obtain ⟨outer, hsplit⟩ := Scope.path_of_last hlast
  have hself : TypeKey.mk (join "." context.scope.path) = .ofParts outer [name] := by
    rw [hsplit, TypeKey.ofParts]
  rw [hself] at hdeclared ⊢
  have houter : outer <+: context.scope.path := hsplit ▸ List.prefix_append outer [name]
  have hinner := resolve_innermost r context hname
  refine hinner.longest outer houter hdeclared fun q hq hlonger ↦ ?_
  -- only the whole path is longer, and no type of the name is declared below it
  rw [hsplit] at hq
  rcases List.prefix_concat_iff.1 hq with rfl | hq
  · rw [← hsplit, hnested]
  · exact absurd hq.length_le (Nat.not_le_of_lt hlonger)

/-- A type in the body of a declaration is listed with the declaration. -/
theorem member_type_listed {unit : SourceUnit} {t u : Cursor} (ht : t ∈ typeDeclarations unit)
    (hu : u ∈ members t) (hnamed : ∀ body ∈ bodyOf? t, body.named)
    (hkind : u.kind.isTypeDeclaration) : u ∈ typeDeclarations unit := by
  obtain ⟨body, hbody, hu⟩ := mem_members.1 hu
  have ht := (List.mem_filter.1 ht).1
  rw [descendants_eq_below] at ht
  have hlisted : body ∈ t.namedChildren :=
    List.mem_filter.2 ⟨body_mem_children hbody, hnamed body hbody⟩
  refine List.mem_filter.2 ⟨?_, hkind⟩
  rw [descendants_eq_below]
  exact mem_below_of_child (mem_below_of_child ht hlisted) hu

/-- The scope of a type in a body is that of the declaration and the type itself. -/
theorem scope_of_member_type {t u : Cursor} {name : String} (hu : u ∈ members t)
    (hplain : ∀ body ∈ bodyOf? t, body.kind.opensScope = false)
    (hname : Scope.declaredType? u = some name) :
    Scope.of u = { Scope.of t with types := (Scope.of t).types ++ [name] } := by
  obtain ⟨body, hbody, hu⟩ := mem_members.1 hu
  have hkind : u.kind.isTypeDeclaration := Scope.kind_of_declared_type (hname ▸ rfl)
  have hspace : u.kind.isNamespace = false := by
    by_contra hspace
    rw [Kind.not_type_of_namespace (Bool.not_eq_false _ ▸ hspace)] at hkind
    cases hkind
  rw [Scope.of_child_types (mem_children_of_named hu) hspace, hname,
    Scope.of_child (body_mem_children hbody) (hplain body hbody), Option.toList_some]

/-- The key of a type in a body is that of the declaration and the type's own name. -/
theorem key_of_member_type {t u : Cursor} {key : TypeKey} {name : String}
    (hkey : (Scope.of t).typeKey? = some key) (hu : u ∈ members t)
    (hplain : ∀ body ∈ bodyOf? t, body.kind.opensScope = false)
    (hname : Scope.declaredType? u = some name) :
    (Scope.of u).typeKey? = some (.nested key.path name) := by
  obtain ⟨hpath, rfl⟩ := Scope.path_of_type_key hkey
  rw [scope_of_member_type hu hplain hname, Scope.typeKey?, TypeKey.nested_of_parts hpath]
  simp [TypeKey.ofParts, Scope.path]

end Registry

namespace Shadows

/-- A namespace with two types, one of them with a type in its body. -/
def inner : String :=
  "namespace N \x7b class A \x7b class B \x7b \x7d \x7d class E \x7b \x7d \x7d"

/-- A type with the name of another, in a file that imports the namespace of that. -/
def outer : String :=
  "using N; class A \x7b \x7d"

/-- The file of the namespace. -/
def innerUnit : SourceUnit :=
  .create ⟨"A.cs"⟩ none inner (Node.ofSource inner)

/-- The file with the import. -/
def outerUnit : SourceUnit :=
  .create ⟨"B.cs"⟩ none outer (Node.ofSource outer)

/-- A project of the two files. -/
def units : List SourceUnit :=
  [innerUnit, outerUnit]

end Shadows

namespace Registry

/-- The candidates of a name are the keys below all prefixes of the path, longest first and each
once, and a simple name denotes the declared one with the longest prefix. So in the scope of a type
its own name denotes it, unless there is a type of that name below it, and the names of the types in
its body denote those. -/
theorem simple_names_innermost :
    (∀ (scope : Scope) (name : String),
      scope.candidates name = (scope.path.inits.reverse.map fun p ↦ .ofParts p [name]) ∧
        (scope.candidates name).Nodup) ∧
    (∀ (r : Registry) (context : LookupContext) (name : String), Descriptor.isTypeName name →
      Innermost r context name (r.resolveType? name context)) ∧
    ∀ units : List SourceUnit, ∀ unit ∈ units, ∀ t ∈ typeDeclarations unit, ∀ key,
      (Scope.of t).typeKey? = some key → ∀ (i : Nat) (name : String), Descriptor.isTypeName name →
        ((Scope.of t).types.getLast? = some name → key.simpleName = name ∧
          (build units).resolveType? name ⟨i, Scope.of t⟩ =
            some (if (build units).isDeclared (.nested key.path name) then .nested key.path name
              else key)) ∧
        ∀ u ∈ members t, Scope.declaredType? u = some name →
          (∀ body ∈ bodyOf? t, body.named ∧ body.kind.opensScope = false) →
            (Scope.of u).typeKey? = some (.nested key.path name) ∧
              (TypeKey.nested key.path name).simpleName = name ∧
              (build units).resolveType? name ⟨i, Scope.of t⟩ = some (.nested key.path name) := by
  refine ⟨fun scope name ↦ ⟨scope.candidates_eq name, scope.candidates_nodup name⟩,
    fun r context name ↦ resolve_innermost r context, ?_⟩
  intro units unit hunit t ht key hkey i name hname
  have hdot : '.' ∉ name.toList := Descriptor.not_mem_of_mark hname rfl
  refine ⟨fun hlast ↦ ⟨?_, ?_⟩, fun u hu hdeclares hbody ↦ ?_⟩
  · obtain ⟨outer, hsplit⟩ := Scope.path_of_last hlast
    rw [(Scope.path_of_type_key hkey).2, hsplit]
    exact TypeKey.simple_name_of_parts hdot
  · split
    next hnested => exact resolve_below_type hkey hname hnested
    next hnested =>
      have hdeclared := is_declared_build_iff.2 ⟨unit, hunit, t, ht, hkey⟩
      exact resolve_own_name hkey hdeclared hname hlast (Bool.eq_false_iff.2 hnested)
  · have hinner := key_of_member_type hkey hu (fun body h ↦ (hbody body h).2) hdeclares
    have hlisted := member_type_listed ht hu (fun body h ↦ (hbody body h).1)
      (Scope.kind_of_declared_type (hdeclares ▸ rfl))
    have hdeclared := is_declared_build_iff.2 ⟨unit, hunit, u, hlisted, hinner⟩
    obtain ⟨hpath, rfl⟩ := Scope.path_of_type_key hkey
    refine ⟨hinner, ?_, resolve_below_type hkey hname hdeclared⟩
    rw [TypeKey.nested_of_parts hpath, TypeKey.simple_name_of_parts hdot]

/-- Below the namespace, the name that two types have denotes the one there, and a type finds the
one in its body; in the other file, a name that is not declared there comes from the import. -/
theorem simple_names_innermost_shadowed :
    (∃ t ∈ typeDeclarations Shadows.innerUnit, (Scope.of t).typeKey? = some ⟨"N.A"⟩ ∧
      (build Shadows.units).resolveType? "A" ⟨0, Scope.of t⟩ = some ⟨"N.A"⟩ ∧
      (build Shadows.units).resolveType? "B" ⟨0, Scope.of t⟩ = some ⟨"N.A.B"⟩) ∧
    (build Shadows.units).isDeclared ⟨"A"⟩ ∧
    (build Shadows.units).resolveType? "E" ⟨1, ⟨[], ["A"]⟩⟩ = some ⟨"N.E"⟩ := by
  have hnames : ∀ name ∈ ["A", "B", "E"], Descriptor.isTypeName name := by decide
  have hnode : ∃ t ∈ typeDeclarations Shadows.innerUnit, (Scope.of t).typeKey? = some ⟨"N.A"⟩ ∧
      (Scope.of t).types.getLast? = some "A" ∧
      (∃ u ∈ members t, Scope.declaredType? u = some "B") ∧
      ∀ body ∈ bodyOf? t, body.named ∧ body.kind.opensScope = false := by decide +kernel
  have hdeclared : (build Shadows.units).isDeclared (.nested "N.A" "A") = false ∧
      (build Shadows.units).isDeclared ⟨"A"⟩ ∧
      (∀ p ∈ ["A"].inits, (build Shadows.units).isDeclared (.ofParts p ["E"]) = false) ∧
      (((build Shadows.units).importsOf 1).map fun space ↦ TypeKey.nested space "E").find?
        (build Shadows.units).isDeclared = some ⟨"N.E"⟩ := by decide +kernel
  obtain ⟨t, ht, hkey, hlast, ⟨u, hu, hname⟩, hbody⟩ := hnode
  obtain ⟨hfree, hglobal, hnone, himport⟩ := hdeclared
  obtain ⟨_, hinnermost, hscopes⟩ := simple_names_innermost
  have hunit : Shadows.innerUnit ∈ Shadows.units := List.mem_cons_self
  have hA := hscopes Shadows.units _ hunit t ht _ hkey 0 "A" (hnames _ (by decide))
  have hB := hscopes Shadows.units _ hunit t ht _ hkey 0 "B" (hnames _ (by decide))
  have hE := hinnermost (build Shadows.units) ⟨1, ⟨[], ["A"]⟩⟩ "E" (hnames _ (by decide))
  refine ⟨⟨t, ht, hkey, ?_, (hB.2 u hu hname hbody).2.2⟩, hglobal, ?_⟩
  · rw [(hA.1 hlast).2, hfree, if_neg Bool.false_ne_true]
  · exact (hE.imported fun p hp ↦ hnone p ((List.mem_inits p _).2 hp)).trans himport

end Registry

end MemberReach
