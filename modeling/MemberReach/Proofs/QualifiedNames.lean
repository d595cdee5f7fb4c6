import MemberReach.Grammar.Rules
import MemberReach.Proofs.TypeNames

/-!
# Qualified type names

Names are meant to be looked up below the types around them, then below the namespaces around them,
innermost first, then as they are, and last below the imported namespaces (`Registry.inOrder`).
Simple names are. A qualified name is looked up as it is before anything else, and never below a
type. So it may miss the type that comes first, and `qualified_in_order_iff` says when it does not:
nothing is declared below the types and namespaces around it that would have to be preferred.
-/

namespace MemberReach

open Text

namespace Descriptor

/-- Two or more identifiers, the parts of a qualified name. -/
def isQualified (parts : List String) : Bool :=
  decide (2 ≤ parts.length) && parts.all isIdentifier

/-- Identifiers with dots between them make up a plain name. -/
theorem IsPlain.of_join {parts : List String} (hne : parts ≠ [])
    (h : ∀ part ∈ parts, isIdentifier part) : IsPlain (join "." parts).toList := by
  obtain ⟨front, last, rfl⟩ := (List.eq_nil_or_concat parts).resolve_left hne
  rw [List.concat_eq_append] at h ⊢
  have hlast := IsPlain.of_identifier (h last (by simp))
  -- a character is a dot or stands in one of the parts
  have hchars : ∀ c ∈ (join "." (front ++ [last])).toList,
      c = '.' ∨ ∃ part ∈ front ++ [last], c ∈ part.toList := by
    intro c hc
    rw [join_concat, List.mem_append, List.mem_flatMap] at hc
    rcases hc with ⟨part, hpart, hc⟩ | hc
    · rcases List.mem_append.1 hc with hc | hc
      · exact Or.inr ⟨part, List.mem_append_left _ hpart, hc⟩
      · exact Or.inl (List.mem_singleton.1 hc)
    · exact Or.inr ⟨last, by simp, hc⟩
  refine ⟨?_, fun c hc ↦ ?_, fun c hc hmark ↦ ?_⟩
  · rw [join_concat]
    exact List.append_ne_nil_of_right_ne_nil _ hlast.nonempty
  · rcases hchars c hc with rfl | ⟨part, hpart, hc⟩
    · decide
    · exact (IsPlain.of_identifier (h part hpart)).visible c hc
  · rcases hchars c hc with rfl | ⟨part, hpart, hc⟩
    · rfl
    · exact (IsPlain.of_identifier (h part hpart)).unmarked c hc hmark

/-- A qualified name has a dot. -/
theorem dot_mem_join {parts : List String} (h : 2 ≤ parts.length) :
    '.' ∈ (join "." parts).toList := by
  obtain ⟨front, last, rfl⟩ := (List.eq_nil_or_concat parts).resolve_left (by rintro rfl; simp at h)
  rw [List.concat_eq_append] at h ⊢
  obtain ⟨part, hpart⟩ := List.exists_mem_of_length_pos (l := front) (by simp at h; omega)
  rw [join_concat]
  exact List.mem_append_left _ (List.mem_flatMap.2 ⟨part, hpart, by simp⟩)

/-- A plain name with a dot is looked up as it is written. -/
theorem lookup_name_of_dotted {name : String} (h : IsPlain name.toList) (hdot : '.' ∈ name.toList) :
    lookupName? name = some name := by
  have hbuiltIn : ∀ other ∈ "var" :: predefined, '.' ∉ other.toList := by decide
  have hvar : (name == "var") = false := by
    refine beq_eq_false_iff_ne.2 ?_
    rintro rfl
    exact hbuiltIn "var" (by simp) hdot
  have hpredefined : isPredefined name = false := by
    rw [Bool.eq_false_iff]
    intro hpredefined
    have hmem := List.contains_iff_mem.1 hpredefined
    exact hbuiltIn name (List.mem_cons_of_mem _ hmem) hdot
  rw [lookup_name_of_plain h, hvar, hpredefined]
  rfl

end Descriptor

namespace Scope

/-- The keys of a name below the enclosing types, innermost first. -/
def belowTypes (scope : Scope) (name : String) : List TypeKey :=
  (prefixes scope.types).map fun types ↦ .ofParts scope.spaces (types ++ [name])

/-- The keys of a name below the enclosing namespaces, innermost first. -/
def belowSpaces (scope : Scope) (name : String) : List TypeKey :=
  (prefixes scope.spaces).map fun spaces ↦ .ofParts spaces [name]

/-- The candidates of a name are its keys below types, its keys below namespaces and itself. -/
theorem candidates_split (scope : Scope) (name : String) :
    scope.candidates name = scope.belowTypes name ++ (scope.belowSpaces name ++ [⟨name⟩]) := by
  have hself : TypeKey.ofParts [] [name] = ⟨name⟩ := by simp [TypeKey.ofParts, join]
  rw [candidates, List.map_append, List.map_singleton, hself]
  rfl

/-- A prefix of a path is not empty. -/
theorem ne_nil_of_mem_prefixes {α : Type} {l p : List α} (h : p ∈ prefixes l) : p ≠ [] := by
  obtain ⟨n, hn, rfl⟩ := List.mem_map.1 (List.mem_reverse.1 h)
  have hn := List.mem_range.1 hn
  intro hnil
  rw [List.take_eq_nil_iff] at hnil
  rcases hnil with hnil | rfl
  · omega
  · exact absurd hn (Nat.not_lt_zero n)

end Scope

namespace Registry

/-- The keys of a name below the namespaces that its file imports. -/
def imported (r : Registry) (context : LookupContext) (name : String) : List TypeKey :=
  (r.importsOf context.unit).map fun space ↦ .nested space name

/-- The keys that a name may stand for, in the order in which they are meant to be tried. -/
def inOrder (r : Registry) (context : LookupContext) (name : String) : List TypeKey :=
  context.scope.belowTypes name ++ context.scope.belowSpaces name ++ [⟨name⟩] ++
    r.imported context name

/-- A name denotes the first of its keys that is declared. -/
def FollowsOrder (r : Registry) (context : LookupContext) (name : String) : Prop :=
  r.resolveType? name context = (r.inOrder context name).find? r.isDeclared

/-- The keys of a qualified name are itself, then those below namespaces, then the imported ones. -/
theorem candidates_of_dotted (r : Registry) (context : LookupContext) {name : String}
    (hdot : '.' ∈ name.toList) :
    r.candidates context name =
      (⟨name⟩ :: context.scope.belowSpaces name) ++ r.imported context name := by
  have hspaces : qualifiedCandidates context.scope name =
      ⟨name⟩ :: context.scope.belowSpaces name := by
    rw [qualifiedCandidates, Scope.belowSpaces, List.map_congr_left fun spaces hspaces ↦
      TypeKey.nested_of_parts (Scope.ne_nil_of_mem_prefixes hspaces) name]
  rw [candidates, if_pos (List.contains_iff_mem.2 hdot), hspaces, imported]

/-- Trying one of some different keys first, and others not at all, gives the same key exactly if
there is nothing in front of the one when it qualifies, and if what is left out is found again. -/
theorem find_front_iff {α : Type} {p : α → Bool} {outer inner rest : List α} {key : α}
    (hnodup : (outer ++ (inner ++ [key])).Nodup) :
    (key :: inner ++ rest).find? p = (outer ++ inner ++ [key] ++ rest).find? p ↔
      (p key → ∀ k ∈ outer ++ inner, p k = false) ∧
      ∀ k, outer.find? p = some k → (∀ s ∈ inner, p s = false) ∧ rest.find? p = some k := by
  have hkey : ∀ k ∈ outer ++ inner, k ≠ key := by
    rw [← List.append_assoc] at hnodup
    rintro k hk rfl
    exact List.disjoint_of_nodup_append hnodup hk (List.mem_singleton.2 rfl)
  have hinner : ∀ k ∈ outer, k ∉ inner := fun k hk hmem ↦
    List.disjoint_of_nodup_append hnodup hk (List.mem_append_left _ hmem)
  rw [List.cons_append, List.find?_append, List.find?_append]
  by_cases hp : p key
  · -- the key itself is found on the left, so nothing may be found before it on the right
    rw [List.find?_cons_of_pos hp]
    cases hfound : (outer ++ inner).find? p with
    | some k =>
        have hk := List.mem_of_find?_eq_some hfound
        have hpk := List.find?_some hfound
        simp only [Option.some_or, Option.some.injEq]
        refine ⟨fun h ↦ absurd h.symm (hkey k hk), fun h ↦ ?_⟩
        rw [h.1 hp k hk] at hpk
        cases hpk
    | none =>
        have hnone := List.find?_eq_none.1 hfound
        have houter : outer.find? p = none :=
          List.find?_eq_none.2 fun k hk ↦ hnone k (List.mem_append_left _ hk)
        rw [List.find?_cons_of_pos hp, houter]
        exact ⟨fun _ ↦ ⟨fun _ k hk ↦ Bool.eq_false_iff.2 (hnone k hk), nofun⟩, fun _ ↦ rfl⟩
  · rw [List.find?_cons_of_neg hp, List.find?_cons_of_neg hp, List.find?_nil, Option.or_none,
      List.find?_append, List.find?_append]
    cases houter : outer.find? p with
    | none => simp [hp]
    | some k =>
        have hk := List.mem_of_find?_eq_some houter
        cases hfound : inner.find? p with
        | some j =>
            have hj := List.mem_of_find?_eq_some hfound
            have hpj := List.find?_some hfound
            simp only [Option.some_or, Option.some.injEq]
            refine ⟨fun h ↦ absurd (h ▸ hj) (hinner k hk), fun h ↦ ?_⟩
            rw [(h.2 k rfl).1 j hj] at hpj
            cases hpj
        | none =>
            have hnone : ∀ s ∈ inner, p s = false := fun s hs ↦
              Bool.eq_false_iff.2 (List.find?_eq_none.1 hfound s hs)
            simp only [Option.none_or, Option.some_or, hp, Option.some.injEq]
            refine ⟨fun h ↦ ⟨nofun, ?_⟩, fun h ↦ (h.2 k rfl).2⟩
            rintro _ rfl
            exact ⟨hnone, h⟩

/-- A qualified name denotes the first of its keys that is declared exactly if nothing is declared
below the types and namespaces around it when the name itself is, and if what is declared below the
types around it is also the first that the imports give, with nothing below the namespaces. -/
theorem qualified_in_order_iff (r : Registry) (context : LookupContext) {parts : List String}
    (hparts : Descriptor.isQualified parts) :
    FollowsOrder r context (join "." parts) ↔
      (r.isDeclared ⟨join "." parts⟩ →
        ∀ key ∈ context.scope.belowTypes (join "." parts) ++
          context.scope.belowSpaces (join "." parts), r.isDeclared key = false) ∧
      ∀ key, (context.scope.belowTypes (join "." parts)).find? r.isDeclared = some key →
        (∀ other ∈ context.scope.belowSpaces (join "." parts), r.isDeclared other = false) ∧
          (r.imported context (join "." parts)).find? r.isDeclared = some key := by
  simp only [Descriptor.isQualified, Bool.and_eq_true, decide_eq_true_eq, List.all_eq_true]
    at hparts
  have hne : parts ≠ [] := by
    rintro rfl
    exact absurd hparts.1 (by decide)
  have hdot := Descriptor.dot_mem_join hparts.1
  have hlookup := Descriptor.lookup_name_of_dotted (.of_join hne hparts.2) hdot
  have hnodup := context.scope.candidates_nodup (join "." parts)
  rw [Scope.candidates_split] at hnodup
  rw [FollowsOrder, resolveType?, hlookup, Option.bind_eq_bind, Option.bind_some,
    candidates_of_dotted r context hdot, inOrder]
  exact find_front_iff hnodup

end Registry

namespace Qualified

/-- A type two levels below one of a namespace, and two types of one qualified name, inside and
outside of the namespace. -/
def source : String :=
  "namespace N \x7b class A \x7b class B \x7b class C \x7b \x7d \x7d \x7d " ++
    "class X \x7b class Y \x7b \x7d \x7d \x7d class X \x7b class Y \x7b \x7d \x7d"

/-- The registry of a project of one file with this text. -/
def registry : Registry :=
  .build [.create ⟨"A.cs"⟩ none source (Node.ofSource source)]

/-- The namespace. -/
def inSpace : LookupContext :=
  ⟨0, ⟨["N"], []⟩⟩

/-- The type with the others inside. -/
def inType : LookupContext :=
  ⟨0, ⟨["N"], ["A"]⟩⟩

end Qualified

namespace Registry

open Qualified

/-- Inside the namespace, the qualified name of a type that is declared nowhere else denotes it. -/
theorem qualified_in_order_iff_nested :
    Descriptor.isQualified ["A", "B"] ∧ FollowsOrder registry inSpace "A.B" ∧
      registry.resolveType? "A.B" inSpace = some ⟨"N.A.B"⟩ := by
  have hfacts : Descriptor.isQualified ["A", "B"] ∧ registry.isDeclared ⟨"A.B"⟩ = false ∧
      (inSpace.scope.belowTypes "A.B").find? registry.isDeclared = none ∧
      (registry.inOrder inSpace "A.B").find? registry.isDeclared = some ⟨"N.A.B"⟩ := by
    decide +kernel
  obtain ⟨hqualified, hself, htypes, hfirst⟩ := hfacts
  have hname : join "." ["A", "B"] = "A.B" := by decide
  have hiff := qualified_in_order_iff registry inSpace hqualified
  rw [hname, hself, htypes] at hiff
  have hfollows := hiff.2 ⟨nofun, nofun⟩
  exact ⟨hqualified, hfollows, hfollows.trans hfirst⟩

/-- A qualified name misses a type below the type around it, and inside the namespace it denotes the
type outside. -/
theorem qualified_name_misplaced :
    (registry.resolveType? "B.C" inType = none ∧
      (registry.inOrder inType "B.C").find? registry.isDeclared = some ⟨"N.A.B.C"⟩) ∧
    (registry.resolveType? "X.Y" inSpace = some ⟨"X.Y"⟩ ∧
      (registry.inOrder inSpace "X.Y").find? registry.isDeclared = some ⟨"N.X.Y"⟩) ∧
    ¬ ∀ r context parts, Descriptor.isQualified parts →
      FollowsOrder r context (join "." parts) := by
  have hfacts : (registry.resolveType? "B.C" inType = none ∧
      (registry.inOrder inType "B.C").find? registry.isDeclared = some ⟨"N.A.B.C"⟩) ∧
    registry.resolveType? "X.Y" inSpace = some ⟨"X.Y"⟩ ∧
      (registry.inOrder inSpace "X.Y").find? registry.isDeclared = some ⟨"N.X.Y"⟩ := by
    decide +kernel
  refine ⟨hfacts.1, hfacts.2, fun hordered ↦ ?_⟩
  have hfollows := hordered registry inType ["B", "C"] (by decide)
  have hname : join "." ["B", "C"] = "B.C" := by decide
  rw [hname, FollowsOrder, hfacts.1.1, hfacts.1.2] at hfollows
  cases hfollows

end Registry

end MemberReach
