import MemberReach.Proofs.BaseNames
import MemberReach.Proofs.Comments.Declarations

/-!
# The registry of pruned units

Pruned units declare what the units declare: `build_prune` says that the two registries are the
same up to the base types as written. The first pass records the same members; what a removed
comment in a base list has recorded is no declared type, so the second pass drops it.
-/

namespace MemberReach

open Cursor

/-- Comments of a project that nothing depends on: none of them is taken by its position, and none
of them stands in a base list where its text would denote a declared type. -/
structure Unread (drop : Nat → List Nat → Bool) (units : List SourceUnit) : Prop where
  trees : ∀ i unit, units[i]? = some unit → Transparent (drop i) unit.tree
  bases : ∀ i unit, units[i]? = some unit → ∀ c, IsIn unit.tree c →
    c.kind.isTypeDeclaration = true → ∀ d ∈ Registry.baseEntries c, d.isPruned (drop i) = true →
      (Registry.build units).resolveType? d.descriptor ⟨i, Scope.of c⟩ = none

/-- Only the listed nodes of the trees need to be looked at. -/
theorem unread_iff {drop : Nat → List Nat → Bool} {units : List SourceUnit} :
    Unread drop units ↔
      ∀ entry ∈ units.zipIdx, Transparent (drop entry.2) entry.1.tree ∧
        ∀ c ∈ reach [] entry.1.tree, c.kind.isTypeDeclaration = true →
          ∀ d ∈ Registry.baseEntries c, d.isPruned (drop entry.2) = true →
            (Registry.build units).resolveType? d.descriptor ⟨entry.2, Scope.of c⟩ = none := by
  constructor
  · intro h entry hentry
    have hunit := List.mem_zipIdx_iff_getElem?.1 hentry
    exact ⟨h.trees _ _ hunit, fun c hc ↦ h.bases _ _ hunit c (is_in_iff_mem_reach.2 hc)⟩
  · intro h
    refine ⟨fun i unit hunit ↦ ?_, fun i unit hunit c hc ↦ ?_⟩
    · exact (h (unit, i) (List.mem_zipIdx_iff_getElem?.2 hunit)).1
    · exact (h (unit, i) (List.mem_zipIdx_iff_getElem?.2 hunit)).2 c (is_in_iff_mem_reach.1 hc)

instance (drop : Nat → List Nat → Bool) (units : List SourceUnit) :
    Decidable (Unread drop units) :=
  decidable_of_iff _ unread_iff.symm

namespace Registry

variable {drop : List Nat → Bool}

namespace Site

/-- The site in the pruned unit. -/
def prune (drop : List Nat → Bool) (site : Site) : Site :=
  { site with unit := site.unit.prune drop }

/-- A property that is declared at nodes is declared at their places. -/
theorem property_prune (site : Site) (name : String) (named type : Cursor) :
    (site.prune drop).property name (named.prune drop) (type.prune drop) =
      site.property name named type := by
  simp only [property, prune, descriptor_prune, SourceUnit.location_prune]
  rfl

/-- The property that a node declares stays. -/
theorem declared_property_prune (site : Site) (c : Cursor) :
    (site.prune drop).property? (c.prune drop) = site.property? c := by
  unfold property?
  rw [declared_name_prune, child_prune, anchor_prune]
  cases c.declaredName? with
  | none => rfl
  | some name =>
      cases c.child? .type with
      | none => rfl
      | some type => exact congrArg some (property_prune site name (anchor c) type)

/-- The fields that a node declares stay. -/
theorem fields_prune (site : Site) (c : Cursor) :
    (site.prune drop).fields (c.prune drop) = site.fields c := by
  have hidentifier : identifier? ∘ Cursor.prune drop = identifier? := funext identifier_prune
  unfold fields
  rw [variable_declaration_prune]
  cases c.variableDeclaration? with
  | none => rfl
  | some declaration =>
      simp only [Option.map_some]
      rw [declarators_prune, child_prune, map_descriptor_prune, List.filterMap_map, hidentifier]
      rfl

variable {tree : Node} (htree : Transparent drop tree) {c : Cursor} (hc : IsIn tree c)

include htree hc

/-- The method that a node declares stays. -/
theorem method_prune (site : Site) (hkind : c.kind = .methodDeclaration) :
    (site.prune drop).method? (c.prune drop) = site.method? c := by
  have hreturn : (c.prune drop).returnType?.map descriptor = c.returnType?.map descriptor := by
    rw [return_type_prune, map_descriptor_prune]
  have hbody : (c.prune drop).body?.isSome = c.body?.isSome := by
    rw [body_prune, Option.isSome_map]
  have hlocation : (site.unit.prune drop).location (anchor (c.prune drop)) =
      site.unit.location (anchor c) := by
    rw [anchor_prune, SourceUnit.location_prune]
  unfold method?
  rw [method_identity_prune htree hc hkind, htree.parameters hc (by rw [hkind]; rfl),
    htree.is_extension_method hc hkind, hreturn, hbody, start_prune, stop_prune]
  simp only [prune, hlocation]
  rfl

/-- The member that a node declares is recorded alike. -/
theorem collect_member_prune (site : Site) (r : Registry) :
    (site.prune drop).collectMember r (c.prune drop) = site.collectMember r c := by
  unfold collectMember
  rw [kind_prune]
  split
  · rename_i hkind
    rw [method_prune htree hc site hkind]
    rfl
  · rw [declared_property_prune]
  · rw [fields_prune]
    rfl
  · rfl

/-- The members of a type are recorded alike. -/
theorem collect_body_prune (site : Site) (r : Registry) :
    collectBody (site.prune drop) r (c.prune drop) = collectBody site r c := by
  have hpositional : (positionalParameters (c.prune drop)).foldl
        (addPositional (site.prune drop)) r =
      (positionalParameters c).foldl (addPositional site) r := by
    rw [positional_parameters_prune, List.foldl_map]
    congr 1
    funext r parameter
    simp only [addPositional, Prod.map, text_prune, property_prune]
  unfold collectBody
  rw [hpositional, members_prune]
  refine foldl_prune_list (fun d hd _ r ↦ ?_) (fun d _ hpruned r ↦ ?_) _
  · exact collect_member_prune htree (is_in_of_mem_members hc hd) site r
  · simp [collectMember, kind_of_is_pruned hpruned]

end Site

/-! ### Units -/

variable {junk : String × LookupContext → Bool}

/-- A type declaration at a site is recorded alike up to the written base types that are left out,
if these take in whatever its removed comments have recorded. -/
theorem collect_prune {tree : Node} (htree : Transparent drop tree) {c : Cursor}
    (hc : IsIn tree c) (site : Site)
    (hjunk : ∀ d ∈ baseEntries c, d.isPruned drop = true →
      junk (d.descriptor, site.context) = true)
    {r r' : Registry} (hr : r'.strip junk = r.strip junk) :
    ((site.prune drop).collect r' (c.prune drop)).strip junk = (site.collect r c).strip junk :=
  calc
    _ = collectBody (site.prune drop) ((r'.strip junk).addType site.key
          (((baseNames (c.prune drop)).map fun name ↦ (name, site.context)).filter
            fun base ↦ !junk base)) (c.prune drop) :=
      strip_collect (site.prune drop) r' (c.prune drop)
    _ = collectBody site ((r.strip junk).addType site.key
          (((baseNames c).map fun name ↦ (name, site.context)).filter
            fun base ↦ !junk base)) c := by
      rw [Site.collect_body_prune htree hc site, hr, base_names_prune hjunk]
    _ = (site.collect r c).strip junk := (strip_collect site r c).symm

/-- A type declaration of a unit is recorded alike up to the written base types that are left
out. -/
theorem collect_type_prune {tree : Node} (htree : Transparent drop tree) {c : Cursor}
    (hc : IsIn tree c) {unitId : Nat} (unit : SourceUnit)
    (hjunk : ∀ d ∈ baseEntries c, d.isPruned drop = true →
      junk (d.descriptor, ⟨unitId, Scope.of c⟩) = true)
    {r r' : Registry} (hr : r'.strip junk = r.strip junk) :
    (collectType unitId (unit.prune drop) r' (c.prune drop)).strip junk =
      (collectType unitId unit r c).strip junk := by
  simp only [collectType, Scope.of_prune]
  cases (Scope.of c).typeKey? with
  | none => exact hr
  | some key => exact collect_prune htree hc ⟨unitId, unit, key, Scope.of c⟩ hjunk hr

/-- The type declarations of a unit are found at their places. -/
theorem type_declarations_prune (unit : SourceUnit) :
    typeDeclarations (unit.prune drop) = (typeDeclarations unit).map (prune drop) := by
  rw [typeDeclarations, SourceUnit.root_prune, descendants_prune]
  exact filter_kind_prune_list _ rfl

/-- A unit is recorded alike up to the written base types that are left out. -/
theorem collect_unit_prune {unit : SourceUnit} (htree : Transparent drop unit.tree) {unitId : Nat}
    (hjunk : ∀ c, IsIn unit.tree c → c.kind.isTypeDeclaration = true →
      ∀ d ∈ baseEntries c, d.isPruned drop = true →
        junk (d.descriptor, ⟨unitId, Scope.of c⟩) = true)
    {r r' : Registry} (hr : r'.strip junk = r.strip junk) :
    (collectUnit r' (unit.prune drop, unitId)).strip junk =
      (collectUnit r (unit, unitId)).strip junk := by
  simp only [collectUnit]
  rw [type_declarations_prune, List.foldl_map, SourceUnit.root_prune, Scope.imports_prune]
  refine List.foldl_rel (r := fun a b : Registry ↦ a.strip junk = b.strip junk) ?_ ?_
  · have himports := congrArg Registry.imports hr
    simp only [strip, Registry.mk.injEq] at hr himports ⊢
    rw [himports]
    exact ⟨hr.1, hr.2.1, hr.2.2.1, hr.2.2.2.1, rfl⟩
  · intro c hc a b hab
    obtain ⟨hc, hkind⟩ := List.mem_filter.1 hc
    have hin : IsIn unit.tree c := IsIn.root.descendant hc
    exact collect_type_prune htree hin unit (hjunk c hin hkind) hab

/-- Pruned units are the units, each pruned at its position. -/
theorem zip_idx_prune_units (drop : Nat → List Nat → Bool) (units : List SourceUnit) :
    (pruneUnits drop units).zipIdx =
      units.zipIdx.map fun entry ↦ (entry.1.prune (drop entry.2), entry.2) := by
  apply List.ext_getElem?
  intro i
  rw [List.getElem?_zipIdx, pruneUnits, List.getElem?_mapIdx, List.getElem?_map,
    List.getElem?_zipIdx]
  cases units[i]? with
  | none => rfl
  | some unit => simp

variable {drop : Nat → List Nat → Bool} {units : List SourceUnit}

/-- The declarations of pruned units are recorded alike up to the written base types that are left
out. -/
theorem collect_all_prune (htrees : ∀ i unit, units[i]? = some unit →
      Transparent (drop i) unit.tree)
    (hjunk : ∀ i unit, units[i]? = some unit → ∀ c, IsIn unit.tree c →
      c.kind.isTypeDeclaration = true → ∀ d ∈ baseEntries c, d.isPruned (drop i) = true →
        junk (d.descriptor, ⟨i, Scope.of c⟩) = true) :
    (collectAll (pruneUnits drop units)).strip junk = (collectAll units).strip junk := by
  rw [collectAll, zip_idx_prune_units, List.foldl_map]
  refine List.foldl_rel (r := fun a b : Registry ↦ a.strip junk = b.strip junk) rfl ?_
  intro entry hentry a b hab
  have hunit : units[entry.2]? = some entry.1 := List.mem_zipIdx_iff_getElem?.1 hentry
  exact collect_unit_prune (htrees _ _ hunit) (hjunk _ _ hunit) hab

/-- The registry of pruned units is the same up to base types as written. -/
theorem build_prune (hunread : Unread drop units) :
    (build (pruneUnits drop units)).strip (fun _ ↦ true) =
      (build units).strip fun _ ↦ true := by
  -- the descriptors to leave out: those that denote no declared type
  let junk : String × LookupContext → Bool := fun base ↦
    ((collectAll units).resolveType? base.1 base.2).isNone
  have hjunk : ∀ base, junk base = true →
      (collectAll units).resolveType? base.1 base.2 = none :=
    fun _ hbase ↦ Option.isNone_iff_eq_none.1 hbase
  have hcollect : (collectAll (pruneUnits drop units)).strip junk =
      (collectAll units).strip junk := by
    apply collect_all_prune hunread.trees
    intro i unit hunit c hc hkind d hd hpruned
    have hnone := hunread.bases i unit hunit c hc hkind d hd hpruned
    rw [build, resolve_type_resolve_all] at hnone
    exact Option.isNone_iff_eq_none.2 hnone
  have hresolve : (collectAll (pruneUnits drop units)).resolveType? =
      (collectAll units).resolveType? := by
    rw [← resolve_type_strip (collectAll (pruneUnits drop units)), hcollect, resolve_type_strip]
  rw [build, build, ← strip_resolve_all hjunk, ← hcollect,
    strip_resolve_all (by rw [hresolve]; exact hjunk)]

end Registry

end MemberReach
