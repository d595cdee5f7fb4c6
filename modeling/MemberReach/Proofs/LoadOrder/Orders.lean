import Mathlib.Data.List.FinRange
import MemberReach.Proofs.LoadOrder.Parts

/-!
# Registries of reordered units

A look-up by a key meets the part of one unit only, so it does not matter where that part stands.
`Registry.Renumbered` says that two registries give the same on every look-up up to the numbers of
units. Units that are apart, which declare nothing in common (`apart_iff_of_plain`), give such
registries in any two orders (`build_renumbered`), and registries that are related in this way
answer the same questions alike.
-/

namespace MemberReach

/-- Two units that have no type and no name of an extension method in common. -/
structure SourceUnit.Apart (a b : SourceUnit) : Prop where
  keys : (Registry.declaredKeys a).Disjoint (Registry.declaredKeys b)
  extensions : (Registry.extensionNames a).Disjoint (Registry.extensionNames b)

namespace SourceUnit

/-- Units are apart from each other. -/
theorem Apart.symm {a b : SourceUnit} (h : a.Apart b) : b.Apart a :=
  ⟨List.disjoint_comm.1 h.keys, List.disjoint_comm.1 h.extensions⟩

instance (a b : SourceUnit) : Decidable (a.Apart b) :=
  decidable_of_iff
    ((∀ key ∈ Registry.declaredKeys a, key ∉ Registry.declaredKeys b) ∧
      ∀ name ∈ Registry.extensionNames a, name ∉ Registry.extensionNames b)
    ⟨fun h ↦ ⟨fun key ha hb ↦ h.1 key ha hb, fun name ha hb ↦ h.2 name ha hb⟩,
      fun h ↦ ⟨fun _ ha hb ↦ h.keys ha hb, fun _ ha hb ↦ h.extensions ha hb⟩⟩

/-- As long as the bodies of types are not declarations themselves, units are apart if they declare
no type and no name of an extension method in common. -/
theorem apart_iff_of_plain {a b : SourceUnit} (ha : Registry.PlainBodies [a])
    (hb : Registry.PlainBodies [b]) :
    a.Apart b ↔
      (∀ t ∈ Registry.typeDeclarations a, ∀ u ∈ Registry.typeDeclarations b, ∀ key,
        (Scope.of t).typeKey? = some key → (Scope.of u).typeKey? ≠ some key) ∧
      (Registry.extensionNames a).Disjoint (Registry.extensionNames b) := by
  have hkeys : (Registry.declaredKeys a).Disjoint (Registry.declaredKeys b) ↔
      ∀ t ∈ Registry.typeDeclarations a, ∀ u ∈ Registry.typeDeclarations b, ∀ key,
        (Scope.of t).typeKey? = some key → (Scope.of u).typeKey? ≠ some key := by
    constructor
    · intro hdisjoint t ht u hu key hkey hother
      exact hdisjoint (Registry.key_mem_declared_keys ht hkey)
        (Registry.key_mem_declared_keys hu hother)
    · intro hnone key hkey hother
      obtain ⟨t, ht, hkey⟩ := (Registry.declared_keys_of_plain ha).1 hkey
      obtain ⟨u, hu, hother⟩ := (Registry.declared_keys_of_plain hb).1 hother
      exact hnone t ht u hu key hkey hother
  rw [← hkeys]
  exact ⟨fun h ↦ ⟨h.keys, h.extensions⟩, fun h ↦ ⟨h.1, h.2⟩⟩

end SourceUnit

namespace Registry

/-! ### Look-ups in parts -/

/-- Lists of which at most one is not empty can be joined in any order. -/
theorem flat_map_of_perm {α β : Type} {l l' : List α} (hperm : l.Perm l') {f : α → List β}
    (hone : l.Pairwise fun a b ↦ f a = [] ∨ f b = []) : l.flatMap f = l'.flatMap f := by
  induction hperm with
  | nil => rfl
  | cons a _ ih =>
      rw [List.flatMap_cons, List.flatMap_cons, ih (List.pairwise_cons.1 hone).2]
  | swap a b rest =>
      have hab := (List.pairwise_cons.1 hone).1 a List.mem_cons_self
      simp only [List.flatMap_cons]
      rcases hab with hb | ha
      · rw [hb, List.nil_append, List.nil_append]
      · rw [ha, List.nil_append, List.nil_append]
  | trans hfirst _ ihfirst ihsecond =>
      have hmiddle := (hfirst.pairwise_iff fun {_ _} h ↦ h.symm).1 hone
      exact (ihfirst hone).trans (ihsecond hmiddle)

section Parts

variable {place : Nat → Nat} {entries entries' : List (SourceUnit × Nat)}
  (hperm : entries'.Perm (entries.map fun entry ↦ (entry.1, place entry.2)))

include hperm

/-- A table of the parts holds the same entries of a sort in any order of the units, if at most one
unit has entries of that sort. -/
theorem filter_parts {α : Type} (table : Registry → List α) (renumber : α → α) {p : α → Bool}
    (hp : ∀ a, p (renumber a) = p a)
    (htable : ∀ r : Registry, table (r.renumber place) = (table r).map renumber)
    (hone : entries.Pairwise fun a b ↦
      (∀ x ∈ table (part a), p x = false) ∨ ∀ x ∈ table (part b), p x = false) :
    ((entries'.map part).flatMap table).filter p =
      (((entries.map part).flatMap table).filter p).map renumber := by
  have hpart : ∀ entry : SourceUnit × Nat, (table (part (entry.1, place entry.2))).filter p =
      ((table (part entry)).filter p).map renumber := by
    intro entry
    have hcomp : p ∘ renumber = p := funext hp
    rw [part_renumber place entry.1 entry.2, htable, List.filter_map, hcomp]
  have hempty : ∀ entry, (∀ x ∈ table (part entry), p x = false) →
      (table (part (entry.1, place entry.2))).filter p = [] := by
    intro entry hnone
    rw [hpart, List.filter_eq_nil_iff.2, List.map_nil]
    intro x hx
    rw [hnone x hx]
    exact Bool.false_ne_true
  have hsame : (entries'.flatMap fun entry ↦ (table (part entry)).filter p) =
      (entries.map fun entry ↦ (entry.1, place entry.2)).flatMap
        fun entry ↦ (table (part entry)).filter p := by
    refine (flat_map_of_perm hperm.symm ?_).symm
    rw [List.pairwise_map]
    exact hone.imp fun h ↦ h.imp (hempty _) (hempty _)
  rw [List.flatMap_map, List.filter_flatMap, hsame, List.flatMap_map, List.flatMap_map,
    List.filter_flatMap, List.map_flatMap]
  exact congrArg (List.flatMap · entries) (funext hpart)

/-- The entry with a key in a table of the parts is the same in any order of the units, if at most
one unit has entries with the key. -/
theorem find_parts {α : Type} (table : Registry → List α) (renumber : α → α) {p : α → Bool}
    (hp : ∀ a, p (renumber a) = p a)
    (htable : ∀ r : Registry, table (r.renumber place) = (table r).map renumber)
    (hone : entries.Pairwise fun a b ↦
      (∀ x ∈ table (part a), p x = false) ∨ ∀ x ∈ table (part b), p x = false) :
    ((entries'.map part).flatMap table).find? p =
      (((entries.map part).flatMap table).find? p).map renumber := by
  rw [← List.head?_filter, filter_parts hperm table renumber hp htable hone, List.head?_map,
    List.head?_filter]

end Parts

/-! ### Registries that differ in the numbers of units -/

/-- Two registries that give the same on every look-up, up to the numbers of units. -/
structure Renumbered (place : Nat → Nat) (r' r : Registry) : Prop where
  types : ∀ key, r'.type? key = (r.type? key).map (TypeDecl.renumber place)
  methods : ∀ id, r'.method? id = (r.method? id).map (MethodDecl.renumber place)
  properties : ∀ id, r'.property? id = (r.property? id).map (PropertyDecl.renumber place)
  extensions : ∀ name, (r'.extensions.filter fun id ↦ id.name == name) =
    r.extensions.filter fun id ↦ id.name == name
  imports : ∀ i, r'.importsOf (place i) = r.importsOf i
  count : r'.methodCount = r.methodCount

section Questions

variable {place : Nat → Nat} {r' r : Registry} (h : Renumbered place r' r)

include h

namespace Renumbered

/-- The same types are declared. -/
theorem is_declared : r'.isDeclared = r.isDeclared := by
  funext key
  rw [isDeclared, h.types, Option.isSome_map, isDeclared]

/-- A descriptor denotes the same type in a renumbered unit. -/
theorem resolve_type (descriptor : String) (context : LookupContext) :
    r'.resolveType? descriptor (context.renumber place) = r.resolveType? descriptor context := by
  have himports : r'.importsOf (context.renumber place).unit = r.importsOf context.unit :=
    h.imports context.unit
  unfold resolveType? candidates
  rw [h.is_declared, himports]
  rfl

/-- A type inherits from the same types. -/
theorem chain_from (seen stack : List TypeKey) :
    r'.chainFrom seen stack = (r.chainFrom seen stack).map (TypeDecl.renumber place) := by
  fun_induction chainFrom r seen stack with
  | case1 => rw [chainFrom, List.map_nil]
  | case2 seen key rest hseen ih => rw [chainFrom, dif_pos hseen, ih]
  | case3 seen key rest hseen htype ih =>
      rw [chainFrom, dif_neg hseen]
      split
      · exact ih
      · rename_i t ht
        rw [h.types, htype] at ht
        cases ht
  | case4 seen key rest hseen t htype ih =>
      rw [chainFrom, dif_neg hseen]
      split
      · rename_i ht
        rw [h.types, htype] at ht
        cases ht
      · rename_i u hu
        rw [h.types, htype] at hu
        cases hu
        rw [List.map_cons, ← ih]
        rfl

/-- A type inherits from the same types. -/
theorem type_chain (key : TypeKey) :
    r'.typeChain key = (r.typeChain key).map (TypeDecl.renumber place) :=
  h.chain_from [] [key]

/-- A name finds the same methods. -/
theorem find_methods (key : TypeKey) (name : String) :
    r'.findMethods key name = (r.findMethods key name).map (MethodDecl.renumber place) := by
  rw [findMethods, h.type_chain, List.flatMap_map, findMethods, List.map_filterMap]
  exact List.filterMap_congr fun id _ ↦ h.methods id

/-- A name finds the same property. -/
theorem find_property (key : TypeKey) (name : String) :
    r'.findProperty? key name = (r.findProperty? key name).map (PropertyDecl.renumber place) := by
  rw [findProperty?, h.type_chain, List.flatMap_map, findProperty?, Option.map_bind]
  exact congrArg (Option.bind _) (funext h.properties)

/-- A name finds the same field. -/
theorem find_field (key : TypeKey) (name : String) :
    r'.findField? key name = (r.findField? key name).map (FieldDecl.renumber place) := by
  have hfields : ((r.typeChain key).flatMap fun t ↦ (t.renumber place).fields) =
      ((r.typeChain key).flatMap TypeDecl.fields).map (FieldDecl.renumber place) :=
    List.map_flatMap.symm
  rw [findField?, h.type_chain, List.flatMap_map, hfields, List.find?_map, findField?]
  rfl

/-- A name finds the same extension methods. -/
theorem find_extensions (name : String) :
    r'.findExtensions name = (r.findExtensions name).map (MethodDecl.renumber place) := by
  rw [findExtensions, h.extensions, findExtensions, List.map_filterMap]
  exact List.filterMap_congr fun id _ ↦ h.methods id

/-- A parameter has the same type. -/
theorem parameter_type : r'.parameterType? = r.parameterType? := by
  funext id index
  unfold parameterType?
  rw [h.methods]
  cases r.method? id with
  | none => rfl
  | some m =>
      show (m.symbol.parameters[index]?).bind (fun p ↦
          r'.resolveType? p.typeName (m.context.renumber place)) =
        (m.symbol.parameters[index]?).bind fun p ↦ r.resolveType? p.typeName m.context
      exact congrArg (Option.bind _) (funext fun p ↦ h.resolve_type p.typeName m.context)

/-- The second pass resolves a type alike. -/
theorem resolve_type_decl (t : TypeDecl) :
    r'.resolveTypeDecl (t.renumber place) = (r.resolveTypeDecl t).renumber place := by
  have hbases : (t.baseNames.map fun base ↦ (base.1, base.2.renumber place)).filterMap
        (fun base ↦ r'.resolveType? base.1 base.2) =
      t.baseNames.filterMap fun base ↦ r.resolveType? base.1 base.2 := by
    rw [List.filterMap_map]
    exact List.filterMap_congr fun base _ ↦ h.resolve_type base.1 base.2
  have hfields : ((t.fields.map (FieldDecl.renumber place)).map fun field ↦
        { field with typeKey := r'.resolveType? field.typeName field.context }) =
      (t.fields.map fun field ↦
        { field with typeKey := r.resolveType? field.typeName field.context }).map
          (FieldDecl.renumber place) := by
    rw [List.map_map, List.map_map]
    refine List.map_congr_left fun field _ ↦ ?_
    exact congrArg (fun key ↦ { field.renumber place with typeKey := key })
      (h.resolve_type field.typeName field.context)
  simp only [resolveTypeDecl, TypeDecl.renumber, hbases, hfields]

/-- The second pass resolves a method alike. -/
theorem resolve_method_decl (m : MethodDecl) :
    r'.resolveMethodDecl (m.renumber place) = (r.resolveMethodDecl m).renumber place := by
  simp only [resolveMethodDecl, MethodDecl.renumber, h.resolve_type]

/-- The second pass resolves a property alike. -/
theorem resolve_property_decl (p : PropertyDecl) :
    r'.resolvePropertyDecl (p.renumber place) = (r.resolvePropertyDecl p).renumber place := by
  simp only [resolvePropertyDecl, PropertyDecl.renumber, h.resolve_type]

/-- The second pass gives the same, up to the numbers of units. -/
theorem resolve_all : Renumbered place r'.resolveAll r.resolveAll := by
  have htype : ∀ (r : Registry) (key : TypeKey),
      r.resolveAll.type? key = (r.type? key).map r.resolveTypeDecl :=
    fun r key ↦ List.find?_map ..
  have hmethod : ∀ (r : Registry) (id : SymbolId),
      r.resolveAll.method? id = (r.method? id).map r.resolveMethodDecl :=
    fun r id ↦ List.find?_map ..
  have hproperty : ∀ (r : Registry) (id : SymbolId),
      r.resolveAll.property? id = (r.property? id).map r.resolvePropertyDecl :=
    fun r id ↦ List.find?_map ..
  refine ⟨fun key ↦ ?_, fun id ↦ ?_, fun id ↦ ?_, h.extensions, h.imports, ?_⟩
  · rw [htype, htype, h.types, Option.map_map, Option.map_map]
    exact congrArg (Option.map · _) (funext h.resolve_type_decl)
  · rw [hmethod, hmethod, h.methods, Option.map_map, Option.map_map]
    exact congrArg (Option.map · _) (funext h.resolve_method_decl)
  · rw [hproperty, hproperty, h.properties, Option.map_map, Option.map_map]
    exact congrArg (Option.map · _) (funext h.resolve_property_decl)
  · simpa only [methodCount, resolveAll, List.length_map] using h.count

end Renumbered

end Questions

/-! ### Reordered units -/

/-- Recording the type that a node declares imports nothing. -/
theorem imports_collect_type (i : Nat) (unit : SourceUnit) (r : Registry) (t : Cursor) :
    (collectType i unit r t).imports = r.imports := by
  have hproperty : ∀ (r : Registry) p, (r.addProperty p).imports = r.imports := by
    intro r p
    unfold addProperty
    split <;> rfl
  have hmember : ∀ (site : Site) (r : Registry) c,
      (site.collectMember r c).imports = r.imports := by
    intro site r c
    unfold Site.collectMember
    split
    · cases site.method? c with
      | none => rfl
      | some m =>
          show (r.addMethod site.key m).imports = r.imports
          unfold addMethod
          split
          · rfl
          · split <;> rfl
    · cases site.property? c with
      | none => rfl
      | some p => exact hproperty r p
    · exact List.foldlRecOn (motive := fun s : Registry ↦ s.imports = r.imports) _ _ rfl
        fun _ hs _ _ ↦ hs
    · rfl
  simp only [collectType]
  cases (Scope.of t).typeKey? with
  | none => rfl
  | some key =>
      refine List.foldlRecOn (motive := fun s : Registry ↦ s.imports = r.imports) _ _ ?_
        fun s hs c _ ↦ (hmember _ s c).trans hs
      refine List.foldlRecOn (motive := fun s : Registry ↦ s.imports = r.imports) _ _ ?_
        fun s hs _ _ ↦ (hproperty s _).trans hs
      unfold addType
      split <;> rfl

/-- The imports of a unit are those of its tree. -/
theorem imports_part (entry : SourceUnit × Nat) :
    (part entry).imports = [Scope.imports entry.1.root] :=
  List.foldlRecOn (motive := fun s : Registry ↦ s.imports = [Scope.imports entry.1.root]) _ _ rfl
    fun s hs t _ ↦ (imports_collect_type _ _ s t).trans hs

/-- The imports of parts are those of the trees of their units. -/
theorem imports_of_concat (units : List SourceUnit) (i : Nat) :
    (concat (units.zipIdx.map part)).importsOf i =
      (units[i]?.map fun unit ↦ Scope.imports unit.root).getD [] := by
  have himports : (concat (units.zipIdx.map part)).imports =
      units.map fun unit ↦ Scope.imports unit.root :=
    calc
      _ = units.zipIdx.flatMap fun entry ↦ (part entry).imports := List.flatMap_map ..
      _ = units.zipIdx.flatMap fun entry ↦ [Scope.imports entry.1.root] :=
        congrArg (List.flatMap · _) (funext imports_part)
      _ = (units.zipIdx.map Prod.fst).map fun unit ↦ Scope.imports unit.root := by
        rw [List.map_map, List.map_eq_flatMap]
        rfl
      _ = units.map fun unit ↦ Scope.imports unit.root := by rw [List.zipIdx_map_fst]
  rw [importsOf, himports, List.getElem?_map]

/-- Of two units without a common key, one has no entries with a key, if every key in the part of a
unit is among the keys of the unit. -/
theorem absent_of_disjoint {α β : Type} {table : Registry → List α} {key : α → β}
    {keys : SourceUnit → List β} (hkeys : ∀ entry, ∀ x ∈ table (part entry), key x ∈ keys entry.1)
    {p : α → Bool} {b : β} (hp : ∀ x, p x = true → key x = b) {entry other : SourceUnit × Nat}
    (hdisjoint : (keys entry.1).Disjoint (keys other.1)) :
    (∀ x ∈ table (part entry), p x = false) ∨ ∀ x ∈ table (part other), p x = false := by
  by_cases hmem : b ∈ keys entry.1
  · refine Or.inr fun x hx ↦ Bool.eq_false_iff.2 fun htrue ↦ ?_
    exact hdisjoint hmem (hp x htrue ▸ hkeys other x hx)
  · refine Or.inl fun x hx ↦ Bool.eq_false_iff.2 fun htrue ↦ ?_
    exact hmem (hp x htrue ▸ hkeys entry x hx)

section Reordered

variable {place : Nat → Nat} {units units' : List SourceUnit}
  (hapart : units.Pairwise SourceUnit.Apart)
  (hperm : units'.zipIdx.Perm (units.zipIdx.map fun entry ↦ (entry.1, place entry.2)))
  (hplace : ∀ i, units'[place i]? = units[i]?)

include hapart hperm hplace

/-- Units that are apart are recorded alike in any order, up to their numbers. -/
theorem collect_all_renumbered : Renumbered place (collectAll units') (collectAll units) := by
  have hentries : units.zipIdx.Pairwise fun a b ↦ SourceUnit.Apart a.1 b.1 := by
    rwa [← List.zipIdx_map_fst 0 units, List.pairwise_map] at hapart
  have hunits : units'.Perm units := by
    have h := hperm.map Prod.fst
    rwa [List.zipIdx_map_fst, List.map_map, show Prod.fst ∘ (fun entry : SourceUnit × Nat ↦
      (entry.1, place entry.2)) = Prod.fst from rfl, List.zipIdx_map_fst] at h
  have hapart' := (hunits.pairwise_iff fun {_ _} h ↦ h.symm).2 hapart
  rw [collect_all_eq_concat (hapart.imp SourceUnit.Apart.keys),
    collect_all_eq_concat (hapart'.imp SourceUnit.Apart.keys)]
  refine ⟨fun key ↦ ?_, fun id ↦ ?_, fun id ↦ ?_, fun name ↦ ?_, fun i ↦ ?_, ?_⟩
  · refine find_parts hperm types (TypeDecl.renumber place) (fun _ ↦ rfl) (fun _ ↦ rfl) ?_
    exact hentries.imp fun h ↦ absent_of_disjoint (fun entry ↦ (Within.part entry).types)
      (fun _ heq ↦ eq_of_beq heq) h.keys
  · refine find_parts hperm methods (MethodDecl.renumber place) (fun _ ↦ rfl) (fun _ ↦ rfl) ?_
    exact hentries.imp fun h ↦ absent_of_disjoint (fun entry ↦ (Within.part entry).methods)
      (fun _ heq ↦ congrArg SymbolId.owner (eq_of_beq heq)) h.keys
  · refine find_parts hperm properties (PropertyDecl.renumber place) (fun _ ↦ rfl)
      (fun _ ↦ rfl) ?_
    exact hentries.imp fun h ↦ absent_of_disjoint (fun entry ↦ (Within.part entry).properties)
      (fun _ heq ↦ congrArg SymbolId.owner (eq_of_beq heq)) h.keys
  · refine (filter_parts hperm extensions id (fun _ ↦ rfl) (fun _ ↦ (List.map_id _).symm) ?_).trans
      (List.map_id _)
    exact hentries.imp fun h ↦ absent_of_disjoint (fun entry ↦ (Within.part entry).extensions)
      (fun _ heq ↦ eq_of_beq heq) h.extensions
  · rw [imports_of_concat, imports_of_concat, hplace]
  · have hlength : ∀ entry : SourceUnit × Nat,
        (part (entry.1, place entry.2)).methods.length = (part entry).methods.length := by
      intro entry
      rw [part_renumber place entry.1 entry.2, renumber, List.length_map]
    have hmethods := ((hperm.map part).flatMap_right methods).length_eq
    simp only [List.map_map, List.length_flatMap, Function.comp_def, hlength] at hmethods
    simpa only [methodCount, concat, List.length_flatMap, List.map_map, Function.comp_def]
      using hmethods

/-- Units that are apart declare the same in any order, up to their numbers. -/
theorem build_renumbered : Renumbered place (build units') (build units) :=
  (collect_all_renumbered hapart hperm hplace).resolve_all

end Reordered

end Registry

end MemberReach
