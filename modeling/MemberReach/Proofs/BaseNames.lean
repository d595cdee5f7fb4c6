import MemberReach.Registry.Collect

/-!
# Registries up to base types as written

A type keeps the descriptors of its base types only so that the second pass can resolve them.
`Registry.strip junk` leaves out those that `junk` selects. Recording a declaration commutes with
it, no question to a registry depends on it, and neither does the second pass, as long as the
descriptors left out denote no declared type (`strip_resolve_all`).
-/

namespace MemberReach

variable (junk : String × LookupContext → Bool)

/-- The declaration of a type without the written base types that `junk` selects. -/
def TypeDecl.strip (t : TypeDecl) : TypeDecl :=
  { t with baseNames := t.baseNames.filter fun base ↦ !junk base }

namespace Registry

/-- The registry without the written base types that `junk` selects. -/
def strip (r : Registry) : Registry :=
  { r with types := r.types.map (TypeDecl.strip junk) }

variable {junk}

/-! ### Questions -/

/-- The declaration of a type is the same up to written base types. -/
theorem type_strip (r : Registry) (key : TypeKey) :
    (r.strip junk).type? key = (r.type? key).map (TypeDecl.strip junk) := by
  rw [type?, strip, List.find?_map, type?]
  rfl

/-- The same types are declared. -/
theorem is_declared_strip (r : Registry) : (r.strip junk).isDeclared = r.isDeclared := by
  funext key
  rw [isDeclared, type_strip, Option.isSome_map, isDeclared]

/-- A descriptor denotes the same type. -/
theorem resolve_type_strip (r : Registry) : (r.strip junk).resolveType? = r.resolveType? := by
  funext descriptor context
  unfold resolveType?
  rw [is_declared_strip]
  rfl

/-- A type inherits from the same types. -/
theorem chain_from_strip (r : Registry) (seen stack : List TypeKey) :
    (r.strip junk).chainFrom seen stack =
      (r.chainFrom seen stack).map (TypeDecl.strip junk) := by
  fun_induction chainFrom r seen stack with
  | case1 => rw [chainFrom, List.map_nil]
  | case2 seen key rest hseen ih => rw [chainFrom, dif_pos hseen, ih]
  | case3 seen key rest hseen htype ih =>
      rw [chainFrom, dif_neg hseen]
      split
      · exact ih
      · rename_i t ht
        rw [type_strip, htype] at ht
        cases ht
  | case4 seen key rest hseen t htype ih =>
      rw [chainFrom, dif_neg hseen]
      split
      · rename_i ht
        rw [type_strip, htype] at ht
        cases ht
      · rename_i u hu
        rw [type_strip, htype] at hu
        cases hu
        rw [List.map_cons, ← ih]
        rfl

/-- What is read off the types that a type inherits from stays. -/
theorem flat_map_type_chain_strip {α : Type} (r : Registry) (key : TypeKey)
    {f : TypeDecl → List α} (hf : ∀ t : TypeDecl, f (t.strip junk) = f t) :
    ((r.strip junk).typeChain key).flatMap f = (r.typeChain key).flatMap f := by
  rw [typeChain, chain_from_strip, List.flatMap_map, typeChain]
  exact congrArg (List.flatMap · _) (funext hf)

/-- A type inherits from the same types by key. -/
theorem any_type_chain_strip (r : Registry) (key : TypeKey) (p : TypeKey → Bool) :
    (((r.strip junk).typeChain key).any fun t ↦ p t.key) =
      (r.typeChain key).any fun t ↦ p t.key := by
  rw [typeChain, chain_from_strip, List.any_map, typeChain]
  rfl

/-- A name finds the same methods. -/
theorem find_methods_strip (r : Registry) : (r.strip junk).findMethods = r.findMethods := by
  funext key name
  rw [findMethods, flat_map_type_chain_strip r key fun _ ↦ rfl, findMethods]
  rfl

/-- A name finds the same property. -/
theorem find_property_strip (r : Registry) : (r.strip junk).findProperty? = r.findProperty? := by
  funext key name
  rw [findProperty?, flat_map_type_chain_strip r key fun _ ↦ rfl, findProperty?]
  rfl

/-- A name finds the same field. -/
theorem find_field_strip (r : Registry) : (r.strip junk).findField? = r.findField? := by
  funext key name
  rw [findField?, flat_map_type_chain_strip r key fun _ ↦ rfl, findField?]

/-- A parameter has the same type. -/
theorem parameter_type_strip (r : Registry) :
    (r.strip junk).parameterType? = r.parameterType? := by
  funext id index
  unfold parameterType?
  rw [resolve_type_strip]
  rfl

/-! ### The first pass -/

/-- A change of a type commutes with leaving out written base types if it does so on each type. -/
theorem strip_modify_type (r : Registry) (key : TypeKey) {f g : TypeDecl → TypeDecl}
    (h : ∀ t, (f t).strip junk = g (t.strip junk)) :
    (r.modifyType key f).strip junk = (r.strip junk).modifyType key g := by
  unfold modifyType strip
  simp only [List.map_map]
  congr 2
  funext t
  simp only [Function.comp_apply]
  by_cases hkey : (t.key == key) = true
  · rw [if_pos hkey, if_pos (show ((t.strip junk).key == key) = true from hkey), h]
  · rw [if_neg hkey, if_neg (show ¬((t.strip junk).key == key) = true from hkey)]

/-- Recording a type commutes with leaving out written base types. -/
theorem strip_add_type (r : Registry) (key : TypeKey) (bases : List (String × LookupContext)) :
    (r.addType key bases).strip junk =
      (r.strip junk).addType key (bases.filter fun base ↦ !junk base) := by
  unfold addType
  rw [is_declared_strip]
  split
  · apply strip_modify_type r key
    intro t
    simp only [TypeDecl.strip, List.filter_append]
  · simp only [strip, List.map_append, List.map_cons, List.map_nil, TypeDecl.strip]

/-- Recording a property commutes with leaving out written base types. -/
theorem strip_add_property (r : Registry) (p : PropertyDecl) :
    (r.addProperty p).strip junk = (r.strip junk).addProperty p := by
  unfold addProperty
  show _ = if (r.property? p.symbol.id).isSome then _ else _
  split
  · rfl
  · let record : TypeDecl → TypeDecl := fun t ↦
      { t with properties := t.properties ++ [p.symbol.id] }
    have hmodify : (r.modifyType p.symbol.id.owner record).strip junk =
        (r.strip junk).modifyType p.symbol.id.owner record :=
      strip_modify_type r p.symbol.id.owner fun _ ↦ rfl
    exact congrArg (fun r ↦ { r with properties := r.properties ++ [p] }) hmodify

/-- Recording a field commutes with leaving out written base types. -/
theorem strip_add_field (r : Registry) (key : TypeKey) (field : FieldDecl) :
    (r.addField key field).strip junk = (r.strip junk).addField key field :=
  strip_modify_type r key fun _ ↦ rfl

/-- Recording a new method commutes with leaving out written base types. -/
theorem strip_add_new_method (r : Registry) (key : TypeKey) (m : MethodDecl) :
    (r.addNewMethod key m).strip junk = (r.strip junk).addNewMethod key m := by
  let record : TypeDecl → TypeDecl := fun t ↦ { t with methods := t.methods ++ [m.symbol.id] }
  have hmodify : (r.modifyType key record).strip junk = (r.strip junk).modifyType key record :=
    strip_modify_type r key fun _ ↦ rfl
  exact congrArg (fun r ↦
    { r with
      methods := r.methods ++ [m]
      extensions := if m.isExtension then r.extensions ++ [m.symbol.id] else r.extensions })
    hmodify

/-- Recording a method commutes with leaving out written base types. -/
theorem strip_add_method (r : Registry) (key : TypeKey) (m : MethodDecl) :
    (r.addMethod key m).strip junk = (r.strip junk).addMethod key m := by
  have hfind : (r.strip junk).method? m.symbol.id = r.method? m.symbol.id := rfl
  unfold addMethod
  rw [hfind]
  cases r.method? m.symbol.id with
  | none => exact strip_add_new_method r key m
  | some old =>
      show (if old.hasBody && !m.hasBody then r else r.replaceMethod m).strip junk =
        if old.hasBody && !m.hasBody then r.strip junk else (r.strip junk).replaceMethod m
      split <;> rfl

/-- Recording a member commutes with leaving out written base types. -/
theorem strip_collect_member (site : Site) (r : Registry) (c : Cursor) :
    (site.collectMember r c).strip junk = site.collectMember (r.strip junk) c := by
  unfold Site.collectMember
  split
  · cases site.method? c with
    | none => rfl
    | some m => exact strip_add_method r site.key m
  · cases site.property? c with
    | none => rfl
    | some p => exact strip_add_property r p
  · exact (List.foldl_hom (strip junk) fun r field ↦ (strip_add_field r site.key field).symm).symm
  · rfl

/-- The property that a positional parameter declares, recorded. -/
def addPositional (site : Site) (r : Registry) (parameter : Cursor × Cursor) : Registry :=
  r.addProperty (site.property parameter.1.text parameter.1 parameter.2)

/-- Recording a positional parameter commutes with leaving out written base types. -/
theorem strip_add_positional (site : Site) (r : Registry) (parameter : Cursor × Cursor) :
    (addPositional site r parameter).strip junk = addPositional site (r.strip junk) parameter :=
  strip_add_property r _

/-- The members of a type declaration, recorded on their own. -/
def collectBody (site : Site) (r : Registry) (c : Cursor) : Registry :=
  (members c).foldl site.collectMember ((positionalParameters c).foldl (addPositional site) r)

/-- Recording the members of a type commutes with leaving out written base types. -/
theorem strip_collect_body (site : Site) (r : Registry) (c : Cursor) :
    (collectBody site r c).strip junk = collectBody site (r.strip junk) c := by
  unfold collectBody
  rw [← List.foldl_hom (strip junk) fun r d ↦ (strip_collect_member site r d).symm,
    ← List.foldl_hom (strip junk) fun r parameter ↦ (strip_add_positional site r parameter).symm]

/-- Of a type declaration, only the base types matter for what is left out. -/
theorem strip_collect (site : Site) (r : Registry) (c : Cursor) :
    (site.collect r c).strip junk =
      collectBody site ((r.strip junk).addType site.key
        (((baseNames c).map fun name ↦ (name, site.context)).filter fun base ↦ !junk base)) c := by
  rw [← strip_add_type, ← strip_collect_body]
  rfl

/-! ### The second pass -/

/-- The second pass declares no type and removes none. -/
theorem is_declared_resolve_all (r : Registry) : r.resolveAll.isDeclared = r.isDeclared := by
  funext key
  have htype : r.resolveAll.type? key = (r.type? key).map r.resolveTypeDecl := by
    rw [type?, resolveAll, List.find?_map, type?]
    rfl
  rw [isDeclared, htype, Option.isSome_map, isDeclared]

/-- The second pass changes nothing about what a descriptor denotes. -/
theorem resolve_type_resolve_all (r : Registry) :
    r.resolveAll.resolveType? = r.resolveType? := by
  funext descriptor context
  unfold resolveType?
  rw [is_declared_resolve_all]
  rfl

/-- Descriptors that denote no declared type give a type no bases. -/
theorem resolve_type_decl_strip {r : Registry}
    (h : ∀ base, junk base = true → r.resolveType? base.1 base.2 = none) (t : TypeDecl) :
    (r.resolveTypeDecl (t.strip junk)).strip (fun _ ↦ true) =
      (r.resolveTypeDecl t).strip fun _ ↦ true := by
  have hbases : ((t.baseNames.filter fun base ↦ !junk base).filterMap
        fun base ↦ r.resolveType? base.1 base.2) =
      t.baseNames.filterMap fun base ↦ r.resolveType? base.1 base.2 := by
    rw [List.filterMap_filter]
    refine congrArg (List.filterMap · _) (funext fun base ↦ ?_)
    cases hjunk : junk base with
    | false => rfl
    | true => rw [h base hjunk]; rfl
  have hnone : ∀ bases : List (String × LookupContext), (bases.filter fun _ ↦ false) = [] :=
    fun bases ↦ List.filter_eq_nil_iff.2 fun _ _ ↦ Bool.false_ne_true
  simp only [TypeDecl.strip, resolveTypeDecl, Bool.not_true]
  rw [hbases, hnone, hnone]

/-- The second pass gives the same without descriptors that denote no declared type. -/
theorem strip_resolve_all {r : Registry}
    (h : ∀ base, junk base = true → r.resolveType? base.1 base.2 = none) :
    (r.strip junk).resolveAll.strip (fun _ ↦ true) = r.resolveAll.strip fun _ ↦ true := by
  have htypes : ((r.strip junk).types.map (r.strip junk).resolveTypeDecl).map
        (TypeDecl.strip fun _ ↦ true) =
      (r.types.map r.resolveTypeDecl).map (TypeDecl.strip fun _ ↦ true) := by
    simp only [strip, List.map_map]
    apply List.map_congr_left
    intro t _
    have hdecl : (r.strip junk).resolveTypeDecl (t.strip junk) =
        r.resolveTypeDecl (t.strip junk) := by
      unfold resolveTypeDecl
      rw [resolve_type_strip]
    exact (congrArg _ hdecl).trans (resolve_type_decl_strip h t)
  have hmethods : (r.strip junk).resolveMethodDecl = r.resolveMethodDecl := by
    funext m
    unfold resolveMethodDecl
    rw [resolve_type_strip]
  have hproperties : (r.strip junk).resolvePropertyDecl = r.resolvePropertyDecl := by
    funext p
    unfold resolvePropertyDecl
    rw [resolve_type_strip]
  unfold resolveAll
  rw [hmethods, hproperties]
  exact congrArg (fun types ↦ (⟨types, _, _, _, _⟩ : Registry)) htypes

end Registry

end MemberReach
