import Mathlib.Data.List.Basic
import MemberReach.Proofs.BaseNames
import MemberReach.Proofs.MemberScopes

/-!
# The registry of units that declare different types

What the first pass records for a unit depends on what is recorded already only where the unit
declares a type, or adds to a type, that is known. For units that have no type in common the
registry is therefore made of one part for each unit (`collect_all_eq_concat`), and the part of a
unit at another position is the same up to the number of the unit (`part_renumber`).
-/

namespace MemberReach

/-! ### Renumbered units -/

section Renumber

variable (place : Nat → Nat)

/-- The same place in a renumbered unit. -/
def LookupContext.renumber (context : LookupContext) : LookupContext :=
  { context with unit := place context.unit }

/-- The field in a renumbered unit. -/
def FieldDecl.renumber (field : FieldDecl) : FieldDecl :=
  { field with context := field.context.renumber place }

/-- The property in a renumbered unit. -/
def PropertyDecl.renumber (p : PropertyDecl) : PropertyDecl :=
  { p with context := p.context.renumber place }

/-- The method in a renumbered unit. -/
def MethodDecl.renumber (m : MethodDecl) : MethodDecl :=
  { m with unit := place m.unit, context := m.context.renumber place }

/-- The type with the parts of its declaration in renumbered units. -/
def TypeDecl.renumber (t : TypeDecl) : TypeDecl :=
  { t with
    baseNames := t.baseNames.map fun base ↦ (base.1, base.2.renumber place)
    fields := t.fields.map (FieldDecl.renumber place) }

/-- The registry with renumbered units. -/
def Registry.renumber (r : Registry) : Registry :=
  { r with
    types := r.types.map (TypeDecl.renumber place)
    methods := r.methods.map (MethodDecl.renumber place)
    properties := r.properties.map (PropertyDecl.renumber place) }

end Renumber

namespace Registry

/-! ### Registries side by side -/

/-- The registry with the declarations of two registries. -/
def append (r s : Registry) : Registry :=
  { types := r.types ++ s.types
    methods := r.methods ++ s.methods
    properties := r.properties ++ s.properties
    extensions := r.extensions ++ s.extensions
    imports := r.imports ++ s.imports }

/-- The registry with the declarations of some registries, in order. -/
def concat (parts : List Registry) : Registry :=
  { types := parts.flatMap types
    methods := parts.flatMap methods
    properties := parts.flatMap properties
    extensions := parts.flatMap extensions
    imports := parts.flatMap imports }

/-- A registry in front of others is one more part. -/
theorem append_concat_cons (r s : Registry) (parts : List Registry) :
    (r.append s).append (concat parts) = r.append (concat (s :: parts)) := by
  simp only [append, concat, List.flatMap_cons, List.append_assoc]

/-- Nothing is declared without declarations. -/
theorem append_empty (r : Registry) : r.append empty = r := by
  simp only [append, empty, List.append_nil]

/-- Declarations behind none are all there is. -/
theorem empty_append (r : Registry) : empty.append r = r := by
  simp only [append, empty, List.nil_append]

/-! ### What a unit declares -/

/-- The methods that the type declarations of a unit have as members. -/
def methodMembers (unit : SourceUnit) : List Cursor :=
  ((typeDeclarations unit).flatMap members).filter fun c ↦ c.kind == .methodDeclaration

/-- The types that a unit declares or adds a method to. -/
def declaredKeys (unit : SourceUnit) : List TypeKey :=
  (typeDeclarations unit ++ methodMembers unit).filterMap fun c ↦ (Scope.of c).typeKey?

/-- The names of the extension methods that a unit declares. -/
def extensionNames (unit : SourceUnit) : List String :=
  ((methodMembers unit).filter Cursor.isExtensionMethod).filterMap Cursor.declaredName?

/-- A unit adds methods to no types but those it declares, as long as the bodies of these are not
declarations of types or namespaces themselves. -/
theorem declared_keys_of_plain {unit : SourceUnit} (hplain : PlainBodies [unit]) {key : TypeKey} :
    key ∈ declaredKeys unit ↔ ∃ t ∈ typeDeclarations unit, (Scope.of t).typeKey? = some key := by
  simp only [declaredKeys, List.mem_filterMap, List.mem_append]
  constructor
  · rintro ⟨c, hc | hc, hkey⟩
    · exact ⟨c, hc, hkey⟩
    · obtain ⟨hc, hkind⟩ := List.mem_filter.1 hc
      obtain ⟨t, ht, hc⟩ := List.mem_flatMap.1 hc
      have hscope := scope_of_member (hplain unit List.mem_cons_self t ht) hc (eq_of_beq hkind)
      exact ⟨t, ht, hscope ▸ hkey⟩
  · rintro ⟨t, ht, hkey⟩
    exact ⟨t, Or.inl ht, hkey⟩

/-- A type that a unit declares is among its types. -/
theorem key_mem_declared_keys {unit : SourceUnit} {t : Cursor} {key : TypeKey}
    (ht : t ∈ typeDeclarations unit) (hkey : (Scope.of t).typeKey? = some key) :
    key ∈ declaredKeys unit :=
  List.mem_filterMap.2 ⟨t, List.mem_append_left _ ht, hkey⟩

/-- A method of a type declaration is among those of the unit. -/
theorem mem_method_members {unit : SourceUnit} {t c : Cursor} (ht : t ∈ typeDeclarations unit)
    (hc : c ∈ members t) (hkind : c.kind = .methodDeclaration) : c ∈ methodMembers unit :=
  List.mem_filter.2 ⟨List.mem_flatMap.2 ⟨t, ht, hc⟩, beq_iff_eq.2 hkind⟩

/-- The owner of a method that a unit declares is among its types. -/
theorem owner_mem_declared_keys {unit : SourceUnit} {c : Cursor} {id : SymbolId}
    (hc : c ∈ methodMembers unit) (hid : methodIdentity? c = some id) :
    id.owner ∈ declaredKeys unit := by
  obtain ⟨name, owner, _, howner, rfl⟩ := method_identity_eq_some.1 hid
  exact List.mem_filterMap.2 ⟨c, List.mem_append_right _ hc, howner⟩

/-- The name of an extension method that a unit declares is among its names. -/
theorem name_mem_extension_names {unit : SourceUnit} {c : Cursor} {id : SymbolId}
    (hc : c ∈ methodMembers unit) (hextension : c.isExtensionMethod = true)
    (hid : methodIdentity? c = some id) : id.name ∈ extensionNames unit := by
  obtain ⟨name, owner, hname, _, rfl⟩ := method_identity_eq_some.1 hid
  exact List.mem_filterMap.2 ⟨c, List.mem_filter.2 ⟨hc, hextension⟩, hname⟩

/-! ### Recording behind other declarations -/

section Tables

variable {α β : Type} [BEq β] [LawfulBEq β] (key : α → β) (renumber : α → α)
  (hkey : ∀ a, key (renumber a) = key a) {front : List α} {b : β}
  (hfront : ∀ a ∈ front, key a ≠ b)

include hkey hfront

/-- A key that the front of a table lacks is looked up behind it. -/
theorem find_behind {back : List α} :
    (front ++ back.map renumber).find? (fun a ↦ key a == b) =
      (back.find? fun a ↦ key a == b).map renumber := by
  have hnone : front.find? (fun a ↦ key a == b) = none :=
    List.find?_eq_none.2 fun a ha heq ↦ hfront a ha (eq_of_beq heq)
  have hback : (fun a ↦ key a == b) ∘ renumber = fun a ↦ key a == b := by
    funext a
    rw [Function.comp_apply, hkey]
  rw [List.find?_append, hnone, Option.none_or, List.find?_map, hback]

/-- Entries with a key that the front of a table lacks are changed behind it. -/
theorem change_behind {f g : α → α} (h : ∀ a, f (renumber a) = renumber (g a)) (back : List α) :
    ((front ++ back.map renumber).map fun a ↦ if key a == b then f a else a) =
      front ++ (back.map fun a ↦ if key a == b then g a else a).map renumber := by
  have hsame : (front.map fun a ↦ if key a == b then f a else a) = front := by
    refine (List.map_congr_left fun a ha ↦ ?_).trans (List.map_id front)
    exact if_neg fun heq ↦ hfront a ha (eq_of_beq heq)
  rw [List.map_append, hsame, List.map_map, List.map_map]
  refine congrArg (front ++ ·) (List.map_congr_left fun a _ ↦ ?_)
  rw [Function.comp_apply, Function.comp_apply, hkey]
  split
  · exact h a
  · rfl

end Tables

/-- A registry that declares nothing of some types. -/
structure Spares (r : Registry) (keys : List TypeKey) : Prop where
  types : ∀ t ∈ r.types, t.key ∉ keys
  methods : ∀ m ∈ r.methods, m.symbol.id.owner ∉ keys
  properties : ∀ p ∈ r.properties, p.symbol.id.owner ∉ keys

section Behind

variable {place : Nat → Nat} {r : Registry} {keys : List TypeKey} (hr : r.Spares keys)
  (s : Registry)

include hr

/-- A spared type is declared behind the other declarations. -/
theorem type_behind {key : TypeKey} (hkey : key ∈ keys) :
    (r.append (s.renumber place)).type? key = (s.type? key).map (TypeDecl.renumber place) :=
  find_behind TypeDecl.key (TypeDecl.renumber place) (fun _ ↦ rfl)
    fun t ht heq ↦ hr.types t ht (heq ▸ hkey)

/-- A method of a spared type is declared behind the other declarations. -/
theorem method_behind {id : SymbolId} (howner : id.owner ∈ keys) :
    (r.append (s.renumber place)).method? id = (s.method? id).map (MethodDecl.renumber place) :=
  find_behind (fun m : MethodDecl ↦ m.symbol.id) (MethodDecl.renumber place) (fun _ ↦ rfl)
    fun m hm heq ↦ hr.methods m hm (heq ▸ howner)

/-- A property of a spared type is declared behind the other declarations. -/
theorem property_behind {id : SymbolId} (howner : id.owner ∈ keys) :
    (r.append (s.renumber place)).property? id =
      (s.property? id).map (PropertyDecl.renumber place) :=
  find_behind (fun p : PropertyDecl ↦ p.symbol.id) (PropertyDecl.renumber place) (fun _ ↦ rfl)
    fun p hp heq ↦ hr.properties p hp (heq ▸ howner)

/-- A change of a spared type is made behind the other declarations. -/
theorem modify_type_behind {key : TypeKey} (hkey : key ∈ keys) {f g : TypeDecl → TypeDecl}
    (h : ∀ t, f (t.renumber place) = (g t).renumber place) :
    (r.append (s.renumber place)).modifyType key f =
      r.append ((s.modifyType key g).renumber place) := by
  have htypes := change_behind TypeDecl.key (TypeDecl.renumber place) (fun _ ↦ rfl)
    (fun t ht heq ↦ hr.types t ht (heq ▸ hkey)) h s.types
  exact congrArg (fun types ↦ { r.append (s.renumber place) with types := types }) htypes

/-- A spared type is recorded behind the other declarations. -/
theorem add_type_behind {key : TypeKey} (hkey : key ∈ keys)
    (bases : List (String × LookupContext)) :
    (r.append (s.renumber place)).addType key
        (bases.map fun base ↦ (base.1, base.2.renumber place)) =
      r.append ((s.addType key bases).renumber place) := by
  have hdeclared : (r.append (s.renumber place)).isDeclared key = s.isDeclared key := by
    rw [isDeclared, type_behind hr s hkey, Option.isSome_map, isDeclared]
  unfold addType
  rw [hdeclared]
  split
  · apply modify_type_behind hr s hkey
    intro t
    simp only [TypeDecl.renumber, List.map_append]
  · simp only [append, renumber, List.map_append, List.append_assoc]
    rfl

/-- A property of a spared type is recorded behind the other declarations. -/
theorem add_property_behind {p : PropertyDecl} (howner : p.symbol.id.owner ∈ keys) :
    (r.append (s.renumber place)).addProperty (p.renumber place) =
      r.append ((s.addProperty p).renumber place) := by
  have hknown : ((r.append (s.renumber place)).property? (p.renumber place).symbol.id).isSome =
      (s.property? p.symbol.id).isSome := by
    rw [← Option.isSome_map (f := PropertyDecl.renumber place) (x := s.property? p.symbol.id),
      ← property_behind hr s howner]
    rfl
  unfold addProperty
  rw [hknown]
  split
  · rfl
  · let record : TypeDecl → TypeDecl := fun t ↦
      { t with properties := t.properties ++ [p.symbol.id] }
    have hmodify : (r.append (s.renumber place)).modifyType p.symbol.id.owner record =
        r.append ((s.modifyType p.symbol.id.owner record).renumber place) :=
      modify_type_behind hr s howner fun _ ↦ rfl
    refine (congrArg (fun r : Registry ↦
      { r with properties := r.properties ++ [p.renumber place] }) hmodify).trans ?_
    simp only [append, renumber, List.map_append, List.append_assoc]
    rfl

/-- A field of a spared type is recorded behind the other declarations. -/
theorem add_field_behind {key : TypeKey} (hkey : key ∈ keys) (field : FieldDecl) :
    (r.append (s.renumber place)).addField key (field.renumber place) =
      r.append ((s.addField key field).renumber place) := by
  apply modify_type_behind hr s hkey
  intro t
  simp only [TypeDecl.renumber, List.map_append]
  rfl

/-- A new method of a spared type is recorded behind the other declarations. -/
theorem add_new_method_behind {key : TypeKey} (hkey : key ∈ keys) (m : MethodDecl) :
    (r.append (s.renumber place)).addNewMethod key (m.renumber place) =
      r.append ((s.addNewMethod key m).renumber place) := by
  let record : TypeDecl → TypeDecl := fun t ↦ { t with methods := t.methods ++ [m.symbol.id] }
  have hmodify : (r.append (s.renumber place)).modifyType key record =
      r.append ((s.modifyType key record).renumber place) :=
    modify_type_behind hr s hkey fun _ ↦ rfl
  refine (congrArg (fun r : Registry ↦
    { r with
      methods := r.methods ++ [m.renumber place]
      extensions := if m.isExtension then r.extensions ++ [m.symbol.id] else r.extensions })
    hmodify).trans ?_
  cases hextension : m.isExtension <;>
    simp only [append, renumber, addNewMethod, modifyType, hextension, if_true, if_false,
      Bool.false_eq_true, List.map_append, List.append_assoc] <;>
    rfl

/-- A method of a spared type is replaced behind the other declarations. -/
theorem replace_method_behind {m : MethodDecl} (howner : m.symbol.id.owner ∈ keys) :
    (r.append (s.renumber place)).replaceMethod (m.renumber place) =
      r.append ((s.replaceMethod m).renumber place) := by
  have hmethods := change_behind (f := fun _ ↦ m.renumber place) (g := fun _ ↦ m)
    (fun m : MethodDecl ↦ m.symbol.id) (MethodDecl.renumber place) (fun _ ↦ rfl)
    (fun n hn heq ↦ hr.methods n hn (heq ▸ howner)) (fun _ ↦ rfl) s.methods
  exact congrArg (fun methods ↦ { r.append (s.renumber place) with methods := methods }) hmethods

/-- A method of spared types is recorded behind the other declarations. -/
theorem add_method_behind {key : TypeKey} (hkey : key ∈ keys) {m : MethodDecl}
    (howner : m.symbol.id.owner ∈ keys) :
    (r.append (s.renumber place)).addMethod key (m.renumber place) =
      r.append ((s.addMethod key m).renumber place) := by
  have hfind : (r.append (s.renumber place)).method? (m.renumber place).symbol.id =
      (s.method? m.symbol.id).map (MethodDecl.renumber place) := method_behind hr s howner
  unfold addMethod
  rw [hfind]
  cases s.method? m.symbol.id with
  | none => exact add_new_method_behind hr s hkey m
  | some old =>
      show (if old.hasBody && !m.hasBody then r.append (s.renumber place)
          else (r.append (s.renumber place)).replaceMethod (m.renumber place)) =
        r.append ((if old.hasBody && !m.hasBody then s else s.replaceMethod m).renumber place)
      split
      · rfl
      · exact replace_method_behind hr s howner

end Behind

namespace Site

variable (place : Nat → Nat)

/-- The site in a renumbered unit. -/
def renumber (site : Site) : Site :=
  { site with unitId := place site.unitId }

/-- The method that a node declares in a renumbered unit. -/
theorem method_renumber (site : Site) (c : Cursor) :
    (site.renumber place).method? c = (site.method? c).map (MethodDecl.renumber place) := by
  unfold method?
  cases methodIdentity? c <;> rfl

/-- The property that a node declares in a renumbered unit. -/
theorem property_renumber (site : Site) (c : Cursor) :
    (site.renumber place).property? c = (site.property? c).map (PropertyDecl.renumber place) := by
  unfold property?
  cases c.declaredName? with
  | none => rfl
  | some name => cases c.child? .type <;> rfl

/-- The fields that a node declares in a renumbered unit. -/
theorem fields_renumber (site : Site) (c : Cursor) :
    (site.renumber place).fields c = (site.fields c).map (FieldDecl.renumber place) := by
  unfold fields
  cases c.variableDeclaration? with
  | none => rfl
  | some declaration =>
      simp only [List.map_map]
      rfl

/-- A method is recorded as an extension method if the node declares one. -/
theorem is_extension {site : Site} {c : Cursor} {m : MethodDecl} (h : site.method? c = some m) :
    m.isExtension = c.isExtensionMethod := by
  simp only [method?, Option.bind_eq_bind, Option.bind_eq_some_iff, Option.pure_def,
    Option.some.injEq] at h
  obtain ⟨id, _, rfl⟩ := h
  rfl

/-- A property that a node declares belongs to the type of the declaration. -/
theorem owner_of_property {site : Site} {c : Cursor} {p : PropertyDecl}
    (h : site.property? c = some p) : p.symbol.id.owner = site.key := by
  simp only [property?, Option.bind_eq_bind, Option.bind_eq_some_iff, Option.pure_def,
    Option.some.injEq] at h
  obtain ⟨name, _, type, _, rfl⟩ := h
  rfl

end Site

section Units

variable {place : Nat → Nat} {r : Registry} {unit : SourceUnit}
  (hr : r.Spares (declaredKeys unit))

include hr

/-- A member of a unit is recorded behind the declarations of other types. -/
theorem collect_member_behind {site : Site} (hkey : site.key ∈ declaredKeys unit) (s : Registry)
    {c : Cursor} (hc : c.kind = .methodDeclaration → c ∈ methodMembers unit) :
    (site.renumber place).collectMember (r.append (s.renumber place)) c =
      r.append ((site.collectMember s c).renumber place) := by
  unfold Site.collectMember
  split
  next hkind =>
    rw [Site.method_renumber]
    cases hmethod : site.method? c with
    | none => rfl
    | some m =>
        have howner := owner_mem_declared_keys (hc hkind) (Site.method_records hmethod).id
        exact add_method_behind hr s hkey howner
  next =>
    rw [Site.property_renumber]
    cases hproperty : site.property? c with
    | none => rfl
    | some p =>
        exact add_property_behind hr s (Site.owner_of_property hproperty ▸ hkey)
  next =>
    rw [Site.fields_renumber, List.foldl_map]
    exact List.foldl_rel (r := fun a b : Registry ↦ a = r.append (b.renumber place)) rfl
      fun field _ a b hab ↦ hab ▸ add_field_behind hr b hkey field
  next => rfl

/-- A type declaration of a unit is recorded behind the declarations of other types. -/
theorem collect_type_behind (i : Nat) (s : Registry) {t : Cursor}
    (ht : t ∈ typeDeclarations unit) :
    collectType (place i) unit (r.append (s.renumber place)) t =
      r.append ((collectType i unit s t).renumber place) := by
  simp only [collectType]
  cases hkey : (Scope.of t).typeKey? with
  | none => rfl
  | some key =>
      let site : Site := ⟨i, unit, key, Scope.of t⟩
      have hmem : site.key ∈ declaredKeys unit := key_mem_declared_keys ht hkey
      have hbases : ((baseNames t).map fun name ↦ (name, (site.renumber place).context)) =
          ((baseNames t).map fun name ↦ (name, site.context)).map fun base ↦
            (base.1, base.2.renumber place) := by
        rw [List.map_map]
        rfl
      show (members t).foldl (site.renumber place).collectMember
          ((positionalParameters t).foldl (addPositional (site.renumber place))
            ((r.append (s.renumber place)).addType key
              ((baseNames t).map fun name ↦ (name, (site.renumber place).context)))) =
        r.append (((members t).foldl site.collectMember
          ((positionalParameters t).foldl (addPositional site)
            (s.addType key ((baseNames t).map fun name ↦ (name, site.context))))).renumber place)
      rw [hbases, add_type_behind hr s hmem]
      refine List.foldl_rel (r := fun a b : Registry ↦ a = r.append (b.renumber place)) ?_ ?_
      · refine List.foldl_rel (r := fun a b : Registry ↦ a = r.append (b.renumber place)) rfl ?_
        rintro parameter _ a b rfl
        exact add_property_behind (p := site.property parameter.1.text parameter.1 parameter.2)
          hr b hmem
      · rintro c hc a b rfl
        exact collect_member_behind hr hmem b (mem_method_members ht hc)

variable (place) in
/-- A unit is recorded behind the declarations of other types. -/
theorem collect_unit_behind (i : Nat) (s : Registry) :
    collectUnit (r.append (s.renumber place)) (unit, place i) =
      r.append ((collectUnit s (unit, i)).renumber place) := by
  unfold collectUnit
  refine List.foldl_rel (r := fun a b : Registry ↦ a = r.append (b.renumber place)) ?_ ?_
  · simp only [append, renumber, List.append_assoc]
  · rintro t ht a b rfl
    exact collect_type_behind hr i b ht

end Units

/-! ### Parts of a registry -/

/-- What the first pass records for a unit on its own. -/
def part (entry : SourceUnit × Nat) : Registry :=
  collectUnit empty entry

/-- A registry that declares members of some types only, and extension methods of some names
only. -/
structure Within (keys : List TypeKey) (names : List String) (r : Registry) : Prop where
  types : ∀ t ∈ r.types, t.key ∈ keys
  methods : ∀ m ∈ r.methods, m.symbol.id.owner ∈ keys
  properties : ∀ p ∈ r.properties, p.symbol.id.owner ∈ keys
  extensions : ∀ id ∈ r.extensions, id.name ∈ names

namespace Within

variable {keys : List TypeKey} {names : List String} {r : Registry}

/-- A change that keeps the key of each type stays within the types. -/
theorem modify_type (h : r.Within keys names) (key : TypeKey) {f : TypeDecl → TypeDecl}
    (hf : ∀ t, (f t).key = t.key) : (r.modifyType key f).Within keys names := by
  refine ⟨fun t ht ↦ ?_, h.methods, h.properties, h.extensions⟩
  obtain ⟨u, hu, rfl⟩ := List.mem_map.1 ht
  split
  · exact hf u ▸ h.types u hu
  · exact h.types u hu

/-- Recording one of the types stays within them. -/
theorem add_type (h : r.Within keys names) {key : TypeKey} (hkey : key ∈ keys)
    (bases : List (String × LookupContext)) : (r.addType key bases).Within keys names := by
  unfold addType
  split
  · exact h.modify_type key fun _ ↦ rfl
  · refine ⟨fun t ht ↦ ?_, h.methods, h.properties, h.extensions⟩
    rcases List.mem_append.1 ht with ht | ht
    · exact h.types t ht
    · exact List.mem_singleton.1 ht ▸ hkey

/-- Recording a property of one of the types stays within them. -/
theorem add_property (h : r.Within keys names) {p : PropertyDecl}
    (howner : p.symbol.id.owner ∈ keys) : (r.addProperty p).Within keys names := by
  unfold addProperty
  split
  · exact h
  · refine ⟨(h.modify_type _ ?_).types, h.methods, fun q hq ↦ ?_, h.extensions⟩
    · exact fun _ ↦ rfl
    · rcases List.mem_append.1 hq with hq | hq
      · exact h.properties q hq
      · exact List.mem_singleton.1 hq ▸ howner

/-- Recording a method of one of the types stays within them. -/
theorem add_method (h : r.Within keys names) (key : TypeKey) {m : MethodDecl}
    (howner : m.symbol.id.owner ∈ keys)
    (hname : m.isExtension = true → m.symbol.id.name ∈ names) :
    (r.addMethod key m).Within keys names := by
  unfold addMethod
  split
  · refine ⟨(h.modify_type key ?_).types, fun n hn ↦ ?_, h.properties, fun id hid ↦ ?_⟩
    · exact fun _ ↦ rfl
    · rcases List.mem_append.1 hn with hn | hn
      · exact h.methods n hn
      · exact List.mem_singleton.1 hn ▸ howner
    · simp only [addNewMethod] at hid
      split at hid
      next hextension =>
        rcases List.mem_append.1 hid with hid | hid
        · exact h.extensions id hid
        · exact List.mem_singleton.1 hid ▸ hname hextension
      next => exact h.extensions id hid
  · split
    · exact h
    · refine ⟨h.types, fun n hn ↦ ?_, h.properties, h.extensions⟩
      obtain ⟨old, hold, rfl⟩ := List.mem_map.1 hn
      split
      · exact howner
      · exact h.methods old hold

/-- Recording a member of a unit stays within what the unit declares. -/
theorem collect_member {unit : SourceUnit}
    (h : r.Within (declaredKeys unit) (extensionNames unit)) {site : Site}
    (hkey : site.key ∈ declaredKeys unit) {c : Cursor}
    (hc : c.kind = .methodDeclaration → c ∈ methodMembers unit) :
    (site.collectMember r c).Within (declaredKeys unit) (extensionNames unit) := by
  unfold Site.collectMember
  split
  next hkind =>
    cases hmethod : site.method? c with
    | none => exact h
    | some m =>
        have hid := (Site.method_records hmethod).id
        refine h.add_method site.key (owner_mem_declared_keys (hc hkind) hid) fun hextension ↦ ?_
        exact name_mem_extension_names (hc hkind) (Site.is_extension hmethod ▸ hextension) hid
  next =>
    cases hproperty : site.property? c with
    | none => exact h
    | some p => exact h.add_property (Site.owner_of_property hproperty ▸ hkey)
  next =>
    exact List.foldlRecOn _ _ h fun s hs _ _ ↦ hs.modify_type site.key fun _ ↦ rfl
  next => exact h

/-- A unit on its own declares what it declares. -/
theorem part (entry : SourceUnit × Nat) :
    (part entry).Within (declaredKeys entry.1) (extensionNames entry.1) := by
  refine List.foldlRecOn _ _ ⟨nofun, nofun, nofun, nofun⟩ fun s hs t ht ↦ ?_
  simp only [collectType]
  cases hkey : (Scope.of t).typeKey? with
  | none => exact hs
  | some key =>
      have hmem : key ∈ declaredKeys entry.1 := key_mem_declared_keys ht hkey
      refine List.foldlRecOn _ _ ?_
        fun s hs c hc ↦ hs.collect_member hmem (mem_method_members ht hc)
      exact List.foldlRecOn _ _ (hs.add_type hmem _) fun s hs _ _ ↦ hs.add_property hmem

/-- A registry within some types spares all others. -/
theorem spares (h : r.Within keys names) {others : List TypeKey}
    (hdisjoint : keys.Disjoint others) : r.Spares others :=
  ⟨fun t ht hkey ↦ hdisjoint (h.types t ht) hkey, fun m hm hkey ↦ hdisjoint (h.methods m hm) hkey,
    fun p hp hkey ↦ hdisjoint (h.properties p hp) hkey⟩

end Within

/-- Two registries side by side spare what both spare. -/
theorem Spares.append {r s : Registry} {keys : List TypeKey} (hr : r.Spares keys)
    (hs : s.Spares keys) : (r.append s).Spares keys :=
  ⟨fun t ht ↦ (List.mem_append.1 ht).elim (hr.types t) (hs.types t),
    fun m hm ↦ (List.mem_append.1 hm).elim (hr.methods m) (hs.methods m),
    fun p hp ↦ (List.mem_append.1 hp).elim (hr.properties p) (hs.properties p)⟩

/-- The registry without declarations spares every type. -/
theorem spares_empty (keys : List TypeKey) : empty.Spares keys :=
  ⟨nofun, nofun, nofun⟩

/-- Units keep their declarations if they keep their numbers. -/
theorem renumber_id (r : Registry) : r.renumber id = r := by
  have hcontext : ∀ context : LookupContext, context.renumber id = context := fun _ ↦ rfl
  have hfield : FieldDecl.renumber id = id := rfl
  have htype : TypeDecl.renumber id = id := by
    funext t
    simp only [TypeDecl.renumber, hcontext, hfield, List.map_id, List.map_id', id_eq]
  have hmethod : MethodDecl.renumber id = id := rfl
  have hproperty : PropertyDecl.renumber id = id := rfl
  rw [renumber, htype, hmethod, hproperty, List.map_id, List.map_id, List.map_id]

/-- The part of a unit at another position. -/
theorem part_renumber (place : Nat → Nat) (unit : SourceUnit) (i : Nat) :
    part (unit, place i) = (part (unit, i)).renumber place := by
  have h := collect_unit_behind place (spares_empty (declaredKeys unit)) i empty
  rwa [empty_append, empty_append] at h

/-- Units that declare nothing of each other's types are recorded part by part. -/
theorem foldl_collect_unit {entries : List (SourceUnit × Nat)}
    (hapart : entries.Pairwise fun a b ↦ (declaredKeys a.1).Disjoint (declaredKeys b.1))
    {r : Registry} (hr : ∀ entry ∈ entries, r.Spares (declaredKeys entry.1)) :
    entries.foldl collectUnit r = r.append (concat (entries.map part)) := by
  induction entries generalizing r with
  | nil => exact (append_empty r).symm
  | cons entry rest ih =>
      obtain ⟨hfirst, hrest⟩ := List.pairwise_cons.1 hapart
      have hstep : collectUnit r entry = r.append (part entry) := by
        have h := collect_unit_behind id (hr entry List.mem_cons_self) entry.2 empty
        rwa [renumber_id, renumber_id, append_empty] at h
      have hspares : ∀ other ∈ rest, (r.append (part entry)).Spares (declaredKeys other.1) :=
        fun other hother ↦ (hr other (List.mem_cons_of_mem entry hother)).append
          ((Within.part entry).spares (hfirst other hother))
      rw [List.foldl_cons, hstep, ih hrest hspares, append_concat_cons, List.map_cons]

/-- The declarations of units that have no type in common, part by part. -/
theorem collect_all_eq_concat {units : List SourceUnit}
    (hapart : units.Pairwise fun a b ↦ (declaredKeys a).Disjoint (declaredKeys b)) :
    collectAll units = concat (units.zipIdx.map part) := by
  have hentries : units.zipIdx.Pairwise fun a b ↦
      (declaredKeys a.1).Disjoint (declaredKeys b.1) := by
    rwa [← List.zipIdx_map_fst 0 units, List.pairwise_map] at hapart
  have hspares : ∀ entry ∈ units.zipIdx, empty.Spares (declaredKeys entry.1) :=
    fun entry _ ↦ spares_empty (declaredKeys entry.1)
  rw [collectAll, foldl_collect_unit hentries hspares, empty_append]

end Registry

end MemberReach
