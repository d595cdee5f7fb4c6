import MemberReach.Grammar.Rules
import MemberReach.Proofs.DeclaredSymbols
import MemberReach.Proofs.RegistryTables

/-!
# The registry of a project

What holds of the registry of every project whose type declarations have plain bodies. The first
pass is a run of recordings, each of which keeps the registry coherent, so the result is coherent
(`build_coherent`). The second pass stores declared types only, and those that the descriptors
denote in the finished registry. `Consistent` collects what this says about each entry, and
`resolved_symbols_registered` what it says about the symbols that come out of resolution.
-/

namespace MemberReach

namespace Registry

variable {r : Registry}

/-! ### The first pass as a run -/

/-- The declared types are determined by the keys of the types. -/
theorem is_declared_of_keys {s : Registry}
    (h : s.types.map TypeDecl.key = r.types.map TypeDecl.key) {key : TypeKey} :
    s.isDeclared key ↔ r.isDeclared key := by
  rw [is_declared_iff, is_declared_iff, h]

/-- Recording a property declares no type. -/
theorem keys_add_property (r : Registry) (p : PropertyDecl) :
    (r.addProperty p).types.map TypeDecl.key = r.types.map TypeDecl.key := by
  unfold addProperty
  split
  · rfl
  · exact keys_modify_type r _ fun _ ↦ rfl

/-- Recording a method declares no type. -/
theorem keys_add_method (r : Registry) (key : TypeKey) (m : MethodDecl) :
    (r.addMethod key m).types.map TypeDecl.key = r.types.map TypeDecl.key := by
  unfold addMethod
  split
  · exact keys_modify_type r _ fun _ ↦ rfl
  · split <;> rfl

/-- Recording a type declares it, and no other type. -/
theorem is_declared_add_type_iff {key other : TypeKey} {bases : List (String × LookupContext)} :
    (r.addType key bases).isDeclared other ↔ r.isDeclared other ∨ other = key := by
  unfold addType
  split
  case isTrue hdeclared =>
    have hkeys : (r.modifyType key fun t ↦
        { t with baseNames := t.baseNames ++ bases }).types.map TypeDecl.key =
          r.types.map TypeDecl.key := keys_modify_type r key fun _ ↦ rfl
    rw [is_declared_of_keys hkeys]
    refine (or_iff_left_of_imp ?_).symm
    rintro rfl
    exact hdeclared
  case isFalse =>
    rw [is_declared_iff, is_declared_iff, List.map_append, List.mem_append]
    exact or_congr_right List.mem_singleton

/-- Recording a type declares it. -/
theorem is_declared_add_type (r : Registry) (key : TypeKey)
    (bases : List (String × LookupContext)) : (r.addType key bases).isDeclared key :=
  is_declared_add_type_iff.2 (Or.inr rfl)

/-- Recording a member declares no type. -/
theorem keys_collect_member (site : Site) (r : Registry) (c : Cursor) :
    (site.collectMember r c).types.map TypeDecl.key = r.types.map TypeDecl.key := by
  unfold Site.collectMember
  split
  · cases site.method? c with
    | none => rfl
    | some m => exact keys_add_method r site.key m
  · cases site.property? c with
    | none => rfl
    | some p => exact keys_add_property r p
  · refine List.foldlRecOn
      (motive := fun s : Registry ↦ s.types.map TypeDecl.key = r.types.map TypeDecl.key)
      (site.fields c) _ rfl fun s hs field _ ↦ ?_
    refine Eq.trans ?_ hs
    exact keys_modify_type s site.key fun _ ↦ rfl
  · rfl

/-- What each recording keeps while it declares more, a run of recordings keeps. -/
theorem foldl_declares {α β : Type} {P : List β → Registry → Prop}
    {record : Registry → α → Registry} {declares : α → List β}
    (h : ∀ seen r a, P seen r → P (seen ++ declares a) (record r a)) (steps : List α)
    {seen : List β} (hr : P seen r) :
    P (seen ++ steps.flatMap declares) (steps.foldl record r) := by
  induction steps generalizing seen r with
  | nil => simpa using hr
  | cons a rest ih =>
      have hrest := ih (h seen r a hr)
      rwa [List.append_assoc] at hrest

/-- Recording what a node declares declares the type that it is or stands in, and no other. -/
theorem is_declared_collect_type {unitId : Nat} {unit : SourceUnit} {t : Cursor} {key : TypeKey} :
    (collectType unitId unit r t).isDeclared key ↔
      r.isDeclared key ∨ (Scope.of t).typeKey? = some key := by
  simp only [collectType]
  cases (Scope.of t).typeKey? with
  | none => simp
  | some owner =>
      let site : Site := ⟨unitId, unit, owner, Scope.of t⟩
      let added := r.addType owner ((baseNames t).map fun name ↦ (name, site.context))
      have hpositional := List.foldlRecOn
        (motive := fun s : Registry ↦ s.types.map TypeDecl.key = added.types.map TypeDecl.key)
        (positionalParameters t)
        (fun r (parameter : Cursor × Cursor) ↦
          r.addProperty (site.property parameter.1.text parameter.1 parameter.2)) rfl
        fun s hs parameter _ ↦ (keys_add_property s _).trans hs
      have hkeys : (site.collect r t).types.map TypeDecl.key = added.types.map TypeDecl.key :=
        List.foldlRecOn (members t) site.collectMember hpositional
          fun s hs c _ ↦ (keys_collect_member site s c).trans hs
      rw [is_declared_of_keys hkeys, is_declared_add_type_iff, Option.some.injEq,
        eq_comm (a := key)]

/-- A type is declared in a project exactly if a type declaration of one of its units is recorded
under its key. -/
theorem is_declared_build_iff {units : List SourceUnit} {key : TypeKey} :
    (build units).isDeclared key ↔
      ∃ unit ∈ units, ∃ t ∈ typeDeclarations unit, (Scope.of t).typeKey? = some key := by
  let Declares : List TypeKey → Registry → Prop := fun seen r ↦
    ∀ key, r.isDeclared key ↔ key ∈ seen
  let declared : SourceUnit × Nat → List TypeKey := fun entry ↦
    (typeDeclarations entry.1).flatMap fun t ↦ (Scope.of t).typeKey?.toList
  have hcollected : Declares ([] ++ units.zipIdx.flatMap declared) (collectAll units) := by
    have hempty : Declares [] empty := fun _ ↦ iff_of_false Bool.false_ne_true List.not_mem_nil
    refine foldl_declares (fun seen r entry h ↦ ?_) units.zipIdx hempty
    refine foldl_declares (P := Declares) (fun seen r t h key ↦ ?_) (typeDeclarations entry.1) h
    rw [is_declared_collect_type, h key, List.mem_append, Option.mem_toList]
  rw [build, is_declared_resolve_all, hcollected key, List.nil_append]
  simp only [declared, List.mem_flatMap, Option.mem_toList]
  constructor
  · rintro ⟨entry, hentry, t, ht, hkey⟩
    exact ⟨entry.1, List.fst_mem_of_mem_zipIdx hentry, t, ht, hkey⟩
  · rintro ⟨unit, hunit, t, ht, hkey⟩
    obtain ⟨i, hi⟩ := List.getElem?_of_mem hunit
    exact ⟨(unit, i), List.mem_zipIdx_iff_getElem?.2 hi, t, ht, hkey⟩

/-- A registry in which the members of a type can be recorded: it is coherent, and the type is
declared. -/
structure Ready (site : Site) (r : Registry) : Prop where
  coherent : Coherent r
  declared : r.isDeclared site.key

namespace Ready

variable {site : Site}

/-- A property of the type can be recorded. -/
theorem add_property (h : Ready site r) (name : String) (named type : Cursor) :
    Ready site (r.addProperty (site.property name named type)) :=
  ⟨h.coherent.add_property h.declared rfl,
    (is_declared_of_keys (keys_add_property r _)).2 h.declared⟩

/-- Fields of the type can be recorded. -/
theorem add_fields (h : Ready site r) (fields : List FieldDecl) :
    Ready site (fields.foldl (fun r field ↦ r.addField site.key field) r) := by
  refine List.foldlRecOn fields _ h fun s hs field _ ↦ ⟨hs.coherent.add_field _ _, ?_⟩
  refine (is_declared_of_keys ?_).2 hs.declared
  exact keys_modify_type s site.key fun _ ↦ rfl

/-- A method of the type can be recorded. -/
theorem add_method (h : Ready site r) {c : Cursor} {m : MethodDecl}
    (hm : site.method? c = some m) (howner : (Scope.of c).typeKey? = some site.key) :
    Ready site (r.addMethod site.key m) := by
  have hrecords := Site.method_records hm
  obtain ⟨name, owner, _, hkey, hid⟩ := method_identity_eq_some.1 hrecords.id
  rw [howner] at hkey
  cases hkey
  have howner : m.symbol.id.owner = site.key := by rw [hid]; rfl
  have hsymbol : m.symbol.Faithful := by
    refine ⟨by rw [hrecords.ownerName, howner], ?_⟩
    rw [hrecords.parameterTypes, hid]
    rfl
  refine ⟨?_, (is_declared_of_keys (keys_add_method r _ m)).2 h.declared⟩
  exact howner ▸ h.coherent.add_method (howner.symm ▸ h.declared) hsymbol

/-- A member of the type can be recorded if the type owns it. -/
theorem collect_member (h : Ready site r) {c : Cursor}
    (howner : c.kind = .methodDeclaration → (Scope.of c).typeKey? = some site.key) :
    Ready site (site.collectMember r c) := by
  unfold Site.collectMember
  split
  next hkind =>
    cases hm : site.method? c with
    | none => exact h
    | some m => exact h.add_method hm (howner hkind)
  next =>
    cases hp : site.property? c with
    | none => exact h
    | some p =>
        simp only [Site.property?, Option.bind_eq_bind, Option.bind_eq_some_iff, Option.pure_def,
          Option.some.injEq] at hp
        obtain ⟨name, _, type, _, rfl⟩ := hp
        exact h.add_property name (anchor c) type
  next => exact h.add_fields (site.fields c)
  next => exact h

/-- A declaration of a type with plain body can be recorded with its members. -/
theorem collect {c : Cursor} (h : Coherent r) (hscope : site.scope = Scope.of c)
    (hkey : site.scope.typeKey? = some site.key)
    (hplain : ∀ body ∈ bodyOf? c, body.kind.opensScope = false) :
    Ready site (site.collect r c) := by
  have htype : Ready site
      (r.addType site.key ((baseNames c).map fun name ↦ (name, site.context))) :=
    ⟨h.add_type _ _, is_declared_add_type r _ _⟩
  have hpositional := List.foldlRecOn (positionalParameters c)
    (fun r (parameter : Cursor × Cursor) ↦
      r.addProperty (site.property parameter.1.text parameter.1 parameter.2)) htype
    fun s hs parameter _ ↦ hs.add_property _ _ _
  refine List.foldlRecOn (members c) site.collectMember hpositional fun s hs d hd ↦ ?_
  exact hs.collect_member fun hkind ↦ by rw [scope_of_member hplain hd hkind, ← hscope, hkey]

end Ready

/-- Recording a type declaration with plain body keeps a registry coherent. -/
theorem Coherent.collect_type (h : Coherent r) (unitId : Nat) (unit : SourceUnit) {c : Cursor}
    (hplain : ∀ body ∈ bodyOf? c, body.kind.opensScope = false) :
    Coherent (collectType unitId unit r c) := by
  simp only [collectType]
  cases hkey : (Scope.of c).typeKey? with
  | none => exact h
  | some key => exact (Ready.collect h rfl hkey hplain).coherent

/-- Recording a unit whose type declarations have plain bodies keeps a registry coherent. -/
theorem Coherent.collect_unit (h : Coherent r) (unitId : Nat) {unit : SourceUnit}
    (hplain : ∀ t ∈ typeDeclarations unit, ∀ body ∈ bodyOf? t, body.kind.opensScope = false) :
    Coherent (collectUnit r (unit, unitId)) := by
  have himports : Coherent { r with imports := r.imports ++ [Scope.imports unit.root] } :=
    ⟨h.types, h.methods, h.properties, h.methodSymbols, h.propertySymbols⟩
  exact List.foldlRecOn (typeDeclarations unit) (collectType unitId unit) himports
    fun s hs t ht ↦ hs.collect_type unitId unit (hplain t ht)

/-- The declarations of units with plain bodies are coherent. -/
theorem collect_all_coherent {units : List SourceUnit} (hplain : PlainBodies units) :
    Coherent (collectAll units) := by
  refine List.foldlRecOn units.zipIdx collectUnit Coherent.empty fun s hs entry hentry ↦ ?_
  exact hs.collect_unit entry.2 (hplain entry.1 (List.fst_mem_of_mem_zipIdx hentry))

/-- The registry of units with plain bodies is coherent. -/
theorem build_coherent {units : List SourceUnit} (hplain : PlainBodies units) :
    Coherent (build units) :=
  (collect_all_coherent hplain).resolve_all

/-! ### The second pass -/

/-- A stored key is the declared type that a descriptor denotes where it is written, if any. -/
structure Binds (r : Registry) (descriptor : String) (context : LookupContext)
    (stored : Option TypeKey) : Prop where
  denoted : stored = r.resolveType? descriptor context
  declared : ∀ key, stored = some key → r.isDeclared key

/-- What a descriptor denotes is declared. -/
theorem is_declared_of_resolve_type {descriptor : String} {context : LookupContext}
    {key : TypeKey} (h : r.resolveType? descriptor context = some key) : r.isDeclared key := by
  obtain ⟨name, _, h⟩ := Option.bind_eq_some_iff.1 h
  exact List.find?_some h

/-- What a descriptor denotes before the second pass is what it denotes after it. -/
theorem binds_resolve_all (r : Registry) (descriptor : String) (context : LookupContext) :
    r.resolveAll.Binds descriptor context (r.resolveType? descriptor context) := by
  have heq : r.resolveType? descriptor context = r.resolveAll.resolveType? descriptor context := by
    rw [resolve_type_resolve_all]
  exact ⟨heq, fun key hkey ↦ is_declared_of_resolve_type (heq ▸ hkey)⟩

/-! ### Entries -/

/-- What the entry of a type says: its lists hold, each once, the methods and properties of the type
that the tables have; its bases are the declared types that it names, itself left out; and its
fields have the types that they name. -/
structure TypeEntry (r : Registry) (key : TypeKey) (t : TypeDecl) : Prop where
  keyed : t.key = key
  name : t.name = key.simpleName
  methodsOnce : t.methods.Nodup
  methods : ∀ id, id ∈ t.methods ↔ id.owner = key ∧ (r.method? id).isSome
  propertiesOnce : t.properties.Nodup
  properties : ∀ id, id ∈ t.properties ↔ id.owner = key ∧ (r.property? id).isSome
  bases : t.bases = (t.baseNames.filterMap fun base ↦ r.resolveType? base.1 base.2).filter
    fun base ↦ base != key
  basesDeclared : ∀ base ∈ t.bases, r.isDeclared base
  notOwnBase : key ∉ t.bases
  fields : ∀ field ∈ t.fields, r.Binds field.typeName field.context field.typeKey

/-- What the entry of a method says: it is the entry of its own identity, its owner is declared and
lists it, and it has the types that it names. -/
structure MethodEntry (r : Registry) (id : SymbolId) (m : MethodDecl) : Prop where
  identified : m.symbol.id = id
  listed : ∃ t, r.type? id.owner = some t ∧ id ∈ t.methods
  symbol : m.symbol.Faithful
  returnKey : r.Binds m.symbol.returnType m.context m.returnKey
  extendedKey : ∀ p, m.isExtension → m.symbol.parameters.head? = some p →
    r.Binds p.typeName m.context m.extendedKey
  firstParameter : m.isExtension → m.extendedKey = r.parameterType? id 0
  extensionOnly : ∀ key, m.extendedKey = some key → m.isExtension ∧ r.isDeclared key

/-- What the entry of a property says: it is the entry of its own identity, its owner is declared
and lists it, and it has the type that it names. -/
structure PropertyEntry (r : Registry) (id : SymbolId) (p : PropertyDecl) : Prop where
  identified : p.symbol.id = id
  listed : ∃ t, r.type? id.owner = some t ∧ id ∈ t.properties
  ownerName : p.symbol.ownerName = id.owner.simpleName
  typeKey : r.Binds p.symbol.typeName p.context p.typeKey

/-- Every entry of a registry says what it should, and is the one that is found by its key. -/
structure Consistent (r : Registry) : Prop where
  types : ∀ key t, r.type? key = some t → r.TypeEntry key t
  methods : ∀ id m, r.method? id = some m → r.MethodEntry id m
  properties : ∀ id p, r.property? id = some p → r.PropertyEntry id p
  typesFound : ∀ t ∈ r.types, r.type? t.key = some t
  methodsFound : ∀ m ∈ r.methods, r.method? m.symbol.id = some m
  propertiesFound : ∀ p ∈ r.properties, r.property? p.symbol.id = some p

namespace Coherent

/-- The owner of a listed member is a declared type that lists it. -/
theorem exists_listing {list : TypeDecl → List SymbolId} {ids : List SymbolId}
    (h : Listed r.types list ids) {id : SymbolId} (hid : id ∈ ids) :
    ∃ t, r.type? id.owner = some t ∧ id ∈ list t := by
  obtain ⟨t, ht⟩ := Option.isSome_iff_exists.1 (is_declared_iff.2 (h.owned id hid))
  have hkey : t.key = id.owner := by simpa using List.find?_some ht
  exact ⟨t, ht, (h.listed t (List.mem_of_find?_eq_some ht) id).2 ⟨hkey.symm, hid⟩⟩

/-- The types of a coherent registry say what they should after the second pass. -/
theorem type_entry (h : Coherent r) {key : TypeKey} {t : TypeDecl}
    (ht : r.resolveAll.type? key = some t) : r.resolveAll.TypeEntry key t := by
  have hkey : t.key = key := by simpa using List.find?_some ht
  have hmem := List.mem_of_find?_eq_some ht
  have hs := h.resolve_all
  obtain ⟨u, hu, rfl⟩ := List.mem_map.1 hmem
  subst hkey
  have hbases : (r.resolveTypeDecl u).bases = (u.baseNames.filterMap fun base ↦
      r.resolveAll.resolveType? base.1 base.2).filter fun base ↦ base != u.key := by
    rw [resolve_type_resolve_all]
    rfl
  refine
    { keyed := rfl
      name := hs.types.names _ hmem
      methodsOnce := hs.methods.listedOnce _ hmem
      methods := fun id ↦ ?_
      propertiesOnce := hs.properties.listedOnce _ hmem
      properties := fun id ↦ ?_
      bases := hbases
      basesDeclared := fun base hbase ↦ ?_
      notOwnBase := fun hbase ↦ ?_
      fields := fun field hfield ↦ ?_ }
  · rw [method_is_some_iff]
    exact hs.methods.listed _ hmem id
  · rw [property_is_some_iff]
    exact hs.properties.listed _ hmem id
  · rw [hbases, List.mem_filter, List.mem_filterMap] at hbase
    obtain ⟨⟨written, _, hresolved⟩, _⟩ := hbase
    exact is_declared_of_resolve_type hresolved
  · rw [hbases, List.mem_filter] at hbase
    exact absurd rfl (bne_iff_ne.1 hbase.2)
  · obtain ⟨written, _, rfl⟩ := List.mem_map.1 hfield
    exact binds_resolve_all r _ _

/-- The methods of a coherent registry say what they should after the second pass. -/
theorem method_entry (h : Coherent r) {id : SymbolId} {m : MethodDecl}
    (hm : r.resolveAll.method? id = some m) : r.resolveAll.MethodEntry id m := by
  have hid := id_of_method hm
  have hmem := List.mem_of_find?_eq_some hm
  have hs := h.resolve_all
  obtain ⟨n, hn, rfl⟩ := List.mem_map.1 hmem
  subst hid
  have hextended (hextension : n.isExtension = true) : (r.resolveMethodDecl n).extendedKey =
      n.symbol.parameters.head?.bind fun p ↦ r.resolveType? p.typeName n.context :=
    if_pos hextension
  have hparameter : r.resolveAll.parameterType? n.symbol.id 0 =
      n.symbol.parameters.head?.bind fun p ↦ r.resolveType? p.typeName n.context := by
    unfold parameterType?
    rw [show r.resolveAll.method? n.symbol.id = _ from hm, resolve_type_resolve_all,
      List.head?_eq_getElem?]
    rfl
  refine
    { identified := rfl
      listed := exists_listing hs.methods (List.mem_map_of_mem hmem)
      symbol := hs.methodSymbols _ hmem
      returnKey := binds_resolve_all r _ _
      extendedKey := fun p hextension hp ↦ ?_
      firstParameter := fun hextension ↦ ?_
      extensionOnly := fun key hkey ↦ ?_ }
  · rw [hextended hextension, show n.symbol.parameters.head? = some p from hp]
    exact binds_resolve_all r _ _
  · rw [hextended hextension]
    exact hparameter.symm
  · by_cases hextension : n.isExtension = true
    · rw [hextended hextension] at hkey
      obtain ⟨p, _, hp⟩ := Option.bind_eq_some_iff.1 hkey
      exact ⟨hextension, (binds_resolve_all r p.typeName n.context).declared key hp⟩
    · rw [show (r.resolveMethodDecl n).extendedKey = none from if_neg hextension] at hkey
      cases hkey

/-- The properties of a coherent registry say what they should after the second pass. -/
theorem property_entry (h : Coherent r) {id : SymbolId} {p : PropertyDecl}
    (hp : r.resolveAll.property? id = some p) : r.resolveAll.PropertyEntry id p := by
  have hid := id_of_property hp
  have hmem := List.mem_of_find?_eq_some hp
  have hs := h.resolve_all
  obtain ⟨q, hq, rfl⟩ := List.mem_map.1 hmem
  subst hid
  exact
    { identified := rfl
      listed := exists_listing hs.properties (List.mem_map_of_mem hmem)
      ownerName := hs.propertySymbols _ hmem
      typeKey := binds_resolve_all r _ _ }

/-- The owner of a declared method is declared. -/
theorem method_owner (h : Coherent r) {m : MethodSymbol} (hm : r.Declares m) :
    r.isDeclared m.id.owner :=
  is_declared_iff.2 (h.methods.owned m.id (id_mem_of_declares hm))

/-- The owner of a declared property is declared. -/
theorem property_owner (h : Coherent r) {p : PropertySymbol} (hp : r.DeclaresProperty p) :
    r.isDeclared p.id.owner := by
  obtain ⟨decl, hdecl, rfl⟩ := hp
  exact is_declared_iff.2
    (h.properties.owned _ (List.mem_map_of_mem (List.mem_of_find?_eq_some hdecl)))

end Coherent

end Registry

namespace Parts

/-- The first part of a type, with a base, a property, and a method that has no body there. -/
def first : String :=
  "partial class A : B \x7b partial string P \x7b get; \x7d partial void M(); \x7d"

/-- The base with a property, and the second part of the type, where the property is declared again
and the method has its body. -/
def second : String :=
  "class B \x7b string S \x7b get; \x7d \x7d " ++
    "partial class A \x7b partial string P \x7b get; \x7d " ++
      "partial void M() \x7b M(this.S); \x7d \x7d"

/-- A project of two files. -/
def units : List SourceUnit :=
  [.create ⟨"A.cs"⟩ none first (Node.ofSource first),
    .create ⟨"B.cs"⟩ none second (Node.ofSource second)]

/-- The type declarations of the project have plain bodies. -/
theorem plain_bodies : Registry.PlainBodies units := by
  decide +kernel

end Parts

namespace Registry

/-- The registry of a project whose type declarations have plain bodies is consistent: its tables
agree with the lists of its types, its symbols describe their identities, and every stored type is
declared and the one that the written descriptor denotes. -/
theorem build_consistent {units : List SourceUnit} (hplain : PlainBodies units) :
    Consistent (build units) := by
  have hcollected := collect_all_coherent hplain
  have hbuilt := build_coherent hplain
  exact
    { types := fun key t ht ↦ hcollected.type_entry ht
      methods := fun id m hm ↦ hcollected.method_entry hm
      properties := fun id p hp ↦ hcollected.property_entry hp
      typesFound := fun t ht ↦ find_of_mem TypeDecl.key hbuilt.types.once ht
      methodsFound := fun m hm ↦
        find_of_mem (fun m : MethodDecl ↦ m.symbol.id) hbuilt.methods.once hm
      propertiesFound := fun p hp ↦
        find_of_mem (fun p : PropertyDecl ↦ p.symbol.id) hbuilt.properties.once hp }

/-- A type in two parts, whose method has its body in the second. -/
theorem build_consistent_parts :
    PlainBodies Parts.units ∧ Consistent (build Parts.units) :=
  ⟨Parts.plain_bodies, build_consistent Parts.plain_bodies⟩

end Registry

namespace Model

/-- The symbols that come out of resolution, and the seeds that are found, are those of the registry
with all their fields, and their owners are declared types. -/
theorem resolved_symbols_registered {units : List SourceUnit}
    (hplain : Registry.PlainBodies units) :
    (∀ unitId c m, (ofUnits units).symbol? unitId c = some (.method m) →
        (ofUnits units).registry.Declares m ∧ (ofUnits units).registry.isDeclared m.id.owner) ∧
      (∀ unitId c p, (ofUnits units).symbol? unitId c = some (.property p) →
        (ofUnits units).registry.DeclaresProperty p ∧
          (ofUnits units).registry.isDeclared p.id.owner) ∧
      ∀ unitId name m, (ofUnits units).findSeed unitId name = .ok m →
        (ofUnits units).registry.Declares m ∧ (ofUnits units).registry.isDeclared m.id.owner := by
  have hcoherent := Registry.build_coherent hplain
  refine ⟨fun unitId c m h ↦ ?_, fun unitId c p h ↦ ?_, fun unitId name m h ↦ ?_⟩
  · have hdeclared : (ofUnits units).registry.Declares m := symbol_declared h
    exact ⟨hdeclared, hcoherent.method_owner hdeclared⟩
  · have hdeclared : (ofUnits units).registry.DeclaresProperty p := symbol_declared h
    exact ⟨hdeclared, hcoherent.property_owner hdeclared⟩
  · have hdeclared := find_seed_declared h
    exact ⟨hdeclared, hcoherent.method_owner hdeclared⟩

/-- A call of the method in two parts, a read of the property of its base, and a seed. -/
theorem resolved_symbols_registered_parts :
    Registry.PlainBodies Parts.units ∧
      (∃ c m, (ofUnits Parts.units).symbol? 1 c = some (.method m) ∧
        (ofUnits Parts.units).registry.Declares m ∧
          (ofUnits Parts.units).registry.isDeclared m.id.owner) ∧
      (∃ c p, (ofUnits Parts.units).symbol? 1 c = some (.property p) ∧
        (ofUnits Parts.units).registry.DeclaresProperty p ∧
          (ofUnits Parts.units).registry.isDeclared p.id.owner) ∧
      ∃ m, (ofUnits Parts.units).findSeed 0 "M" = .ok m ∧
        (ofUnits Parts.units).registry.Declares m ∧
          (ofUnits Parts.units).registry.isDeclared m.id.owner := by
  obtain ⟨hmethods, hproperties, hseeds⟩ := resolved_symbols_registered Parts.plain_bodies
  have hfound : (∃ unit ∈ Parts.units, ∃ c ∈ unit.root.descendants,
        ∃ m ∈ (ofUnits Parts.units).registry.methods,
          (ofUnits Parts.units).symbol? 1 c = some (.method m.symbol)) ∧
      (∃ unit ∈ Parts.units, ∃ c ∈ unit.root.descendants,
        ∃ p ∈ (ofUnits Parts.units).registry.properties,
          (ofUnits Parts.units).symbol? 1 c = some (.property p.symbol)) ∧
      ((ofUnits Parts.units).findSeed 0 "M").toOption.isSome := by decide +kernel
  obtain ⟨⟨_, _, c, _, m, _, hc⟩, ⟨_, _, d, _, p, _, hd⟩, hseed⟩ := hfound
  refine ⟨Parts.plain_bodies, ⟨c, m.symbol, hc, hmethods 1 c _ hc⟩,
    ⟨d, p.symbol, hd, hproperties 1 d _ hd⟩, ?_⟩
  cases hanswer : (ofUnits Parts.units).findSeed 0 "M" with
  | error e =>
      rw [hanswer] at hseed
      cases hseed
  | ok seed => exact ⟨seed, rfl, hseeds 0 "M" seed hanswer⟩

end Model

end MemberReach
