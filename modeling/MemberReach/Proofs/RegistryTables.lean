import Mathlib.Data.List.Nodup
import MemberReach.Proofs.BaseNames
import MemberReach.Proofs.MemberScopes

/-!
# The tables of a registry agree

A registry keeps its members twice: in a table by identity, and as lists of identities in the types
that own them. `Listed` says that the two agree for one sort of members, and `Coherent` that they do
for methods and properties, that no table holds an identity twice, and that every symbol describes
its own identity. Recording a declaration keeps a registry coherent, whatever was declared before:
a first or a later part of a type, a property that is new or known, a method that is new, loses
against the one that is known or takes its place (`Coherent.add_method`). The second pass changes
nothing about it (`Coherent.resolve_all`).
-/

namespace MemberReach

/-- A method whose symbol describes its identity: the simple name of the owner, and the types of the
parameters in order. -/
structure MethodSymbol.Faithful (m : MethodSymbol) : Prop where
  ownerName : m.ownerName = m.id.owner.simpleName
  parameterTypes : m.id.parameterTypes = m.parameters.map Parameter.typeName

namespace Registry

/-! ### Look-ups -/

/-- In a table without repeated keys, an entry is found by its key. -/
theorem find_of_mem {α β : Type} [BEq β] [LawfulBEq β] (key : α → β) {table : List α}
    (hnodup : (table.map key).Nodup) {entry : α} (h : entry ∈ table) :
    table.find? (fun other ↦ key other == key entry) = some entry := by
  induction table with
  | nil => cases h
  | cons first rest ih =>
      rw [List.map_cons, List.nodup_cons] at hnodup
      rcases List.mem_cons.1 h with rfl | h
      · exact List.find?_cons_of_pos (beq_self_eq_true (key entry))
      · have hne : ¬ (key first == key entry) = true := by
          intro heq
          exact hnodup.1 (eq_of_beq heq ▸ List.mem_map_of_mem h)
        rw [List.find?_cons_of_neg (p := fun other ↦ key other == key entry) hne]
        exact ih hnodup.2 h

/-- A key is found in a table exactly if an entry has it. -/
theorem find_is_some_iff {α β : Type} [BEq β] [LawfulBEq β] {key : α → β} {table : List α} {b : β} :
    (table.find? fun entry ↦ key entry == b).isSome ↔ b ∈ table.map key := by
  rw [List.find?_isSome, List.mem_map]
  exact exists_congr fun entry ↦ and_congr_right fun _ ↦ beq_iff_eq

variable {r : Registry}

/-- A type is declared if it has an entry. -/
theorem is_declared_iff {key : TypeKey} :
    r.isDeclared key ↔ key ∈ r.types.map TypeDecl.key :=
  find_is_some_iff

/-- A method is found if it has an entry. -/
theorem method_is_some_iff {id : SymbolId} :
    (r.method? id).isSome ↔ id ∈ r.methods.map fun m ↦ m.symbol.id :=
  find_is_some_iff

/-- A property is found if it has an entry. -/
theorem property_is_some_iff {id : SymbolId} :
    (r.property? id).isSome ↔ id ∈ r.properties.map fun p ↦ p.symbol.id :=
  find_is_some_iff

/-- A change that keeps the key of each type keeps the keys. -/
theorem keys_modify_type (r : Registry) (key : TypeKey) {f : TypeDecl → TypeDecl}
    (hkey : ∀ t, (f t).key = t.key) :
    (r.modifyType key f).types.map TypeDecl.key = r.types.map TypeDecl.key := by
  rw [modifyType, List.map_map]
  apply List.map_congr_left
  intro t _
  rw [Function.comp_apply]
  split
  · exact hkey t
  · rfl

/-- Replacing a declaration keeps the identities of the methods. -/
theorem ids_replace_method (r : Registry) (m : MethodDecl) :
    ((r.replaceMethod m).methods.map fun m ↦ m.symbol.id) = r.methods.map fun m ↦ m.symbol.id := by
  rw [replaceMethod, List.map_map]
  apply List.map_congr_left
  intro old _
  rw [Function.comp_apply]
  split
  next heq => exact (eq_of_beq heq).symm
  next => rfl

/-! ### Members and the types that list them -/

/-- The members `ids` are listed by the types that own them: each member is there once, its owner is
among the types, and the list of a type holds, each once, the members that it owns. -/
structure Listed (types : List TypeDecl) (list : TypeDecl → List SymbolId) (ids : List SymbolId) :
    Prop where
  once : ids.Nodup
  owned : ∀ id ∈ ids, id.owner ∈ types.map TypeDecl.key
  listedOnce : ∀ t ∈ types, (list t).Nodup
  listed : ∀ t ∈ types, ∀ id, id ∈ list t ↔ id.owner = t.key ∧ id ∈ ids

namespace Listed

variable {types : List TypeDecl} {list : TypeDecl → List SymbolId} {ids : List SymbolId}

/-- A change of types that keeps keys and lists keeps members listed. -/
theorem map {g : TypeDecl → TypeDecl} (hkey : ∀ t, (g t).key = t.key)
    (hlist : ∀ t, list (g t) = list t) (h : Listed types list ids) :
    Listed (types.map g) list ids := by
  refine ⟨h.once, fun id hid ↦ ?_, ?_, ?_⟩
  · rw [List.map_map, show TypeDecl.key ∘ g = TypeDecl.key from funext hkey]
    exact h.owned id hid
  · intro t ht
    obtain ⟨u, hu, rfl⟩ := List.mem_map.1 ht
    rw [hlist]
    exact h.listedOnce u hu
  · intro t ht id
    obtain ⟨u, hu, rfl⟩ := List.mem_map.1 ht
    rw [hlist, hkey]
    exact h.listed u hu id

/-- A change of one type that keeps its key and list keeps members listed. -/
theorem modify_type {r : Registry} {key : TypeKey} {f : TypeDecl → TypeDecl}
    (hkey : ∀ t, (f t).key = t.key) (hlist : ∀ t, list (f t) = list t)
    (h : Listed r.types list ids) : Listed (r.modifyType key f).types list ids := by
  refine h.map (fun t ↦ ?_) (fun t ↦ ?_)
  · split
    · exact hkey t
    · rfl
  · split
    · exact hlist t
    · rfl

/-- A new type without members keeps members listed: nothing known is owned by it. -/
theorem append_type {t : TypeDecl} (hnew : t.key ∉ types.map TypeDecl.key) (hempty : list t = [])
    (h : Listed types list ids) : Listed (types ++ [t]) list ids := by
  refine ⟨h.once, fun id hid ↦ ?_, ?_, ?_⟩
  · rw [List.map_append]
    exact List.mem_append_left _ (h.owned id hid)
  · intro u hu
    rcases List.mem_append.1 hu with hu | hu
    · exact h.listedOnce u hu
    · rw [List.mem_singleton.1 hu, hempty]
      exact List.nodup_nil
  · intro u hu id
    rcases List.mem_append.1 hu with hu | hu
    · exact h.listed u hu id
    · rw [List.mem_singleton.1 hu, hempty]
      refine iff_of_false List.not_mem_nil ?_
      rintro ⟨howner, hid⟩
      exact hnew (howner ▸ h.owned id hid)

/-- A new member at the end of its owner's list keeps members listed. -/
theorem append_member {r : Registry} {id : SymbolId} {f : TypeDecl → TypeDecl}
    (hkey : ∀ t, (f t).key = t.key) (hlist : ∀ t, list (f t) = list t ++ [id])
    (howner : r.isDeclared id.owner) (hnew : id ∉ ids) (h : Listed r.types list ids) :
    Listed (r.modifyType id.owner f).types list (ids ++ [id]) := by
  have honce : ∀ l : List SymbolId, l.Nodup → id ∉ l → (l ++ [id]).Nodup := fun l hl hid ↦
    hl.append (List.nodup_singleton id) (List.disjoint_singleton.2 hid)
  refine ⟨honce ids h.once hnew, fun other hother ↦ ?_, ?_, ?_⟩
  · rw [keys_modify_type r _ hkey]
    rcases List.mem_append.1 hother with hother | hother
    · exact h.owned other hother
    · exact List.mem_singleton.1 hother ▸ is_declared_iff.1 howner
  · intro t ht
    obtain ⟨u, hu, rfl⟩ := List.mem_map.1 ht
    split
    · rw [hlist]
      exact honce _ (h.listedOnce u hu) fun hid ↦ hnew ((h.listed u hu id).1 hid).2
    · exact h.listedOnce u hu
  · intro t ht other
    obtain ⟨u, hu, rfl⟩ := List.mem_map.1 ht
    split
    next hown =>
      rw [hlist, hkey, List.mem_append, List.mem_append, h.listed u hu other, List.mem_singleton]
      constructor
      · rintro (⟨howner, hother⟩ | rfl)
        · exact ⟨howner, Or.inl hother⟩
        · exact ⟨(eq_of_beq hown).symm, Or.inr rfl⟩
      · rintro ⟨howner, hother | rfl⟩
        · exact Or.inl ⟨howner, hother⟩
        · exact Or.inr rfl
    next hown =>
      rw [h.listed u hu other, List.mem_append, List.mem_singleton]
      refine and_congr_right fun hother ↦ (or_iff_left ?_).symm
      rintro rfl
      exact hown (beq_iff_eq.2 hother.symm)

end Listed

/-! ### Coherent registries -/

/-- No key has two types, and each type has the simple name of its key. -/
structure Keyed (types : List TypeDecl) : Prop where
  once : (types.map TypeDecl.key).Nodup
  names : ∀ t ∈ types, t.name = t.key.simpleName

/-- A change of types that keeps keys and names keeps types keyed. -/
theorem Keyed.map {types : List TypeDecl} {g : TypeDecl → TypeDecl}
    (hkey : ∀ t, (g t).key = t.key) (hname : ∀ t, (g t).name = t.name) (h : Keyed types) :
    Keyed (types.map g) := by
  refine ⟨?_, fun t ht ↦ ?_⟩
  · rw [List.map_map, show TypeDecl.key ∘ g = TypeDecl.key from funext hkey]
    exact h.once
  · obtain ⟨u, hu, rfl⟩ := List.mem_map.1 ht
    rw [hname, hkey]
    exact h.names u hu

/-- A change of one type that keeps its key and name keeps types keyed. -/
theorem Keyed.modify_type {key : TypeKey} {f : TypeDecl → TypeDecl}
    (hkey : ∀ t, (f t).key = t.key) (hname : ∀ t, (f t).name = t.name) (h : Keyed r.types) :
    Keyed (r.modifyType key f).types := by
  refine h.map (fun t ↦ ?_) (fun t ↦ ?_)
  · split
    · exact hkey t
    · rfl
  · split
    · exact hname t
    · rfl

/-- The tables of a registry agree with each other, and every symbol describes its own identity. -/
structure Coherent (r : Registry) : Prop where
  types : Keyed r.types
  methods : Listed r.types TypeDecl.methods (r.methods.map fun m ↦ m.symbol.id)
  properties : Listed r.types TypeDecl.properties (r.properties.map fun p ↦ p.symbol.id)
  methodSymbols : ∀ m ∈ r.methods, m.symbol.Faithful
  propertySymbols : ∀ p ∈ r.properties, p.symbol.ownerName = p.symbol.id.owner.simpleName

namespace Coherent

/-- The registry without declarations is coherent. -/
theorem empty : Coherent Registry.empty :=
  have hlisted : ∀ list, Listed [] list [] := fun _ ↦ ⟨List.nodup_nil, nofun, nofun, nofun⟩
  ⟨⟨List.nodup_nil, nofun⟩, hlisted _, hlisted _, nofun, nofun⟩

/-- A change of one type that keeps key, name and members keeps the registry coherent. -/
theorem modify_type {key : TypeKey} {f : TypeDecl → TypeDecl} (hkey : ∀ t, (f t).key = t.key)
    (hname : ∀ t, (f t).name = t.name) (hmethods : ∀ t, (f t).methods = t.methods)
    (hproperties : ∀ t, (f t).properties = t.properties) (h : Coherent r) :
    Coherent (r.modifyType key f) :=
  { types := h.types.modify_type hkey hname
    methods := h.methods.modify_type hkey hmethods
    properties := h.properties.modify_type hkey hproperties
    methodSymbols := h.methodSymbols
    propertySymbols := h.propertySymbols }

/-- Recording a part of a type keeps a registry coherent. -/
theorem add_type (h : Coherent r) (key : TypeKey) (bases : List (String × LookupContext)) :
    Coherent (r.addType key bases) := by
  unfold addType
  split
  case isTrue =>
    exact h.modify_type (fun _ ↦ rfl) (fun _ ↦ rfl) (fun _ ↦ rfl) (fun _ ↦ rfl)
  case isFalse hdeclared =>
    have hnew : key ∉ r.types.map TypeDecl.key := fun hmem ↦ hdeclared (is_declared_iff.2 hmem)
    refine ⟨⟨?_, fun t ht ↦ ?_⟩, h.methods.append_type hnew rfl, h.properties.append_type hnew rfl,
      h.methodSymbols, h.propertySymbols⟩
    · rw [List.map_append]
      exact h.types.once.append (List.nodup_singleton key) (List.disjoint_singleton.2 hnew)
    · rcases List.mem_append.1 ht with ht | ht
      · exact h.types.names t ht
      · rw [List.mem_singleton.1 ht]

/-- Recording a field keeps a registry coherent. -/
theorem add_field (h : Coherent r) (key : TypeKey) (field : FieldDecl) :
    Coherent (r.addField key field) :=
  h.modify_type (fun _ ↦ rfl) (fun _ ↦ rfl) (fun _ ↦ rfl) (fun _ ↦ rfl)

/-- Recording a property of a declared type keeps a registry coherent. -/
theorem add_property (h : Coherent r) {p : PropertyDecl}
    (howner : r.isDeclared p.symbol.id.owner)
    (hname : p.symbol.ownerName = p.symbol.id.owner.simpleName) : Coherent (r.addProperty p) := by
  unfold addProperty
  split
  case isTrue => exact h
  case isFalse hknown =>
    have hnew : p.symbol.id ∉ r.properties.map fun p ↦ p.symbol.id :=
      fun hmem ↦ hknown (property_is_some_iff.2 hmem)
    refine
      { types := h.types.modify_type (fun _ ↦ rfl) (fun _ ↦ rfl)
        methods := h.methods.modify_type (fun _ ↦ rfl) (fun _ ↦ rfl)
        properties := ?_
        methodSymbols := h.methodSymbols
        propertySymbols := fun q hq ↦ ?_ }
    · rw [List.map_append]
      exact h.properties.append_member (fun _ ↦ rfl) (fun _ ↦ rfl) howner hnew
    · rcases List.mem_append.1 hq with hq | hq
      · exact h.propertySymbols q hq
      · exact List.mem_singleton.1 hq ▸ hname

/-- Recording a new method of a declared type keeps a registry coherent. -/
theorem add_new_method (h : Coherent r) {m : MethodDecl} (howner : r.isDeclared m.symbol.id.owner)
    (hsymbol : m.symbol.Faithful) (hnew : r.method? m.symbol.id = none) :
    Coherent (r.addNewMethod m.symbol.id.owner m) := by
  have hid : m.symbol.id ∉ r.methods.map fun m ↦ m.symbol.id := by
    rw [← method_is_some_iff, hnew]
    exact Bool.false_ne_true
  refine
    { types := h.types.modify_type (fun _ ↦ rfl) (fun _ ↦ rfl)
      methods := ?_
      properties := h.properties.modify_type (fun _ ↦ rfl) (fun _ ↦ rfl)
      methodSymbols := fun n hn ↦ ?_
      propertySymbols := h.propertySymbols }
  · show Listed _ _ ((r.methods ++ [m]).map fun m ↦ m.symbol.id)
    rw [List.map_append]
    exact h.methods.append_member (fun _ ↦ rfl) (fun _ ↦ rfl) howner hid
  · rcases List.mem_append.1 hn with hn | hn
    · exact h.methodSymbols n hn
    · exact List.mem_singleton.1 hn ▸ hsymbol

/-- Putting a declaration in the place of the one with its identity keeps a registry coherent. -/
theorem replace_method (h : Coherent r) {m : MethodDecl} (hsymbol : m.symbol.Faithful) :
    Coherent (r.replaceMethod m) := by
  refine ⟨h.types, ids_replace_method r m ▸ h.methods, h.properties, fun n hn ↦ ?_,
    h.propertySymbols⟩
  obtain ⟨old, hold, rfl⟩ := List.mem_map.1 hn
  split
  · exact hsymbol
  · exact h.methodSymbols old hold

/-- Recording a method of a declared type keeps a registry coherent. -/
theorem add_method (h : Coherent r) {m : MethodDecl} (howner : r.isDeclared m.symbol.id.owner)
    (hsymbol : m.symbol.Faithful) : Coherent (r.addMethod m.symbol.id.owner m) := by
  unfold addMethod
  split
  next hnew => exact h.add_new_method howner hsymbol hnew
  next old _ =>
    split
    · exact h
    · exact h.replace_method hsymbol

/-- The second pass keeps a registry coherent. -/
theorem resolve_all (h : Coherent r) : Coherent r.resolveAll := by
  have hmethods : (r.resolveAll.methods.map fun m ↦ m.symbol.id) =
      r.methods.map fun m ↦ m.symbol.id := List.map_map
  have hproperties : (r.resolveAll.properties.map fun p ↦ p.symbol.id) =
      r.properties.map fun p ↦ p.symbol.id := List.map_map
  refine
    { types := h.types.map (fun _ ↦ rfl) (fun _ ↦ rfl)
      methods := hmethods ▸ h.methods.map (fun _ ↦ rfl) (fun _ ↦ rfl)
      properties := hproperties ▸ h.properties.map (fun _ ↦ rfl) (fun _ ↦ rfl)
      methodSymbols := fun m hm ↦ ?_
      propertySymbols := fun p hp ↦ ?_ }
  · obtain ⟨n, hn, rfl⟩ := List.mem_map.1 hm
    exact h.methodSymbols n hn
  · obtain ⟨q, hq, rfl⟩ := List.mem_map.1 hp
    exact h.propertySymbols q hq

end Coherent

end Registry

end MemberReach
