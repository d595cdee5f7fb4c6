import MemberReach.Proofs.MethodTable
import MemberReach.Proofs.RegistryInvariant

/-!
# Declarations of one member merge

A type may be declared in several parts and a method several times, in any order and in any file.
`declaredMethods` and `declaredProperties` list the declarations in the order in which they are met.
Of the methods with one identity the table keeps the last one with a body, or the last one if none
has a body; of the properties with one identity it keeps the first. The lists of identities follow
the first declarations: `Recorded` says so for the method table, the index of extension methods and
the method lists of the types, and every recording keeps it. `build_merged` collects the rules.
-/

namespace MemberReach

/-- The type in whose declaration a method was met. -/
def MethodDecl.metIn? (m : MethodDecl) : Option TypeKey :=
  m.context.scope.typeKey?

namespace Registry

/-! ### First declarations -/

/-- The first declaration of an identity. -/
def first? (id : SymbolId) (declared : List MethodDecl) : Option MethodDecl :=
  (versions id declared).head?

/-- The identities of some methods, each once, in the order of their first declarations. -/
def identities (declared : List MethodDecl) : List SymbolId :=
  (declared.map fun m ↦ m.symbol.id).eraseDups

/-- The identities whose first declaration satisfies `p`, in the order of these declarations. -/
def introduced (p : MethodDecl → Bool) (declared : List MethodDecl) : List SymbolId :=
  (identities declared).filter fun id ↦ (first? id declared).any p

/-- The position of the first declaration of an identity. -/
def position (declared : List MethodDecl) (id : SymbolId) : Nat :=
  (declared.map fun m ↦ m.symbol.id).idxOf id

variable {declared : List MethodDecl} {id : SymbolId} {m : MethodDecl}

/-- The first declaration of an identity is a declaration of it. -/
theorem id_of_first (h : first? id declared = some m) : m ∈ declared ∧ m.symbol.id = id := by
  obtain ⟨hmem, hid⟩ := List.mem_filter.1 (List.mem_of_head? h)
  exact ⟨hmem, eq_of_beq hid⟩

/-- An identity has a first declaration exactly if it is listed. -/
theorem mem_identities : id ∈ identities declared ↔ ∃ m, first? id declared = some m := by
  rw [identities, List.mem_eraseDups, ← Option.isSome_iff_exists, first?, versions,
    List.head?_filter]
  exact find_is_some_iff.symm

/-- A later declaration is the first one of an identity only if there was none. -/
theorem first_concat (id : SymbolId) (declared : List MethodDecl) (m : MethodDecl) :
    first? id (declared ++ [m]) =
      (first? id declared).or (if m.symbol.id = id then some m else none) := by
  rw [first?, versions, List.filter_append, List.head?_append]
  refine congrArg (Option.or _) ?_
  by_cases hid : m.symbol.id = id <;> simp [hid]

/-- One more declaration lists its identity last, unless it is known. -/
theorem identities_concat (declared : List MethodDecl) (m : MethodDecl) :
    identities (declared ++ [m]) =
      identities declared ++ if m.symbol.id ∈ identities declared then [] else [m.symbol.id] := by
  have hmem : m.symbol.id ∈ identities declared ↔ m.symbol.id ∈ declared.map fun m ↦ m.symbol.id :=
    List.mem_eraseDups
  rw [identities, List.map_append, List.eraseDups_append]
  refine congrArg (identities declared ++ ·) ?_
  by_cases hknown : m.symbol.id ∈ declared.map fun m ↦ m.symbol.id
  · rw [if_pos (hmem.2 hknown)]
    simp only [List.map_cons, List.map_nil, List.removeAll, List.filter_cons,
      List.elem_eq_true_of_mem hknown]
    rfl
  · rw [if_neg (mt hmem.1 hknown)]
    have helem : List.elem m.symbol.id (declared.map fun m ↦ m.symbol.id) = false := by
      simpa using hknown
    simp only [List.map_cons, List.map_nil, List.removeAll, List.filter_cons, helem]
    rfl

/-- Declaring a known identity again lists nothing new. -/
theorem identities_known (h : m.symbol.id ∈ identities declared) :
    identities (declared ++ [m]) = identities declared := by
  rw [identities_concat, if_pos h, List.append_nil]

/-- A new identity is listed last. -/
theorem identities_new (h : m.symbol.id ∉ identities declared) :
    identities (declared ++ [m]) = identities declared ++ [m.symbol.id] := by
  rw [identities_concat, if_neg h]

/-- What is listed keeps its first declaration. -/
theorem first_concat_of_mem (h : id ∈ identities declared) (m : MethodDecl) :
    first? id (declared ++ [m]) = first? id declared := by
  obtain ⟨n, hn⟩ := mem_identities.1 h
  rw [first_concat, hn]
  rfl

/-- The listed identities are selected by the same first declarations after one more. -/
theorem filter_first_concat (p : MethodDecl → Bool) (declared : List MethodDecl) (m : MethodDecl) :
    ((identities declared).filter fun id ↦ (first? id (declared ++ [m])).any p) =
      introduced p declared :=
  List.filter_congr fun _ hid ↦ by rw [first_concat_of_mem hid]

/-- Declaring a known identity again introduces nothing. -/
theorem introduced_known (p : MethodDecl → Bool) (h : m.symbol.id ∈ identities declared) :
    introduced p (declared ++ [m]) = introduced p declared := by
  rw [introduced, identities_known h, filter_first_concat]

/-- A new identity is introduced last, if its declaration satisfies the condition. -/
theorem introduced_new (p : MethodDecl → Bool) (h : m.symbol.id ∉ identities declared) :
    introduced p (declared ++ [m]) =
      introduced p declared ++ if p m then [m.symbol.id] else [] := by
  have hnone : first? m.symbol.id declared = none := by
    cases hfirst : first? m.symbol.id declared with
    | none => rfl
    | some n => exact absurd (mem_identities.2 ⟨n, hfirst⟩) h
  rw [introduced, identities_new h, List.filter_append, filter_first_concat]
  refine congrArg (introduced p declared ++ ·) ?_
  rw [List.filter_singleton, first_concat, hnone, if_pos rfl, Bool.cond_eq_ite]
  rfl

/-- An identity is introduced by its first declaration. -/
theorem mem_introduced {p : MethodDecl → Bool} :
    id ∈ introduced p declared ↔ ∃ m, first? id declared = some m ∧ p m := by
  rw [introduced, List.mem_filter, mem_identities, Option.any_eq_true]
  constructor
  · rintro ⟨_, m, hm, hp⟩
    exact ⟨m, hm, hp⟩
  · rintro ⟨m, hm, hp⟩
    exact ⟨⟨m, hm⟩, m, hm, hp⟩

/-- What is listed keeps the position of its first declaration. -/
theorem position_known (h : id ∈ identities declared) (m : MethodDecl) :
    position (declared ++ [m]) id = position declared id ∧
      position declared id < declared.length := by
  have hmem : id ∈ declared.map fun m ↦ m.symbol.id := List.mem_eraseDups.1 h
  refine ⟨?_, by simpa [position] using List.idxOf_lt_length_of_mem hmem⟩
  rw [position, List.map_append, List.idxOf_append_of_mem hmem, position]

/-- The first declaration of a new identity comes after all others. -/
theorem position_new (h : m.symbol.id ∉ identities declared) :
    position (declared ++ [m]) m.symbol.id = declared.length := by
  have hnew : m.symbol.id ∉ declared.map fun m ↦ m.symbol.id :=
    fun hmem ↦ h (List.mem_eraseDups.2 hmem)
  rw [position, List.map_append, List.idxOf_append_of_notMem hnew]
  simp

/-- Identities are listed in the order of their first declarations. -/
theorem identities_ordered (declared : List MethodDecl) :
    (identities declared).Pairwise fun a b ↦ position declared a < position declared b := by
  induction declared using List.reverseRecOn with
  | nil => exact List.Pairwise.nil
  | append_singleton declared m ih =>
      have hbefore : (identities declared).Pairwise fun a b ↦
          position (declared ++ [m]) a < position (declared ++ [m]) b := by
        refine ih.imp_of_mem fun {a b} ha hb hab ↦ ?_
        rw [(position_known ha m).1, (position_known hb m).1]
        exact hab
      by_cases hknown : m.symbol.id ∈ identities declared
      · rw [identities_known hknown]
        exact hbefore
      · rw [identities_new hknown, List.pairwise_append]
        refine ⟨hbefore, List.pairwise_singleton _ _, fun a ha b hb ↦ ?_⟩
        rw [List.mem_singleton.1 hb, (position_known ha m).1, position_new hknown]
        exact (position_known ha m).2

/-- No identity is listed twice. -/
theorem identities_nodup (declared : List MethodDecl) : (identities declared).Nodup := by
  refine (identities_ordered declared).imp ?_
  rintro a _ hlt rfl
  exact Nat.lt_irrefl _ hlt

/-! ### Lists of identities during the first pass -/

/-- A registry that recorded the methods `declared`, one after another: the method table, the index
of extension methods and the method list of each type have the identities in the order of their
first declarations, and the types in which methods were met are declared. -/
structure Recorded (declared : List MethodDecl) (r : Registry) : Prop where
  methods : (r.methods.map fun m ↦ m.symbol.id) = identities declared
  extensions : r.extensions = introduced MethodDecl.isExtension declared
  listed : ∀ t ∈ r.types, t.methods = introduced (fun m ↦ m.metIn? == some t.key) declared
  met : ∀ m ∈ declared, ∃ key, m.metIn? = some key ∧ r.isDeclared key

variable {r s : Registry}

/-- A method is recorded as met in the scope of the type declaration whose member it is. -/
theorem Site.met_in (site : Site) {c : Cursor} {m : MethodDecl} (h : site.method? c = some m) :
    m.metIn? = site.scope.typeKey? := by
  simp only [method?, Option.bind_eq_bind, Option.bind_eq_some_iff, Option.pure_def,
    Option.some.injEq] at h
  obtain ⟨id, _, rfl⟩ := h
  rfl

namespace Recorded

/-- The registry without declarations recorded no method. -/
theorem empty : Recorded [] Registry.empty :=
  ⟨rfl, rfl, nofun, nofun⟩

/-- A change of types that keeps keys and method lists records no method. -/
theorem modify_type {key : TypeKey} {f : TypeDecl → TypeDecl} (hkey : ∀ t, (f t).key = t.key)
    (hmethods : ∀ t, (f t).methods = t.methods) (h : Recorded declared r) :
    Recorded declared (r.modifyType key f) := by
  refine ⟨h.methods, h.extensions, fun t ht ↦ ?_, fun m hm ↦ ?_⟩
  · obtain ⟨u, hu, rfl⟩ := List.mem_map.1 ht
    split
    · rw [hmethods, hkey]
      exact h.listed u hu
    · exact h.listed u hu
  · obtain ⟨owner, howner, hdeclared⟩ := h.met m hm
    exact ⟨owner, howner, (is_declared_of_keys (keys_modify_type r key hkey)).2 hdeclared⟩

/-- A part of a type records no method: in a type that is new, none can have been met. -/
theorem add_type (h : Recorded declared r) (key : TypeKey)
    (bases : List (String × LookupContext)) : Recorded declared (r.addType key bases) := by
  unfold addType
  split
  case isTrue => exact h.modify_type (fun _ ↦ rfl) (fun _ ↦ rfl)
  case isFalse hdeclared =>
    refine ⟨h.methods, h.extensions, fun t ht ↦ ?_, fun m hm ↦ ?_⟩
    · rcases List.mem_append.1 ht with ht | ht
      · exact h.listed t ht
      · rw [List.mem_singleton.1 ht]
        refine (List.eq_nil_iff_forall_not_mem.2 fun id hid ↦ ?_).symm
        obtain ⟨m, hm, hmet⟩ := mem_introduced.1 hid
        obtain ⟨owner, howner, hknown⟩ := h.met m (id_of_first hm).1
        rw [howner] at hmet
        obtain rfl : owner = key := Option.some.inj (eq_of_beq hmet)
        exact hdeclared hknown
    · obtain ⟨owner, howner, hknown⟩ := h.met m hm
      refine ⟨owner, howner, is_declared_iff.2 ?_⟩
      rw [List.map_append]
      exact List.mem_append_left _ (is_declared_iff.1 hknown)

/-- A property records no method. -/
theorem add_property (h : Recorded declared r) (p : PropertyDecl) :
    Recorded declared (r.addProperty p) := by
  unfold addProperty
  split
  case isTrue => exact h
  case isFalse =>
    have htypes : Recorded declared (r.modifyType p.symbol.id.owner fun t ↦
        { t with properties := t.properties ++ [p.symbol.id] }) :=
      h.modify_type (fun _ ↦ rfl) (fun _ ↦ rfl)
    exact ⟨htypes.methods, htypes.extensions, htypes.listed, htypes.met⟩

/-- Fields record no method. -/
theorem add_fields (h : Recorded declared r) (key : TypeKey) (fields : List FieldDecl) :
    Recorded declared (fields.foldl (fun r field ↦ r.addField key field) r) :=
  List.foldlRecOn fields _ h fun _ hs _ _ ↦ hs.modify_type (fun _ ↦ rfl) (fun _ ↦ rfl)

/-- The types in which methods were met after one more was met in a declared type. -/
theorem met_concat (h : Recorded declared r) {key : TypeKey} (hmet : m.metIn? = some key)
    (hdeclared : r.isDeclared key) (hkeys : s.types.map TypeDecl.key = r.types.map TypeDecl.key) :
    ∀ n ∈ declared ++ [m], ∃ key, n.metIn? = some key ∧ s.isDeclared key := by
  intro n hn
  rcases List.mem_append.1 hn with hn | hn
  · obtain ⟨owner, howner, hknown⟩ := h.met n hn
    exact ⟨owner, howner, (is_declared_of_keys hkeys).2 hknown⟩
  · rw [List.mem_singleton.1 hn]
    exact ⟨key, hmet, (is_declared_of_keys hkeys).2 hdeclared⟩

/-- A method of a new identity is recorded last. -/
theorem add_new_method (h : Recorded declared r) {key : TypeKey} (hmet : m.metIn? = some key)
    (hdeclared : r.isDeclared key) (hnew : m.symbol.id ∉ identities declared) :
    Recorded (declared ++ [m]) (r.addNewMethod key m) := by
  refine ⟨?_, ?_, fun t ht ↦ ?_, ?_⟩
  · show ((r.methods ++ [m]).map fun m ↦ m.symbol.id) = _
    rw [List.map_append, h.methods, identities_new hnew]
    rfl
  · show (if m.isExtension then r.extensions ++ [m.symbol.id] else r.extensions) = _
    rw [introduced_new _ hnew, h.extensions]
    split
    · rfl
    · rw [List.append_nil]
  · -- only the list of the type in which the method was met grows
    obtain ⟨u, hu, rfl⟩ := List.mem_map.1 ht
    split
    next hkey =>
      have hown : (m.metIn? == some u.key) = true := by
        rw [hmet, eq_of_beq hkey]
        exact beq_self_eq_true _
      show u.methods ++ [m.symbol.id] =
        introduced (fun m ↦ m.metIn? == some u.key) (declared ++ [m])
      rw [introduced_new _ hnew, if_pos hown, h.listed u hu]
    next hkey =>
      have hother : ¬ (m.metIn? == some u.key) = true := by
        rw [hmet]
        intro heq
        exact hkey (beq_iff_eq.2 (Option.some.inj (eq_of_beq heq)).symm)
      rw [introduced_new _ hnew, if_neg hother, List.append_nil]
      exact h.listed u hu
  · exact h.met_concat hmet hdeclared (keys_modify_type r key fun _ ↦ rfl)

/-- A method of a known identity changes no list of identities. -/
theorem add_known_method (h : Recorded declared r) {key : TypeKey} (hmet : m.metIn? = some key)
    (hdeclared : r.isDeclared key) (hknown : m.symbol.id ∈ identities declared)
    (hids : (s.methods.map fun m ↦ m.symbol.id) = r.methods.map fun m ↦ m.symbol.id)
    (hextensions : s.extensions = r.extensions) (htypes : s.types = r.types) :
    Recorded (declared ++ [m]) s := by
  refine ⟨?_, ?_, fun t ht ↦ ?_, h.met_concat hmet hdeclared (by rw [htypes])⟩
  · rw [hids, h.methods, identities_known hknown]
  · rw [hextensions, h.extensions, introduced_known _ hknown]
  · rw [introduced_known _ hknown]
    exact h.listed t (htypes ▸ ht)

/-- A method that was met in a declared type is recorded. -/
theorem add_method (h : Recorded declared r) {key : TypeKey} (hmet : m.metIn? = some key)
    (hdeclared : r.isDeclared key) : Recorded (declared ++ [m]) (r.addMethod key m) := by
  have hlisted : (r.method? m.symbol.id).isSome ↔ m.symbol.id ∈ identities declared := by
    rw [method_is_some_iff, h.methods]
  unfold addMethod
  split
  next hnone =>
    refine h.add_new_method hmet hdeclared fun hmem ↦ ?_
    rw [← hlisted, hnone] at hmem
    cases hmem
  next old hold =>
    have hknown : m.symbol.id ∈ identities declared := hlisted.1 (by rw [hold]; rfl)
    split
    · exact h.add_known_method hmet hdeclared hknown rfl rfl rfl
    · exact h.add_known_method hmet hdeclared hknown (ids_replace_method r m) rfl rfl

/-- A member of a declared type is recorded if it is a method. -/
theorem collect_member (h : Recorded declared r) {site : Site}
    (hkey : site.scope.typeKey? = some site.key) (hdeclared : r.isDeclared site.key) (c : Cursor) :
    Recorded (declared ++ site.declared c) (site.collectMember r c) := by
  unfold Site.collectMember
  split
  next hkind =>
    rw [Site.declared, if_pos hkind]
    cases hm : site.method? c with
    | none => simpa using h
    | some m => exact h.add_method ((site.met_in hm).trans hkey) hdeclared
  next hkind =>
    rw [Site.declared, if_neg (by rw [hkind]; decide), List.append_nil]
    cases site.property? c with
    | none => exact h
    | some p => exact h.add_property p
  next hkind =>
    rw [Site.declared, if_neg (by rw [hkind]; decide), List.append_nil]
    exact h.add_fields site.key (site.fields c)
  next hmethod _ _ =>
    rw [Site.declared, if_neg hmethod, List.append_nil]
    exact h

/-- A type declaration records the methods that it has as members. -/
theorem collect (h : Recorded declared r) (site : Site)
    (hkey : site.scope.typeKey? = some site.key) (t : Cursor) :
    Recorded (declared ++ (members t).flatMap site.declared) (site.collect r t) := by
  -- the members are met in a type that is declared, which recording a method needs
  let Inside : List MethodDecl → Registry → Prop := fun declared r ↦
    Recorded declared r ∧ r.isDeclared site.key
  have htype : Inside declared
      (r.addType site.key ((baseNames t).map fun name ↦ (name, site.context))) :=
    ⟨h.add_type _ _, is_declared_add_type r _ _⟩
  have hpositional := List.foldlRecOn (motive := Inside declared) (positionalParameters t)
    (fun r (parameter : Cursor × Cursor) ↦
      r.addProperty (site.property parameter.1.text parameter.1 parameter.2)) htype
    fun s hs parameter _ ↦
      ⟨hs.1.add_property _, (is_declared_of_keys (keys_add_property s _)).2 hs.2⟩
  refine (foldl_declares (P := Inside) (fun declared s c hs ↦ ?_) (members t) hpositional).1
  exact ⟨hs.1.collect_member hkey hs.2 c,
    (is_declared_of_keys (keys_collect_member site s c)).2 hs.2⟩

/-- Recording the type that a node declares records the methods that it has as members. -/
theorem collect_type (h : Recorded declared r) (unitId : Nat) (unit : SourceUnit) (t : Cursor) :
    Recorded (declared ++ typeMethods unitId unit t) (collectType unitId unit r t) := by
  simp only [collectType, typeMethods]
  cases hkey : (Scope.of t).typeKey? with
  | none => simpa using h
  | some key => exact h.collect ⟨unitId, unit, key, Scope.of t⟩ hkey t

/-- The first pass records the methods in the order in which they are met. -/
theorem collect_all (units : List SourceUnit) :
    Recorded (declaredMethods units) (collectAll units) := by
  refine foldl_declares (fun declared r entry h ↦ ?_) units.zipIdx Recorded.empty
  have himports : Recorded declared
      { r with imports := r.imports ++ [Scope.imports entry.1.root] } :=
    ⟨h.methods, h.extensions, h.listed, h.met⟩
  exact foldl_declares (fun declared r t h ↦ h.collect_type entry.2 entry.1 t)
    (typeDeclarations entry.1) himports

/-- The second pass changes no list of identities. -/
theorem resolve_all (h : Recorded declared r) : Recorded declared r.resolveAll := by
  have hids : (r.resolveAll.methods.map fun m ↦ m.symbol.id) =
      r.methods.map fun m ↦ m.symbol.id := List.map_map
  refine ⟨hids.trans h.methods, h.extensions, fun t ht ↦ ?_, fun m hm ↦ ?_⟩
  · obtain ⟨u, hu, rfl⟩ := List.mem_map.1 ht
    exact h.listed u hu
  · rw [is_declared_resolve_all]
    exact h.met m hm

end Recorded

/-! ### Properties -/

/-- A registry that recorded the properties `declared` has the first one of each identity. -/
def KeepsFirst (declared : List PropertyDecl) (r : Registry) : Prop :=
  ∀ id, r.property? id = declared.find? fun p ↦ p.symbol.id == id

/-- The property that a member of a type declaration declares, if it declares one. -/
def Site.declaredProperty (site : Site) (c : Cursor) : List PropertyDecl :=
  if c.kind = .propertyDeclaration then (site.property? c).toList else []

/-- The properties that a type declaration has as positional parameters or as members, in order. -/
def typeProperties (unitId : Nat) (unit : SourceUnit) (t : Cursor) : List PropertyDecl :=
  match (Scope.of t).typeKey? with
  | none => []
  | some key =>
      let site : Site := ⟨unitId, unit, key, Scope.of t⟩
      ((positionalParameters t).flatMap fun (name, type) ↦ [site.property name.text name type]) ++
        (members t).flatMap site.declaredProperty

/-- The properties that the type declarations of some units declare, in order. -/
def declaredProperties (units : List SourceUnit) : List PropertyDecl :=
  units.zipIdx.flatMap fun entry ↦
    (typeDeclarations entry.1).flatMap (typeProperties entry.2 entry.1)

/-- Recording a method leaves the properties alone. -/
theorem properties_add_method (r : Registry) (key : TypeKey) (m : MethodDecl) :
    (r.addMethod key m).properties = r.properties := by
  unfold addMethod
  split
  · rfl
  · split <;> rfl

/-- Recording fields leaves the properties alone. -/
theorem properties_add_fields (r : Registry) (key : TypeKey) (fields : List FieldDecl) :
    (fields.foldl (fun r field ↦ r.addField key field) r).properties = r.properties :=
  List.foldlRecOn (motive := fun s : Registry ↦ s.properties = r.properties) fields _ rfl
    fun _ h _ _ ↦ h

/-- Recording a part of a type leaves the properties alone. -/
theorem properties_add_type (r : Registry) (key : TypeKey)
    (bases : List (String × LookupContext)) : (r.addType key bases).properties = r.properties := by
  unfold addType
  split <;> rfl

namespace KeepsFirst

variable {declared : List PropertyDecl}

/-- A registry with the same properties recorded the same. -/
theorem of_properties (h : KeepsFirst declared r) (hs : s.properties = r.properties) :
    KeepsFirst declared s := by
  intro id
  rw [← h id, property?, hs, property?]

/-- A property is kept only if it is the first of its identity. -/
theorem add_property (h : KeepsFirst declared r) (p : PropertyDecl) :
    KeepsFirst (declared ++ [p]) (r.addProperty p) := by
  intro id
  rw [List.find?_append, ← h id, List.find?_singleton]
  unfold addProperty
  split
  case isTrue hknown =>
    split
    next hid =>
      rw [eq_of_beq hid] at hknown
      rw [Option.or_of_isSome hknown]
    next => rw [Option.or_none]
  case isFalse =>
    show (r.properties ++ [p]).find? (fun p ↦ p.symbol.id == id) = _
    rw [List.find?_append, List.find?_singleton]
    rfl

/-- A member of a type is recorded if it is a property. -/
theorem collect_member (h : KeepsFirst declared r) (site : Site) (c : Cursor) :
    KeepsFirst (declared ++ site.declaredProperty c) (site.collectMember r c) := by
  unfold Site.collectMember
  split
  next hkind =>
    rw [Site.declaredProperty, if_neg (by rw [hkind]; decide), List.append_nil]
    cases site.method? c with
    | none => exact h
    | some m => exact h.of_properties (properties_add_method r site.key m)
  next hkind =>
    rw [Site.declaredProperty, if_pos hkind]
    cases site.property? c with
    | none => simpa using h
    | some p => exact h.add_property p
  next hkind =>
    rw [Site.declaredProperty, if_neg (by rw [hkind]; decide), List.append_nil]
    exact h.of_properties (properties_add_fields r site.key (site.fields c))
  next _ hproperty _ =>
    rw [Site.declaredProperty, if_neg hproperty, List.append_nil]
    exact h

/-- Recording the type that a node declares records the properties that it declares. -/
theorem collect_type (h : KeepsFirst declared r) (unitId : Nat) (unit : SourceUnit) (t : Cursor) :
    KeepsFirst (declared ++ typeProperties unitId unit t) (collectType unitId unit r t) := by
  simp only [collectType, typeProperties]
  cases (Scope.of t).typeKey? with
  | none => simpa using h
  | some key =>
      have htype := h.of_properties (properties_add_type r key
        ((baseNames t).map fun name ↦ (name, Site.context ⟨unitId, unit, key, Scope.of t⟩)))
      have hpositional := foldl_declares
        (fun declared s (parameter : Cursor × Cursor) (hs : KeepsFirst declared s) ↦
          hs.add_property (Site.property ⟨unitId, unit, key, Scope.of t⟩ parameter.1.text
            parameter.1 parameter.2)) (positionalParameters t) htype
      rw [← List.append_assoc]
      exact foldl_declares (fun declared s c hs ↦ hs.collect_member _ c) (members t) hpositional

/-- The first pass keeps the first property of each identity. -/
theorem collect_all (units : List SourceUnit) :
    KeepsFirst (declaredProperties units) (collectAll units) := by
  have hempty : KeepsFirst [] Registry.empty := fun _ ↦ rfl
  refine foldl_declares (fun declared r entry h ↦ ?_) units.zipIdx hempty
  exact foldl_declares (fun declared r t h ↦ h.collect_type entry.2 entry.1 t)
    (typeDeclarations entry.1) (h.of_properties rfl)

end KeepsFirst

/-! ### The finished registry -/

/-- The method lists of the types of a project. -/
theorem build_recorded (units : List SourceUnit) : Recorded (declaredMethods units) (build units) :=
  (Recorded.collect_all units).resolve_all

/-- Types are the same before and after the second pass. -/
theorem resolve_method_decl_build (units : List SourceUnit) :
    (build units).resolveMethodDecl = (collectAll units).resolveMethodDecl := by
  funext m
  unfold resolveMethodDecl
  rw [build, resolve_type_resolve_all]

/-- The entry of a property is the first declaration, with its type resolved. -/
theorem property_build (units : List SourceUnit) (id : SymbolId) :
    (build units).property? id = ((declaredProperties units).find? fun p ↦ p.symbol.id == id).map
      (build units).resolvePropertyDecl := by
  have hresolve : (build units).resolvePropertyDecl = (collectAll units).resolvePropertyDecl := by
    funext p
    unfold resolvePropertyDecl
    rw [build, resolve_type_resolve_all]
  rw [hresolve, ← KeepsFirst.collect_all units id]
  exact List.find?_map ..

/-- In plain bodies, a method is met in the type that owns its identity. -/
theorem met_in_owner {units : List SourceUnit} (hplain : PlainBodies units) {m : MethodDecl}
    (hm : m ∈ declaredMethods units) : m.metIn? = some m.symbol.id.owner := by
  obtain ⟨i, unit, t, key, c, hunit, ht, hkey, hc, hkind, hrecorded⟩ := mem_declared_methods.1 hm
  have hscope := scope_of_member (hplain unit (List.mem_of_getElem? hunit) t ht) hc hkind
  obtain ⟨name, owner, _, howner, hid⟩ :=
    method_identity_eq_some.1 (Site.method_records hrecorded).id
  rw [hscope] at howner
  rw [Site.met_in _ hrecorded, hid]
  exact howner

/-- How the declarations of some units merge in a registry. The entry of a method is the last of its
declarations with a body, or else the last one, so that it has a body as soon as one of them has.
The type in which the first of them was met lists the method once, no other type does, and types
list their methods in the order of the first declarations. The entry of a property is the first of
its declarations. -/
structure Merged (units : List SourceUnit) (r : Registry) : Prop where
  method : ∀ id, r.method? id =
    (preferred (versions id (declaredMethods units))).map r.resolveMethodDecl
  implemented : ∀ id, ∀ d ∈ versions id (declaredMethods units), d.hasBody →
    ∃ m, r.method? id = some m ∧ m.hasBody
  listed : ∀ id d, first? id (declaredMethods units) = some d →
    ∃ key t, d.metIn? = some key ∧ r.type? key = some t ∧ t.methods.count id = 1
  listedOnly : ∀ key t, r.type? key = some t → ∀ id ∈ t.methods,
    ∃ d, first? id (declaredMethods units) = some d ∧ d.metIn? = some key
  ordered : ∀ key t, r.type? key = some t → t.methods.Pairwise fun a b ↦
    position (declaredMethods units) a < position (declaredMethods units) b
  property : ∀ id, r.property? id =
    ((declaredProperties units).find? fun p ↦ p.symbol.id == id).map r.resolvePropertyDecl

/-- The declarations of every list of units merge by the same rules, in whatever order they come,
and in plain bodies a method is met in the type that owns it. -/
theorem build_merged (units : List SourceUnit) :
    Merged units (build units) ∧ (PlainBodies units →
      ∀ m ∈ declaredMethods units, m.metIn? = some m.symbol.id.owner) := by
  have hrecorded := build_recorded units
  have hmethod : ∀ id, (build units).method? id =
      (preferred (versions id (declaredMethods units))).map (build units).resolveMethodDecl := by
    intro id
    rw [method_build, resolve_method_decl_build]
  have hlists : ∀ {key t}, (build units).type? key = some t → t.methods =
      introduced (fun m ↦ m.metIn? == some key) (declaredMethods units) := by
    intro key t ht
    obtain rfl : t.key = key := by simpa using List.find?_some ht
    exact hrecorded.listed t (List.mem_of_find?_eq_some ht)
  refine ⟨?_, fun hplain m hm ↦ met_in_owner hplain hm⟩
  refine
    { method := hmethod
      implemented := fun id d hd hbody ↦ ?_
      listed := fun id d hd ↦ ?_
      listedOnly := fun key t ht id hid ↦ ?_
      ordered := fun key t ht ↦ ?_
      property := property_build units }
  · obtain ⟨m, _, hm, hpreferred⟩ := preferred_of_body hd hbody
    refine ⟨(build units).resolveMethodDecl m, ?_, hm⟩
    rw [hmethod, hpreferred]
    rfl
  · obtain ⟨key, hkey, hdeclared⟩ := hrecorded.met d (id_of_first hd).1
    obtain ⟨t, ht⟩ := Option.isSome_iff_exists.1 hdeclared
    refine ⟨key, t, hkey, ht, ?_⟩
    rw [hlists ht]
    refine List.count_eq_one_of_mem ((identities_nodup _).filter _) (mem_introduced.2 ⟨d, hd, ?_⟩)
    rw [hkey]
    exact beq_self_eq_true _
  · rw [hlists ht] at hid
    obtain ⟨d, hd, hmet⟩ := mem_introduced.1 hid
    exact ⟨d, hd, eq_of_beq hmet⟩
  · rw [hlists ht]
    exact (identities_ordered _).filter _

/-- A type in two parts, with a method and a property that are declared in both. The method has its
body in the second part, the property is that of the first. -/
theorem build_merged_parts :
    PlainBodies Parts.units ∧ Merged Parts.units (build Parts.units) ∧
      (∀ m ∈ declaredMethods Parts.units, m.metIn? = some m.symbol.id.owner) ∧
      (versions (.method ⟨"A"⟩ "M" []) (declaredMethods Parts.units)).map
        (fun d ↦ (d.unit, d.hasBody)) = [(0, false), (1, true)] ∧
      ((build Parts.units).method? (.method ⟨"A"⟩ "M" [])).map
        (fun d ↦ (d.unit, d.hasBody)) = some (1, true) ∧
      ((declaredProperties Parts.units).filter fun p ↦ p.symbol.id == .property ⟨"A"⟩ "P").map
        (fun p ↦ p.symbol.location) = [⟨"A.cs", 1, 38⟩, ⟨"B.cs", 1, 64⟩] ∧
      ((build Parts.units).property? (.property ⟨"A"⟩ "P")).map
        (fun p ↦ p.symbol.location) = some ⟨"A.cs", 1, 38⟩ := by
  obtain ⟨hmerged, hmet⟩ := build_merged Parts.units
  refine ⟨Parts.plain_bodies, hmerged, hmet Parts.plain_bodies, ?_⟩
  decide +kernel

end Registry

end MemberReach
