import Mathlib.Data.List.Induction
import MemberReach.Proofs.DeclaredSymbols
import MemberReach.Proofs.MemberScopes
import MemberReach.Tree.Rows

/-!
# The method table of a project

What a look-up in the method table gives. `declaredMethods` lists the methods that the type
declarations of a project have as members, in the order in which they are met. Of those with one
identity, the table has the last one with a body, or the last one if none has a body
(`method_collect_all`). So a method is registered exactly if some type declaration has it as a
member (`method_registered_iff`). A method that stands deeper in the body of a type, for instance
between conditional directives, is met in the search for a seed but is not registered.
-/

namespace MemberReach

namespace Registry

/-! ### Declarations of one identity -/

/-- The entry of an identity after one more declaration of it. -/
def supersede (old : Option MethodDecl) (m : MethodDecl) : Option MethodDecl :=
  match old with
  | none => some m
  | some old => if old.hasBody && !m.hasBody then some old else some m

/-- The declaration that counts: the last one with a body, or else the last one. -/
def preferred (declared : List MethodDecl) : Option MethodDecl :=
  (declared.filter MethodDecl.hasBody).getLast?.or declared.getLast?

/-- The declarations of an identity. -/
def versions (id : SymbolId) (declared : List MethodDecl) : List MethodDecl :=
  declared.filter fun m ↦ m.symbol.id == id

/-- Taking declarations one after another leaves the one that counts. -/
theorem foldl_supersede (declared : List MethodDecl) :
    declared.foldl supersede none = preferred declared := by
  induction declared using List.reverseRecOn with
  | nil => rfl
  | append_singleton declared m ih =>
      rw [List.foldl_append, ih, preferred, preferred, List.filter_append, List.getLast?_append,
        List.getLast?_append]
      cases hbody : m.hasBody with
      | true =>
          have hfilter : [m].filter MethodDecl.hasBody = [m] := by simp [hbody]
          rw [hfilter]
          show supersede _ m = some m
          cases (declared.filter MethodDecl.hasBody).getLast?.or declared.getLast? with
          | none => rfl
          | some old => simp [supersede, hbody]
      | false =>
          have hfilter : [m].filter MethodDecl.hasBody = [] := by simp [hbody]
          rw [hfilter]
          show supersede _ m = (declared.filter MethodDecl.hasBody).getLast?.or (some m)
          cases hlast : (declared.filter MethodDecl.hasBody).getLast? with
          | some old =>
              have hold := (List.mem_filter.1 (List.mem_of_getLast? hlast)).2
              simp [supersede, hold, hbody]
          | none =>
              -- without a body so far, the last declaration is one without a body
              have hnone := List.filter_eq_nil_iff.1 (List.getLast?_eq_none_iff.1 hlast)
              cases hold : declared.getLast? with
              | none => rfl
              | some old =>
                  have := hnone old (List.mem_of_getLast? hold)
                  simp [supersede, this]

/-- Some declaration counts if there is one. -/
theorem preferred_is_some_iff {declared : List MethodDecl} :
    (preferred declared).isSome ↔ declared ≠ [] := by
  rw [preferred, Option.isSome_or, Bool.or_eq_true, List.getLast?_isSome, List.getLast?_isSome]
  refine or_iff_right_of_imp fun hne hnil ↦ hne ?_
  rw [hnil, List.filter_nil]

/-- If there is a declaration with a body, one with a body counts. -/
theorem preferred_of_body {declared : List MethodDecl} {n : MethodDecl} (hn : n ∈ declared)
    (hbody : n.hasBody) : ∃ m ∈ declared, m.hasBody ∧ preferred declared = some m := by
  have hne : declared.filter MethodDecl.hasBody ≠ [] :=
    List.ne_nil_of_mem (List.mem_filter.2 ⟨hn, hbody⟩)
  obtain ⟨m, hm⟩ := Option.isSome_iff_exists.1 (List.getLast?_isSome.2 hne)
  obtain ⟨hmem, hmbody⟩ := List.mem_filter.1 (List.mem_of_getLast? hm)
  refine ⟨m, hmem, hmbody, ?_⟩
  rw [preferred, hm]
  rfl

/-! ### Look-ups during the first pass -/

/-- Recording a new method adds an entry. -/
theorem method_add_new_method (r : Registry) (key : TypeKey) (m : MethodDecl) (id : SymbolId) :
    (r.addNewMethod key m).method? id =
      (r.method? id).or (if m.symbol.id = id then some m else none) := by
  show (r.methods ++ [m]).find? (fun m ↦ m.symbol.id == id) = _
  rw [List.find?_append, List.find?_singleton]
  simp only [beq_iff_eq]
  rfl

/-- Replacing a declaration changes the entry of its identity. -/
theorem method_replace_method (r : Registry) (m : MethodDecl) (id : SymbolId) :
    (r.replaceMethod m).method? id =
      (r.method? id).map fun old ↦ if m.symbol.id = id then m else old := by
  -- every entry keeps its identity, so the same position is found
  let place : MethodDecl → MethodDecl := fun old ↦
    if old.symbol.id == m.symbol.id then m else old
  have hid : (fun m : MethodDecl ↦ m.symbol.id == id) ∘ place = fun m ↦ m.symbol.id == id := by
    funext old
    simp only [Function.comp_apply, place]
    split
    next heq => rw [eq_of_beq heq]
    next => rfl
  show (r.methods.map place).find? (fun m ↦ m.symbol.id == id) = _
  rw [List.find?_map, hid]
  show (r.method? id).map place = _
  cases hfind : r.method? id with
  | none => rfl
  | some old =>
      have hold : old.symbol.id = id := by simpa using List.find?_some hfind
      simp only [Option.map_some, place, hold, beq_iff_eq]
      exact congrArg some (if_congr eq_comm rfl rfl)

/-- Recording a declaration of a method changes the entry of its identity, and no other. -/
theorem method_add_method (r : Registry) (key : TypeKey) (m : MethodDecl) (id : SymbolId) :
    (r.addMethod key m).method? id = (versions id [m]).foldl supersede (r.method? id) := by
  have hversions : versions id [m] = if m.symbol.id = id then [m] else [] := by
    simp only [versions, List.filter_cons, List.filter_nil, beq_iff_eq]
  rw [hversions]
  unfold addMethod
  split
  next hnew =>
    rw [method_add_new_method]
    split
    next hid => rw [← hid, hnew]; rfl
    next => rw [Option.or_none]; rfl
  next old hold =>
    split
    next hkept =>
      split
      next hid =>
        rw [← hid, hold]
        show some old = if old.hasBody && !m.hasBody then some old else some m
        rw [if_pos hkept]
      next => rfl
    next hreplaced =>
      rw [method_replace_method]
      split
      next hid =>
        rw [← hid, hold]
        show some m = if old.hasBody && !m.hasBody then some old else some m
        rw [if_neg hreplaced]
      next => exact Option.map_id_apply

/-- Entries after a run of recordings, if `declared` are the methods that each of them declares. -/
theorem method_foldl {α : Type} {record : Registry → α → Registry}
    {declared : α → List MethodDecl} {id : SymbolId}
    (h : ∀ r a, (record r a).method? id =
      (versions id (declared a)).foldl supersede (r.method? id)) (steps : List α) (r : Registry) :
    (steps.foldl record r).method? id =
      (versions id (steps.flatMap declared)).foldl supersede (r.method? id) := by
  induction steps generalizing r with
  | nil => rfl
  | cons a rest ih =>
      have happend : versions id ((a :: rest).flatMap declared) =
          versions id (declared a) ++ versions id (rest.flatMap declared) :=
        List.filter_append _ _
      rw [List.foldl_cons, ih, h, happend, List.foldl_append]

/-- Recording a property leaves the methods alone. -/
theorem methods_add_property (r : Registry) (p : PropertyDecl) :
    (r.addProperty p).methods = r.methods := by
  unfold addProperty
  split <;> rfl

/-- Recording fields leaves the methods alone. -/
theorem methods_add_fields (r : Registry) (key : TypeKey) (fields : List FieldDecl) :
    (fields.foldl (fun r field ↦ r.addField key field) r).methods = r.methods :=
  List.foldlRecOn (motive := fun s : Registry ↦ s.methods = r.methods) fields _ rfl fun _ h _ _ ↦ h

/-- Recording a part of a type leaves the methods alone. -/
theorem methods_add_type (r : Registry) (key : TypeKey) (bases : List (String × LookupContext)) :
    (r.addType key bases).methods = r.methods := by
  unfold addType
  split <;> rfl

/-- The method that a member of a type declaration declares, if it declares one. -/
def Site.declared (site : Site) (c : Cursor) : List MethodDecl :=
  if c.kind = .methodDeclaration then (site.method? c).toList else []

/-- Recording a member records the method that it declares. -/
theorem method_collect_member (site : Site) (id : SymbolId) (r : Registry) (c : Cursor) :
    (site.collectMember r c).method? id =
      (versions id (site.declared c)).foldl supersede (r.method? id) := by
  unfold Site.collectMember Site.declared
  split
  next hkind =>
    rw [if_pos hkind]
    cases site.method? c with
    | none => rfl
    | some m => exact method_add_method r site.key m id
  next hkind =>
    rw [if_neg (by rw [hkind]; exact nofun)]
    cases site.property? c with
    | none => rfl
    | some p => exact congrArg (List.find? _) (methods_add_property r p)
  next hkind =>
    rw [if_neg (by rw [hkind]; exact nofun)]
    exact congrArg (List.find? _) (methods_add_fields r site.key (site.fields c))
  next hmethod _ _ =>
    rw [if_neg hmethod]
    rfl

/-- Recording a type declaration records the methods that it has as members. -/
theorem method_collect (site : Site) (id : SymbolId) (r : Registry) (t : Cursor) :
    (site.collect r t).method? id =
      (versions id ((members t).flatMap site.declared)).foldl supersede (r.method? id) := by
  -- what comes before the members, the type and its positional parameters, touches no method
  let record : Registry → Cursor × Cursor → Registry := fun r parameter ↦
    r.addProperty (site.property parameter.1.text parameter.1 parameter.2)
  have hmethods : ((positionalParameters t).foldl record
      (r.addType site.key ((baseNames t).map fun name ↦ (name, site.context)))).methods =
        r.methods := by
    refine List.foldlRecOn (motive := fun s : Registry ↦ s.methods = r.methods)
      (positionalParameters t) record (methods_add_type r _ _) ?_
    intro s hs parameter _
    exact (methods_add_property s _).trans hs
  have hmethod := congrArg (List.find? fun m ↦ m.symbol.id == id) hmethods
  refine (method_foldl (method_collect_member site id) (members t) _).trans ?_
  exact congrArg (List.foldl supersede · _) hmethod

/-- The methods that a type declaration has as members, in order. -/
def typeMethods (unitId : Nat) (unit : SourceUnit) (t : Cursor) : List MethodDecl :=
  match (Scope.of t).typeKey? with
  | none => []
  | some key => (members t).flatMap (Site.declared ⟨unitId, unit, key, Scope.of t⟩)

/-- The methods that the type declarations of some units have as members, in order. -/
def declaredMethods (units : List SourceUnit) : List MethodDecl :=
  units.zipIdx.flatMap fun entry ↦
    (typeDeclarations entry.1).flatMap (typeMethods entry.2 entry.1)

/-- Recording the type that a node declares records the methods that it has as members. -/
theorem method_collect_type (unitId : Nat) (unit : SourceUnit) (id : SymbolId) (r : Registry)
    (t : Cursor) :
    (collectType unitId unit r t).method? id =
      (versions id (typeMethods unitId unit t)).foldl supersede (r.method? id) := by
  simp only [collectType, typeMethods]
  cases (Scope.of t).typeKey? with
  | none => rfl
  | some key => exact method_collect ⟨unitId, unit, key, Scope.of t⟩ id r t

/-- Of the declarations of an identity, the first pass leaves the one that counts. -/
theorem method_collect_all (units : List SourceUnit) (id : SymbolId) :
    (collectAll units).method? id = preferred (versions id (declaredMethods units)) := by
  rw [← foldl_supersede]
  refine method_foldl (fun r entry ↦ ?_) units.zipIdx empty
  exact method_foldl (method_collect_type entry.2 entry.1 id) (typeDeclarations entry.1) _

/-- The entry of an identity is the declaration that counts, with its types resolved. -/
theorem method_build (units : List SourceUnit) (id : SymbolId) :
    (build units).method? id = (preferred (versions id (declaredMethods units))).map
      (collectAll units).resolveMethodDecl := by
  rw [← method_collect_all]
  exact List.find?_map ..

/-- A listed method is what is recorded for a member of a type declaration in a named type. -/
theorem mem_declared_methods {units : List SourceUnit} {m : MethodDecl} :
    m ∈ declaredMethods units ↔ ∃ i unit t key c, units[i]? = some unit ∧
      t ∈ typeDeclarations unit ∧ (Scope.of t).typeKey? = some key ∧ c ∈ members t ∧
        c.kind = .methodDeclaration ∧ Site.method? ⟨i, unit, key, Scope.of t⟩ c = some m := by
  simp only [declaredMethods, List.mem_flatMap, Prod.exists, List.mem_zipIdx_iff_getElem?]
  constructor
  · rintro ⟨unit, i, hunit, t, ht, hm⟩
    unfold typeMethods at hm
    split at hm
    next => cases hm
    next key hkey =>
      obtain ⟨c, hc, hm⟩ := List.mem_flatMap.1 hm
      unfold Site.declared at hm
      split at hm
      next hkind => exact ⟨i, unit, t, key, c, hunit, ht, hkey, hc, hkind, Option.mem_toList.1 hm⟩
      next => cases hm
  · rintro ⟨i, unit, t, key, c, hunit, ht, hkey, hc, hkind, hm⟩
    refine ⟨unit, i, hunit, t, ht, ?_⟩
    simp only [typeMethods, hkey]
    refine List.mem_flatMap.2 ⟨c, hc, ?_⟩
    rw [Site.declared, if_pos hkind]
    exact Option.mem_toList.2 hm

/-- A node that a type declaration in a named type has as a member. -/
def IsMember (unit : SourceUnit) (c : Cursor) : Prop :=
  ∃ t ∈ typeDeclarations unit, (Scope.of t).typeKey?.isSome ∧ c ∈ members t

/-- A member of a type declaration is a node of the tree. -/
theorem IsMember.is_in {unit : SourceUnit} {c : Cursor} (h : IsMember unit c) :
    c.IsIn unit.tree := by
  obtain ⟨t, ht, _, hc⟩ := h
  obtain ⟨body, hbody, hc⟩ := mem_members.1 hc
  have htree : t.IsIn unit.tree := Cursor.IsIn.root.descendant (List.mem_filter.1 ht).1
  exact (htree.child (body_mem_children hbody)).child (Cursor.mem_children_of_named hc)

/-- A method is registered exactly if some type declaration has a declaration of it as a member. -/
theorem method_registered_iff {units : List SourceUnit} {id : SymbolId} :
    ((build units).method? id).isSome ↔ ∃ unit ∈ units, ∃ c, IsMember unit c ∧
      c.kind = .methodDeclaration ∧ methodIdentity? c = some id := by
  rw [method_build, Option.isSome_map, preferred_is_some_iff, versions, ne_eq,
    List.filter_eq_nil_iff]
  push Not
  simp only [beq_iff_eq]
  constructor
  · rintro ⟨m, hm, rfl⟩
    obtain ⟨i, unit, t, key, c, hunit, ht, hkey, hc, hkind, hrecorded⟩ :=
      mem_declared_methods.1 hm
    refine ⟨unit, List.mem_of_getElem? hunit, c, ⟨t, ht, ?_, hc⟩, hkind, ?_⟩
    · rw [hkey]
      rfl
    · exact (Site.method_records hrecorded).id
  · rintro ⟨unit, hunit, c, ⟨t, ht, hsome, hc⟩, hkind, hid⟩
    obtain ⟨i, hi⟩ := List.getElem?_of_mem hunit
    obtain ⟨key, hkey⟩ := Option.isSome_iff_exists.1 hsome
    obtain ⟨m, hm⟩ := Site.method_is_some ⟨i, unit, key, Scope.of t⟩ hid
    refine ⟨m, mem_declared_methods.2 ⟨i, unit, t, key, c, hi, ht, hkey, hc, hkind, hm⟩, ?_⟩
    exact Option.some.inj ((Site.method_records hm).id.symm.trans hid)

end Registry

namespace Row

/-- A named node that plays no part in its parent. -/
def node (depth : Nat) (kind : Kind) (start length : Nat) : Row :=
  ⟨depth, kind, true, none, start, length⟩

/-- A named node that plays a part in its parent. -/
def part (depth : Nat) (kind : Kind) (field : Field) (start length : Nat) : Row :=
  ⟨depth, kind, true, some field, start, length⟩

/-- A word or mark. -/
def token (depth : Nat) (spelling : String) (start length : Nat) : Row :=
  ⟨depth, .ofName spelling, false, none, start, length⟩

/-- The declaration of a method without parameters and statements that returns nothing, if its
name has the given length. -/
def plainMethod (depth start nameLength : Nat) : List Row :=
  let list := start + nameLength + 5
  [node depth .methodDeclaration start (nameLength + 11),
    part (depth + 1) (.other "predefined_type") .returns start 4,
    part (depth + 1) .identifier .name (start + 5) nameLength,
    part (depth + 1) .parameterList .parameters list 2,
    token (depth + 2) "(" list 1, token (depth + 2) ")" (list + 1) 1,
    part (depth + 1) .block .body (list + 3) 3,
    token (depth + 2) "\x7b" (list + 3) 1, token (depth + 2) "\x7d" (list + 5) 1]

end Row

namespace Conditional

open Row

/-- A type with a method under a condition, and with one that is always there. -/
def source : String :=
  "class A \x7b\n#if X\n void N() \x7b \x7d\n#endif\n void M() \x7b \x7d\n\x7d"

/-- The nodes of the source. The first method stands below the node of the condition. -/
def rows : List Row :=
  [node 0 .compilationUnit 0 52, node 1 .classDeclaration 0 52, token 2 "class" 0 5,
    part 2 .identifier .name 6 1, part 2 .declarationList .body 8 44, token 3 "\x7b" 8 1,
    node 3 (.other "preproc_if") 10 26, token 4 "#if" 10 3,
    part 4 .identifier (.other "condition") 14 1] ++
  plainMethod 4 17 1 ++ [token 4 "#endif" 30 6] ++
  plainMethod 3 38 1 ++ [token 3 "\x7d" 51 1]

/-- A project of one file. -/
def unit : SourceUnit :=
  .create ⟨"A.cs"⟩ none source ((Node.ofRows? source rows).getD default)

end Conditional

namespace Model

open Registry

/-- A node that stands, at any depth, inside the declaration of a named type. -/
def InNamedType (c : Cursor) : Prop :=
  ∃ t ∈ c.ancestors, (Scope.declaredType? t).isSome

/-- What stands in a named type has an identity if it has a name. -/
theorem method_identity_is_some {c : Cursor} (hname : c.declaredName?.isSome)
    (hc : InNamedType c) : ∃ id, methodIdentity? c = some id := by
  obtain ⟨t, ht, hsome⟩ := hc
  have hkey := Scope.type_key_is_some_iff.2 ⟨t, List.mem_cons_of_mem c ht, hsome⟩
  obtain ⟨name, hname⟩ := Option.isSome_iff_exists.1 hname
  obtain ⟨owner, howner⟩ := Option.isSome_iff_exists.1 hkey
  exact ⟨_, method_identity_eq_some.2 ⟨name, owner, hname, howner, rfl⟩⟩

/-- The named methods inside named types, as far as `among` selects them, are registered, and those
that come first of their name in a unit are found as seeds. -/
structure CompleteFor (units : List SourceUnit) (among : SourceUnit → Cursor → Prop) : Prop where
  registered : ∀ unit ∈ units, ∀ c ∈ methodDeclarations unit, c.declaredName?.isSome →
    InNamedType c → among unit c →
      ∃ id, methodIdentity? c = some id ∧ ((ofUnits units).registry.method? id).isSome
  seeds : ∀ i unit name c, units[i]? = some unit →
    (methodDeclarations unit).find? (fun c ↦ c.declaredName? == some name) = some c →
    InNamedType c → among unit c →
      ∃ seed, (ofUnits units).findSeed i name = .ok seed ∧ methodIdentity? c = some seed.id

/-- A seed is found if the first declaration of its name is registered. -/
theorem find_seed_of_registered {units : List SourceUnit} {i : Nat} {unit : SourceUnit}
    {name : String} {c : Cursor} {id : SymbolId} (hunit : units[i]? = some unit)
    (hfirst : (methodDeclarations unit).find? (fun c ↦ c.declaredName? == some name) = some c)
    (hid : methodIdentity? c = some id) (hmethod : ((ofUnits units).registry.method? id).isSome) :
    ∃ seed, (ofUnits units).findSeed i name = .ok seed ∧ methodIdentity? c = some seed.id := by
  obtain ⟨m, hm⟩ := Option.isSome_iff_exists.1 hmethod
  refine ⟨m.symbol, ?_, ?_⟩
  · have hunit : (ofUnits units).units[i]? = some unit := hunit
    simp only [findSeed, hunit, hfirst, hid, Option.bind_some, hm]
  · rw [hid, id_of_method hm]

/-- The registry is complete for the members of type declarations, and has no other methods. -/
theorem complete_for_members (units : List SourceUnit) :
    CompleteFor units IsMember ∧
      ∀ id, ((ofUnits units).registry.method? id).isSome ↔ ∃ unit ∈ units, ∃ c,
        IsMember unit c ∧ c.kind = .methodDeclaration ∧ methodIdentity? c = some id := by
  have hregistered : ∀ unit ∈ units, ∀ c ∈ methodDeclarations unit, c.declaredName?.isSome →
      InNamedType c → IsMember unit c →
        ∃ id, methodIdentity? c = some id ∧ ((ofUnits units).registry.method? id).isSome := by
    intro unit hunit c hc hname htype hmember
    obtain ⟨id, hid⟩ := method_identity_is_some hname htype
    have hkind : c.kind = .methodDeclaration := eq_of_beq (List.mem_filter.1 hc).2
    exact ⟨id, hid, method_registered_iff.2 ⟨unit, hunit, c, hmember, hkind, hid⟩⟩
  refine ⟨⟨hregistered, ?_⟩, fun id ↦ method_registered_iff⟩
  intro i unit name c hunit hfirst htype hmember
  have hname : c.declaredName? = some name := by simpa using List.find?_some hfirst
  obtain ⟨id, hid, hmethod⟩ := hregistered unit (List.mem_of_getElem? hunit) c
    (List.mem_of_find?_eq_some hfirst) (hname ▸ rfl) htype hmember
  exact find_seed_of_registered hunit hfirst hid hmethod

/-- The method of the sample without a condition is a member, so it is found as a seed. -/
theorem complete_for_members_conditional :
    ∃ c, InNamedType c ∧ IsMember Conditional.unit c ∧
      ∃ seed, (ofUnits [Conditional.unit]).findSeed 0 "M" = .ok seed ∧
        methodIdentity? c = some seed.id := by
  have hmember : ∃ t ∈ typeDeclarations Conditional.unit, (Scope.of t).typeKey?.isSome ∧
      ∃ d ∈ members t, (∃ t ∈ d.ancestors, (Scope.declaredType? t).isSome) ∧
        ∃ c ∈ (methodDeclarations Conditional.unit).find? fun c ↦ c.declaredName? == some "M",
          c.path = d.path := by decide +kernel
  obtain ⟨t, ht, hkey, d, hd, htype, c, hfirst, hpath⟩ := hmember
  have hmember : IsMember Conditional.unit d := ⟨t, ht, hkey, hd⟩
  have hc : c.IsIn Conditional.unit.tree :=
    Cursor.IsIn.root.descendant (List.mem_filter.1 (List.mem_of_find?_eq_some hfirst)).1
  obtain rfl := hc.eq_of_path hmember.is_in hpath
  have hseed := (complete_for_members [Conditional.unit]).1.seeds 0 _ "M" c rfl hfirst htype hmember
  exact ⟨c, htype, hmember, hseed⟩

/-- The method under a condition is declared inside a named type too, but it is not registered and
cannot be a seed. -/
theorem conditional_method_unregistered :
    ¬ CompleteFor [Conditional.unit] (fun _ _ ↦ True) ∧
      (ofUnits [Conditional.unit]).findSeed 0 "N" =
        .error (.seedSymbolUnresolved ⟨"A.cs"⟩ "N") := by
  have hfacts : (∃ c ∈ (methodDeclarations Conditional.unit).find? fun c ↦
        c.declaredName? == some "N", ∃ t ∈ c.ancestors, (Scope.declaredType? t).isSome) ∧
      (ofUnits [Conditional.unit]).findSeed 0 "N" =
        .error (.seedSymbolUnresolved ⟨"A.cs"⟩ "N") := by decide +kernel
  obtain ⟨⟨c, hfirst, htype⟩, herror⟩ := hfacts
  refine ⟨fun hcomplete ↦ ?_, herror⟩
  obtain ⟨seed, hseed, _⟩ := hcomplete.seeds 0 _ "N" c rfl hfirst htype trivial
  rw [herror] at hseed
  cases hseed

end Model

end MemberReach
