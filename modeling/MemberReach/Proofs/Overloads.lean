import Mathlib.Data.List.Basic
import MemberReach.Grammar.Rules
import MemberReach.Proofs.InnermostNodes
import MemberReach.Proofs.MethodTable

/-!
# Overloads

Two methods of one type and name are kept apart if they have different identities and each identity
leads to the body of its own declaration. Their identities differ exactly if the types of their
parameters do (`Overloads.identities_ne_iff`), where a parameter array does not count
(`types_of_parameters`). Whatever else makes two signatures differ is not part of an identity.

A body is looked up by its unit and its span. In a unit as the parser gives it (`Parsed`), the
method declaration that is found with a span is the one that was recorded (`find_declaration`), so
the body of a declaration is found if no other one took its place (`finds_body`).
-/

namespace MemberReach

/-! ### Signatures -/

/-- What tells methods of one name apart: how each parameter is passed and its type, the interface
that the name is qualified with, and the number of type parameters. -/
structure Signature where
  parameters : List (List String × String)
  qualifier : Option String
  typeParameters : Nat
  deriving DecidableEq

namespace Cursor

/-- The words that say how a parameter is passed. -/
def passing (c : Cursor) : List String :=
  (c.namedChildren.filter fun part ↦ part.kind == .modifier).map text
    |>.filter fun word ↦ ["ref", "out", "in"].contains word

/-- How the parameters of a method are passed and their types, a parameter array left out. -/
def writtenParameters (c : Cursor) : List (List String × String) :=
  match c.parameterList? with
  | none => []
  | some list =>
      (list.namedChildren.filter fun p ↦ p.kind == .parameter).map fun p ↦
        (p.passing, ((p.child? .type).map descriptor).getD "")

/-- The type of the parameter array of a method. It stands in the parameter list itself. -/
def arrayType? (c : Cursor) : Option String :=
  (c.parameterList?.bind fun list ↦ list.child? .type).map descriptor

/-- The signature of a method. A parameter array is the last parameter. -/
def signature (c : Cursor) : Signature :=
  { parameters := c.writtenParameters ++ c.arrayType?.toList.map fun type ↦ ([], type)
    qualifier := (c.childOfKind? (.other "explicit_interface_specifier")).map text
    typeParameters := ((c.child? (.other "type_parameters")).map fun list ↦
      (list.namedChildren.filter fun p ↦ p.kind == .other "type_parameter").length).getD 0 }

/-- Every parameter is written with a name and a type, and an array has no node of its own. -/
def TypedParameters (c : Cursor) : Prop :=
  ∀ list ∈ c.parameterList?, ∀ p ∈ list.namedChildren, p.kind ≠ .parameterArray ∧
    (p.kind = .parameter → (p.child? .name).isSome ∧ (p.child? .type).isSome)

instance (c : Cursor) : Decidable c.TypedParameters :=
  inferInstanceAs (Decidable (∀ list ∈ c.parameterList?, ∀ p ∈ list.namedChildren,
    p.kind ≠ .parameterArray ∧
      (p.kind = .parameter → (p.child? .name).isSome ∧ (p.child? .type).isSome)))

/-- A parameter that is written with a name and a type has this type. -/
theorem parameter_of_typed {p : Cursor} (hname : (p.child? .name).isSome)
    (htype : (p.child? .type).isSome) :
    p.parameter?.map Prod.snd = some (((p.child? .type).map descriptor).getD "") := by
  obtain ⟨name, hname⟩ := Option.isSome_iff_exists.1 hname
  obtain ⟨type, htype⟩ := Option.isSome_iff_exists.1 htype
  simp [parameter?, hname, htype]

/-- The types of parameters that are written with their types. -/
theorem types_of_parameters {c : Cursor} (h : c.TypedParameters) :
    c.parameters.map Prod.snd = c.writtenParameters.map Prod.snd := by
  unfold parameters writtenParameters
  cases hlist : c.parameterList? with
  | none => rfl
  | some list =>
      have htyped := h list hlist
      have hfilter : (list.namedChildren.filter fun p ↦
            p.kind == .parameter || p.kind == .parameterArray) =
          list.namedChildren.filter fun p ↦ p.kind == .parameter := by
        refine List.filter_congr fun p hp ↦ ?_
        rw [beq_eq_false_iff_ne.2 (htyped p hp).1, Bool.or_false]
      simp only [hfilter, List.map_map, List.map_filterMap]
      rw [← List.filterMap_eq_map]
      refine List.filterMap_congr fun p hp ↦ ?_
      obtain ⟨hp, hkind⟩ := List.mem_filter.1 hp
      obtain ⟨hname, htype⟩ := (htyped p hp).2 (eq_of_beq hkind)
      exact parameter_of_typed hname htype

/-- A declared name is the text of a node, and not empty. -/
theorem exists_name {c : Cursor} (h : c.declaredName?.isSome) :
    ∃ name, c.child? .name = some name ∧ name.text ≠ "" := by
  obtain ⟨text, htext⟩ := Option.isSome_iff_exists.1 h
  obtain ⟨htext, hne⟩ := Option.filter_eq_some_iff.1 htext
  obtain ⟨name, hchild, rfl⟩ := Option.map_eq_some_iff.1 htext
  exact ⟨name, hchild, by simpa using hne⟩

end Cursor

/-- The text between two offsets that are not in order is empty. -/
theorem source_text_of_le (bytes : ByteArray) {start stop : Nat} (h : stop ≤ start) :
    sourceText bytes start stop = "" := by
  have hempty : bytes.extract start stop = ByteArray.empty :=
    ByteArray.extract_eq_empty_iff.2 (Nat.le_trans (Nat.min_le_left _ _) h)
  rw [sourceText, hempty]
  rfl

namespace Model

open Registry

/-! ### Looking up a body -/

/-- A leaf that spells an identifier of the source. -/
def IsIdentifier (unit : SourceUnit) (c : Cursor) : Prop :=
  c.kind = .identifier ∧ c.namedChildren.isEmpty ∧
    c.text = sourceText unit.source.toUTF8 c.start c.stop

instance (unit : SourceUnit) (c : Cursor) : Decidable (IsIdentifier unit c) :=
  inferInstanceAs (Decidable (c.kind = .identifier ∧ c.namedChildren.isEmpty ∧
    c.text = sourceText unit.source.toUTF8 c.start c.stop))

/-- What the parser guarantees of a unit: its nodes stand in document order, methods are named by
identifiers, and the bodies of types are named nodes. -/
structure Parsed (unit : SourceUnit) : Prop where
  ordered : unit.tree.wellFormed
  names : ∀ c ∈ methodDeclarations unit, ∀ name ∈ c.child? .name, IsIdentifier unit name
  bodies : ∀ t ∈ typeDeclarations unit, ∀ body ∈ bodyOf? t, body.named

instance (unit : SourceUnit) : Decidable (Parsed unit) :=
  decidable_of_iff (unit.tree.wellFormed ∧
      (∀ c ∈ methodDeclarations unit, ∀ name ∈ c.child? .name, IsIdentifier unit name) ∧
      ∀ t ∈ typeDeclarations unit, ∀ body ∈ bodyOf? t, body.named)
    ⟨fun ⟨ordered, names, bodies⟩ ↦ ⟨ordered, names, bodies⟩,
      fun h ↦ ⟨h.ordered, h.names, h.bodies⟩⟩

namespace Parsed

variable {unit : SourceUnit} {c : Cursor}

/-- A method that is a member of a type declaration is listed among the methods of the unit. -/
theorem mem_method_declarations (h : Parsed unit) (hc : IsMember unit c)
    (hkind : c.kind = .methodDeclaration) : c ∈ methodDeclarations unit := by
  obtain ⟨t, ht, _, hc⟩ := hc
  obtain ⟨body, hbody, hc⟩ := mem_members.1 hc
  have hnamed : body ∈ t.namedChildren :=
    List.mem_filter.2 ⟨body_mem_children hbody, h.bodies t ht body hbody⟩
  refine List.mem_filter.2 ⟨?_, beq_iff_eq.2 hkind⟩
  have htype : t ∈ unit.root.below :=
    Cursor.descendants_eq_below unit.root ▸ (List.mem_filter.1 ht).1
  rw [Cursor.descendants_eq_below]
  exact Cursor.mem_below_of_child (Cursor.mem_below_of_child htype hnamed) hc

/-- The method declaration that is found with the span of a method that has a name is that
method. -/
theorem find_declaration (h : Parsed unit) (hc : c ∈ methodDeclarations unit)
    (hname : c.declaredName?.isSome) : methodAt? unit c.start c.stop = some c := by
  have htree : c.IsIn unit.tree := Cursor.IsIn.root.descendant (List.mem_filter.1 hc).1
  have hformed := htree.well_formed h.ordered
  obtain ⟨name, hchild, hne⟩ := Cursor.exists_name hname
  obtain ⟨hidentifier, hleaf, hspelled⟩ := h.names c hc name hchild
  have hmem := Cursor.mem_children_of_child hchild
  have hnonempty : name.start < name.stop := by
    by_contra hle
    rw [source_text_of_le _ (Nat.le_of_not_lt hle)] at hspelled
    exact hne hspelled
  have hwithin := Cursor.span_of_mem_children hformed hmem
  have hlt : c.start < c.stop := by omega
  refine method_at_eq_find_last h.ordered hlt
    (Cursor.find_last_span h.ordered hc hlt fun d hd hkind hstart hstop ↦ ?_)
  -- a method inside with the same span would stand in the name, which has no parts
  rcases Cursor.mem_below_of_span hformed hd hstart hstop hmem hnonempty with rfl | hd
  · rw [hidentifier] at hkind
    cases hkind
  · obtain ⟨e, he, _⟩ := Cursor.mem_below.1 hd
    rw [List.isEmpty_iff.1 hleaf] at he
    cases he

end Parsed

/-- A member of a type declaration that declares the method of an identity with a body. -/
structure Implements (unit : SourceUnit) (c : Cursor) (id : SymbolId) : Prop where
  member : IsMember unit c
  kind : c.kind = .methodDeclaration
  identity : methodIdentity? c = some id
  body : c.body?.isSome

/-- A declaration is registered, and what is found for its identity is its own body. -/
def FindsBody (model : Model) (unitId : Nat) (c : Cursor) : Prop :=
  ∃ id, methodIdentity? c = some id ∧ (model.registry.method? id).isSome ∧
    ∀ m : MethodSymbol, m.id = id → model.methodBody? m = some ⟨unitId, c, c.body?⟩

variable {units : List SourceUnit} {i : Nat} {unit : SourceUnit} {c d : Cursor} {id : SymbolId}

/-- If a method has a declaration with a body, its entry is that of one with a body. -/
theorem entry_of_implements (hunit : units[i]? = some unit) (hc : Implements unit c id) :
    ∃ m other e, (build units).method? id = some m ∧ units[m.unit]? = some other ∧
      Implements other e id ∧ m.start = e.start ∧ m.stop = e.stop := by
  obtain ⟨t, ht, hsome, hmember⟩ := hc.member
  obtain ⟨key, hkey⟩ := Option.isSome_iff_exists.1 hsome
  obtain ⟨n, hn⟩ := Site.method_is_some ⟨i, unit, key, Scope.of t⟩ hc.identity
  have hrecords := Site.method_records hn
  have hversion : n ∈ versions id (declaredMethods units) := by
    refine List.mem_filter.2
      ⟨mem_declared_methods.2 ⟨i, unit, t, key, c, hunit, ht, hkey, hmember, hc.kind, hn⟩, ?_⟩
    exact beq_iff_eq.2 (Option.some.inj (hrecords.id.symm.trans hc.identity))
  -- what counts is the last declaration with a body, which need not be this one
  obtain ⟨m, hm, hbody, hpreferred⟩ := preferred_of_body hversion (hrecords.hasBody.trans hc.body)
  obtain ⟨hm, hid⟩ := List.mem_filter.1 hm
  obtain ⟨j, other, u, owner, e, hother, hu, howner, he, hkind, hrecorded⟩ :=
    mem_declared_methods.1 hm
  have hrecords := Site.method_records hrecorded
  have hunitOf : units[m.unit]? = some other := by
    rw [hrecords.unit]
    exact hother
  have himplements : Implements other e id :=
    { member := ⟨u, hu, howner ▸ rfl, he⟩
      kind := hkind
      identity := by rw [hrecords.id, eq_of_beq hid]
      body := hrecords.hasBody.symm.trans hbody }
  refine ⟨(collectAll units).resolveMethodDecl m, other, e, ?_, hunitOf, himplements,
    hrecords.start, hrecords.stop⟩
  rw [method_build, hpreferred]
  rfl

/-- The body of a member is found if no other declaration with a body has its identity. -/
theorem finds_body (hparsed : Parsed unit) (hunit : units[i]? = some unit)
    (hc : Implements unit c id)
    (halone : ∀ j other e, units[j]? = some other → Implements other e id → j = i ∧ e = c) :
    FindsBody (ofUnits units) i c := by
  obtain ⟨m, other, e, hm, hother, he, hstart, hstop⟩ := entry_of_implements hunit hc
  obtain ⟨hi, rfl⟩ := halone m.unit other e hother he
  have hname : e.declaredName?.isSome := by
    obtain ⟨name, _, hname, _⟩ := method_identity_eq_some.1 hc.identity
    rw [hname]
    rfl
  have hlisted := hparsed.mem_method_declarations hc.member hc.kind
  have hfound := hparsed.find_declaration hlisted hname
  rw [← hstart, ← hstop] at hfound
  refine ⟨id, hc.identity, Option.isSome_iff_exists.2 ⟨m, hm⟩, fun symbol hsymbol ↦ ?_⟩
  have hentry : (ofUnits units).registry.method? symbol.id = some m := hsymbol ▸ hm
  have hunits : (ofUnits units).units[i]? = some unit := hunit
  simp only [methodBody?, hentry, hi, hunits, hfound, Option.bind_eq_bind, Option.bind_some,
    Option.pure_def]

/-! ### Overloads of a type -/

/-- Two methods of one name, both with a body, that a declaration of a named type has as members. -/
structure Overloads (unit : SourceUnit) (c d : Cursor) : Prop where
  members : ∃ t ∈ typeDeclarations unit, (Scope.of t).typeKey?.isSome ∧
    c ∈ members t ∧ d ∈ members t
  distinct : c ≠ d
  kinds : c.kind = .methodDeclaration ∧ d.kind = .methodDeclaration
  name : ∃ name, c.declaredName? = some name ∧ d.declaredName? = some name
  bodies : c.body?.isSome ∧ d.body?.isSome

/-- Two declarations have different identities, and each of these leads to its own declaration. -/
structure KeptApart (units : List SourceUnit) (i : Nat) (c d : Cursor) : Prop where
  identities : methodIdentity? c ≠ methodIdentity? d
  first : FindsBody (ofUnits units) i c
  second : FindsBody (ofUnits units) i d

/-- No third declaration with a body has the identity of one of two declarations of a unit. -/
def NoThird (units : List SourceUnit) (i : Nat) (c d : Cursor) : Prop :=
  ∀ j unit e id, units[j]? = some unit → Implements unit e id →
    methodIdentity? c = some id ∨ methodIdentity? d = some id → j = i ∧ (e = c ∨ e = d)

/-- The order of the two declarations does not matter. -/
theorem NoThird.symm (h : NoThird units i c d) : NoThird units i d c :=
  fun j unit e id hunit he hid ↦ (h j unit e id hunit he hid.symm).imp_right Or.symm

/-- Overloads have identities that differ at most in the types of the parameters. -/
theorem Overloads.implements (h : Overloads unit c d) :
    ∃ owner name, Implements unit c (.method owner name (c.parameters.map Prod.snd)) ∧
      Implements unit d (.method owner name (d.parameters.map Prod.snd)) := by
  obtain ⟨t, ht, hkey, hc, hd⟩ := h.members
  obtain ⟨name, hcname, hdname⟩ := h.name
  obtain ⟨owner, howner⟩ := Option.isSome_iff_exists.1 (type_key_is_some_of_member hc hkey)
  have hscope : Scope.of d = Scope.of c := scope_of_members hc hd h.kinds.1 h.kinds.2
  refine ⟨owner, name, ⟨⟨t, ht, hkey, hc⟩, h.kinds.1, ?_, h.bodies.1⟩,
    ⟨⟨t, ht, hkey, hd⟩, h.kinds.2, ?_, h.bodies.2⟩⟩
  · exact method_identity_eq_some.2 ⟨name, owner, hcname, howner, rfl⟩
  · exact method_identity_eq_some.2 ⟨name, owner, hdname, hscope ▸ howner, rfl⟩

/-- The overloads of a type have different identities exactly if the types of their parameters
differ. -/
theorem Overloads.identities_ne_iff (h : Overloads unit c d) :
    methodIdentity? c ≠ methodIdentity? d ↔
      c.parameters.map Prod.snd ≠ d.parameters.map Prod.snd := by
  obtain ⟨owner, name, hc, hd⟩ := h.implements
  rw [hc.identity, hd.identity]
  simp [SymbolId.method]

/-- A declaration is found beside another one with a different identity. -/
theorem finds_body_of_no_third (hparsed : Parsed unit) (hunit : units[i]? = some unit)
    (hthird : NoThird units i c d) (hc : Implements unit c id) (hd : methodIdentity? d ≠ some id) :
    FindsBody (ofUnits units) i c := by
  refine finds_body hparsed hunit hc fun j other e hother he ↦ ?_
  obtain ⟨hj, rfl | rfl⟩ := hthird j other e id hother he (Or.inl hc.identity)
  · exact ⟨hj, rfl⟩
  · exact absurd he.identity hd

end Model

namespace Overloaded

/-- Two overloads that differ in the number of their parameters. -/
def source : String :=
  "class A \x7b void M() \x7b \x7d void M(A a) \x7b \x7d \x7d"

/-- A project of one file. -/
def unit : SourceUnit :=
  .create ⟨"A.cs"⟩ none source (Node.ofSource source)

end Overloaded

namespace Variadic

open Row

/-- Two overloads, one of them with a parameter array. -/
def source : String :=
  "class A \x7b void M() \x7b \x7d void M(params A[] xs) \x7b \x7d \x7d"

/-- The nodes of the source. The parts of the parameter array stand in the parameter list. -/
def rows : List Row :=
  [node 0 .compilationUnit 0 50, node 1 .classDeclaration 0 50, token 2 "class" 0 5,
    part 2 .identifier .name 6 1, part 2 .declarationList .body 8 42, token 3 "\x7b" 8 1] ++
  plainMethod 3 10 1 ++
  [node 3 .methodDeclaration 23 25, part 4 (.other "predefined_type") .returns 23 4,
    part 4 .identifier .name 28 1, part 4 .parameterList .parameters 29 15, token 5 "(" 29 1,
    token 5 "params" 30 6, part 5 (.other "array_type") .type 37 3,
    part 6 .identifier .type 37 1, part 6 (.other "array_rank_specifier") (.other "rank") 38 2,
    token 7 "[" 38 1, token 7 "]" 39 1, part 5 .identifier .name 41 2, token 5 ")" 43 1,
    part 4 .block .body 45 3, token 5 "\x7b" 45 1, token 5 "\x7d" 47 1, token 3 "\x7d" 49 1]

/-- A project of one file. -/
def unit : SourceUnit :=
  .create ⟨"A.cs"⟩ none source ((Node.ofRows? source rows).getD default)

end Variadic

namespace Model

open Registry

variable {units : List SourceUnit} {i : Nat} {unit : SourceUnit} {c d : Cursor}

/-- Overloads are kept apart exactly if the types of their parameters differ, a parameter array left
out, unless a third declaration has the identity of one of them. -/
theorem kept_apart_iff (hparsed : Parsed unit) (hunit : units[i]? = some unit)
    (h : Overloads unit c d) (hthird : NoThird units i c d) (hctyped : c.TypedParameters)
    (hdtyped : d.TypedParameters) :
    KeptApart units i c d ↔
      c.writtenParameters.map Prod.snd ≠ d.writtenParameters.map Prod.snd := by
  rw [← Cursor.types_of_parameters hctyped, ← Cursor.types_of_parameters hdtyped,
    ← h.identities_ne_iff]
  refine ⟨KeptApart.identities, fun hne ↦ ?_⟩
  obtain ⟨owner, name, hc, hd⟩ := h.implements
  refine ⟨hne, ?_, ?_⟩
  · exact finds_body_of_no_third hparsed hunit hthird hc fun hid ↦
      hne (hc.identity.trans hid.symm)
  · exact finds_body_of_no_third hparsed hunit hthird.symm hd fun hid ↦
      hne (hid.trans hd.identity.symm)

/-- The overloads of the sample are kept apart. -/
theorem kept_apart_iff_overloaded :
    Parsed Overloaded.unit ∧ ∃ c d, Overloads Overloaded.unit c d ∧
      NoThird [Overloaded.unit] 0 c d ∧ c.TypedParameters ∧ d.TypedParameters ∧
        KeptApart [Overloaded.unit] 0 c d := by
  have hfacts : Parsed Overloaded.unit ∧ ∃ t ∈ typeDeclarations Overloaded.unit,
      (Scope.of t).typeKey?.isSome ∧ ∃ c ∈ members t, ∃ d ∈ members t,
        (c.kind = .methodDeclaration ∧ d.kind = .methodDeclaration) ∧
        (c.declaredName? = some "M" ∧ d.declaredName? = some "M") ∧
        (c.body?.isSome ∧ d.body?.isSome) ∧
        (c.TypedParameters ∧ d.TypedParameters) ∧
        c.writtenParameters.map Prod.snd ≠ d.writtenParameters.map Prod.snd ∧
        ∀ u ∈ typeDeclarations Overloaded.unit, ∀ e ∈ members u,
          e.path = c.path ∨ e.path = d.path := by decide +kernel
  obtain ⟨hparsed, t, ht, hkey, c, hc, d, hd, hkinds, hname, hbodies, htyped, hne,
    honly⟩ := hfacts
  have hcmember : IsMember Overloaded.unit c := ⟨t, ht, hkey, hc⟩
  have hdmember : IsMember Overloaded.unit d := ⟨t, ht, hkey, hd⟩
  have hoverloads : Overloads Overloaded.unit c d :=
    { members := ⟨t, ht, hkey, hc, hd⟩
      distinct := fun heq ↦ hne (heq ▸ rfl)
      kinds := hkinds
      name := ⟨"M", hname⟩
      bodies := hbodies }
  have hthird : NoThird [Overloaded.unit] 0 c d := by
    intro j unit e id hunit he _
    cases j with
    | succ j => cases hunit
    | zero =>
        obtain rfl := Option.some.inj hunit
        have htree := he.member.is_in
        obtain ⟨u, hu, _, he⟩ := he.member
        rcases honly u hu e he with hpath | hpath
        · exact ⟨rfl, Or.inl (htree.eq_of_path hcmember.is_in hpath)⟩
        · exact ⟨rfl, Or.inr (htree.eq_of_path hdmember.is_in hpath)⟩
  exact ⟨hparsed, c, d, hoverloads, hthird, htyped.1, htyped.2,
    (kept_apart_iff hparsed rfl hoverloads hthird htyped.1 htyped.2).2 hne⟩

/-- A method with a parameter array is not kept apart from one without parameters. -/
theorem parameter_array_ignored :
    Parsed Variadic.unit ∧ ¬ ∀ c d, Overloads Variadic.unit c d → c.signature ≠ d.signature →
      KeptApart [Variadic.unit] 0 c d := by
  have hfacts : Parsed Variadic.unit ∧ ∃ t ∈ typeDeclarations Variadic.unit,
      (Scope.of t).typeKey?.isSome ∧ ∃ c ∈ members t, ∃ d ∈ members t,
        (c.kind = .methodDeclaration ∧ d.kind = .methodDeclaration) ∧
        (c.declaredName? = some "M" ∧ d.declaredName? = some "M") ∧
        (c.body?.isSome ∧ d.body?.isSome) ∧ c.signature ≠ d.signature ∧
        c.parameters.map Prod.snd = d.parameters.map Prod.snd := by decide +kernel
  obtain ⟨hparsed, t, ht, hkey, c, hc, d, hd, hkinds, hname, hbodies, hne, heq⟩ := hfacts
  have hoverloads : Overloads Variadic.unit c d :=
    { members := ⟨t, ht, hkey, hc, hd⟩
      distinct := fun heq ↦ hne (heq ▸ rfl)
      kinds := hkinds
      name := ⟨"M", hname⟩
      bodies := hbodies }
  refine ⟨hparsed, fun hapart ↦ ?_⟩
  exact hoverloads.identities_ne_iff.1 (hapart c d hoverloads hne).identities heq

end Model

end MemberReach
