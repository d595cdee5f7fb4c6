import MemberReach.Proofs.TreePositions
import MemberReach.Registry.Collect

/-!
# Members and their scopes

The scope of a node is that of its parent unless the node is a type or namespace declaration
(`Scope.of_child`). A method in the body of a type declaration is therefore declared in the scope of
that declaration (`scope_of_member`), as long as the body is not such a declaration itself. What is
recorded for a method (`Site.Records`) is its identity with the data of the node that declares it.
-/

namespace MemberReach

/-- Declarations of namespaces, around what they declare or for the rest of a file. -/
def Kind.isNamespace (kind : Kind) : Bool :=
  kind == .namespaceDeclaration || kind == .fileScopedNamespaceDeclaration

/-- Declarations of types and namespaces, which add to the scope of what is below them. -/
def Kind.opensScope (kind : Kind) : Bool :=
  kind.isTypeDeclaration || kind == .namespaceDeclaration ||
    kind == .fileScopedNamespaceDeclaration

namespace Cursor

/-- A child has the root of its parent. -/
theorem root_of_mem_children {c d : Cursor} (h : d ∈ c.children) : d.root = c.root := by
  rw [root, ancestors_of_mem_children h, List.getLast?_cons, Option.getD_some, root]

end Cursor

namespace Scope

open Cursor

/-- A node that is no namespace adds the type that it declares to the scope of its parent. -/
theorem of_child_types {c d : Cursor} (h : d ∈ c.children) (hkind : d.kind.isNamespace = false) :
    of d = ⟨(of c).spaces, (of c).types ++ (declaredType? d).toList⟩ := by
  simp only [Kind.isNamespace, Bool.or_eq_false_iff, beq_eq_false_iff_ne] at hkind
  obtain ⟨hspace, hfile⟩ := hkind
  have hopened : openedSpaces d = [] := by
    unfold openedSpaces
    split
    · exact absurd ‹_› hspace
    · exact absurd ‹_› hfile
    · rfl
  have hdeclared : [d].filterMap declaredType? = (declaredType? d).toList := by
    cases hname : declaredType? d <;> simp [hname]
  unfold of
  rw [ancestors_of_mem_children h, root_of_mem_children h, List.reverse_cons (a := d)]
  simp only [List.any_append, List.any_cons, List.any_nil, beq_eq_false_iff_ne.2 hfile,
    Bool.or_false, List.flatMap_append, List.flatMap_cons, List.flatMap_nil, hopened,
    List.append_nil, List.filterMap_append, hdeclared]

/-- A node that is no declaration of a type or namespace has the scope of its parent. -/
theorem of_child {c d : Cursor} (h : d ∈ c.children) (hkind : d.kind.opensScope = false) :
    of d = of c := by
  simp only [Kind.opensScope, Bool.or_assoc, Bool.or_eq_false_iff] at hkind
  have hdeclared : declaredType? d = none := if_neg (by rw [hkind.1]; exact Bool.false_ne_true)
  rw [of_child_types h (Bool.or_eq_false_iff.2 hkind.2), hdeclared, Option.toList_none,
    List.append_nil]

/-- A scope has a type exactly if the node is, or stands in, a declaration of a named type. -/
theorem type_key_is_some_iff {c : Cursor} :
    (of c).typeKey?.isSome ↔ ∃ t ∈ c :: c.ancestors, (declaredType? t).isSome := by
  have hkey : (of c).typeKey?.isSome ↔ (of c).types ≠ [] := by
    unfold typeKey?
    split
    next hempty => simp [List.isEmpty_iff.1 hempty]
    next hempty => exact iff_of_true rfl fun hnil ↦ hempty (List.isEmpty_iff.2 hnil)
  rw [hkey]
  constructor
  · intro hne
    obtain ⟨name, hname⟩ := List.exists_mem_of_ne_nil _ hne
    obtain ⟨t, ht, hdeclared⟩ := List.mem_filterMap.1 hname
    exact ⟨t, List.mem_reverse.1 ht, hdeclared ▸ rfl⟩
  · rintro ⟨t, ht, hsome⟩
    obtain ⟨name, hdeclared⟩ := Option.isSome_iff_exists.1 hsome
    exact List.ne_nil_of_mem (List.mem_filterMap.2 ⟨t, List.mem_reverse.2 ht, hdeclared⟩)

/-- What stands in a named type still does so one level further down. -/
theorem type_key_is_some_of_child {c d : Cursor} (h : d ∈ c.children)
    (hc : (of c).typeKey?.isSome) : (of d).typeKey?.isSome := by
  obtain ⟨t, ht, hsome⟩ := type_key_is_some_iff.1 hc
  refine type_key_is_some_iff.2 ⟨t, ?_, hsome⟩
  rw [ancestors_of_mem_children h]
  exact List.mem_cons_of_mem d ht

end Scope

namespace Registry

open Cursor

/-- The node that holds the members of a type declaration. -/
def bodyOf? (c : Cursor) : Option Cursor :=
  (c.child? .body).or (c.childOfKind? .declarationList)

/-- The body of a type declaration is a child of it. -/
theorem body_mem_children {t body : Cursor} (h : bodyOf? t = some body) : body ∈ t.children := by
  rcases Option.or_eq_some_iff.1 h with h | ⟨_, h⟩
  · exact mem_children_of_child h
  · exact mem_children_of_kind h

/-- The members of a type declaration are the named nodes in its body. -/
theorem mem_members {t c : Cursor} :
    c ∈ members t ↔ ∃ body, bodyOf? t = some body ∧ c ∈ body.namedChildren := by
  unfold members bodyOf?
  split
  next hnone => simp [hnone]
  next body hbody => simp [hbody]

/-- The body of every type declaration is a node that opens no scope. -/
def PlainBodies (units : List SourceUnit) : Prop :=
  ∀ unit ∈ units, ∀ t ∈ typeDeclarations unit, ∀ body ∈ bodyOf? t,
    body.kind.opensScope = false

instance (units : List SourceUnit) : Decidable (PlainBodies units) :=
  inferInstanceAs (Decidable (∀ unit ∈ units, ∀ t ∈ typeDeclarations unit, ∀ body ∈ bodyOf? t,
    body.kind.opensScope = false))

/-- The methods that a type declaration has as members stand in one scope. -/
theorem scope_of_members {t c d : Cursor} (hc : c ∈ members t) (hd : d ∈ members t)
    (hckind : c.kind = .methodDeclaration) (hdkind : d.kind = .methodDeclaration) :
    Scope.of d = Scope.of c := by
  obtain ⟨body, hbody, hc⟩ := mem_members.1 hc
  obtain ⟨body', hbody', hd⟩ := mem_members.1 hd
  obtain rfl := Option.some.inj (hbody.symm.trans hbody')
  have hplain : Kind.methodDeclaration.opensScope = false := rfl
  rw [Scope.of_child (mem_children_of_named hc) (hckind ▸ hplain),
    Scope.of_child (mem_children_of_named hd) (hdkind ▸ hplain)]

/-- A method stands in the scope of the type declaration whose member it is. -/
theorem scope_of_member {t c : Cursor}
    (hplain : ∀ body ∈ bodyOf? t, body.kind.opensScope = false) (hc : c ∈ members t)
    (hkind : c.kind = .methodDeclaration) : Scope.of c = Scope.of t := by
  obtain ⟨body, hbody, hc⟩ := mem_members.1 hc
  have hmethod : c.kind.opensScope = false := by rw [hkind]; rfl
  calc
    Scope.of c = Scope.of body := Scope.of_child (mem_children_of_named hc) hmethod
    _ = Scope.of t := Scope.of_child (body_mem_children hbody) (hplain body hbody)

/-- A member of a declaration in a named type stands in a named type. -/
theorem type_key_is_some_of_member {t c : Cursor} (hc : c ∈ members t)
    (ht : (Scope.of t).typeKey?.isSome) : (Scope.of c).typeKey?.isSome := by
  obtain ⟨body, hbody, hc⟩ := mem_members.1 hc
  exact Scope.type_key_is_some_of_child (mem_children_of_named hc)
    (Scope.type_key_is_some_of_child (body_mem_children hbody) ht)

/-- An identity has the declared name, the innermost type and the types of the parameters. -/
theorem method_identity_eq_some {c : Cursor} {id : SymbolId} :
    methodIdentity? c = some id ↔
      ∃ name owner, c.declaredName? = some name ∧ (Scope.of c).typeKey? = some owner ∧
        id = .method owner name (c.parameters.map Prod.snd) := by
  simp only [methodIdentity?, Option.bind_eq_bind, Option.bind_eq_some_iff, Option.pure_def,
    Option.some.injEq]
  constructor
  · rintro ⟨name, hname, owner, howner, rfl⟩
    exact ⟨name, owner, hname, howner, rfl⟩
  · rintro ⟨name, owner, hname, howner, rfl⟩
    exact ⟨name, hname, owner, howner, rfl⟩

namespace Site

/-- What is recorded for the method that a node declares in a type declaration. -/
structure Records (site : Site) (c : Cursor) (m : MethodDecl) : Prop where
  id : methodIdentity? c = some m.symbol.id
  ownerName : m.symbol.ownerName = site.key.simpleName
  parameterTypes : m.symbol.parameters.map Parameter.typeName = c.parameters.map Prod.snd
  unit : m.unit = site.unitId
  start : m.start = c.start
  stop : m.stop = c.stop
  hasBody : m.hasBody = c.body?.isSome

/-- A method is recorded with the data of the node that declares it. -/
theorem method_records {site : Site} {c : Cursor} {m : MethodDecl} (h : site.method? c = some m) :
    site.Records c m := by
  simp only [method?, Option.bind_eq_bind, Option.bind_eq_some_iff, Option.pure_def,
    Option.some.injEq] at h
  obtain ⟨id, hid, rfl⟩ := h
  exact ⟨hid, rfl, List.map_map, rfl, rfl, rfl, rfl⟩

/-- A node with an identity declares a method. -/
theorem method_is_some (site : Site) {c : Cursor} {id : SymbolId}
    (h : methodIdentity? c = some id) : ∃ m, site.method? c = some m := by
  rw [method?, h]
  exact ⟨_, rfl⟩

end Site

end Registry

end MemberReach
