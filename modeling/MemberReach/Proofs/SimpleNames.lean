import MemberReach.Grammar.Rules
import MemberReach.Proofs.DeclaredSymbols
import MemberReach.Proofs.TreePositions

/-!
# Names without a receiver

A name that no local binds is typed as a member of the enclosing types, and else as the name of a
type. The innermost enclosing type that has a member of the name decides, unless the type of that
member is not declared: then the search goes on to the types further out and to the names of types,
as if there were no member (`type_of_member_iff`, `undeclared_member_passed_over`).

A called name denotes a method of the enclosing types, any other name a property. Only for the
latter a local of the name is in the way. A call of a local is attributed to a method of the same
name if an enclosing type or one of its bases has one, and only then
(`local_name_unresolved_iff`, `local_call_attributed`).
-/

namespace MemberReach.Typing

/-! ### Types of members -/

/-- The declared type of the property, or else field, of a name on a type and its bases. A member
whose type is not declared is an answer without a type. -/
def Env.member? (env : Env) (name : String) (key : TypeKey) : Option (Option TypeKey) :=
  match env.registry.findProperty? key name with
  | some property => some property.typeKey
  | none => (env.registry.findField? key name).map FieldDecl.typeKey

variable {env : Env} {limit depth : Nat} {c : Cursor}

/-- The search for the type of a member takes a member without a declared type for none. -/
theorem member_type_eq (env : Env) (name : String) :
    env.memberType? name = env.scope.enclosingTypes.findSome? fun key ↦
      (env.member? name key).join := by
  unfold Env.memberType? Env.member?
  congr 1
  funext key
  cases env.registry.findProperty? key name with
  | some property => rfl
  | none => cases env.registry.findField? key name <;> rfl

/-- A name that no local binds is typed as a member, or else as the name of a type. -/
theorem type_of_unbound (hdepth : depth ≤ limit) (hkind : c.kind = .identifier)
    (hunbound : Binding.find? c c.text = none) :
    typeOf? env limit depth c = (env.memberType? c.text).or (env.resolveType? c.text) := by
  rw [typeOf?, dif_neg (Nat.not_lt.2 hdepth)]
  simp only [hkind, hunbound]

/-- The type of a name that no local binds is that of the innermost member of the name exactly if
the type of that member is declared, or if there is nothing else to be found: no member of the name
with a declared type on the types further out, and no type of the name. -/
theorem type_of_member_iff (hdepth : depth ≤ limit) (hkind : c.kind = .identifier)
    (hunbound : Binding.find? c c.text = none) {inner outer : List TypeKey} {key : TypeKey}
    (hscope : env.scope.enclosingTypes = inner ++ key :: outer)
    (hinner : ∀ k ∈ inner, env.member? c.text k = none) {type : Option TypeKey}
    (hmember : env.member? c.text key = some type) :
    typeOf? env limit depth c = type ↔
      type.isSome ∨ (∀ k ∈ outer, (env.member? c.text k).join = none) ∧
        env.resolveType? c.text = none := by
  have hnone : (inner.findSome? fun k ↦ (env.member? c.text k).join) = none :=
    List.findSome?_eq_none_iff.2 fun k hk ↦ by rw [hinner k hk, Option.join_none]
  rw [type_of_unbound hdepth hkind hunbound, member_type_eq, hscope, List.findSome?_append, hnone,
    Option.none_or, List.findSome?_cons, hmember, Option.join_some]
  cases type with
  | some declared => simp
  | none => simp [Option.or_eq_none_iff]

end MemberReach.Typing

namespace MemberReach.Members

/-- A type in another one, with fields of a type that is not declared. One has the name of a field
of the outer type, and one has the name of a type. -/
def source : String :=
  "class A \x7b \x7d class O \x7b A x; class I \x7b string x; string A; string y; " ++
    "void T() \x7b x.M(); A.M(); y.M(); \x7d \x7d \x7d"

/-- The file with this text. -/
def unit : SourceUnit :=
  .create ⟨"A.cs"⟩ none source (Node.ofSource source)

/-- What the nodes of the file are typed against. -/
def env (c : Cursor) : Typing.Env :=
  ⟨.build [unit], ⟨0, Scope.of c⟩⟩

open Cursor Typing

/-- The receivers in the file are fields of the inner type, and their types are not declared. Two of
them are typed by something else. -/
theorem receivers : ∀ name ∈ ["x", "A", "y"], ∃ c ∈ reach [] unit.tree,
    (c.field = some .expression ∧ c.kind = .identifier ∧ c.text = name) ∧
      (Binding.find? c name).isNone ∧
      (env c).scope.enclosingTypes = [⟨"O.I"⟩, ⟨"O"⟩] ∧ (env c).member? name ⟨"O.I"⟩ = some none ∧
      if name = "y" then (env c).member? name ⟨"O"⟩ = none ∧ (env c).resolveType? name = none
      else (typeOf? (env c) defaultLimit 1 c).isSome := by
  decide +kernel

/-- Every identifier of the file that is spelled so, and that no local binds, has the type of the
innermost member of that name. -/
def Decides (name : String) : Prop :=
  ∀ c, IsIn unit.tree c → c.kind = .identifier → c.text = name → Binding.find? c c.text = none →
    ∀ inner key outer type, (env c).scope.enclosingTypes = inner ++ key :: outer →
      (∀ k ∈ inner, (env c).member? c.text k = none) → (env c).member? c.text key = some type →
        typeOf? (env c) defaultLimit 1 c = type

/-- The two receivers that something else types do not have the type of the innermost member. -/
theorem not_decides {name : String} (hname : name ∈ ["x", "A"]) : ¬ Decides name := by
  intro hdecides
  have hne : name ≠ "y" := by rintro rfl; exact absurd hname (by decide)
  obtain ⟨c, hc, ⟨_, hkind, rfl⟩, hunbound, hscope, hmember, htyped⟩ :=
    receivers name (List.mem_append_left ["y"] hname)
  rw [if_neg hne] at htyped
  have hnone := hdecides c (is_in_iff_mem_reach.2 hc) hkind rfl
    (Option.isNone_iff_eq_none.1 hunbound) [] ⟨"O.I"⟩ [⟨"O"⟩] none hscope nofun hmember
  rw [hnone] at htyped
  exact absurd htyped (by decide)

end MemberReach.Members

namespace MemberReach.Typing

open Cursor

/-- A field of a type that is not declared has no type, as nothing else has its name. -/
theorem type_of_member_iff_plain :
    ∃ c, IsIn Members.unit.tree c ∧ c.kind = .identifier ∧ Binding.find? c c.text = none ∧
      (Members.env c).scope.enclosingTypes = [⟨"O.I"⟩, ⟨"O"⟩] ∧
      (Members.env c).member? c.text ⟨"O.I"⟩ = some none ∧
      typeOf? (Members.env c) defaultLimit 1 c = none := by
  obtain ⟨c, hc, ⟨_, hkind, htext⟩, hunbound, hscope, hmember, hrest⟩ :=
    Members.receivers "y" (by decide)
  rw [if_pos rfl] at hrest
  rw [← htext] at hunbound hmember hrest
  have hunbound := Option.isNone_iff_eq_none.1 hunbound
  have hdepth : 1 ≤ defaultLimit := by decide
  have hsplit : (Members.env c).scope.enclosingTypes = [] ++ ⟨"O.I"⟩ :: [⟨"O"⟩] := hscope
  have hiff := type_of_member_iff hdepth hkind hunbound hsplit nofun hmember
  refine ⟨c, is_in_iff_mem_reach.2 hc, hkind, hunbound, hscope, hmember, hiff.2 (Or.inr ⟨?_, ?_⟩)⟩
  · simp [hrest.1]
  · exact hrest.2

/-- A member of a type that is not declared is passed over for a member of an outer type, and for a
type that has its name. -/
theorem undeclared_member_passed_over : ¬ Members.Decides "x" ∧ ¬ Members.Decides "A" :=
  ⟨Members.not_decides (by decide), Members.not_decides (by decide)⟩

end MemberReach.Typing

/-! ### Names of locals -/

namespace MemberReach.Scope

/-- A scope without a type has no enclosing types. -/
theorem enclosing_types_of_none {scope : Scope} (h : scope.typeKey? = none) :
    scope.enclosingTypes = [] := by
  have htypes : scope.types = [] := by
    unfold typeKey? at h
    split at h
    · exact List.isEmpty_iff.1 ‹_›
    · cases h
  simp [enclosingTypes, htypes, prefixes]

end MemberReach.Scope

namespace MemberReach.Binding

/-- Whether a block around a node, in the same member, declares a local function of a name. -/
def isLocalFunction (c : Cursor) (name : String) : Bool :=
  (enclosing c).any fun block ↦ block.kind == .block && block.namedChildren.any fun f ↦
    f.kind == .localFunctionStatement && f.declaredName? == some name

/-- Whether a name is local at a node: a parameter or local binds it there, or it is called and is
the name of a local function. -/
def isLocalName (c : Cursor) (name : String) : Bool :=
  (find? c name).isSome || c.isCallee && isLocalFunction c name

end MemberReach.Binding

namespace MemberReach.Typing

variable {env : Env} {c : Cursor} {name : String}

/-- An overload is picked if there is a method of the name. -/
theorem pick_overload_eq_none_iff {key : TypeKey} {arguments : Nat} :
    env.pickOverload? key name arguments = none ↔ env.registry.findMethods key name = [] := by
  unfold Env.pickOverload?
  cases env.registry.findMethods key name with
  | nil => simp
  | cons m rest => simp

/-- A node with a simple name is resolved as one. -/
theorem symbol_eq_simple_name {typeOf? : Cursor → Option TypeKey} (h : c.simpleName? = some name) :
    env.symbol? typeOf? c = env.simpleName? c := by
  unfold Cursor.simpleName? at h
  split at h
  next hkind => simp only [Env.symbol?, hkind]
  next hkind => simp only [Env.symbol?, hkind]
  next => cases h

/-- A called name denotes the overload that the innermost enclosing type with a method of the name
gives. -/
theorem simple_name_of_call (hname : c.simpleName? = some name) {call : Cursor}
    (hcall : c.call? = some call) :
    env.simpleName? c = (env.scope.enclosingTypes.findSome? fun key ↦
      env.pickOverload? key name call.argumentCount).map .method := by
  simp only [Env.simpleName?, hname, hcall, Option.bind_eq_bind, Option.bind_some]
  cases hkey : env.scope.typeKey? with
  | some key => rfl
  | none => simp [Scope.enclosing_types_of_none hkey]

/-- A name that is bound and not called denotes nothing. -/
theorem simple_name_of_bound (hname : c.simpleName? = some name) (hcall : c.call? = none)
    (hbound : (Binding.find? c name).isSome) : env.simpleName? c = none := by
  simp only [Env.simpleName?, hname, hcall, Option.bind_eq_bind, Option.bind_some, hbound, if_true]
  cases env.scope.typeKey? <;> rfl

/-- The name of a local denotes nothing, unless it is called and an enclosing type or one of its
bases has a method of that name: then it denotes such a method. -/
theorem local_name_unresolved_iff (r : Registry) (limit unit : Nat)
    (hname : c.simpleName? = some name) (hlocal : Binding.isLocalName c name) :
    (resolve? r limit unit c = none ↔
      (c.isCallee → ∀ key ∈ (Scope.of c).enclosingTypes, r.findMethods key name = [])) ∧
    ∀ s, resolve? r limit unit c = some s → c.isCallee ∧
      ∃ key ∈ (Scope.of c).enclosingTypes, ∃ m ∈ r.findMethods key name, s = .method m.symbol := by
  unfold resolve? Cursor.isCallee
  rw [symbol_eq_simple_name hname]
  cases hcall : c.call? with
  | none =>
      have hbound : (Binding.find? c name).isSome := by
        simpa [Binding.isLocalName, Cursor.isCallee, hcall] using hlocal
      rw [simple_name_of_bound hname hcall hbound]
      simp
  | some call =>
      rw [simple_name_of_call hname hcall]
      constructor
      · simp only [Option.map_eq_none_iff, List.findSome?_eq_none_iff, pick_overload_eq_none_iff,
          Option.isSome_some, true_implies]
        rfl
      · intro s hs
        obtain ⟨symbol, hfind, rfl⟩ := Option.map_eq_some_iff.1 hs
        obtain ⟨key, hkey, hpick⟩ := List.exists_of_findSome?_eq_some hfind
        obtain ⟨m, hm, rfl⟩ := Option.map_eq_some_iff.1 hpick
        exact ⟨rfl, key, hkey, m, Env.mem_of_preferred hm, rfl⟩

end MemberReach.Typing

namespace MemberReach.LocalCalls

/-- Calls of parameters and of a local function, two of them with the name of a method. -/
def source : String :=
  "class A \x7b void F() \x7b \x7d void M(D F, D g) \x7b F(); g(); \x7d " ++
    "void L() \x7b void F() \x7b \x7d F(); \x7d \x7d"

/-- The file with this text. -/
def unit : SourceUnit :=
  .create ⟨"A.cs"⟩ none source (Node.ofSource source)

/-- The registry of the file. -/
def registry : Registry :=
  .build [unit]

open Cursor Typing in
/-- The file calls a parameter whose name no method has, and a parameter and a local function whose
name a method has. -/
theorem calls :
    (∃ c ∈ reach [] unit.tree, (c.isCallee ∧ c.simpleName? = some "g") ∧
      Binding.isLocalName c "g" ∧
      ∀ key ∈ (Scope.of c).enclosingTypes, registry.findMethods key "g" = []) ∧
    (∃ c ∈ reach [] unit.tree, (c.isCallee ∧ c.simpleName? = some "F") ∧
      (Binding.find? c "F").isSome ∧ resolve? registry defaultLimit 0 c ≠ none) ∧
    ∃ c ∈ reach [] unit.tree, (c.isCallee ∧ c.simpleName? = some "F") ∧
      Binding.isLocalFunction c "F" ∧ resolve? registry defaultLimit 0 c ≠ none := by
  decide +kernel

end MemberReach.LocalCalls

namespace MemberReach.Typing

open Cursor LocalCalls

/-- A call of a parameter denotes nothing, as no method has its name. -/
theorem local_name_unresolved_iff_parameter :
    ∃ c, IsIn unit.tree c ∧ c.isCallee ∧ c.simpleName? = some "g" ∧ Binding.isLocalName c "g" ∧
      resolve? registry defaultLimit 0 c = none := by
  obtain ⟨⟨c, hc, ⟨hcallee, hname⟩, hlocal, hnone⟩, _⟩ := calls
  have hiff := (local_name_unresolved_iff registry defaultLimit 0 hname hlocal).1
  exact ⟨c, is_in_iff_mem_reach.2 hc, hcallee, hname, hlocal, hiff.2 fun _ ↦ hnone⟩

/-- Calls of a parameter and of a local function are attributed to the method of their name. -/
theorem local_call_attributed :
    (¬ ∀ c, IsIn unit.tree c → c.isCallee → c.simpleName? = some "F" →
      (Binding.find? c "F").isSome → resolve? registry defaultLimit 0 c = none) ∧
    ¬ ∀ c, IsIn unit.tree c → c.isCallee → c.simpleName? = some "F" →
      Binding.isLocalFunction c "F" → resolve? registry defaultLimit 0 c = none := by
  obtain ⟨_, ⟨c, hc, ⟨hcallee, hname⟩, hbound, hsome⟩, d, hd, ⟨hcallee', hname'⟩, hlocal,
    hsome'⟩ := calls
  constructor
  · intro hunresolved
    exact hsome (hunresolved c (is_in_iff_mem_reach.2 hc) hcallee hname hbound)
  · intro hunresolved
    exact hsome' (hunresolved d (is_in_iff_mem_reach.2 hd) hcallee' hname' hlocal)

end MemberReach.Typing
