import MemberReach.Grammar.Rules
import MemberReach.Proofs.LoadOrder.Orders
import MemberReach.Proofs.Worklist
import MemberReach.Report

/-!
# The order of the units does not show

The number of a unit is stored wherever a descriptor has to be looked up later, and most look-ups
take the first of several candidates. Still, a project whose units declare different types and
differently named extension methods gives the same answers in every order of its units: expressions
have the same types (`types_renumbered`), nodes denote the same symbols, seeds are found or missing
alike, and the closure of a seed is the same in every field (`load_order_irrelevant`).
-/

namespace MemberReach.Typing

open Registry

variable {place : Nat → Nat} {r' r : Registry} (h : Renumbered place r' r)
  (context : LookupContext)

namespace Env

include h

/-- A descriptor denotes the same type. -/
theorem resolve_type_renumbered :
    resolveType? ⟨r', context.renumber place⟩ = resolveType? ⟨r, context⟩ := by
  funext descriptor
  exact h.resolve_type descriptor context

/-- The same overload is picked. -/
theorem pick_overload_renumbered :
    pickOverload? ⟨r', context.renumber place⟩ = pickOverload? ⟨r, context⟩ := by
  funext key name arguments
  simp only [pickOverload?]
  rw [h.find_methods, List.find?_map, List.head?_map, ← Option.map_or, Option.map_map]
  rfl

/-- An extension method applies to the same receivers. -/
theorem applies_renumbered (receiver : Option TypeKey) (m : MethodDecl) :
    applies ⟨r', context.renumber place⟩ receiver (m.renumber place) =
      applies ⟨r, context⟩ receiver m := by
  have hkey : (m.renumber place).extendedKey = m.extendedKey := rfl
  unfold applies
  rw [hkey]
  cases m.extendedKey with
  | none => cases receiver <;> rfl
  | some target =>
      cases receiver with
      | none => rfl
      | some key =>
          simp only [h.type_chain, List.any_map]
          rfl

/-- The same extension method is picked. -/
theorem pick_extension_renumbered :
    pickExtension? ⟨r', context.renumber place⟩ = pickExtension? ⟨r, context⟩ := by
  funext receiver name arguments
  have happlies : applies ⟨r', context.renumber place⟩ receiver ∘ MethodDecl.renumber place =
      applies ⟨r, context⟩ receiver := funext (applies_renumbered h context receiver)
  simp only [pickExtension?]
  rw [h.find_extensions, List.filter_map, happlies, List.find?_map, List.head?_map, ← Option.map_or,
    Option.map_map]
  rfl

/-- A name on the enclosing types has the same type. -/
theorem member_type_renumbered :
    memberType? ⟨r', context.renumber place⟩ = memberType? ⟨r, context⟩ := by
  funext name
  unfold memberType?
  refine congrArg (List.findSome? · _) (funext fun key ↦ ?_)
  simp only [h.find_property, h.find_field]
  cases r.findProperty? key name with
  | some property => rfl
  | none => cases r.findField? key name <;> rfl

/-- A name on a type has the same descriptor. -/
theorem member_descriptor_renumbered :
    memberDescriptor? ⟨r', context.renumber place⟩ = memberDescriptor? ⟨r, context⟩ := by
  funext key name
  simp only [memberDescriptor?, h.find_property, h.find_field]
  cases r.findProperty? key name with
  | some property => rfl
  | none => cases r.findField? key name <;> rfl

/-- A name on a receiver has the same type. -/
theorem member_type_on_renumbered :
    memberTypeOn? ⟨r', context.renumber place⟩ = memberTypeOn? ⟨r, context⟩ := by
  funext key name
  simp only [memberTypeOn?, h.find_property, h.find_field, h.is_declared]
  cases r.findProperty? key name with
  | some property => rfl
  | none => cases r.findField? key name <;> rfl

/-- A member access denotes the same symbol for a receiver. -/
theorem access_symbol_renumbered :
    accessSymbol? ⟨r', context.renumber place⟩ = accessSymbol? ⟨r, context⟩ := by
  funext receiver name c
  unfold accessSymbol?
  rw [pick_overload_renumbered h, pick_extension_renumbered h]
  cases c.call? with
  | some call => rfl
  | none =>
      cases receiver with
      | none => rfl
      | some key =>
          simp only [Option.bind_eq_bind, Option.bind_some, h.find_property, h.find_methods]
          cases r.findProperty? key name with
          | some property => rfl
          | none => cases r.findMethods key name <;> rfl

/-- A simple name denotes the same symbol. -/
theorem simple_name_renumbered :
    simpleName? ⟨r', context.renumber place⟩ = simpleName? ⟨r, context⟩ := by
  funext c
  unfold simpleName?
  rw [pick_overload_renumbered h]
  simp only [h.find_property, Option.map_map]
  rfl

/-- A node denotes the same symbol, given how receivers are typed. -/
theorem symbol_renumbered :
    symbol? ⟨r', context.renumber place⟩ = symbol? ⟨r, context⟩ := by
  funext typeOf? c
  unfold symbol? memberAccess?
  rw [access_symbol_renumbered h, simple_name_renumbered h]

/-- A call invokes the same method, given how receivers are typed. -/
theorem callee_renumbered :
    callee? ⟨r', context.renumber place⟩ = callee? ⟨r, context⟩ := by
  funext typeOf? call
  unfold callee?
  rw [symbol_renumbered h]

/-- An output argument has the same type, given how receivers are typed. -/
theorem out_argument_type_renumbered :
    outArgumentType? ⟨r', context.renumber place⟩ = outArgumentType? ⟨r, context⟩ := by
  funext typeOf? declaration
  unfold outArgumentType?
  rw [callee_renumbered h]
  simp only [h.methods, h.parameter_type, Option.bind_eq_bind, Option.bind_map]
  rfl

/-- The current object has the same base type. -/
theorem base_type_renumbered :
    baseType? ⟨r', context.renumber place⟩ = baseType? ⟨r, context⟩ := by
  unfold baseType?
  simp only [h.types, Option.bind_eq_bind, Option.bind_map]
  rfl

end Env

include h

/-- Expressions have the same types and descriptors. -/
theorem types_renumbered (limit depth : Nat) :
    typeOf? ⟨r', context.renumber place⟩ limit depth = typeOf? ⟨r, context⟩ limit depth ∧
      descriptorOf? ⟨r', context.renumber place⟩ limit depth =
        descriptorOf? ⟨r, context⟩ limit depth := by
  -- on the depth that is left, as the two functions call each other at greater depths only
  induction hleft : limit + 1 - depth using Nat.strongRecOn generalizing depth with
  | _ left ih =>
      by_cases hdepth : limit < depth
      · constructor <;> funext c
        · rw [typeOf?, dif_pos hdepth, typeOf?, dif_pos hdepth]
        · rw [descriptorOf?, dif_pos hdepth, descriptorOf?, dif_pos hdepth]
      · have hnext := fun n ↦ ih (limit + 1 - (depth + (n + 1))) (by omega) (depth + (n + 1)) rfl
        have hspelled : Env.spelledType? ⟨r', context.renumber place⟩ =
            Env.spelledType? ⟨r, context⟩ := by
          funext c
          unfold Env.spelledType?
          rw [Env.resolve_type_renumbered h]
        constructor <;> funext c
        · rw [typeOf?, dif_neg hdepth, typeOf?, dif_neg hdepth]
          simp only [(hnext 0).1, (hnext 0).2, (hnext 1).1, (hnext 2).1, hspelled,
            Env.resolve_type_renumbered h, Env.base_type_renumbered h,
            Env.out_argument_type_renumbered h, Env.member_type_renumbered h,
            Env.member_type_on_renumbered h, Env.callee_renumbered h, h.methods, Option.bind_map]
          rfl
        · rw [descriptorOf?, dif_neg hdepth, descriptorOf?, dif_neg hdepth]
          simp only [(hnext 0).1, (hnext 0).2, (hnext 1).1, Env.member_descriptor_renumbered h,
            Env.callee_renumbered h]
          rfl

/-- A node denotes the same symbol in a renumbered unit. -/
theorem resolve_renumbered (limit i : Nat) (c : Cursor) :
    resolve? r' limit (place i) c = resolve? r limit i c := by
  have henv := Env.symbol_renumbered h ⟨i, Scope.of c⟩
  have htypes := (types_renumbered h ⟨i, Scope.of c⟩ limit 1).1
  show Env.symbol? ⟨r', LookupContext.renumber place ⟨i, Scope.of c⟩⟩
    (typeOf? ⟨r', LookupContext.renumber place ⟨i, Scope.of c⟩⟩ limit 1) c = _
  rw [henv, htypes]
  rfl

end MemberReach.Typing

namespace MemberReach

/-- The method with its declaration in a renumbered unit. -/
def MethodBody.renumber (place : Nat → Nat) (method : MethodBody) : MethodBody :=
  { method with unit := place method.unit }

namespace Model

open Registry

section Renumbered

variable {place : Nat → Nat} {units' units : List SourceUnit}
  (h : Renumbered place (build units') (build units)) (hplace : ∀ i, units'[place i]? = units[i]?)

include h hplace

/-- A node denotes the same symbol wherever its unit stands. -/
theorem symbol_renumbered (i : Nat) (c : Cursor) :
    (ofUnits units').symbol? (place i) c = (ofUnits units).symbol? i c := by
  have hlength : (ofUnits units').units.length ≤ place i ↔ (ofUnits units).units.length ≤ i := by
    rw [← List.getElem?_eq_none_iff, ← List.getElem?_eq_none_iff]
    exact iff_of_eq (congrArg (· = none) (hplace i))
  have hresolve : Typing.resolve? (ofUnits units').registry Typing.defaultLimit (place i) c =
      Typing.resolve? (ofUnits units).registry Typing.defaultLimit i c :=
    Typing.resolve_renumbered h Typing.defaultLimit i c
  rw [symbol?, symbol?, hresolve]
  by_cases hi : i < (ofUnits units).units.length
  · rw [if_pos hi, if_pos (by omega)]
  · rw [if_neg hi, if_neg (by omega)]

/-- The same seed is found wherever its unit stands. -/
theorem find_seed_renumbered {i : Nat} (hi : i < units.length) (name : String) :
    (ofUnits units').findSeed (place i) name = (ofUnits units).findSeed i name := by
  have hunit : units[i]? = some units[i] := List.getElem?_eq_getElem hi
  simp only [findSeed, ofUnits, hplace, hunit]
  cases (methodDeclarations units[i]).find? fun c ↦ c.declaredName? == some name with
  | none => rfl
  | some declaration =>
      have hmethod : (methodIdentity? declaration).bind (build units').method? =
          ((methodIdentity? declaration).bind (build units).method?).map
            (MethodDecl.renumber place) := by
        rw [Option.map_bind]
        exact congrArg (Option.bind _) (funext h.methods)
      simp only [hmethod]
      cases (methodIdentity? declaration).bind (build units).method? <;> rfl

/-- The same body is found wherever its unit stands. -/
theorem method_body_renumbered (m : MethodSymbol) :
    (ofUnits units').methodBody? m =
      ((ofUnits units).methodBody? m).map (MethodBody.renumber place) := by
  simp only [methodBody?, ofUnits, h.methods]
  cases (build units).method? m.id with
  | none => rfl
  | some declared =>
      have hunit : units'[(declared.renumber place).unit]? = units[declared.unit]? :=
        hplace declared.unit
      simp only [Option.map_some, Option.bind_eq_bind, Option.bind_some, hunit]
      cases units[declared.unit]? with
      | none => rfl
      | some unit =>
          simp only [Option.bind_some, Option.map_bind]
          rfl

/-- The same reads and calls are found in a body wherever its unit stands. -/
theorem classify_renumbered (external : TypeKey → Bool) (hidden : SymbolId → Bool)
    (body : MethodBody) :
    Classification.classify ((ofUnits units').resolver external hidden) (body.renumber place) =
      Classification.classify ((ofUnits units).resolver external hidden) body := by
  have hsymbol : ((ofUnits units').resolver external hidden).symbol? (place body.unit) =
      ((ofUnits units).resolver external hidden).symbol? body.unit :=
    funext fun c ↦ symbol_renumbered h hplace body.unit c
  have hdeclared : ((ofUnits units').resolver external hidden).isDeclared =
      ((ofUnits units).resolver external hidden).isDeclared :=
    congrArg (fun (declared : TypeKey → Bool) key ↦ declared key && !external key) h.is_declared
  have hread : Classification.read? ((ofUnits units').resolver external hidden)
        (place body.unit) =
      Classification.read? ((ofUnits units).resolver external hidden) body.unit := by
    funext c
    unfold Classification.read?
    rw [hsymbol, hdeclared]
    rfl
  have hcall : Classification.call? ((ofUnits units').resolver external hidden)
        (place body.unit) =
      Classification.call? ((ofUnits units).resolver external hidden) body.unit := by
    funext c
    unfold Classification.call?
    rw [hsymbol, hdeclared]
  simp only [Classification.classify, MethodBody.renumber, hread, hcall]

/-- The same reads and calls are found in every body. -/
theorem resolver_renumbered (external : TypeKey → Bool) (hidden : SymbolId → Bool) :
    Closure.Alike ((ofUnits units').resolver external hidden)
      ((ofUnits units).resolver external hidden) := by
  intro m
  have hbody : ((ofUnits units').resolver external hidden).methodBody? m =
      (((ofUnits units).resolver external hidden).methodBody? m).map
        (MethodBody.renumber place) := by
    simp only [resolver, method_body_renumbered h hplace]
    split <;> rfl
  rw [hbody, Option.map_map]
  exact congrArg (Option.map · _) (funext (classify_renumbered h hplace external hidden))

/-- The same is reachable from a seed. -/
theorem closure_renumbered (external : TypeKey → Bool) (hidden : SymbolId → Bool)
    (order : WorklistOrder) (seed : MethodSymbol) :
    (ofUnits units').closure external hidden order seed =
      (ofUnits units).closure external hidden order seed := by
  have hcount : (ofUnits units').registry.methodCount = (ofUnits units).registry.methodCount :=
    h.count
  rw [closure, closure, hcount]
  exact Closure.build_alike (resolver_renumbered h hplace external hidden) order _ seed

end Renumbered

/-! ### Permutations -/

/-- The units in another order: position `i` has the unit that stood at `σ i`. -/
def reordered (units : List SourceUnit) (σ : Equiv.Perm (Fin units.length)) : List SourceUnit :=
  List.ofFn fun i ↦ units.get (σ i)

/-- The position that a unit has in the other order. -/
def newPlace {n : Nat} (σ : Equiv.Perm (Fin n)) (i : Nat) : Nat :=
  if h : i < n then σ.symm ⟨i, h⟩ else i

/-- A unit is found at its new position. -/
theorem get_new_place (units : List SourceUnit) (σ : Equiv.Perm (Fin units.length)) (i : Nat) :
    (reordered units σ)[newPlace σ i]? = units[i]? := by
  unfold newPlace
  split
  next hi =>
    rw [reordered, List.getElem?_ofFn, dif_pos (σ.symm ⟨i, hi⟩).isLt]
    simp
  next hi =>
    have hlength : (reordered units σ).length = units.length := List.length_ofFn
    rw [List.getElem?_eq_none (by omega), List.getElem?_eq_none (by omega)]

/-- Reordered units are the same units at new positions. -/
theorem zip_idx_reordered (units : List SourceUnit) (σ : Equiv.Perm (Fin units.length)) :
    (reordered units σ).zipIdx.Perm
      (units.zipIdx.map fun entry ↦ (entry.1, newPlace σ entry.2)) := by
  let entry : Fin units.length → SourceUnit × Nat := fun i ↦ (units.get i, newPlace σ i)
  have hnew : (reordered units σ).zipIdx = List.ofFn (entry ∘ σ) := by
    apply List.ext_getElem
    · simp [reordered]
    · intro i _ _
      simp [reordered, entry, newPlace]
  have hold : (units.zipIdx.map fun entry ↦ (entry.1, newPlace σ entry.2)) = List.ofFn entry := by
    apply List.ext_getElem
    · simp
    · intro i _ _
      simp [entry]
  rw [hnew, hold]
  exact σ.ofFn_comp_perm entry

/-- A project gives the same answers with its units in another order: the same seed or the same
error, the same closure and the same report. -/
structure SameInOrder (units : List SourceUnit) (σ : Equiv.Perm (Fin units.length)) : Prop where
  seeds : ∀ (i : Fin units.length) name,
    (ofUnits (reordered units σ)).findSeed i name = (ofUnits units).findSeed (σ i) name
  closures : ∀ external hidden order seed,
    (ofUnits (reordered units σ)).closure external hidden order seed =
      (ofUnits units).closure external hidden order seed
  reports : ∀ external hidden order seed seedFile seedMethod indented,
    (Report.ofClosure ((ofUnits (reordered units σ)).closure external hidden order seed) seedFile
        seedMethod).render indented =
      (Report.ofClosure ((ofUnits units).closure external hidden order seed) seedFile
        seedMethod).render indented

/-- The order of units that are apart does not matter. -/
theorem load_order_irrelevant {units : List SourceUnit}
    (hapart : units.Pairwise SourceUnit.Apart) (σ : Equiv.Perm (Fin units.length)) :
    SameInOrder units σ := by
  have hplace := get_new_place units σ
  have h := build_renumbered hapart (zip_idx_reordered units σ) hplace
  have hclosure := closure_renumbered h hplace
  refine ⟨fun i name ↦ ?_, hclosure, ?_⟩
  · have hnew : newPlace σ (σ i) = i := by
      rw [newPlace, dif_pos (σ i).isLt]
      simp
    have hseed := find_seed_renumbered h hplace (σ i).isLt name
    rwa [hnew] at hseed
  · intro external hidden order seed seedFile seedMethod indented
    rw [hclosure]

end Model

namespace Files

/-- A file that calls into the other two, through an import and through an extension method. -/
def caller : String :=
  "using N; class A \x7b B b; void M() \x7b b.Go(); b.Twice(); \x7d \x7d"

/-- A file with a type in a namespace. -/
def library : String :=
  "namespace N \x7b class B \x7b void Go() \x7b \x7d \x7d \x7d"

/-- A file with an extension method for the type of another file. -/
def extensions : String :=
  "using N; class E \x7b static void Twice(this B b) \x7b \x7d \x7d"

/-- The three files as a project. -/
def units : List SourceUnit :=
  [("A.cs", caller), ("B.cs", library), ("E.cs", extensions)].map fun (name, source) ↦
    .create ⟨name⟩ none source (Node.ofSource source)

/-- The files declare different types and different extension methods, and a method of the first
reaches a method of each other file. -/
theorem units_apart :
    units.Pairwise SourceUnit.Apart ∧
      (((Model.ofUnits units).findSeed 0 "M").toOption.map fun seed ↦
        ((Model.ofUnits units).closure (fun _ ↦ false) (fun _ ↦ false) .fifo seed).visited.map
          fun m ↦ m.id.display) = some ["A.M()", "E.Twice(B)", "N.B.Go()"] := by
  decide +kernel

end Files

namespace Model

/-- Three files that refer to each other, loaded the other way round: the seed moves from the first
place to the last. -/
theorem load_order_irrelevant_files :
    Files.units.Pairwise SourceUnit.Apart ∧ SameInOrder Files.units (Fin.revPerm (n := 3)) :=
  ⟨Files.units_apart.1, load_order_irrelevant Files.units_apart.1 _⟩

end Model

end MemberReach
