import Mathlib.Logic.Relation
import MemberReach.Classification
import MemberReach.Grammar.Rules
import MemberReach.Proofs.Callees
import MemberReach.Proofs.SymbolSets
import MemberReach.Proofs.TreeSpans

/-!
# What a body reads and calls

`MethodBody.Reads` and `MethodBody.Calls` say what a body reads and calls in terms of its nodes: the
nodes strictly below it, at any depth, and the part that each plays in the node above it. The
classification of a body holds exactly these members (`classify_exact`). Symbols stand for their
identities there: of several symbols with one identity, a set keeps one. What a callee denotes
cannot change the reads, and what any other node denotes cannot change the calls.
-/

namespace MemberReach

namespace Cursor

/-- A node is strictly below another, through named nodes. -/
def IsBelow (d c : Cursor) : Prop :=
  Relation.TransGen (fun parent child ↦ child ∈ parent.namedChildren) c d

/-- A node is the function of a call. -/
def IsFunctionOf (c call : Cursor) : Prop :=
  call.kind = .invocationExpression ∧ call.child? .function = some c

/-- The node above a node is a call of it. -/
def IsFunction (c : Cursor) : Prop :=
  ∃ call, c.parent? = some call ∧ c.IsFunctionOf call

variable {c d : Cursor}

/-- The nodes that are listed for a node are the nodes below it. -/
theorem mem_descendants_iff : d ∈ c.descendants ↔ d.IsBelow c := by
  rw [descendants_eq_below]
  constructor
  · intro hd
    -- from the top down, because the list of a node is made of those of its named children
    induction hsize : c.node.size using Nat.strongRecOn generalizing c with
    | _ size ih =>
        obtain ⟨e, he, hd⟩ := mem_below.1 hd
        rcases hd with rfl | hd
        · exact Relation.TransGen.single he
        · have hlt := size_lt_of_mem_children (mem_children_of_named he)
          exact Relation.TransGen.head he (ih _ (hsize ▸ hlt) hd rfl)
  · intro hd
    induction hd with
    | single he => exact mem_below.2 ⟨_, he, Or.inl rfl⟩
    | tail _ he ih => exact mem_below_of_child ih he

/-- A node below another is a child of a node. -/
theorem IsBelow.mem_children (h : d.IsBelow c) : ∃ parent : Cursor, d ∈ parent.children := by
  obtain ⟨parent, _, hd⟩ := Relation.TransGen.tail'_iff.1 h
  exact ⟨parent, mem_children_of_named hd⟩

/-- A child is a callee exactly if the node above it is a call of it. -/
theorem is_callee_iff_function {parent : Cursor} (hchild : c ∈ parent.children) :
    c.isCallee ↔ c.IsFunction := by
  have hparent := parent_of_mem_children hchild
  rw [is_callee_iff hchild]
  refine ⟨fun h ↦ ⟨parent, hparent, h⟩, fun ⟨call, hcall, h⟩ ↦ ?_⟩
  cases hparent.symm.trans hcall
  exact h

end Cursor

namespace MethodBody

/-- A node is in the body of a method. -/
def Has (method : MethodBody) (c : Cursor) : Prop :=
  ∃ body, method.body = some body ∧ c.IsBelow body

/-- A method reads a property if a member access in its body that is not called denotes it, and the
property has the tracked type and a declared owner. -/
def Reads (resolver : Resolver) (method : MethodBody) (p : PropertySymbol) : Prop :=
  ∃ c, method.Has c ∧ c.kind = .memberAccessExpression ∧ ¬ c.IsFunction ∧
    resolver.symbol? method.unit c = some (.property p) ∧
    resolver.isTarget p.typeName ∧ resolver.isDeclared p.id.owner

/-- A method calls another if the function of a call in its body is a name or a member access that
denotes the other, and the other has a declared owner. -/
def Calls (resolver : Resolver) (method : MethodBody) (m : MethodSymbol) : Prop :=
  ∃ call f, method.Has call ∧ f.IsFunctionOf call ∧
    f.kind ∈ [.identifier, .genericName, .memberAccessExpression] ∧
    resolver.symbol? method.unit f = some (.method m) ∧ resolver.isDeclared m.id.owner

/-- A node in a body is no callee exactly if the node above it is no call of it. -/
theorem Has.is_callee_eq_false_iff {method : MethodBody} {c : Cursor} (h : method.Has c) :
    c.isCallee = false ↔ ¬ c.IsFunction := by
  obtain ⟨body, _, hbelow⟩ := h
  obtain ⟨parent, hchild⟩ := hbelow.mem_children
  rw [← Cursor.is_callee_iff_function hchild, Bool.not_eq_true]

end MethodBody

namespace Classification

variable {resolver other : Resolver} {method : MethodBody}

/-- The nodes that are classified are those in the body. -/
theorem mem_nodes {c : Cursor} :
    c ∈ (method.body.map Cursor.descendants).getD [] ↔ method.Has c := by
  unfold MethodBody.Has
  cases method.body with
  | none => simp
  | some body => simp [Cursor.mem_descendants_iff]

/-- The properties that the nodes of a body read are those that the body reads. -/
theorem mem_reads {p : PropertySymbol} :
    p ∈ ((method.body.map Cursor.descendants).getD []).filterMap (read? resolver method.unit) ↔
      method.Reads resolver p := by
  rw [List.mem_filterMap]
  refine exists_congr fun c ↦ ?_
  rw [mem_nodes, read_eq_some_iff]
  -- only of a node that is below another is the node above it known to have it as a child
  refine and_congr_right fun hc ↦ ?_
  rw [hc.is_callee_eq_false_iff]

/-- A callee can be resolved if it is a name or a member access. -/
theorem is_callable_iff {kind : Kind} :
    isCallable kind ↔ kind ∈ [.identifier, .genericName, .memberAccessExpression] := by
  cases kind <;> simp [isCallable]

/-- The methods that the nodes of a body call are those that the body calls. -/
theorem mem_calls {m : MethodSymbol} :
    m ∈ ((method.body.map Cursor.descendants).getD []).filterMap (call? resolver method.unit) ↔
      method.Calls resolver m := by
  rw [List.mem_filterMap]
  refine exists_congr fun call ↦ ?_
  rw [mem_nodes, call_eq_some_iff]
  simp only [is_callable_iff, Cursor.IsFunctionOf]
  constructor
  · rintro ⟨hcall, hkind, f, hfunction, h⟩
    exact ⟨f, hcall, ⟨hkind, hfunction⟩, h⟩
  · rintro ⟨f, hcall, ⟨hkind, hfunction⟩, h⟩
    exact ⟨hcall, hkind, f, hfunction, h⟩

/-- Two resolvers give the same answers about a body, except for what callees denote. -/
structure AlikeOutsideCallees (method : MethodBody) (other resolver : Resolver) : Prop where
  target : other.isTarget = resolver.isTarget
  declared : other.isDeclared = resolver.isDeclared
  symbol : ∀ c, method.Has c → ¬ c.IsFunction →
    other.symbol? method.unit c = resolver.symbol? method.unit c

/-- Two resolvers agree on the types that are declared and on what the callees in a body denote. -/
structure AlikeAtCallees (method : MethodBody) (other resolver : Resolver) : Prop where
  declared : other.isDeclared = resolver.isDeclared
  symbol : ∀ call f, method.Has call → f.IsFunctionOf call →
    other.symbol? method.unit f = resolver.symbol? method.unit f

/-- What a body reads does not depend on what callees denote. -/
theorem reads_eq_of_alike (h : AlikeOutsideCallees method other resolver) :
    (classify other method).reads = (classify resolver method).reads := by
  refine congrArg SymbolSet.ofList (List.filterMap_congr fun c hc ↦ Option.ext fun p ↦ ?_)
  have hhas := mem_nodes.1 hc
  rw [read_eq_some_iff, read_eq_some_iff, h.target, h.declared]
  refine and_congr_right fun _ ↦ and_congr_right fun hcallee ↦ ?_
  rw [h.symbol c hhas (hhas.is_callee_eq_false_iff.1 hcallee)]

/-- What a body calls depends only on what callees denote. -/
theorem calls_eq_of_alike (h : AlikeAtCallees method other resolver) :
    (classify other method).calls = (classify resolver method).calls := by
  refine congrArg SymbolSet.ofList (List.filterMap_congr fun call hcall ↦ Option.ext fun m ↦ ?_)
  rw [call_eq_some_iff, call_eq_some_iff, h.declared]
  refine and_congr_right fun hkind ↦ exists_congr fun f ↦ and_congr_right fun hfunction ↦ ?_
  rw [h.symbol call f (mem_nodes.1 hcall) ⟨hkind, hfunction⟩]

/-- The classification of a body holds exactly what the body reads and calls. What its callees
denote adds no read, what its other nodes denote adds no call, and without a body there is
neither. -/
theorem classify_exact (resolver : Resolver) (method : MethodBody) :
    (classify resolver method).reads.HoldsExactly (method.Reads resolver) ∧
      (classify resolver method).calls.HoldsExactly (method.Calls resolver) ∧
      (∀ other, AlikeOutsideCallees method other resolver →
        (classify other method).reads = (classify resolver method).reads) ∧
      (∀ other, AlikeAtCallees method other resolver →
        (classify other method).calls = (classify resolver method).calls) ∧
      (method.body = none → classify resolver method = ⟨.empty, .empty⟩) := by
  refine ⟨SymbolSet.of_list_holds fun _ ↦ mem_reads, SymbolSet.of_list_holds fun _ ↦ mem_calls,
    fun _ ↦ reads_eq_of_alike, fun _ ↦ calls_eq_of_alike, fun hbody ↦ ?_⟩
  rw [classify, hbody]
  rfl

end Classification

namespace Reading

open Classification

/-- A body that calls `M`, reads `P`, and passes on `N` without a call of it. -/
def source : String :=
  "class A \x7b string P \x7b get; \x7d void M(string s) \x7b \x7d void N() \x7b \x7d \x7d " ++
    "class C \x7b void T(A a) \x7b a.M(a.P); F(() => a.N); \x7d \x7d"

/-- The project with this file only. -/
def model : Model :=
  .ofUnits [.create ⟨"A.cs"⟩ none source (Node.ofSource source)]

/-- The answers of the project. -/
def resolver : Resolver :=
  model.resolver (fun _ ↦ false) (fun _ ↦ false)

/-- Nothing is known about callees. -/
def withoutCallees : Resolver :=
  { resolver with symbol? := fun unit c ↦ if c.isCallee then none else resolver.symbol? unit c }

/-- Nothing is known about nodes that are not called. -/
def calleesOnly : Resolver :=
  { resolver with symbol? := fun unit c ↦ if c.isCallee then resolver.symbol? unit c else none }

/-- The method `T`. -/
def found : Option MethodBody :=
  (model.findSeed 0 "T").toOption.bind model.methodBody?

/-- Leaving out what callees denote changes nothing else. -/
theorem without_callees_alike (method : MethodBody) :
    AlikeOutsideCallees method withoutCallees resolver where
  target := rfl
  declared := rfl
  symbol := fun c hc hfunction ↦ by
    simp [withoutCallees, hc.is_callee_eq_false_iff.2 hfunction]

/-- Leaving out what other nodes denote changes nothing about callees. -/
theorem callees_only_alike (method : MethodBody) :
    AlikeAtCallees method calleesOnly resolver where
  declared := rfl
  symbol := fun call f _ hfunction ↦ by
    have hcallee := (Cursor.is_callee_iff (Cursor.mem_children_of_child hfunction.2)).2 hfunction
    simp [calleesOnly, hcallee]

end Reading

namespace Classification

open Reading

/-- The body of `T` reads `P` and calls `M`. It neither reads `M`, which is called, nor calls `N`,
which is not. -/
theorem classify_exact_method_group :
    ∃ method ∈ found,
      (∀ id, (∃ p, method.Reads resolver p ∧ ident p = id) ↔ id = .property ⟨"A"⟩ "P") ∧
      (∀ id, (∃ m, method.Calls resolver m ∧ ident m = id) ↔
        id = .method ⟨"A"⟩ "M" ["string"]) ∧
      (classify withoutCallees method).reads = (classify resolver method).reads ∧
      (classify calleesOnly method).calls = (classify resolver method).calls ∧
      classify resolver { method with body := none } = ⟨.empty, .empty⟩ := by
  have hfound : ∃ method ∈ found,
      (classify resolver method).reads.toList.map ident = [.property ⟨"A"⟩ "P"] ∧
      (classify resolver method).calls.toList.map ident = [.method ⟨"A"⟩ "M" ["string"]] := by
    decide +kernel
  obtain ⟨method, hmethod, hreads, hcalls⟩ := hfound
  obtain ⟨hreadsExact, hcallsExact, houtside, hat, _⟩ := classify_exact resolver method
  obtain ⟨_, _, _, _, hnone⟩ := classify_exact resolver { method with body := none }
  refine ⟨method, hmethod, fun id ↦ ?_, fun id ↦ ?_, houtside _ (without_callees_alike method),
    hat _ (callees_only_alike method), hnone rfl⟩
  · rw [← hreadsExact.mem_ids, hreads, List.mem_singleton]
  · rw [← hcallsExact.mem_ids, hcalls, List.mem_singleton]

end Classification

end MemberReach
