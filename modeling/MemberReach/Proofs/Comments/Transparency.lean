import MemberReach.Grammar.Rules
import MemberReach.Proofs.Comments.Typing
import MemberReach.Proofs.InnermostNodes
import MemberReach.Proofs.TreeOrder
import MemberReach.Proofs.Worklist

/-!
# Comments and what is reachable

Removing comments that nothing depends on changes no answer of a model: what the nodes that are
left denote, which seeds are found, and what is reachable from them. A comment that is taken by its
position can change all of that: in front of an expression in parentheses, it is typed in the place
of the expression.
-/

namespace MemberReach

open Cursor

/-- The place of a declaration and of its body. -/
def MethodBody.prune (drop : Nat → List Nat → Bool) (method : MethodBody) : MethodBody :=
  { method with
    declaration := method.declaration.prune (drop method.unit)
    body := method.body.map (Cursor.prune (drop method.unit)) }

namespace Model

variable {drop : Nat → List Nat → Bool} {units : List SourceUnit}

/-- The method declarations of a unit are found at their places. -/
theorem method_declarations_prune (drop : List Nat → Bool) (unit : SourceUnit) :
    methodDeclarations (unit.prune drop) = (methodDeclarations unit).map (Cursor.prune drop) := by
  rw [methodDeclarations, SourceUnit.root_prune, descendants_prune]
  exact filter_kind_prune_list _ (p := fun kind ↦ kind == .methodDeclaration) (by decide)

/-- The climb from the place of a node ends at the place where the climb from the node ends. -/
theorem climb_prune (drop : List Nat → Bool) (c : Cursor) (start stop : Nat) :
    (c.prune drop).climb start stop = (c.climb start stop).map (Cursor.prune drop) := by
  rw [climb, climb, ancestors_prune, ← List.map_cons, List.find?_map]
  congr 2
  funext d
  simp only [Function.comp_apply, named_prune, kind_prune, start_prune, stop_prune]

/-- The child around a piece of source is found at its place, unless it is removed. Then no child
that is left lies around the piece. -/
theorem child_around_prune (drop : List Nat → Bool) {c : Cursor} (h : c.node.wellFormed)
    (start stop : Nat) :
    (c.prune drop).childAround? start stop =
      ((c.childAround? start stop).filter fun d ↦ !d.isPruned drop).map (Cursor.prune drop) := by
  have hplace : ∀ d : Cursor,
      (d.prune drop).stopsBehind start stop = d.stopsBehind start stop := fun d ↦ by
    rw [stopsBehind, stopsBehind, stop_prune]
  rw [childAround?, childAround?, children_prune, pruneList, List.find?_map]
  simp only [Function.comp_def, hplace]
  cases hfirst : c.children.find? fun d ↦ d.stopsBehind start stop with
  | none =>
      rw [List.find?_eq_none.2 fun d hd ↦
        List.find?_eq_none.1 hfirst d (List.mem_filter.1 hd).1]
      rfl
  | some d =>
      obtain ⟨hd, before, after, hsplit, hbefore⟩ := List.find?_eq_some_iff_append.1 hfirst
      have hbefore : ∀ e ∈ before.filter fun e ↦ !e.isPruned drop, ¬ e.stopsBehind start stop :=
        fun e he ↦ by simpa using hbefore e (List.mem_filter.1 he).1
      rw [hsplit, List.filter_append, List.find?_append, List.find?_eq_none.2 hbefore,
        Option.none_or]
      cases hpruned : d.isPruned drop with
      | false =>
          rw [List.filter_cons_of_pos (by rw [hpruned]; rfl), List.find?_cons, hd,
            Option.map_some, Option.filter_some, Option.filter_some, start_prune]
          by_cases hstart : d.start ≤ start <;> simp [hstart, hpruned, Option.filter_some]
      | true =>
          rw [List.filter_cons_of_neg (by simp [hpruned])]
          -- what is left stands behind the comment, too late to lie around the piece
          have hlate : ∀ e ∈ after, start < e.start := by
            intro e he
            have hbeside := children_beside h
            rw [hsplit] at hbeside
            have := List.rel_of_pairwise_cons (List.pairwise_append.1 hbeside).2.1 he
            have := (stops_behind_iff.1 hd).2
            omega
          have hright : ((some d).filter (fun d ↦ decide (d.start ≤ start))).filter
              (fun d ↦ !d.isPruned drop) = none := by
            refine Option.filter_eq_none_iff.2 fun e he ↦ ?_
            obtain rfl := Option.some.inj (Option.filter_eq_some_iff.1 he).1
            simp [hpruned]
          rw [hright, Option.map_none]
          refine Option.filter_eq_none_iff.2 fun e he ↦ ?_
          obtain ⟨f, hf, rfl⟩ := Option.map_eq_some_iff.1 he
          have := hlate f (List.mem_filter.1 (List.mem_of_find?_eq_some hf)).1
          simpa [start_prune] using this

/-- The method declaration with some bytes is found at its place. -/
theorem method_at_prune (drop : List Nat → Bool) {unit : SourceUnit} (h : unit.tree.wellFormed)
    (start stop : Nat) :
    methodAt? (unit.prune drop) start stop =
      (methodAt? unit start stop).map (Cursor.prune drop) := by
  have hclimb : ∀ c, IsIn unit.tree c →
      ((c.prune drop).innermostAround start stop).climb start stop =
        ((c.innermostAround start stop).climb start stop).map (Cursor.prune drop) := by
    intro c hc
    induction hsize : c.node.size using Nat.strongRecOn generalizing c with
    | _ size ih =>
        have hchild := child_around_prune drop (hc.well_formed h) start stop
        cases haround : c.childAround? start stop with
        | none =>
            rw [haround] at hchild
            rw [innermost_of_none haround, innermost_of_none hchild, climb_prune]
        | some d =>
            have hd := mem_children_of_around haround
            rw [haround, Option.filter_some] at hchild
            by_cases hpruned : d.isPruned drop
            · -- the search ends at the comment, and the climb passes it
              have hnone : d.childAround? start stop = none := by
                rw [childAround?, children_of_is_pruned hpruned]
                rfl
              rw [hpruned] at hchild
              rw [innermost_of_none hchild, climb_prune, innermost_of_some haround,
                innermost_of_none hnone, ite_self,
                climb_of_not_method hd (by rw [kind_of_is_pruned hpruned]; decide)]
            · rw [Bool.eq_false_iff.2 hpruned] at hchild
              rw [innermost_of_some haround, innermost_of_some hchild, named_prune]
              split
              · exact ih _ (hsize ▸ size_lt_of_mem_children hd) d (hc.child hd) rfl
              · exact climb_prune drop d start stop
  rw [methodAt?, methodAt?, SourceUnit.root_prune]
  exact hclimb unit.root IsIn.root

/-- A unit of pruned units is a unit, pruned at its position. -/
theorem get_prune_units (i : Nat) :
    (pruneUnits drop units)[i]? = units[i]?.map (SourceUnit.prune (drop i)) :=
  List.getElem?_mapIdx

section Answers

variable (hunread : Unread drop units)

include hunread

/-- The symbol that a node denotes is the one that its place denotes. -/
theorem symbol_prune {i : Nat} {unit : SourceUnit} (hunit : units[i]? = some unit) {c : Cursor}
    (hc : IsIn unit.tree c) (hkept : c.isPruned (drop i) = false) :
    (ofUnits (pruneUnits drop units)).symbol? i (c.prune (drop i)) =
      (ofUnits units).symbol? i c := by
  have hlength : (ofUnits (pruneUnits drop units)).units.length = (ofUnits units).units.length :=
    List.length_mapIdx
  rw [symbol?, symbol?, hlength]
  split
  · exact Typing.resolve_prune (hunread.trees i unit hunit) (Registry.build_prune hunread)
      Typing.defaultLimit i hc hkept
  · rfl

/-- The registry of pruned units has the same methods. -/
theorem methods_prune :
    (ofUnits (pruneUnits drop units)).registry.methods = (ofUnits units).registry.methods := by
  have h := congrArg Registry.methods (Registry.build_prune hunread)
  exact h

/-- A method is found by its identity in the registry of pruned units. -/
theorem method_prune :
    (ofUnits (pruneUnits drop units)).registry.method? = (ofUnits units).registry.method? := by
  funext id
  rw [Registry.method?, methods_prune hunread, Registry.method?]

/-- The same types are declared in pruned units. -/
theorem is_declared_prune :
    (ofUnits (pruneUnits drop units)).registry.isDeclared =
      (ofUnits units).registry.isDeclared := by
  have h := congrArg Registry.isDeclared (Registry.build_prune hunread)
  rwa [Registry.is_declared_strip, Registry.is_declared_strip] at h

/-- The same seeds are found in pruned units. -/
theorem find_seed_prune (i : Nat) (name : String) :
    (ofUnits (pruneUnits drop units)).findSeed i name = (ofUnits units).findSeed i name := by
  unfold findSeed
  rw [method_prune hunread]
  simp only [ofUnits]
  rw [get_prune_units]
  cases hunit : units[i]? with
  | none => rfl
  | some unit =>
      have hname : (fun c ↦ declaredName? c == some name) ∘ Cursor.prune (drop i) =
          fun c ↦ declaredName? c == some name := by
        funext c
        rw [Function.comp_apply, declared_name_prune]
      simp only [Option.map_some]
      rw [method_declarations_prune, List.find?_map, hname]
      cases hfound : (methodDeclarations unit).find? fun c ↦ declaredName? c == some name with
      | none => rfl
      | some declaration =>
          obtain ⟨hmem, hkind⟩ := List.mem_filter.1 (List.mem_of_find?_eq_some hfound)
          simp only [Option.map_some]
          rw [Registry.method_identity_prune (hunread.trees i unit hunit)
            (IsIn.root.descendant hmem) (eq_of_beq hkind)]
          rfl

omit hunread in
/-- The declaration of a method stands in its unit. -/
theorem method_body_is_in {m : MethodSymbol} {method : MethodBody}
    (h : (ofUnits units).methodBody? m = some method) :
    ∃ unit, units[method.unit]? = some unit ∧ IsIn unit.tree method.declaration ∧
      method.body = method.declaration.body? := by
  simp only [methodBody?, ofUnits, Option.bind_eq_bind, Option.bind_eq_some_iff, Option.pure_def,
    Option.some.injEq] at h
  obtain ⟨decl, _, unit, hunit, declaration, hfound, rfl⟩ := h
  rw [methodAt?, climb] at hfound
  exact ⟨unit, hunit, IsIn.root.innermost.of_above (List.mem_of_find?_eq_some hfound), rfl⟩

omit hunread in
/-- The body of a declaration is a node of the tree. -/
theorem is_in_body {tree : Node} {c body : Cursor} (hc : IsIn tree c)
    (h : c.body? = some body) : IsIn tree body := by
  rcases Option.or_eq_some_iff.1 h with h | ⟨_, h⟩
  · exact hc.child (mem_children_of_child (Option.filter_eq_some_iff.1 h).1)
  · exact hc.child (mem_children_of_kind h)

/-- The body of a method is found at its place. -/
theorem method_body_prune (m : MethodSymbol) :
    (ofUnits (pruneUnits drop units)).methodBody? m =
      ((ofUnits units).methodBody? m).map (MethodBody.prune drop) := by
  unfold methodBody?
  rw [method_prune hunread]
  cases (ofUnits units).registry.method? m.id with
  | none => rfl
  | some decl =>
      simp only [ofUnits, Option.bind_eq_bind, Option.bind_some]
      rw [get_prune_units]
      cases hunit : units[decl.unit]? with
      | none => rfl
      | some unit =>
          have hmethod := method_at_prune (drop decl.unit)
            (hunread.trees decl.unit unit hunit).wellFormed decl.start decl.stop
          simp only [Option.map_some, Option.bind_some, hmethod]
          cases methodAt? unit decl.start decl.stop with
          | none => rfl
          | some declaration =>
              simp only [Option.map_some, Option.bind_some, body_prune]
              rfl

variable (external : TypeKey → Bool) (hidden : SymbolId → Bool)

/-- The same types count as declared in pruned units. -/
theorem resolver_is_declared_prune :
    ((ofUnits (pruneUnits drop units)).resolver external hidden).isDeclared =
      ((ofUnits units).resolver external hidden).isDeclared := by
  funext key
  simp only [resolver]
  rw [is_declared_prune hunread]

/-- The property that a node reads is the one that its place reads. -/
theorem read_prune {i : Nat} {unit : SourceUnit} (hunit : units[i]? = some unit) {c : Cursor}
    (hc : IsIn unit.tree c) (hkept : c.isPruned (drop i) = false) :
    Classification.read? ((ofUnits (pruneUnits drop units)).resolver external hidden) i
        (c.prune (drop i)) =
      Classification.read? ((ofUnits units).resolver external hidden) i c := by
  have hsymbol : ((ofUnits (pruneUnits drop units)).resolver external hidden).symbol? i
      (c.prune (drop i)) = ((ofUnits units).resolver external hidden).symbol? i c :=
    symbol_prune hunread hunit hc hkept
  unfold Classification.read?
  rw [kind_prune, is_callee_prune hc hkept, hsymbol, resolver_is_declared_prune hunread]
  rfl

/-- The method that a node calls is the one that its place calls. -/
theorem call_prune {i : Nat} {unit : SourceUnit} (hunit : units[i]? = some unit) {c : Cursor}
    (hc : IsIn unit.tree c) :
    Classification.call? ((ofUnits (pruneUnits drop units)).resolver external hidden) i
        (c.prune (drop i)) =
      Classification.call? ((ofUnits units).resolver external hidden) i c := by
  unfold Classification.call?
  rw [kind_prune, child_prune, resolver_is_declared_prune hunread]
  cases hfunction : c.child? .function with
  | none => rfl
  | some function =>
      have hsymbol : ((ofUnits (pruneUnits drop units)).resolver external hidden).symbol? i
          (function.prune (drop i)) =
            ((ofUnits units).resolver external hidden).symbol? i function :=
        symbol_prune hunread hunit (hc.child (mem_children_of_child hfunction))
          (not_pruned_of_child hfunction)
      rw [Option.map_some, Option.filter_some, Option.filter_some, kind_prune]
      cases hcallable : Classification.isCallable function.kind with
      | false => rfl
      | true => simp only [if_true, hsymbol]

/-- A body is classified as its place is. -/
theorem classify_prune {m : MethodSymbol} {method : MethodBody}
    (h : (ofUnits units).methodBody? m = some method) :
    Classification.classify ((ofUnits (pruneUnits drop units)).resolver external hidden)
        (method.prune drop) =
      Classification.classify ((ofUnits units).resolver external hidden) method := by
  obtain ⟨unit, hunit, hdeclaration, hbody⟩ := method_body_is_in h
  have hnodes : ((method.prune drop).body.map descendants).getD [] =
      pruneList (drop method.unit) ((method.body.map descendants).getD []) := by
    rw [MethodBody.prune]
    cases method.body with
    | none => rfl
    | some body => exact descendants_prune body
  have hin : ∀ d ∈ (method.body.map descendants).getD [], IsIn unit.tree d := by
    intro d hd
    rw [hbody] at hd
    cases hfound : method.declaration.body? with
    | none =>
        rw [hfound] at hd
        cases hd
    | some body =>
        rw [hfound] at hd
        exact (is_in_body hdeclaration hfound).descendant hd
  -- a comment neither reads nor calls, so leaving it out of the list takes nothing away
  have hreads := filter_map_prune_list (fun d hd hkept ↦
      read_prune hunread external hidden hunit (hin d hd) hkept)
    fun d _ hpruned ↦ by simp [Classification.read?, kind_of_is_pruned hpruned]
  have hcalls := filter_map_prune_list (fun d hd _ ↦
      call_prune hunread external hidden hunit (hin d hd))
    fun d _ hpruned ↦ by simp [Classification.call?, kind_of_is_pruned hpruned]
  unfold Classification.classify
  rw [hnodes, MethodBody.prune]
  simp only [hreads, hcalls]

/-- The same reads and calls are found in the bodies of pruned units. -/
theorem resolver_alike :
    Closure.Alike ((ofUnits (pruneUnits drop units)).resolver external hidden)
      ((ofUnits units).resolver external hidden) := by
  intro m
  have hfind : ∀ model : Model, (model.resolver external hidden).methodBody? m =
      if hidden m.id then none else model.methodBody? m := fun _ ↦ rfl
  rw [hfind, hfind]
  split
  · rw [Option.map_none, Option.map_none]
  · rw [method_body_prune hunread, Option.map_map]
    cases hbody : (ofUnits units).methodBody? m with
    | none => rw [Option.map_none, Option.map_none]
    | some method =>
        rw [Option.map_some, Option.map_some, Function.comp_apply,
          classify_prune hunread external hidden hbody]

/-- The same is reachable from a seed in pruned units. -/
theorem closure_prune (order : WorklistOrder) (seed : MethodSymbol) :
    (ofUnits (pruneUnits drop units)).closure external hidden order seed =
      (ofUnits units).closure external hidden order seed := by
  rw [closure, closure, Registry.methodCount, methods_prune hunread]
  exact Closure.build_alike (resolver_alike hunread external hidden) order _ seed

end Answers

end Model

namespace Commented

/-- A project of one file. -/
def project (source : String) : List SourceUnit :=
  [.create ⟨"A.cs"⟩ none source (Node.ofSource source)]

/-- Comments in a base list, between members, parameters, statements and arguments, inside a member
access and behind an expression in parentheses. -/
def unreadSource : String :=
  "class B \x7b \x7d class A : /*1*/ B \x7b A a; /*2*/ void M(A x /*3*/) " ++
    "\x7b /*4*/ var y = (x /*5*/); /*6*/ y /*7*/ .M(a /*8*/); \x7d \x7d"

/-- A comment in front of an expression in parentheses. -/
def readSource : String :=
  "class A \x7b A a; void N() \x7b \x7d void M() \x7b (/*c*/ a).N(); \x7d \x7d"

end Commented

namespace Model

open Commented

variable {drop : Nat → List Nat → Bool} {units : List SourceUnit}

/-- A project gives the same answers without some of its comments: on what the nodes that are left
denote, on which seeds are found, and on what is reachable from a seed. -/
structure SameAnswers (drop : Nat → List Nat → Bool) (units : List SourceUnit) : Prop where
  symbols : ∀ i unit, units[i]? = some unit → ∀ c, IsIn unit.tree c →
    c.isPruned (drop i) = false →
      IsIn (unit.prune (drop i)).tree (c.prune (drop i)) ∧
        (ofUnits (pruneUnits drop units)).symbol? i (c.prune (drop i)) =
          (ofUnits units).symbol? i c
  seeds : ∀ i name,
    (ofUnits (pruneUnits drop units)).findSeed i name = (ofUnits units).findSeed i name
  closures : ∀ external hidden order seed,
    (ofUnits (pruneUnits drop units)).closure external hidden order seed =
      (ofUnits units).closure external hidden order seed

/-- A project gives the same answers without comments that nothing depends on. -/
theorem same_answers_of_unread (hunread : Unread drop units) : SameAnswers drop units := by
  refine ⟨fun i unit hunit c hc hkept ↦ ⟨?_, ?_⟩, ?_, ?_⟩
  · exact is_in_prune_iff.2 ⟨c, hc, hkept, rfl⟩
  · exact symbol_prune hunread hunit hc hkept
  · exact find_seed_prune hunread
  · exact closure_prune hunread

/-- The comments of the sample can all be removed. -/
theorem same_answers_of_unread_sample :
    Unread (fun _ _ ↦ true) (project unreadSource) ∧
      SameAnswers (fun _ _ ↦ true) (project unreadSource) := by
  have hunread : Unread (fun _ _ ↦ true) (project unreadSource) := by decide +kernel
  exact ⟨hunread, same_answers_of_unread hunread⟩

/-- A comment in front of an expression in parentheses hides which method is called on it. -/
theorem comment_in_parentheses_read :
    (Node.ofSource readSource).wellFormed = true ∧
      ¬ SameAnswers (fun _ _ ↦ true) (project readSource) := by
  refine ⟨by decide +kernel, fun h ↦ ?_⟩
  have hsymbols : ∀ c ∈ reach [] (Node.ofSource readSource),
      c.isPruned (fun _ ↦ true) = false →
        (ofUnits (pruneUnits (fun _ _ ↦ true) (project readSource))).symbol? 0
            (c.prune fun _ ↦ true) =
          (ofUnits (project readSource)).symbol? 0 c := by
    intro c hc hkept
    exact (h.symbols 0 _ rfl c (is_in_iff_mem_reach.2 hc) hkept).2
  revert hsymbols
  decide +kernel

end Model

end MemberReach
