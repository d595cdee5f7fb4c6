import Mathlib.Data.Set.Basic
import Mathlib.Order.Bounds.Defs
import MemberReach.Grammar.Rules
import MemberReach.Proofs.Worklist

/-!
# A closure is what its seed reaches

`Explored` says what the turns made so far have found: only reachable methods are discovered,
the calls of the resolved methods are all discovered, and properties and skipped methods are
those of the resolved ones. Every turn keeps it (`Explored.step`), and when the worklist is
empty the resolved methods are closed under calls, so they are all that the seed reaches
(`mem_visited_iff`). The main results are `closure_exact`, which describes the closure of a
method of a project, and `closure_run_bounded`, which describes the run that computes it.
-/

namespace MemberReach

namespace Closure.State

/-- What the turns made so far have found. -/
structure Explored (resolver : Resolver) (seed : MethodSymbol) (s : State) : Prop where
  reachable : ∀ m ∈ s.resolved ++ s.pending, resolver.Reaches seed m
  seedKnown : seed.id ∈ s.discovered
  callsKnown : ∀ m ∈ s.resolved, ∀ c, resolver.Calls m c → c.id ∈ s.discovered
  properties : ∀ p, p ∈ s.properties.toList ↔ ∃ m ∈ s.resolved, resolver.Reads m p
  skipped : ∀ m, m ∈ s.skipped.toList ↔ m ∈ s.resolved ∧ resolver.methodBody? m = none
  classified :
    s.bodiesClassified = s.resolved.countP fun m ↦ (resolver.methodBody? m).isSome

variable {resolver : Resolver} {order : WorklistOrder} {r : Registry} {seed : MethodSymbol}

/-- At the start only the seed is known, and nothing is found. -/
theorem Explored.initial (resolver : Resolver) (seed : MethodSymbol) :
    Explored resolver seed (.initial seed) where
  reachable m hm := by
    rw [List.mem_singleton.1 hm]
    exact Relation.ReflTransGen.refl
  seedKnown := List.mem_singleton.2 rfl
  callsKnown m hm := by cases hm
  properties p := by simp [State.initial, SymbolSet.empty]
  skipped m := by simp [State.initial, SymbolSet.empty]
  classified := rfl

/-- A turn that finds no declaration keeps what has been explored. -/
theorem Explored.skip {s : State} {m : MethodSymbol} {rest : List MethodSymbol}
    (hs : Explored resolver seed s) (hdeclared : Declared r s)
    (hnext : s.next? order = some (m, rest)) (hbody : resolver.methodBody? m = none) :
    Explored resolver seed ((s.take m rest).skip m) := by
  have hperm := (next_perm hnext).append_left s.resolved
  have hm : r.Declares m := hdeclared m (hperm.mem_iff.2 (by simp))
  have hskipped : ∀ d ∈ s.skipped.toList, r.Declares d := fun d hd ↦
    hdeclared d (List.mem_append_left _ ((hs.skipped d).1 hd).1)
  have hcalls : ∀ c, ¬ resolver.Calls m c := by
    rintro c ⟨body, hfound, _⟩
    rw [hbody] at hfound
    cases hfound
  have hreads : ∀ p, ¬ resolver.Reads m p := by
    rintro p ⟨body, hfound, _⟩
    rw [hbody] at hfound
    cases hfound
  refine ⟨?_, hs.seedKnown, ?_, ?_, ?_, ?_⟩
  · intro d hd
    refine hs.reachable d (hperm.mem_iff.2 ?_)
    simpa [State.skip, take] using hd
  · intro d hd c hc
    rcases List.mem_append.1 hd with hd | hd
    · exact hs.callsKnown d hd c hc
    · exact False.elim (hcalls c (List.mem_singleton.1 hd ▸ hc))
  · intro p
    simp only [State.skip, take, hs.properties, List.mem_append, List.mem_singleton]
    constructor
    · rintro ⟨d, hd, hp⟩
      exact ⟨d, Or.inl hd, hp⟩
    · rintro ⟨d, hd | rfl, hp⟩
      · exact ⟨d, hd, hp⟩
      · exact False.elim (hreads p hp)
  · intro d
    simp only [State.skip, take, List.mem_append, List.mem_singleton]
    rw [SymbolSet.mem_insert Registry.declares_unique hskipped hm, hs.skipped]
    constructor
    · rintro (rfl | ⟨hd, hnone⟩)
      · exact ⟨Or.inr rfl, hbody⟩
      · exact ⟨Or.inl hd, hnone⟩
    · rintro ⟨hd | rfl, hnone⟩
      · exact Or.inr ⟨hd, hnone⟩
      · exact Or.inl rfl
  · simp [State.skip, take, hs.classified, hbody]

/-- A turn that classifies a body keeps what has been explored. -/
theorem Explored.absorb {s : State} {m : MethodSymbol} {rest fresh : List MethodSymbol}
    {body : MethodBody} (hground : resolver.Grounded r) (hs : Explored resolver seed s)
    (hnext : s.next? order = some (m, rest)) (hbody : resolver.methodBody? m = some body)
    (hfresh : Fresh s.discovered (Classification.classify resolver body).calls.toList fresh) :
    Explored resolver seed
      { discovered := s.discovered ++ fresh.map MethodSymbol.id
        pending := rest ++ fresh
        resolved := s.resolved ++ [m]
        properties := s.properties.insertAll (Classification.classify resolver body).reads.toList
        skipped := s.skipped
        iterations := s.iterations + 1
        bodiesClassified := s.bodiesClassified + 1 } := by
  have hperm := (next_perm hnext).append_left s.resolved
  have hm : resolver.Reaches seed m := hs.reachable m (hperm.mem_iff.2 (by simp))
  have hcalls : ∀ c, resolver.Calls m c ↔
      c ∈ (Classification.classify resolver body).calls.toList := by
    simp [Resolver.Calls, hbody]
  have hreads : ∀ p, resolver.Reads m p ↔
      p ∈ (Classification.classify resolver body).reads.toList := by
    simp [Resolver.Reads, hbody]
  have hproperties : ∀ p ∈ s.properties.toList, r.DeclaresProperty p := by
    intro p hp
    obtain ⟨d, _, hread⟩ := (hs.properties p).1 hp
    exact hground.reads hread
  refine ⟨?_, List.mem_append_left _ hs.seedKnown, ?_, ?_, ?_, ?_⟩
  · intro d hd
    simp only [List.mem_append, List.mem_singleton] at hd
    rcases hd with (hd | rfl) | hd | hd
    · exact hs.reachable d (List.mem_append_left _ hd)
    · exact hm
    · exact hs.reachable d (hperm.mem_iff.2 (by simp [hd]))
    · exact hm.tail ((hcalls d).2 (hfresh.called d hd))
  · intro d hd c hc
    rcases List.mem_append.1 hd with hd | hd
    · exact List.mem_append_left _ (hs.callsKnown d hd c hc)
    · rw [List.mem_singleton.1 hd, hcalls] at hc
      exact hfresh.covers c hc
  · intro p
    rw [SymbolSet.mem_insert_all Registry.declares_property_unique hproperties
      (fun q hq ↦ hground.reads ((hreads q).2 hq)), hs.properties, ← hreads]
    constructor
    · rintro (⟨d, hd, hp⟩ | hp)
      · exact ⟨d, List.mem_append_left _ hd, hp⟩
      · exact ⟨m, by simp, hp⟩
    · rintro ⟨d, hd, hp⟩
      rcases List.mem_append.1 hd with hd | hd
      · exact Or.inl ⟨d, hd, hp⟩
      · exact Or.inr (List.mem_singleton.1 hd ▸ hp)
  · intro d
    rw [hs.skipped, List.mem_append, List.mem_singleton]
    constructor
    · exact fun ⟨hd, hnone⟩ ↦ ⟨Or.inl hd, hnone⟩
    · rintro ⟨hd | rfl, hnone⟩
      · exact ⟨hd, hnone⟩
      · rw [hbody] at hnone
        cases hnone
  · simp [hs.classified, hbody]

/-- A turn keeps what has been explored. -/
theorem Explored.step {s t : State} (hground : resolver.Grounded r)
    (hdeclared : Declared r s) (hs : Explored resolver seed s)
    (h : s.step? resolver order = some t) : Explored resolver seed t := by
  obtain ⟨m, rest, hnext, ⟨hbody, rfl⟩ | ⟨body, fresh, hbody, hfresh, rfl⟩⟩ := step_cases h
  · exact hs.skip hdeclared hnext hbody
  · exact hs.absorb hground hnext hbody hfresh

/-- What has been explored is as `Explored` says after any number of turns. -/
theorem Explored.run (hground : resolver.Grounded r) (order : WorklistOrder)
    (hseed : r.Declares seed) (turns : Nat) :
    Explored resolver seed (State.run resolver order turns (.initial seed)) := by
  refine (run_preserves (P := fun s ↦ Declared r s ∧ Explored resolver seed s) ?_ turns _
    ⟨Declared.initial hseed, Explored.initial resolver seed⟩).2
  intro s t hs hstep
  exact ⟨hs.1.step hground hstep, hs.2.step hground hs.1 hstep⟩

end Closure.State

namespace Closure

open State

variable {resolver : Resolver} {r : Registry} {seed : MethodSymbol}

/-! ### Finished closures -/

/-- At the end of a run the discovered identities are those of the resolved methods. -/
theorem known_at_end (hground : resolver.Grounded r) (order : WorklistOrder)
    (hseed : r.Declares seed) {id : SymbolId}
    (h : id ∈ (run resolver order r.methodCount (.initial seed)).discovered) :
    ∃ m ∈ (build resolver order r.methodCount seed).visited, m.id = id := by
  have hpending := step_eq_none_iff.1 (run_ends hground order hseed)
  have hsplit := (Frontier.run resolver order r.methodCount seed).split
  rw [hpending, List.append_nil] at hsplit
  exact List.mem_map.1 (hsplit.mem_iff.2 h)

/-- Every visited method is declared. -/
theorem visited_declared (hground : resolver.Grounded r) (order : WorklistOrder)
    (hseed : r.Declares seed) {m : MethodSymbol}
    (h : m ∈ (build resolver order r.methodCount seed).visited) : r.Declares m :=
  Declared.run hground order hseed r.methodCount m (List.mem_append_left _ h)

/-- The visited methods are those that the seed reaches. -/
theorem mem_visited_iff (hground : resolver.Grounded r) (order : WorklistOrder)
    (hseed : r.Declares seed) {m : MethodSymbol} :
    m ∈ (build resolver order r.methodCount seed).visited ↔ resolver.Reaches seed m := by
  have hexplored := Explored.run hground order hseed r.methodCount
  constructor
  · exact fun h ↦ hexplored.reachable m (List.mem_append_left _ h)
  · -- the visited methods contain the seed and are closed under calls
    intro h
    induction h with
    | refl =>
        obtain ⟨d, hd, hid⟩ := known_at_end hground order hseed hexplored.seedKnown
        rwa [Registry.declares_unique (visited_declared hground order hseed hd) hseed hid] at hd
    | tail _ hcall ih =>
        obtain ⟨d, hd, hid⟩ :=
          known_at_end hground order hseed (hexplored.callsKnown _ ih _ hcall)
        rwa [Registry.declares_unique (visited_declared hground order hseed hd)
          (hground.calls hcall) hid] at hd

/-- A closure holds the methods that were visited. -/
theorem mem_methods_iff (hground : resolver.Grounded r) (order : WorklistOrder)
    (hseed : r.Declares seed) {m : MethodSymbol} :
    m ∈ (build resolver order r.methodCount seed).methods.toList ↔
      m ∈ (build resolver order r.methodCount seed).visited :=
  SymbolSet.mem_of_list Registry.declares_unique
    fun _ hd ↦ visited_declared hground order hseed hd

/-- A closure holds the properties that reachable methods read. -/
theorem mem_properties_iff (hground : resolver.Grounded r) (order : WorklistOrder)
    (hseed : r.Declares seed) {p : PropertySymbol} :
    p ∈ (build resolver order r.methodCount seed).properties.toList ↔
      ∃ m, resolver.Reaches seed m ∧ resolver.Reads m p := by
  refine ((Explored.run hground order hseed r.methodCount).properties p).trans ?_
  exact exists_congr fun m ↦ and_congr_left fun _ ↦ mem_visited_iff hground order hseed

/-- A closure skips the reachable methods whose declaration is not found. -/
theorem mem_skipped_iff (hground : resolver.Grounded r) (order : WorklistOrder)
    (hseed : r.Declares seed) {m : MethodSymbol} :
    m ∈ (build resolver order r.methodCount seed).skipped.toList ↔
      resolver.Reaches seed m ∧ resolver.methodBody? m = none := by
  refine ((Explored.run hground order hseed r.methodCount).skipped m).trans ?_
  exact and_congr_left fun _ ↦ mem_visited_iff hground order hseed

/-- No identity is visited twice. -/
theorem visited_nodup (resolver : Resolver) (order : WorklistOrder) (turns : Nat)
    (seed : MethodSymbol) :
    ((build resolver order turns seed).visited.map MethodSymbol.id).Nodup := by
  have hnodup := (Frontier.run resolver order turns seed).nodup_ids
  rw [List.map_append] at hnodup
  exact hnodup.of_append_left

/-- A closure has as many methods as turns were made. -/
theorem iterations_eq_size (hground : resolver.Grounded r) (order : WorklistOrder)
    (hseed : r.Declares seed) :
    (build resolver order r.methodCount seed).iterations =
      (build resolver order r.methodCount seed).methods.size := by
  have hnodup := (visited_nodup resolver order r.methodCount seed).of_map
  rw [SymbolSet.size_eq_length hnodup fun m ↦ mem_methods_iff hground order hseed]
  exact (Frontier.run resolver order r.methodCount seed).counted

/-- Every method of a closure is either classified or skipped. -/
theorem classified_add_skipped (hground : resolver.Grounded r) (order : WorklistOrder)
    (hseed : r.Declares seed) :
    (build resolver order r.methodCount seed).bodiesClassified +
        (build resolver order r.methodCount seed).skipped.size =
      (build resolver order r.methodCount seed).methods.size := by
  have hexplored := Explored.run hground order hseed r.methodCount
  have hnodup := (visited_nodup resolver order r.methodCount seed).of_map
  have hskipped : (build resolver order r.methodCount seed).skipped.size =
      (build resolver order r.methodCount seed).visited.countP
        fun m ↦ ¬ (resolver.methodBody? m).isSome := by
    rw [List.countP_eq_length_filter]
    refine SymbolSet.size_eq_length (hnodup.filter _) fun m ↦ ?_
    rw [List.mem_filter, decide_eq_true_iff, Option.not_isSome_iff_eq_none]
    exact hexplored.skipped m
  rw [SymbolSet.size_eq_length hnodup fun m ↦ mem_methods_iff hground order hseed, hskipped]
  calc
    _ = _ := congrArg (· + _) hexplored.classified
    _ = (build resolver order r.methodCount seed).visited.length :=
      (List.length_eq_countP_add_countP _).symm

/-! ### Closures of a project -/

/-- The identities in a set are closed under calls: a method whose identity is in the set calls
only methods whose identities are. -/
def ClosedUnderCalls (resolver : Resolver) (ids : Set SymbolId) : Prop :=
  ∀ m c, m.id ∈ ids → resolver.Calls m c → c.id ∈ ids

/-- A closure is exactly the part of the call graph that the seed reaches. By identity its methods
are the least set that holds the seed and is closed under calls; its properties are those that
these methods read; and it skips those of them whose declaration is not found. -/
structure Exact (resolver : Resolver) (seed : MethodSymbol) (closure : Closure) : Prop where
  least : IsLeast {ids | seed.id ∈ ids ∧ ClosedUnderCalls resolver ids}
    {id | closure.methods.contains id}
  methods : ∀ m, m ∈ closure.methods.toList ↔ resolver.Reaches seed m
  properties : ∀ p, p ∈ closure.properties.toList ↔
    ∃ m ∈ closure.methods.toList, resolver.Reads m p
  skipped : ∀ m, m ∈ closure.skipped.toList ↔
    m ∈ closure.methods.toList ∧ resolver.methodBody? m = none

/-- The identities of the reachable methods are the least closed set around the seed, if bodies are
found by identity. -/
theorem reachable_least (hbody : ∀ a b : MethodSymbol, a.id = b.id →
      resolver.methodBody? a = resolver.methodBody? b) (seed : MethodSymbol) :
    IsLeast {ids | seed.id ∈ ids ∧ ClosedUnderCalls resolver ids}
      {id | ∃ m, resolver.Reaches seed m ∧ m.id = id} := by
  refine ⟨⟨⟨seed, Relation.ReflTransGen.refl, rfl⟩, ?_⟩, ?_⟩
  · rintro m c ⟨d, hd, hid⟩ ⟨body, hfound, hc⟩
    exact ⟨c, hd.tail ⟨body, (hbody d m hid).trans hfound, hc⟩, rfl⟩
  · rintro ids ⟨hseed, hclosed⟩ id ⟨m, hm, rfl⟩
    induction hm with
    | refl => exact hseed
    | tail _ hcall ih => exact hclosed _ _ ih hcall

/-- The run of a worklist that computes a closure. It ends after `iterations` turns, no earlier and
no later, and the closure is what it has found then. In each turn a body is looked up, never of
the same method twice, and of exactly the methods of the closure. After any number of turns the
resolved methods are discovered and the waiting methods are, each once, the discovered ones that
are not resolved. There are at most `bound` turns, and all but the skipped methods are
classified. -/
structure RunsWithin (resolver : Resolver) (order : WorklistOrder) (seed : MethodSymbol)
    (bound : Nat) (closure : Closure) : Prop where
  ended : ∀ turns, (run resolver order turns (.initial seed)).step? resolver order = none ↔
    closure.iterations ≤ turns
  result : (run resolver order closure.iterations (.initial seed)).result = closure
  lookedUp : ∀ turns, closure.visited[turns]? =
    ((run resolver order turns (.initial seed)).next? order).map Prod.fst
  nodup : (closure.visited.map MethodSymbol.id).Nodup
  visited : ∀ m, m ∈ closure.visited ↔ m ∈ closure.methods.toList
  resolved : ∀ turns,
    (run resolver order turns (.initial seed)).resolved.map MethodSymbol.id ⊆
      (run resolver order turns (.initial seed)).discovered
  pendingOnce : ∀ turns,
    ((run resolver order turns (.initial seed)).pending.map MethodSymbol.id).Nodup
  pending : ∀ turns id,
    id ∈ (run resolver order turns (.initial seed)).pending.map MethodSymbol.id ↔
      id ∈ (run resolver order turns (.initial seed)).discovered ∧
        id ∉ (run resolver order turns (.initial seed)).resolved.map MethodSymbol.id
  iterations : closure.iterations = closure.methods.size
  bounded : closure.iterations ≤ bound
  skippedLe : closure.skipped.size ≤ closure.methods.size
  classified : closure.bodiesClassified = closure.methods.size - closure.skipped.size

/-- The run that builds a closure under a grounded resolver has at most one turn for each declared
method. -/
theorem build_runs_within (hground : resolver.Grounded r) (order : WorklistOrder)
    (hseed : r.Declares seed) :
    RunsWithin resolver order seed r.methodCount (build resolver order r.methodCount seed) := by
  have hend := run_ends hground order hseed
  have hcounted : (build resolver order r.methodCount seed).iterations =
      (build resolver order r.methodCount seed).visited.length :=
    (Frontier.run resolver order r.methodCount seed).counted
  have hlookedUp := resolved_get_run hend
  have hended : ∀ turns, (run resolver order turns (.initial seed)).step? resolver order = none ↔
      (build resolver order r.methodCount seed).iterations ≤ turns := by
    intro turns
    rw [step_eq_none_iff, ← next_eq_none_iff, ← Option.map_eq_none_iff, ← hlookedUp,
      List.getElem?_eq_none_iff, hcounted]
    rfl
  have hbounded : (build resolver order r.methodCount seed).iterations ≤ r.methodCount :=
    (hended r.methodCount).1 hend
  have hsizes := classified_add_skipped hground order hseed
  refine
    { ended := hended
      result := ?_
      lookedUp := hlookedUp
      nodup := visited_nodup resolver order r.methodCount seed
      visited := fun m ↦ (mem_methods_iff hground order hseed).symm
      resolved := fun turns ↦ (Frontier.run resolver order turns seed).resolved_subset
      pendingOnce := fun turns ↦ ?_
      pending := fun turns ↦ (Frontier.run resolver order turns seed).mem_pending_iff
      iterations := iterations_eq_size hground order hseed
      bounded := hbounded
      skippedLe := by omega
      classified := by omega }
  · exact congrArg State.result (run_eq_of_le ((hended _).2 (Nat.le_refl _)) hbounded).symm
  · have hnodup := (Frontier.run resolver order turns seed).nodup_ids
    rw [List.map_append] at hnodup
    exact hnodup.of_append_right

end Closure

/-! ### A small project -/

namespace Sample

/-- Two methods that call each other, an overload, and a property that is read. -/
def source : String :=
  "class A \x7b string S \x7b get; \x7d void M() \x7b N(); N(this.S); \x7d " ++
    "void N() \x7b M(); \x7d void N(string s) \x7b \x7d \x7d"

/-- A project of one file. -/
def units : List SourceUnit :=
  [.create ⟨"A.cs"⟩ none source (Node.ofSource source)]

/-- The first method of the file. -/
def seed : MethodSymbol :=
  { id := .method ⟨"A"⟩ "M" []
    ownerName := "A"
    returnType := "void"
    parameters := []
    location := ⟨"A.cs", 1, 34⟩ }

/-- The first method of the file is found by its name. -/
theorem seed_found : (Model.ofUnits units).findSeed 0 "M" = .ok seed := by
  have h : ((Model.ofUnits units).findSeed 0 "M").toOption = some seed := by decide +kernel
  cases hfound : (Model.ofUnits units).findSeed 0 "M" with
  | error e =>
      rw [hfound] at h
      cases h
  | ok m =>
      rw [hfound] at h
      exact congrArg Except.ok (Option.some.inj h)

end Sample

namespace Model

open Closure

variable (units : List SourceUnit) (external : TypeKey → Bool) (hidden : SymbolId → Bool)
  (order : WorklistOrder)

/-- A model finds the body of a method by its identity. -/
theorem method_body_of_id (model : Model) {a b : MethodSymbol} (h : a.id = b.id) :
    (model.resolver external hidden).methodBody? a =
      (model.resolver external hidden).methodBody? b := by
  simp only [resolver, methodBody?, h]

/-- The closure of a method of a project is what the method reaches: nothing reachable is missing
and nothing else is there, whatever is external or hidden and in whichever order methods leave
the worklist. -/
theorem closure_exact {unitId : Nat} {name : String} {seed : MethodSymbol}
    (hseed : (ofUnits units).findSeed unitId name = .ok seed) :
    Exact ((ofUnits units).resolver external hidden) seed
      ((ofUnits units).closure external hidden order seed) := by
  have hground := resolver_grounded (ofUnits units) external hidden
  have hdeclared := find_seed_declared hseed
  have hmethods : ∀ m, m ∈ ((ofUnits units).closure external hidden order seed).methods.toList ↔
      ((ofUnits units).resolver external hidden).Reaches seed m := fun m ↦
    (mem_methods_iff hground order hdeclared).trans (mem_visited_iff hground order hdeclared)
  refine ⟨?_, hmethods, fun p ↦ ?_, fun m ↦ ?_⟩
  · have hids : {id | ((ofUnits units).closure external hidden order seed).methods.contains id} =
        {id | ∃ m, ((ofUnits units).resolver external hidden).Reaches seed m ∧ m.id = id} := by
      ext id
      simp only [SymbolSet.contains, List.any_eq_true, beq_iff_eq, Set.mem_ofPred_eq, hmethods]
      rfl
    rw [hids]
    exact reachable_least (fun a b ↦ method_body_of_id external hidden (ofUnits units)) seed
  · simp only [hmethods]
    exact mem_properties_iff hground order hdeclared
  · rw [hmethods]
    exact mem_skipped_iff hground order hdeclared

/-- A method that calls itself through another one, with one of its callees hidden. -/
theorem closure_exact_sample :
    (ofUnits Sample.units).findSeed 0 "M" = .ok Sample.seed ∧
      Exact
        ((ofUnits Sample.units).resolver (fun _ ↦ false) fun id ↦ id.parameterTypes == ["string"])
        Sample.seed
        ((ofUnits Sample.units).closure (fun _ ↦ false) (fun id ↦ id.parameterTypes == ["string"])
          .lifo Sample.seed) :=
  ⟨Sample.seed_found, closure_exact _ _ _ _ Sample.seed_found⟩

/-- The closure of a method of a project takes one turn for each of its methods, hence at most one
for each declared method, and looks up no body twice. -/
theorem closure_run_bounded {unitId : Nat} {name : String} {seed : MethodSymbol}
    (hseed : (ofUnits units).findSeed unitId name = .ok seed) :
    RunsWithin ((ofUnits units).resolver external hidden) order seed
      (ofUnits units).registry.methodCount
      ((ofUnits units).closure external hidden order seed) :=
  build_runs_within (resolver_grounded (ofUnits units) external hidden) order
    (find_seed_declared hseed)

/-- Three declared methods bound the run that closes over the first of them. -/
theorem closure_run_bounded_sample :
    (ofUnits Sample.units).findSeed 0 "M" = .ok Sample.seed ∧
      RunsWithin
        ((ofUnits Sample.units).resolver (fun _ ↦ false) fun id ↦ id.parameterTypes == ["string"])
        .lifo Sample.seed (ofUnits Sample.units).registry.methodCount
        ((ofUnits Sample.units).closure (fun _ ↦ false) (fun id ↦ id.parameterTypes == ["string"])
          .lifo Sample.seed) :=
  ⟨Sample.seed_found, closure_run_bounded _ _ _ _ Sample.seed_found⟩

end Model

end MemberReach
