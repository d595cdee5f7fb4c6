import MemberReach.Proofs.ReadsAndCalls
import MemberReach.Proofs.Reachability

/-!
# Closures with less in scope

Declaring more types external and hiding more methods takes edges out of the call graph and bodies
out of reach. `Resolver.Narrows` says how the answers of such a resolver differ, and
`resolver_restricts` that it finds fewer calls and reads. Fewer calls reach fewer methods, and a
closure is what its seed reaches, so `closure_antitone` follows for any two orders of the worklist:
no method is reached on a path that was not there before. The theorem also says that members of
external types stay out of a closure; only the seed, which nothing has to call, may be one.
-/

namespace MemberReach

namespace Resolver

/-- A resolver that gives the answers of another one, except that fewer types are declared and fewer
bodies are found. -/
structure Narrows (less more : Resolver) : Prop where
  symbol : less.symbol? = more.symbol?
  target : less.isTarget = more.isTarget
  declared : ∀ key, less.isDeclared key → more.isDeclared key
  body : ∀ m body, less.methodBody? m = some body → more.methodBody? m = some body

/-- A resolver finds some of the calls and reads of another one, and no others. -/
structure Restricts (less more : Resolver) : Prop where
  calls : ∀ m c, less.Calls m c → more.Calls m c
  reads : ∀ m p, less.Reads m p → more.Reads m p

variable {less more : Resolver}

/-- A body reads no more if less is answered about it. -/
theorem Narrows.body_reads (h : Narrows less more) {method : MethodBody} {p : PropertySymbol}
    (hread : method.Reads less p) : method.Reads more p := by
  obtain ⟨c, hc, hkind, hfunction, hsymbol, htarget, howner⟩ := hread
  rw [h.symbol] at hsymbol
  rw [h.target] at htarget
  exact ⟨c, hc, hkind, hfunction, hsymbol, htarget, h.declared _ howner⟩

/-- A body calls no more if less is answered about it. -/
theorem Narrows.body_calls (h : Narrows less more) {method : MethodBody} {m : MethodSymbol}
    (hcalled : method.Calls less m) : method.Calls more m := by
  obtain ⟨call, f, hcall, hfunction, hkind, hsymbol, howner⟩ := hcalled
  rw [h.symbol] at hsymbol
  exact ⟨call, f, hcall, hfunction, hkind, hsymbol, h.declared _ howner⟩

/-- What is reached through fewer calls is reached through more. -/
theorem Restricts.reaches (h : Restricts less more) {a b : MethodSymbol}
    (hreach : less.Reaches a b) : more.Reaches a b :=
  Relation.ReflTransGen.mono h.calls a b hreach

end Resolver

namespace Closure

/-- The methods and properties of a closure are all in another one, with the same fields. -/
structure Within (less more : Closure) : Prop where
  methods : less.methods.toList ⊆ more.methods.toList
  properties : less.properties.toList ⊆ more.properties.toList

/-- No member of an external type is in a closure, neither reached nor skipped, unless it is the
seed. -/
structure WithoutExternal (external : TypeKey → Bool) (seed : MethodSymbol) (closure : Closure) :
    Prop where
  methods : ∀ m ∈ closure.methods.toList, external m.id.owner → m = seed
  properties : ∀ p ∈ closure.properties.toList, ¬ external p.id.owner
  skipped : ∀ m ∈ closure.skipped.toList, external m.id.owner → m = seed

end Closure

namespace Model

variable {model : Model} {external external' : TypeKey → Bool} {hidden hidden' : SymbolId → Bool}

/-! ### Bodies of a project -/

/-- A classified body holds each property that it reads, because identities determine what nodes
denote. -/
theorem mem_reads_iff {method : MethodBody} {p : PropertySymbol} :
    p ∈ (Classification.classify (model.resolver external hidden) method).reads.toList ↔
      method.Reads (model.resolver external hidden) p := by
  refine (SymbolSet.mem_of_list (P := model.registry.DeclaresProperty)
    Registry.declares_property_unique ?_).trans Classification.mem_reads
  intro q hq
  obtain ⟨c, _, _, _, hsymbol, _⟩ := Classification.mem_reads.1 hq
  exact symbol_declared hsymbol

/-- A classified body holds each method that it calls. -/
theorem mem_calls_iff {method : MethodBody} {m : MethodSymbol} :
    m ∈ (Classification.classify (model.resolver external hidden) method).calls.toList ↔
      method.Calls (model.resolver external hidden) m := by
  refine (SymbolSet.mem_of_list (P := model.registry.Declares)
    Registry.declares_unique ?_).trans Classification.mem_calls
  intro d hd
  obtain ⟨call, f, _, _, _, hsymbol, _⟩ := Classification.mem_calls.1 hd
  exact symbol_declared hsymbol

/-- A type that is declared for the resolver of a model is not external. -/
theorem not_external {key : TypeKey} (h : (model.resolver external hidden).isDeclared key) :
    ¬ external key := by
  simp only [resolver, Bool.and_eq_true, Bool.not_eq_true'] at h
  rw [h.2]
  exact Bool.false_ne_true

/-- No method of an external type is called. -/
theorem owner_of_calls {m c : MethodSymbol} (h : (model.resolver external hidden).Calls m c) :
    ¬ external c.id.owner := by
  obtain ⟨body, _, hc⟩ := h
  obtain ⟨call, f, _, _, _, _, howner⟩ := mem_calls_iff.1 hc
  exact not_external howner

/-- No property of an external type is read. -/
theorem owner_of_reads {m : MethodSymbol} {p : PropertySymbol}
    (h : (model.resolver external hidden).Reads m p) : ¬ external p.id.owner := by
  obtain ⟨body, _, hp⟩ := h
  obtain ⟨c, _, _, _, _, _, howner⟩ := mem_reads_iff.1 hp
  exact not_external howner

/-- A method of an external type is reached from itself only. -/
theorem eq_of_reaches_external {seed m : MethodSymbol}
    (h : (model.resolver external hidden).Reaches seed m) (hm : external m.id.owner) :
    m = seed := by
  rcases Relation.ReflTransGen.cases_tail h with heq | ⟨caller, _, hcall⟩
  · exact heq
  · exact absurd hm (owner_of_calls hcall)

/-- More external types and more hidden methods narrow the answers of a model. -/
theorem resolver_narrows (hexternal : ∀ key, external key → external' key)
    (hhidden : ∀ id, hidden id → hidden' id) :
    (model.resolver external' hidden').Narrows (model.resolver external hidden) where
  symbol := rfl
  target := rfl
  declared key h := by
    have hkept : ¬ external key := fun hkey ↦ not_external h (hexternal key hkey)
    simp only [resolver, Bool.and_eq_true] at h ⊢
    exact ⟨h.1, by simpa using hkept⟩
  body m body h := by
    simp only [resolver] at h ⊢
    split at h
    next => cases h
    next hshown => rwa [if_neg fun hm ↦ hshown (hhidden m.id hm)]

/-- With more external types and more hidden methods a model finds fewer calls and reads. -/
theorem resolver_restricts (hexternal : ∀ key, external key → external' key)
    (hhidden : ∀ id, hidden id → hidden' id) :
    (model.resolver external' hidden').Restricts (model.resolver external hidden) := by
  have hnarrow : (model.resolver external' hidden').Narrows (model.resolver external hidden) :=
    resolver_narrows hexternal hhidden
  constructor
  · rintro m c ⟨body, hbody, hc⟩
    refine ⟨body, hnarrow.body m body hbody, ?_⟩
    exact mem_calls_iff.2 (hnarrow.body_calls (mem_calls_iff.1 hc))
  · rintro m p ⟨body, hbody, hp⟩
    refine ⟨body, hnarrow.body m body hbody, ?_⟩
    exact mem_reads_iff.2 (hnarrow.body_reads (mem_reads_iff.1 hp))

/-! ### Closures of a project -/

open Closure

/-- More external types and more hidden methods make a closure smaller, whatever the orders of the
two worklists, and leave no member of an external type in it but the seed. -/
theorem closure_antitone (units : List SourceUnit) (order order' : WorklistOrder)
    {seed : MethodSymbol} (hseed : (ofUnits units).registry.Declares seed)
    (hexternal : ∀ key, external key → external' key)
    (hhidden : ∀ id, hidden id → hidden' id) :
    Within ((ofUnits units).closure external' hidden' order' seed)
        ((ofUnits units).closure external hidden order seed) ∧
      WithoutExternal external' seed ((ofUnits units).closure external' hidden' order' seed) := by
  have hground := resolver_grounded (ofUnits units) external hidden
  have hground' := resolver_grounded (ofUnits units) external' hidden'
  have hless : ((ofUnits units).resolver external' hidden').Restricts
      ((ofUnits units).resolver external hidden) := resolver_restricts hexternal hhidden
  have hreached : ∀ m ∈ ((ofUnits units).closure external' hidden' order' seed).methods.toList,
      ((ofUnits units).resolver external' hidden').Reaches seed m := fun m hm ↦
    (mem_visited_iff hground' order' hseed).1 ((mem_methods_iff hground' order' hseed).1 hm)
  refine ⟨⟨fun m hm ↦ ?_, fun p hp ↦ ?_⟩, ⟨fun m hm ↦ ?_, fun p hp ↦ ?_, fun m hm ↦ ?_⟩⟩
  · refine (mem_methods_iff hground order hseed).2 ((mem_visited_iff hground order hseed).2 ?_)
    exact hless.reaches (hreached m hm)
  · obtain ⟨m, hm, hread⟩ := (mem_properties_iff hground' order' hseed).1 hp
    exact (mem_properties_iff hground order hseed).2 ⟨m, hless.reaches hm, hless.reads m p hread⟩
  · exact eq_of_reaches_external (hreached m hm)
  · obtain ⟨m, _, hread⟩ := (mem_properties_iff hground' order' hseed).1 hp
    exact owner_of_reads hread
  · exact eq_of_reaches_external ((mem_skipped_iff hground' order' hseed).1 hm).1

/-- With the type of the small project external, its closure shrinks to the seed, whose type is
external too. -/
theorem closure_antitone_sample :
    (ofUnits Sample.units).registry.Declares Sample.seed ∧
      Within
        ((ofUnits Sample.units).closure (· == ⟨"A"⟩) (fun id ↦ id.parameterTypes == ["string"])
          .lifo Sample.seed)
        ((ofUnits Sample.units).closure (fun _ ↦ false) (fun _ ↦ false) .fifo Sample.seed) ∧
      WithoutExternal (· == ⟨"A"⟩) Sample.seed
        ((ofUnits Sample.units).closure (· == ⟨"A"⟩) (fun id ↦ id.parameterTypes == ["string"])
          .lifo Sample.seed) :=
  ⟨find_seed_declared Sample.seed_found,
    closure_antitone Sample.units .fifo .lifo (find_seed_declared Sample.seed_found) nofun nofun⟩

end Model

end MemberReach
