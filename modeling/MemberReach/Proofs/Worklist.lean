import Mathlib.Data.List.Perm.Subperm
import Mathlib.Logic.Relation
import MemberReach.Closure
import MemberReach.Proofs.DeclaredSymbols

/-!
# The worklist of a closure

What a turn of the worklist does, and what therefore holds after any number of turns. Read
`step_cases` first: a turn takes one waiting method and either records that its declaration is
missing, or records what its body reads and puts the methods that it calls for the first time
at the back. `Frontier` is the bookkeeping that every turn keeps, `Grounded` the fact that
bodies call declared methods only. Together they bound the run: `run_ends` says that one turn
for each declared method empties the worklist.
-/

namespace MemberReach

namespace Resolver

/-- The body of `m` is found and calls `c`. -/
def Calls (resolver : Resolver) (m c : MethodSymbol) : Prop :=
  ∃ body, resolver.methodBody? m = some body ∧
    c ∈ (Classification.classify resolver body).calls.toList

/-- The body of `m` is found and reads `p`. -/
def Reads (resolver : Resolver) (m : MethodSymbol) (p : PropertySymbol) : Prop :=
  ∃ body, resolver.methodBody? m = some body ∧
    p ∈ (Classification.classify resolver body).reads.toList

/-- A method is reachable from another through calls. -/
def Reaches (resolver : Resolver) : MethodSymbol → MethodSymbol → Prop :=
  Relation.ReflTransGen resolver.Calls

/-- A resolver whose bodies call and read what a registry declares. -/
structure Grounded (resolver : Resolver) (r : Registry) : Prop where
  calls : ∀ ⦃m c⦄, resolver.Calls m c → r.Declares c
  reads : ∀ ⦃m p⦄, resolver.Reads m p → r.DeclaresProperty p

end Resolver

/-- The resolver of a model is grounded in its registry, whatever is external or hidden. -/
theorem Model.resolver_grounded (model : Model) (external : TypeKey → Bool)
    (hidden : SymbolId → Bool) : (model.resolver external hidden).Grounded model.registry where
  calls := fun _ _ ⟨_, _, h⟩ ↦ calls_declared h
  reads := fun _ _ ⟨_, _, h⟩ ↦ reads_declared h

namespace Closure.State

/-! ### One turn -/

/-- Taking the next method leaves the others, in some order. -/
theorem next_perm {order : WorklistOrder} {s : State} {m : MethodSymbol}
    {rest : List MethodSymbol} (h : s.next? order = some (m, rest)) :
    s.pending.Perm (m :: rest) := by
  cases order with
  | fifo =>
      cases hpending : s.pending with
      | nil => simp [next?, hpending] at h
      | cons first others =>
          simp only [next?, hpending, Option.some.injEq, Prod.mk.injEq] at h
          rw [h.1, h.2]
  | lifo =>
      obtain ⟨last, hlast, h⟩ := Option.map_eq_some_iff.1 h
      obtain ⟨rfl, rfl⟩ := Prod.mk.inj h
      calc
        s.pending = s.pending.dropLast ++ [last] :=
          (List.dropLast_append_getLast? last hlast).symm
        List.Perm _ (last :: s.pending.dropLast) :=
          List.perm_append_singleton last s.pending.dropLast

/-- There is no next method exactly when none waits. -/
theorem next_eq_none_iff {order : WorklistOrder} {s : State} :
    s.next? order = none ↔ s.pending = [] := by
  cases order with
  | fifo => cases hpending : s.pending <;> simp [next?, hpending]
  | lifo => simp [next?]

/-- The methods of a list that are not among the given identities, each identity once: what
discovering the list puts on the worklist. -/
structure Fresh (known : List SymbolId) (calls fresh : List MethodSymbol) : Prop where
  called : ∀ c ∈ fresh, c ∈ calls
  nodup : known.Nodup → (known ++ fresh.map MethodSymbol.id).Nodup
  covers : ∀ c ∈ calls, c.id ∈ known ++ fresh.map MethodSymbol.id

/-- Discovering a list of methods puts the fresh ones on the worklist and changes nothing else. -/
theorem discover_all (calls : List MethodSymbol) (s : State) :
    ∃ fresh, Fresh s.discovered calls fresh ∧
      calls.foldl discover s =
        { s with
          discovered := s.discovered ++ fresh.map MethodSymbol.id
          pending := s.pending ++ fresh } := by
  induction calls generalizing s with
  | nil =>
      refine ⟨[], ⟨?_, ?_, ?_⟩, ?_⟩ <;> simp
  | cons c rest ih =>
      by_cases hknown : c.id ∈ s.discovered
      · obtain ⟨fresh, hfresh, heq⟩ := ih s
        refine ⟨fresh, ⟨?_, hfresh.nodup, ?_⟩, ?_⟩
        · exact fun d hd ↦ List.mem_cons_of_mem c (hfresh.called d hd)
        · intro d hd
          rcases List.mem_cons.1 hd with rfl | hd
          · exact List.mem_append_left _ hknown
          · exact hfresh.covers d hd
        · rw [List.foldl_cons, ← heq]
          simp [discover, hknown]
      · obtain ⟨fresh, hfresh, heq⟩ := ih
          { s with discovered := s.discovered ++ [c.id], pending := s.pending ++ [c] }
        simp only [List.append_assoc, List.singleton_append] at hfresh heq
        refine ⟨c :: fresh, ⟨?_, ?_, ?_⟩, ?_⟩
        · intro d hd
          rcases List.mem_cons.1 hd with rfl | hd
          · exact List.mem_cons_self
          · exact List.mem_cons_of_mem c (hfresh.called d hd)
        · intro hnodup
          have hsnoc : (s.discovered ++ [c.id]).Nodup :=
            List.nodup_append.2 ⟨hnodup, List.nodup_singleton c.id, by
              intro a ha b hb hab
              rw [List.mem_singleton.1 hb] at hab
              exact hknown (hab ▸ ha)⟩
          simpa using hfresh.nodup hsnoc
        · intro d hd
          rcases List.mem_cons.1 hd with rfl | hd
          · simp
          · simpa using hfresh.covers d hd
        · rw [List.foldl_cons]
          simp only [discover, List.contains_eq_mem, hknown, decide_false, Bool.false_eq_true,
            if_false, List.map_cons]
          exact heq

variable {resolver : Resolver} {order : WorklistOrder}

/-- What a turn does: it takes a waiting method `m` and either skips it, or records what its body
reads and puts the methods on the worklist that its body is the first to call. -/
theorem step_cases {s t : State} (h : s.step? resolver order = some t) :
    ∃ m rest, s.next? order = some (m, rest) ∧
      ((resolver.methodBody? m = none ∧ t = (s.take m rest).skip m) ∨
        ∃ body fresh, resolver.methodBody? m = some body ∧
          Fresh s.discovered (Classification.classify resolver body).calls.toList fresh ∧
          t =
            { discovered := s.discovered ++ fresh.map MethodSymbol.id
              pending := rest ++ fresh
              resolved := s.resolved ++ [m]
              properties := s.properties.insertAll
                (Classification.classify resolver body).reads.toList
              skipped := s.skipped
              iterations := s.iterations + 1
              bodiesClassified := s.bodiesClassified + 1 }) := by
  obtain ⟨⟨m, rest⟩, hnext, h⟩ := Option.map_eq_some_iff.1 h
  refine ⟨m, rest, hnext, ?_⟩
  dsimp only at h
  split at h
  next hbody => exact Or.inl ⟨hbody, h.symm⟩
  next body hbody =>
    obtain ⟨fresh, hfresh, heq⟩ := discover_all
      (Classification.classify resolver body).calls.toList
      { s.take m rest with
        properties := s.properties.insertAll (Classification.classify resolver body).reads.toList
        bodiesClassified := s.bodiesClassified + 1 }
    exact Or.inr ⟨body, fresh, hbody, hfresh, h.symm.trans heq⟩

/-- A turn lengthens the list of resolved methods by the method that it takes. -/
theorem step_resolved {s t : State} (h : s.step? resolver order = some t) :
    ∃ m rest, s.next? order = some (m, rest) ∧ t.resolved = s.resolved ++ [m] := by
  obtain ⟨m, rest, hnext, ⟨_, rfl⟩ | ⟨body, fresh, _, _, rfl⟩⟩ := step_cases h
  · exact ⟨m, rest, hnext, rfl⟩
  · exact ⟨m, rest, hnext, rfl⟩

/-- There is no further turn exactly when nothing waits. -/
theorem step_eq_none_iff {s : State} : s.step? resolver order = none ↔ s.pending = [] := by
  rw [step?, Option.map_eq_none_iff, next_eq_none_iff]

/-! ### Any number of turns -/

/-- What every turn keeps holds after any number of turns. -/
theorem run_preserves {P : State → Prop}
    (hstep : ∀ s t, P s → s.step? resolver order = some t → P t) (turns : Nat) (s : State)
    (h : P s) : P (run resolver order turns s) := by
  induction turns generalizing s with
  | zero => exact h
  | succ turns ih =>
      unfold run
      split
      · exact h
      next t ht => exact ih t (hstep s t h ht)

/-- A turn of a run is a turn, and then the rest of the run. -/
theorem run_succ {s t : State} (h : s.step? resolver order = some t) (turns : Nat) :
    run resolver order (turns + 1) s = run resolver order turns t := by
  rw [run]
  simp only [h]

/-- Nothing changes once the worklist is empty. -/
theorem run_eq_self {s : State} (h : s.step? resolver order = none) (turns : Nat) :
    run resolver order turns s = s := by
  cases turns with
  | zero => rfl
  | succ turns => rw [run, h]

/-- Turning `first + second` times is turning `first` times and then `second` times more. -/
theorem run_add (first second : Nat) (s : State) :
    run resolver order (first + second) s =
      run resolver order second (run resolver order first s) := by
  induction first generalizing s with
  | zero => rw [Nat.zero_add, run]
  | succ first ih =>
      rw [Nat.succ_add]
      cases hs : s.step? resolver order with
      | none => rw [run_eq_self hs, run_eq_self hs, run_eq_self hs]
      | some t => rw [run_succ hs, run_succ hs, ih t]

/-- A run that has ended stays as it is with more turns. -/
theorem run_eq_of_le {s : State} {turns more : Nat}
    (hend : (run resolver order turns s).step? resolver order = none) (hle : turns ≤ more) :
    run resolver order more s = run resolver order turns s := by
  obtain ⟨extra, rfl⟩ := Nat.exists_eq_add_of_le hle
  rw [run_add, run_eq_self hend]

/-- A run resolves at most one method a turn, and exactly one as long as it has not ended. -/
theorem run_length (resolver : Resolver) (order : WorklistOrder) (turns : Nat) (s : State) :
    (run resolver order turns s).resolved.length ≤ s.resolved.length + turns ∧
      ((run resolver order turns s).step? resolver order = none ∨
        (run resolver order turns s).resolved.length = s.resolved.length + turns) := by
  induction turns generalizing s with
  | zero => exact ⟨Nat.le_refl _, Or.inr rfl⟩
  | succ turns ih =>
      cases hs : s.step? resolver order with
      | none =>
          rw [run_eq_self hs]
          exact ⟨Nat.le_add_right _ _, Or.inl hs⟩
      | some t =>
          obtain ⟨m, rest, _, hresolved⟩ := step_resolved hs
          have hlength : t.resolved.length = s.resolved.length + 1 := by
            rw [hresolved, List.length_append, List.length_singleton]
          obtain ⟨hle, heq⟩ := ih t
          rw [run_succ hs]
          exact ⟨by omega, heq.imp_right fun heq ↦ by omega⟩

/-- Methods leave the worklist for good: a run only adds to the resolved methods. -/
theorem resolved_prefix_run (resolver : Resolver) (order : WorklistOrder) (turns : Nat)
    (s : State) :
    s.resolved <+: (run resolver order turns s).resolved := by
  refine run_preserves (P := fun t ↦ s.resolved <+: t.resolved) ?_ turns s
    (List.prefix_refl s.resolved)
  intro t u ht hstep
  obtain ⟨m, rest, _, hresolved⟩ := step_resolved hstep
  rw [hresolved]
  exact ht.trans (List.prefix_append t.resolved [m])

/-! ### The bookkeeping of a run -/

/-- The bookkeeping of a worklist: no identity is discovered twice, the discovered identities are
those of the resolved and of the waiting methods, and the turns are counted. -/
structure Frontier (s : State) : Prop where
  nodup : s.discovered.Nodup
  split : ((s.resolved ++ s.pending).map MethodSymbol.id).Perm s.discovered
  counted : s.iterations = s.resolved.length

namespace Frontier

/-- At the start only the seed is discovered, and it waits. -/
theorem initial (seed : MethodSymbol) : Frontier (.initial seed) :=
  ⟨List.nodup_singleton seed.id, List.Perm.refl _, rfl⟩

/-- A turn keeps the bookkeeping. -/
theorem step {s t : State} (hs : Frontier s) (h : s.step? resolver order = some t) :
    Frontier t := by
  obtain ⟨m, rest, hnext, ⟨_, rfl⟩ | ⟨body, fresh, _, hfresh, rfl⟩⟩ := step_cases h
  all_goals
    have htaken : (s.resolved ++ m :: rest).Perm (s.resolved ++ s.pending) :=
      (next_perm hnext).symm.append_left s.resolved
    have hsplit := (htaken.map MethodSymbol.id).trans hs.split
  · refine ⟨hs.nodup, ?_, congrArg (· + 1) hs.counted |>.trans (by simp [skip, take])⟩
    simpa [skip, take] using hsplit
  · refine ⟨hfresh.nodup hs.nodup, ?_, congrArg (· + 1) hs.counted |>.trans (by simp)⟩
    have hmore := hsplit.append_right (fresh.map MethodSymbol.id)
    simpa using hmore

/-- The bookkeeping holds after any number of turns. -/
theorem run (resolver : Resolver) (order : WorklistOrder) (turns : Nat) (seed : MethodSymbol) :
    Frontier (State.run resolver order turns (.initial seed)) :=
  run_preserves (fun _ _ ↦ step) turns _ (initial seed)

variable {s : State}

/-- No two methods of a worklist, resolved or waiting, have one identity. -/
theorem nodup_ids (hs : Frontier s) :
    ((s.resolved ++ s.pending).map MethodSymbol.id).Nodup :=
  hs.split.nodup_iff.2 hs.nodup

/-- Every resolved method is discovered. -/
theorem resolved_subset (hs : Frontier s) : s.resolved.map MethodSymbol.id ⊆ s.discovered := by
  intro id hid
  exact hs.split.mem_iff.1 (by rw [List.map_append]; exact List.mem_append_left _ hid)

/-- The waiting methods are the discovered ones that are not resolved. -/
theorem mem_pending_iff (hs : Frontier s) (id : SymbolId) :
    id ∈ s.pending.map MethodSymbol.id ↔
      id ∈ s.discovered ∧ id ∉ s.resolved.map MethodSymbol.id := by
  have hnodup := hs.nodup_ids
  rw [List.map_append, List.nodup_append] at hnodup
  rw [← hs.split.mem_iff, List.map_append, List.mem_append]
  constructor
  · exact fun hid ↦ ⟨Or.inr hid, fun hresolved ↦ hnodup.2.2 id hresolved id hid rfl⟩
  · rintro ⟨hresolved | hid, hnot⟩
    · exact False.elim (hnot hresolved)
    · exact hid

end Frontier

/-! ### The length of a run -/

/-- Every method that is resolved or waits is declared. -/
def Declared (r : Registry) (s : State) : Prop :=
  ∀ m ∈ s.resolved ++ s.pending, r.Declares m

/-- A turn discovers declared methods only. -/
theorem Declared.step {r : Registry} (hground : resolver.Grounded r) {s t : State}
    (hs : Declared r s) (h : s.step? resolver order = some t) : Declared r t := by
  obtain ⟨m, rest, hnext, hcases⟩ := step_cases h
  have hold : ∀ d ∈ s.resolved ++ m :: rest, r.Declares d := fun d hd ↦
    hs d (((next_perm hnext).append_left s.resolved).mem_iff.2 hd)
  obtain ⟨_, rfl⟩ | ⟨body, fresh, hbody, hfresh, rfl⟩ := hcases
  · intro d hd
    exact hold d (by simpa [skip, take] using hd)
  · intro d hd
    rw [List.append_assoc, List.singleton_append, ← List.cons_append, ← List.append_assoc] at hd
    rcases List.mem_append.1 hd with hd | hd
    · exact hold d hd
    · exact hground.calls ⟨body, hbody, hfresh.called d hd⟩

/-- At the start only the seed is met. -/
theorem Declared.initial {r : Registry} {seed : MethodSymbol} (hseed : r.Declares seed) :
    Declared r (.initial seed) := by
  intro m hm
  rw [List.mem_singleton.1 hm]
  exact hseed

/-- From a declared seed, only declared methods are ever met. -/
theorem Declared.run {r : Registry} (hground : resolver.Grounded r) (order : WorklistOrder)
    {seed : MethodSymbol} (hseed : r.Declares seed) (turns : Nat) :
    Declared r (State.run resolver order turns (.initial seed)) :=
  run_preserves (fun _ _ ↦ Declared.step hground) turns _ (Declared.initial hseed)

/-- A worklist meets at most as many methods as are declared. -/
theorem length_le_method_count {r : Registry} {s : State} (hs : Frontier s)
    (hdeclared : Declared r s) : s.resolved.length + s.pending.length ≤ r.methodCount := by
  have hsubset : (s.resolved ++ s.pending).map MethodSymbol.id ⊆
      r.methods.map fun decl ↦ decl.symbol.id := by
    intro id hid
    obtain ⟨m, hm, rfl⟩ := List.mem_map.1 hid
    exact Registry.id_mem_of_declares (hdeclared m hm)
  have hlength := (hs.nodup_ids.subperm hsubset).length_le
  simpa [Registry.methodCount] using hlength

/-- One turn for each declared method empties the worklist. -/
theorem run_ends {r : Registry} (hground : resolver.Grounded r) (order : WorklistOrder)
    {seed : MethodSymbol} (hseed : r.Declares seed) :
    (run resolver order r.methodCount (.initial seed)).step? resolver order = none := by
  have hstart : (State.initial seed).resolved.length = 0 := rfl
  rcases (run_length resolver order r.methodCount (.initial seed)).2 with hend | hlength
  · exact hend
  · have hbound := length_le_method_count
      (Frontier.run resolver order r.methodCount seed) (Declared.run hground order hseed _)
    refine step_eq_none_iff.2 (List.length_eq_zero_iff.1 ?_)
    omega

/-- The method that is looked up in a turn is the one at that place among the resolved. -/
theorem resolved_get_run {seed : MethodSymbol} {total : Nat}
    (hend : (run resolver order total (.initial seed)).step? resolver order = none)
    (turns : Nat) :
    (run resolver order total (.initial seed)).resolved[turns]? =
      ((run resolver order turns (.initial seed)).next? order).map Prod.fst := by
  have hstart : (State.initial seed).resolved.length = 0 := rfl
  obtain ⟨hle, hlength⟩ := run_length resolver order turns (.initial seed)
  cases hstep : (run resolver order turns (.initial seed)).step? resolver order with
  | none =>
      -- both runs have ended, so in the same state, which took at most `turns` turns
      have hsame : run resolver order total (.initial seed) =
          run resolver order turns (.initial seed) := by
        rcases Nat.le_total turns total with hturns | hturns
        · exact run_eq_of_le hstep hturns
        · exact (run_eq_of_le hend hturns).symm
      rw [hsame, next_eq_none_iff.2 (step_eq_none_iff.1 hstep), Option.map_none,
        List.getElem?_eq_none_iff]
      omega
  | some t =>
      obtain ⟨m, rest, hnext, hresolved⟩ := step_resolved hstep
      have hlt : turns < total := by
        by_contra hge
        rw [run_eq_of_le hend (Nat.le_of_not_lt hge), hend] at hstep
        cases hstep
      -- the turn itself appends `m`, and the turns after it leave `m` where it is
      have hnow : run resolver order (turns + 1) (.initial seed) = t := by
        rw [run_add, run_succ hstep, run]
      have hlast : t.resolved[turns]? = some m := by
        have hturns : (run resolver order turns (.initial seed)).resolved.length = turns := by
          rcases hlength with hended | hlength
          · rw [hstep] at hended
            cases hended
          · omega
        rw [hresolved, List.getElem?_append_right (Nat.le_of_eq hturns), hturns, Nat.sub_self]
        rfl
      obtain ⟨extra, rfl⟩ := Nat.exists_eq_add_of_le (Nat.succ_le_of_lt hlt)
      obtain ⟨later, hlater⟩ := resolved_prefix_run resolver order extra t
      rw [run_add, Nat.succ_eq_add_one, hnow, hnext, Option.map_some, ← hlater,
        List.getElem?_append_left (List.getElem?_eq_some_iff.1 hlast).1, hlast]

end Closure.State

namespace Closure

/-! ### Resolvers that find the same -/

/-- Two resolvers find the same reads and calls in the body of every method, and lack the same
bodies. -/
def Alike (resolver' resolver : Resolver) : Prop :=
  ∀ m, (resolver'.methodBody? m).map (Classification.classify resolver') =
    (resolver.methodBody? m).map (Classification.classify resolver)

/-- A turn of the worklist depends on the reads and calls of the next method alone. -/
theorem State.step_eq (resolver : Resolver) (order : WorklistOrder) (s : State) :
    s.step? resolver order = (s.next? order).map fun next ↦
      match (resolver.methodBody? next.1).map (Classification.classify resolver) with
      | none => (s.take next.1 next.2).skip next.1
      | some found => (s.take next.1 next.2).absorb found := by
  unfold State.step?
  refine congrArg (Option.map · (s.next? order)) (funext fun next ↦ ?_)
  obtain ⟨method, rest⟩ := next
  cases hbody : resolver.methodBody? method <;> simp only [hbody, Option.map_some, Option.map_none]

variable {resolver' resolver : Resolver} (h : Alike resolver' resolver) (order : WorklistOrder)

include h

/-- A turn of the worklist is the same for resolvers that find the same. -/
theorem State.step_alike (s : State) : s.step? resolver' order = s.step? resolver order := by
  rw [State.step_eq, State.step_eq]
  refine congrArg (Option.map · (s.next? order)) (funext fun next ↦ ?_)
  rw [h next.1]

/-- Turning the worklist gives the same for resolvers that find the same. -/
theorem State.run_alike (turns : Nat) (s : State) :
    State.run resolver' order turns s = State.run resolver order turns s := by
  induction turns generalizing s with
  | zero => rfl
  | succ turns ih =>
      rw [State.run, State.run, State.step_alike h]
      cases s.step? resolver order with
      | none => rfl
      | some next => exact ih next

/-- The closure of a seed is the same for resolvers that find the same. -/
theorem build_alike (turns : Nat) (seed : MethodSymbol) :
    build resolver' order turns seed = build resolver order turns seed := by
  rw [build, build, State.run_alike h]

end Closure

end MemberReach
