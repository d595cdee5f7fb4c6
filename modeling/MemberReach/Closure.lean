import MemberReach.Classification

/-!
# The closure of a seed method

The closure of a method is everything reachable from it through calls: the methods, the
properties that their bodies read, and the methods whose declaration cannot be found. It is
computed with a worklist. Each method is discovered once and leaves the worklist once; the
order in which methods leave it shows only in `visited`.
-/

namespace MemberReach

/-- Which end of the worklist the next method is taken from. -/
inductive WorklistOrder where
  | fifo
  | lifo
  deriving DecidableEq, Repr, Inhabited

/-- What is reachable from a seed. `visited` lists the methods in the order in which their
bodies were looked up, `iterations` counts them, and `bodiesClassified` those with a body. -/
structure Closure where
  methods : SymbolSet MethodSymbol
  properties : SymbolSet PropertySymbol
  skipped : SymbolSet MethodSymbol
  visited : List MethodSymbol
  iterations : Nat
  bodiesClassified : Nat

namespace Closure

/-- A closure under construction: the methods discovered so far, those of them that wait, those
that have left the worklist, and what their bodies gave. -/
structure State where
  discovered : List SymbolId
  pending : List MethodSymbol
  resolved : List MethodSymbol
  properties : SymbolSet PropertySymbol
  skipped : SymbolSet MethodSymbol
  iterations : Nat
  bodiesClassified : Nat

namespace State

/-- The start: only the seed is discovered. -/
def initial (seed : MethodSymbol) : State :=
  ⟨[seed.id], [seed], [], .empty, .empty, 0, 0⟩

/-- Puts a method at the back of the worklist, unless it is already discovered. -/
def discover (s : State) (method : MethodSymbol) : State :=
  if s.discovered.contains method.id then s
  else
    { s with
      discovered := s.discovered ++ [method.id]
      pending := s.pending ++ [method] }

/-- The next method and what then waits. -/
def next? (order : WorklistOrder) (s : State) : Option (MethodSymbol × List MethodSymbol) :=
  match order with
  | .fifo =>
      match s.pending with
      | [] => none
      | method :: rest => some (method, rest)
  | .lifo => s.pending.getLast?.map fun method ↦ (method, s.pending.dropLast)

/-- Takes a method off the worklist. -/
def take (s : State) (method : MethodSymbol) (rest : List MethodSymbol) : State :=
  { s with
    pending := rest
    resolved := s.resolved ++ [method]
    iterations := s.iterations + 1 }

/-- Records that the declaration of a method was not found. -/
def skip (s : State) (method : MethodSymbol) : State :=
  { s with skipped := s.skipped.insert method }

/-- Records the reads of a body and discovers the methods that it calls. -/
def absorb (s : State) (found : Classification) : State :=
  -- calls come in the order of their identities, wherever they stand in the body
  found.calls.toList.foldl discover
    { s with
      properties := s.properties.insertAll found.reads.toList
      bodiesClassified := s.bodiesClassified + 1 }

/-- One turn of the worklist; none once it is empty. -/
def step? (resolver : Resolver) (order : WorklistOrder) (s : State) : Option State :=
  (s.next? order).map fun (method, rest) ↦
    let s := s.take method rest
    match resolver.methodBody? method with
    | none => s.skip method
    | some body => s.absorb (Classification.classify resolver body)

/-- Turns the worklist until it is empty, at most `turns` times. -/
def run (resolver : Resolver) (order : WorklistOrder) : Nat → State → State
  | 0, s => s
  | turns + 1, s =>
      match s.step? resolver order with
      | none => s
      | some s => run resolver order turns s

/-- What a state has reached. -/
def result (s : State) : Closure :=
  { methods := .ofList s.resolved
    properties := s.properties
    skipped := s.skipped
    visited := s.resolved
    iterations := s.iterations
    bodiesClassified := s.bodiesClassified }

end State

/-- The closure of a seed under a resolver, in at most `turns` turns of the worklist. -/
def build (resolver : Resolver) (order : WorklistOrder) (turns : Nat) (seed : MethodSymbol) :
    Closure :=
  (State.run resolver order turns (.initial seed)).result

end Closure

/-- The closure of a method of a project. A turn for each declared method is enough, because
every method that is discovered is a declared one. -/
def Model.closure (model : Model) (external : TypeKey → Bool) (hidden : SymbolId → Bool)
    (order : WorklistOrder) (seed : MethodSymbol) : Closure :=
  .build (model.resolver external hidden) order model.registry.methodCount seed

end MemberReach
