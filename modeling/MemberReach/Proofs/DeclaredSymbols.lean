import MemberReach.Classification
import MemberReach.Proofs.SymbolSets

/-!
# Resolved symbols are the registry's own

A symbol comes out of resolution along many paths: overloads, enclosing types, bases,
extensions, method groups. Each of them ends in a look-up in the registry, so the symbol is
the one that the registry has for its identity, with all its fields. `Env.symbol_declared`
says so for resolution and `classify_declared` for the reads and calls of a body. Two such
symbols of one identity are therefore equal.
-/

namespace MemberReach

namespace Registry

/-- A method as the registry has it. -/
def Declares (r : Registry) (m : MethodSymbol) : Prop :=
  ∃ decl, r.method? m.id = some decl ∧ decl.symbol = m

/-- A property as the registry has it. -/
def DeclaresProperty (r : Registry) (p : PropertySymbol) : Prop :=
  ∃ decl, r.property? p.id = some decl ∧ decl.symbol = p

/-- A symbol as the registry has it. -/
def DeclaresSymbol (r : Registry) : Symbol → Prop
  | .method m => r.Declares m
  | .property p => r.DeclaresProperty p

variable {r : Registry}

/-- A method that is looked up has the identity it is looked up by. -/
theorem id_of_method {id : SymbolId} {decl : MethodDecl} (h : r.method? id = some decl) :
    decl.symbol.id = id := by
  simpa using List.find?_some h

/-- A property that is looked up has the identity it is looked up by. -/
theorem id_of_property {id : SymbolId} {decl : PropertyDecl} (h : r.property? id = some decl) :
    decl.symbol.id = id := by
  simpa using List.find?_some h

/-- The symbol of a method that is looked up is declared. -/
theorem declares_of_method {id : SymbolId} {decl : MethodDecl} (h : r.method? id = some decl) :
    r.Declares decl.symbol :=
  ⟨decl, (id_of_method h).symm ▸ h, rfl⟩

/-- The symbol of a property that is looked up is declared. -/
theorem declares_of_property {id : SymbolId} {decl : PropertyDecl}
    (h : r.property? id = some decl) : r.DeclaresProperty decl.symbol :=
  ⟨decl, (id_of_property h).symm ▸ h, rfl⟩

/-- Declared methods are determined by their identities. -/
theorem declares_unique ⦃a b : MethodSymbol⦄ (ha : r.Declares a) (hb : r.Declares b)
    (hid : a.id = b.id) : a = b := by
  obtain ⟨decl, ha, rfl⟩ := ha
  obtain ⟨other, hb, rfl⟩ := hb
  rw [hid, hb] at ha
  cases ha
  rfl

/-- Declared properties are determined by their identities. -/
theorem declares_property_unique ⦃a b : PropertySymbol⦄ (ha : r.DeclaresProperty a)
    (hb : r.DeclaresProperty b) (hid : a.id = b.id) : a = b := by
  obtain ⟨decl, ha, rfl⟩ := ha
  obtain ⟨other, hb, rfl⟩ := hb
  rw [hid, hb] at ha
  cases ha
  rfl

/-- The identity of a declared method is in the method table. -/
theorem id_mem_of_declares {m : MethodSymbol} (h : r.Declares m) :
    m.id ∈ r.methods.map fun decl ↦ decl.symbol.id := by
  obtain ⟨decl, h, rfl⟩ := h
  exact List.mem_map_of_mem (List.mem_of_find?_eq_some h)

/-- The methods that a name finds on a type are declared. -/
theorem find_methods_declared {key : TypeKey} {name : String} {decl : MethodDecl}
    (h : decl ∈ r.findMethods key name) : r.Declares decl.symbol := by
  obtain ⟨id, _, h⟩ := List.mem_filterMap.1 h
  exact declares_of_method h

/-- The extension methods that a name finds are declared. -/
theorem find_extensions_declared {name : String} {decl : MethodDecl}
    (h : decl ∈ r.findExtensions name) : r.Declares decl.symbol := by
  obtain ⟨id, _, h⟩ := List.mem_filterMap.1 h
  exact declares_of_method h

/-- The property that a name finds on a type is declared. -/
theorem find_property_declared {key : TypeKey} {name : String} {decl : PropertyDecl}
    (h : r.findProperty? key name = some decl) : r.DeclaresProperty decl.symbol := by
  obtain ⟨id, _, h⟩ := Option.bind_eq_some_iff.1 h
  exact declares_of_property h

end Registry

namespace Typing.Env

variable {env : Env}

/-- Choosing among candidates by a preference and then by order gives one of them. -/
theorem mem_of_preferred {α : Type} {candidates : List α} {prefer : α → Bool} {x : α}
    (h : (candidates.find? prefer).or candidates.head? = some x) : x ∈ candidates := by
  rcases Option.or_eq_some_iff.1 h with h | ⟨_, h⟩
  · exact List.mem_of_find?_eq_some h
  · exact List.mem_of_head? h

/-- The overload that is picked is declared. -/
theorem pick_overload_declared {key : TypeKey} {name : String} {arguments : Nat}
    {m : MethodSymbol} (h : env.pickOverload? key name arguments = some m) :
    env.registry.Declares m := by
  obtain ⟨decl, hpick, rfl⟩ := Option.map_eq_some_iff.1 h
  exact Registry.find_methods_declared (mem_of_preferred hpick)

/-- The extension method that is picked is declared. -/
theorem pick_extension_declared {receiver : Option TypeKey} {name : String} {arguments : Nat}
    {m : MethodSymbol} (h : env.pickExtension? receiver name arguments = some m) :
    env.registry.Declares m := by
  obtain ⟨decl, hpick, rfl⟩ := Option.map_eq_some_iff.1 h
  exact Registry.find_extensions_declared (List.mem_of_mem_filter (mem_of_preferred hpick))

/-- The symbol that a member access denotes is declared, whatever its receiver's type. -/
theorem access_symbol_declared {receiver : Option TypeKey} {name : String} {c : Cursor}
    {s : Symbol} (h : env.accessSymbol? receiver name c = some s) :
    env.registry.DeclaresSymbol s := by
  unfold accessSymbol? at h
  split at h
  · obtain ⟨m, hpick, rfl⟩ := Option.map_eq_some_iff.1 h
    rcases Option.or_eq_some_iff.1 hpick with h | ⟨_, h⟩
    · obtain ⟨key, _, h⟩ := Option.bind_eq_some_iff.1 h
      exact pick_overload_declared h
    · exact pick_extension_declared h
  · obtain ⟨key, _, h⟩ := Option.bind_eq_some_iff.1 h
    split at h
    next decl hfind =>
      cases h
      exact Registry.find_property_declared hfind
    next =>
      obtain ⟨decl, hhead, rfl⟩ := Option.map_eq_some_iff.1 h
      exact Registry.find_methods_declared (List.mem_of_head? hhead)

/-- The symbol that a simple name denotes is declared. -/
theorem simple_name_declared {c : Cursor} {s : Symbol} (h : env.simpleName? c = some s) :
    env.registry.DeclaresSymbol s := by
  obtain ⟨name, _, h⟩ := Option.bind_eq_some_iff.1 h
  obtain ⟨key, _, h⟩ := Option.bind_eq_some_iff.1 h
  split at h
  · obtain ⟨m, hsome, rfl⟩ := Option.map_eq_some_iff.1 h
    obtain ⟨key, _, hpick⟩ := List.exists_of_findSome?_eq_some hsome
    exact pick_overload_declared hpick
  · split at h
    · cases h
    · obtain ⟨decl, hfind, rfl⟩ := Option.map_eq_some_iff.1 h
      exact Registry.find_property_declared hfind

/-- The symbol that a node denotes is declared, however receivers are typed. -/
theorem symbol_declared {typeOf? : Cursor → Option TypeKey} {c : Cursor} {s : Symbol}
    (h : env.symbol? typeOf? c = some s) : env.registry.DeclaresSymbol s := by
  unfold symbol? at h
  split at h
  · obtain ⟨access, _, h⟩ := Option.bind_eq_some_iff.1 h
    exact access_symbol_declared h
  · exact simple_name_declared h
  · exact simple_name_declared h
  · cases h

end Typing.Env

namespace Model

variable {model : Model}

/-- The symbol that a node of a unit denotes is declared. -/
theorem symbol_declared {unitId : Nat} {c : Cursor} {s : Symbol}
    (h : model.symbol? unitId c = some s) : model.registry.DeclaresSymbol s := by
  unfold symbol? at h
  split at h
  · exact Typing.Env.symbol_declared h
  · cases h

/-- A seed is declared. -/
theorem find_seed_declared {unitId : Nat} {name : String} {seed : MethodSymbol}
    (h : model.findSeed unitId name = .ok seed) : model.registry.Declares seed := by
  unfold findSeed at h
  split at h
  · cases h
  · split at h
    · cases h
    · split at h
      · cases h
      next hfind =>
        cases h
        obtain ⟨id, _, hfind⟩ := Option.bind_eq_some_iff.1 hfind
        exact Registry.declares_of_method hfind

variable {external : TypeKey → Bool} {hidden : SymbolId → Bool}

/-- Every property that a body reads is declared. -/
theorem reads_declared {body : MethodBody} {p : PropertySymbol}
    (h : p ∈ (Classification.classify (model.resolver external hidden) body).reads.toList) :
    model.registry.DeclaresProperty p := by
  obtain ⟨c, _, h⟩ := List.mem_filterMap.1 (SymbolSet.mem_of_mem_of_list h)
  obtain ⟨_, _, hsymbol, _⟩ := Classification.read_eq_some_iff.1 h
  exact symbol_declared hsymbol

/-- Every method that a body calls is declared. -/
theorem calls_declared {body : MethodBody} {m : MethodSymbol}
    (h : m ∈ (Classification.classify (model.resolver external hidden) body).calls.toList) :
    model.registry.Declares m := by
  obtain ⟨c, _, h⟩ := List.mem_filterMap.1 (SymbolSet.mem_of_mem_of_list h)
  obtain ⟨_, callee, _, _, hsymbol, _⟩ := Classification.call_eq_some_iff.1 h
  exact symbol_declared hsymbol

end Model

end MemberReach
