import MemberReach.Grammar.Rules
import MemberReach.Proofs.MergedDeclarations

/-!
# The index of extension methods

The index of extension methods is written when an identity is met for the first time, while its
entry in the method table may be replaced later. So a name finds the entries whose first declaration
is an extension method (`mem_find_extensions`), whatever the declaration is that counts in the end.
The two agree exactly if they do for every identity of the name (`lists_extensions_iff`). Signatures
that differ only in a modifier have one identity, and then they need not agree
(`extension_index_disagrees`).
-/

namespace MemberReach

namespace Registry

/-- The extension methods that a name finds are the entries of the method table that have the name
and are extension methods, each once. -/
structure ListsExtensions (r : Registry) (name : String) : Prop where
  once : ((r.findExtensions name).map fun m ↦ m.symbol.id).Nodup
  exact : ∀ m, m ∈ r.findExtensions name ↔
    m ∈ r.methods ∧ m.symbol.id.name = name ∧ m.isExtension

variable {r : Registry} {declared : List MethodDecl} {units : List SourceUnit} {m : MethodDecl}

namespace Recorded

/-- An entry of the method table is found by its identity. -/
theorem mem_methods_iff (h : Recorded declared r) :
    m ∈ r.methods ↔ r.method? m.symbol.id = some m := by
  constructor
  · have hnodup : (r.methods.map fun m ↦ m.symbol.id).Nodup := h.methods ▸ identities_nodup declared
    exact find_of_mem (fun m : MethodDecl ↦ m.symbol.id) hnodup
  · exact List.mem_of_find?_eq_some

/-- Every identity of the index has an entry. -/
theorem method_is_some (h : Recorded declared r) {id : SymbolId} (hid : id ∈ r.extensions) :
    (r.method? id).isSome := by
  rw [h.extensions] at hid
  rw [method_is_some_iff, h.methods]
  exact (List.mem_filter.1 hid).1

/-- A name finds the identities of the index that have it. -/
theorem ids_find_extensions (h : Recorded declared r) (name : String) :
    ((r.findExtensions name).map fun m ↦ m.symbol.id) =
      (introduced MethodDecl.isExtension declared).filter fun id ↦ id.name == name := by
  have hfound : ∀ ids : List SymbolId, (∀ id ∈ ids, (r.method? id).isSome) →
      ((ids.filterMap r.method?).map fun m ↦ m.symbol.id) = ids := by
    intro ids hids
    induction ids with
    | nil => rfl
    | cons id rest ih =>
        obtain ⟨m, hm⟩ := Option.isSome_iff_exists.1 (hids id List.mem_cons_self)
        rw [List.filterMap_cons_some hm, List.map_cons, id_of_method hm,
          ih fun other hother ↦ hids other (List.mem_cons_of_mem id hother)]
  rw [findExtensions, hfound, h.extensions]
  exact fun id hid ↦ h.method_is_some (List.mem_filter.1 hid).1

/-- A name finds the entries of that name whose first declaration is an extension method. -/
theorem mem_find_extensions (h : Recorded declared r) (name : String) :
    m ∈ r.findExtensions name ↔ m ∈ r.methods ∧ m.symbol.id.name = name ∧
      ∃ d, first? m.symbol.id declared = some d ∧ d.isExtension := by
  rw [h.mem_methods_iff, ← mem_introduced, ← h.extensions, findExtensions, List.mem_filterMap]
  constructor
  · rintro ⟨id, hid, hm⟩
    obtain rfl := id_of_method hm
    obtain ⟨hmem, hname⟩ := List.mem_filter.1 hid
    exact ⟨hm, eq_of_beq hname, hmem⟩
  · rintro ⟨hm, hname, hmem⟩
    exact ⟨m.symbol.id, List.mem_filter.2 ⟨hmem, beq_iff_eq.2 hname⟩, hm⟩

end Recorded

/-- An entry is an extension method if the declaration that counts is one. -/
theorem is_extension_of_mem (hm : m ∈ (build units).methods) :
    (preferred (versions m.symbol.id (declaredMethods units))).map MethodDecl.isExtension =
      some m.isExtension := by
  have hentry := (build_recorded units).mem_methods_iff.1 hm
  rw [method_build, Option.map_eq_some_iff] at hentry
  obtain ⟨p, hp, hresolved⟩ := hentry
  rw [hp, ← hresolved]
  rfl

/-- Whether the first declaration of an identity and the one that counts agree about being an
extension method. -/
def SameModifier (units : List SourceUnit) (id : SymbolId) : Prop :=
  (first? id (declaredMethods units)).map MethodDecl.isExtension =
    (preferred (versions id (declaredMethods units))).map MethodDecl.isExtension

/-- A name finds the identities whose first declaration is an extension method, in the order of
these declarations. They are the extension methods of the method table exactly if, for each
identity of the name, the first declaration and the one that counts agree. -/
theorem lists_extensions_iff (units : List SourceUnit) (name : String) :
    (((build units).findExtensions name).map fun m ↦ m.symbol.id) =
        ((introduced MethodDecl.isExtension (declaredMethods units)).filter
          fun id ↦ id.name == name) ∧
      (ListsExtensions (build units) name ↔
        ∀ id, id.name = name → SameModifier units id) := by
  have hrecorded := build_recorded units
  have hids := hrecorded.ids_find_extensions name
  refine ⟨hids, fun hlists id hname ↦ ?_, fun hsame ↦ ⟨?_, fun m ↦ ?_⟩⟩
  · cases hfirst : first? id (declaredMethods units) with
    | none =>
        -- without a first declaration there is none that counts
        have hnil : versions id (declaredMethods units) = [] := List.head?_eq_none_iff.1 hfirst
        rw [SameModifier, hfirst, hnil]
        rfl
    | some d =>
        have hlisted : id ∈ (build units).methods.map fun m ↦ m.symbol.id := by
          rw [hrecorded.methods]
          exact mem_identities.2 ⟨d, hfirst⟩
        obtain ⟨m, hm, rfl⟩ := List.mem_map.1 hlisted
        have hfound := hrecorded.mem_find_extensions (m := m) name
        rw [hlists.exact m] at hfound
        rw [SameModifier, is_extension_of_mem hm, hfirst]
        simp only [hm, hname, hfirst, true_and, Option.some.injEq, exists_eq_left'] at hfound
        exact congrArg some (Bool.eq_iff_iff.2 hfound.symm)
  · rw [hids]
    exact ((identities_nodup _).filter _).filter _
  · rw [hrecorded.mem_find_extensions]
    refine and_congr_right fun hm ↦ and_congr_right fun hname ↦ ?_
    have hcounts := (hsame _ hname).trans (is_extension_of_mem hm)
    obtain ⟨d, hd, hext⟩ := Option.map_eq_some_iff.1 hcounts
    simp only [hd, Option.some.injEq, exists_eq_left', hext]

end Registry

namespace Modifiers

/-- A type with two pairs of methods whose parameters differ in their modifier only. Of the first
pair the second method is an extension method, of the other pair the first one. -/
def source : String :=
  "class A \x7b \x7d static class E \x7b static void M(ref A a) \x7b \x7d " ++
    "static void M(this A a) \x7b \x7d static void N(this A a) \x7b \x7d " ++
    "static void N(ref A a) \x7b \x7d \x7d"

/-- A project of one file. -/
def unit : SourceUnit :=
  .create ⟨"A.cs"⟩ none source (Node.ofSource source)

end Modifiers

namespace Registry

/-- The extension method of the first pair is not found by its name, and what is found by the name
of the other pair is no extension method. -/
theorem extension_index_disagrees :
    (∃ m ∈ (build [Modifiers.unit]).methods, m.symbol.id.name = "M" ∧ m.isExtension ∧
        (build [Modifiers.unit]).findExtensions "M" = []) ∧
      (∃ m ∈ (build [Modifiers.unit]).findExtensions "N", m.isExtension = false) ∧
      ¬ ListsExtensions (build [Modifiers.unit]) "M" ∧
      ¬ ListsExtensions (build [Modifiers.unit]) "N" := by
  have hfacts : (∃ m ∈ (build [Modifiers.unit]).methods, m.symbol.id.name = "M" ∧ m.isExtension ∧
        (build [Modifiers.unit]).findExtensions "M" = []) ∧
      ∃ m ∈ (build [Modifiers.unit]).findExtensions "N", m.isExtension = false := by
    decide +kernel
  obtain ⟨hmissing, hspurious⟩ := hfacts
  refine ⟨hmissing, hspurious, fun hlists ↦ ?_, fun hlists ↦ ?_⟩
  · obtain ⟨m, hm, hname, hext, hnone⟩ := hmissing
    have hfound := (hlists.exact m).2 ⟨hm, hname, hext⟩
    rw [hnone] at hfound
    cases hfound
  · obtain ⟨m, hm, hext⟩ := hspurious
    rw [((hlists.exact m).1 hm).2.2] at hext
    cases hext

end Registry

end MemberReach
