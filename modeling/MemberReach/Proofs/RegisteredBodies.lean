import Mathlib.Data.List.TakeDrop
import MemberReach.Proofs.Overloads
import MemberReach.Proofs.Reachability
import MemberReach.Proofs.TreeOrder

/-!
# Bodies of registered methods

An entry of the method table remembers the declaration it was made from by its unit and its span
only. In a well-formed tree two nodes around the same piece of source are above each other
(`above_or_above`), so the climb from the smallest node around the span of a declaration meets the
declaration, and nothing with its kind and span before it unless methods with one span are nested
(`climb_eq_declaration`). So every registered method is found again (`registered_methods_found`),
and the closure of a method skips nothing.
-/

namespace MemberReach

namespace Cursor

variable {tree : Node} {a b c : Cursor} {start stop : Nat}

/-! ### Nodes around a span -/

/-- A node above a node that lies around a piece of source lies around it too. -/
theorem spans_of_above (htree : tree.wellFormed) (hc : IsIn tree c) (ha : a ∈ c :: c.ancestors)
    (hspans : c.Spans start stop) : a.Spans start stop := by
  obtain ⟨hstart, hstop⟩ := hc.span_of_above htree ha
  exact ⟨Nat.le_trans hstart hspans.1, Nat.le_trans hspans.2 hstop⟩

/-- Of two nodes around the same piece of source, one is above the other, unless they are the same
node. -/
theorem above_or_above (htree : tree.wellFormed) (hlt : start < stop) (ha : IsIn tree a)
    (hb : IsIn tree b) (haspans : a.Spans start stop) (hbspans : b.Spans start stop) :
    a ∈ b :: b.ancestors ∨ b ∈ a.ancestors := by
  unfold Spans at haspans hbspans
  rcases order_cases ha hb with habove | habove | hprecedes | hprecedes
  · exact Or.inl habove
  · exact Or.inr habove
  · have := hprecedes.stop_le_start htree ha hb
    omega
  · have := hprecedes.stop_le_start htree hb ha
    omega

/-- The smallest node around a piece of source: none of its children lies around it. -/
structure Smallest (tree : Node) (start stop : Nat) (c : Cursor) : Prop where
  isIn : IsIn tree c
  spans : c.Spans start stop
  least : ∀ d ∈ c.children, ¬ d.Spans start stop

/-- There is a smallest node around a piece of source that some node lies around. -/
theorem exists_smallest (hc : IsIn tree c) (hspans : c.Spans start stop) :
    ∃ n, Smallest tree start stop n := by
  induction hsize : c.node.size using Nat.strongRecOn generalizing c with
  | _ size ih =>
      by_cases hchild : ∃ d ∈ c.children, d.Spans start stop
      · obtain ⟨d, hd, hdspans⟩ := hchild
        exact ih _ (hsize ▸ size_lt_of_mem_children hd) (hc.child hd) hdspans rfl
      · exact ⟨c, hc, hspans, fun d hd hdspans ↦ hchild ⟨d, hd, hdspans⟩⟩

/-- A node around a piece of source is above the smallest one. -/
theorem Smallest.above {n : Cursor} (htree : tree.wellFormed) (hlt : start < stop)
    (hn : Smallest tree start stop n) (hc : IsIn tree c) (hspans : c.Spans start stop) :
    c ∈ n :: n.ancestors := by
  rcases above_or_above htree hlt hc hn.isIn hspans hn.spans with habove | hbelow
  · exact habove
  · obtain ⟨d, hd, hdabove⟩ := hc.exists_child_above hbelow
    exact absurd (spans_of_above htree hc hdabove hspans) (hn.least d hd)

end Cursor

/-! ### Texts of nodes -/

namespace Node

open Cursor

/-- The nodes of a tree cover the text that they span. -/
def Spelled (bytes : ByteArray) (tree : Node) : Prop :=
  ∀ c, IsIn tree c → c.text = sourceText bytes c.start c.stop

/-- A node below the root is a node of the tree below a child of the root. -/
theorem inner_of_is_in {label : Label} {nodes : List Node} {c : Cursor}
    (h : IsIn (.mk label nodes) c) :
    c = .atRoot (.mk label nodes) ∨ ∃ n ∈ nodes, ∃ d, IsIn n d ∧ d.node = c.node := by
  induction h with
  | root => exact Or.inl rfl
  | @child p c _ hmem ih =>
      obtain ⟨i, n, hn, rfl⟩ := mem_children.1 hmem
      refine Or.inr ?_
      rcases ih with rfl | ⟨m, hm, d, hd, hnode⟩
      · exact ⟨n, List.mem_of_getElem? hn, .atRoot n, IsIn.root, rfl⟩
      · exact ⟨m, hm, ⟨n, ⟨d.node, i⟩ :: d.above⟩,
          hd.child (mem_children.2 ⟨i, n, hnode ▸ hn, rfl⟩), rfl⟩

/-- A tree covers its text if its root and the trees below do. -/
theorem spelled_of_children {bytes : ByteArray} {label : Label} {nodes : List Node}
    (hlabel : label.text = sourceText bytes label.start label.stop)
    (hnodes : ∀ n ∈ nodes, n.Spelled bytes) : (mk label nodes).Spelled bytes := by
  intro c hc
  rcases inner_of_is_in hc with rfl | ⟨n, hn, d, hd, hnode⟩
  · exact hlabel
  · have hspelled := hnodes n hn d hd
    unfold text start stop at hspelled ⊢
    rwa [hnode] at hspelled

/-- A tree that is read from rows covers its text. -/
theorem spelled_of_rows {source : String} {rows : List Row} {tree : Node}
    (h : ofRows? source rows = some tree) : tree.Spelled source.toUTF8 := by
  have hforest : ∀ t ∈ rows.foldr (Row.plant source.toUTF8) [], t.2.Spelled source.toUTF8 := by
    clear h
    induction rows with
    | nil => exact fun t ht ↦ absurd ht List.not_mem_nil
    | cons row rows ih =>
        intro t ht
        rw [List.foldr_cons, Row.plant, List.span_eq_takeWhile_dropWhile] at ht
        rcases List.mem_cons.1 ht with rfl | ht
        · refine spelled_of_children rfl fun n hn ↦ ?_
          obtain ⟨inner, hinner, rfl⟩ := List.mem_map.1 hn
          exact ih inner (List.takeWhile_subset _ hinner)
        · exact ih t (List.dropWhile_subset _ ht)
  unfold ofRows? at h
  split at h
  next depth node hplanted =>
    rw [Option.some.inj h] at hplanted
    exact hforest (depth, tree) (hplanted ▸ List.mem_singleton_self _)
  next => cases h

end Node

/-! ### Well-formed units -/

namespace SourceUnit

open Cursor

/-- What the parser guarantees of a unit: the nodes stand in document order, cover the text of the
source that they span, and words and marks have no parts. -/
structure WellFormed (unit : SourceUnit) : Prop where
  ordered : unit.tree.wellFormed
  spelled : unit.tree.Spelled unit.source.toUTF8
  tokens : ∀ c, IsIn unit.tree c → c.named = false → c.children = []

/-- No method declaration stands in another one with the same span. -/
def MethodsApart (unit : SourceUnit) : Prop :=
  ∀ c, IsIn unit.tree c → c.kind = .methodDeclaration → ∀ a ∈ c.ancestors,
    a.kind = .methodDeclaration → a.start = c.start → a.stop ≠ c.stop

instance (unit : SourceUnit) : Decidable unit.MethodsApart :=
  inferInstanceAs (Decidable (∀ c, IsIn unit.tree c → _))

namespace WellFormed

variable {unit : SourceUnit} {c : Cursor}

/-- A unit whose tree is read from rows is well formed if the tree is in order and its words and
marks have no parts. -/
theorem of_rows {rows : List Row} (hrows : Node.ofRows? unit.source rows = some unit.tree)
    (hordered : unit.tree.wellFormed)
    (htokens : ∀ c, IsIn unit.tree c → c.named = false → c.children.isEmpty) :
    unit.WellFormed where
  ordered := hordered
  spelled := Node.spelled_of_rows hrows
  tokens c hc hnamed := List.isEmpty_iff.1 (htokens c hc hnamed)

/-- Every named node below the root is listed among the descendants of the root. -/
theorem mem_descendants (h : unit.WellFormed) (hc : IsIn unit.tree c) (hnamed : c.named) :
    c = unit.root ∨ c ∈ unit.root.descendants :=
  hc.mem_descendants h.tokens hnamed

/-- A node with a declared name is not empty. -/
theorem start_lt_stop (h : unit.WellFormed) (hc : IsIn unit.tree c)
    (hname : c.declaredName?.isSome) : c.start < c.stop := by
  obtain ⟨name, hchild, hne⟩ := exists_name hname
  have hmem := mem_children_of_child hchild
  have hwithin := span_of_mem_children (hc.well_formed h.ordered) hmem
  have hnonempty : name.start < name.stop := by
    by_contra hle
    rw [h.spelled name (hc.child hmem), source_text_of_le _ (Nat.le_of_not_lt hle)] at hne
    exact hne rfl
  omega

/-- A method that is a member of a type declaration is listed among the methods of the unit. -/
theorem mem_methods (h : unit.WellFormed) (hc : Registry.IsMember unit c)
    (hkind : c.kind = .methodDeclaration) : c ∈ Model.methodDeclarations unit := by
  refine List.mem_filter.2 ⟨?_, beq_iff_eq.2 hkind⟩
  have hcin := hc.is_in
  obtain ⟨t, ht, _, hmem⟩ := hc
  obtain ⟨body, hbody, hmem⟩ := Registry.mem_members.1 hmem
  refine (h.mem_descendants hcin (List.mem_filter.1 hmem).2).resolve_left ?_
  rintro rfl
  -- the root has nothing above it, but a member has
  have hparent := parent_of_mem_children (mem_children_of_named hmem)
  cases hparent

/-- The method declaration that is found with the span of a method is that method. -/
theorem find_method (h : unit.WellFormed) (hapart : unit.MethodsApart)
    (hc : c ∈ Model.methodDeclarations unit) (hlt : c.start < c.stop) :
    Model.methodAt? unit c.start c.stop = some c := by
  have hcin : IsIn unit.tree c := IsIn.root.descendant (List.mem_filter.1 hc).1
  refine Model.method_at_eq_find_last h.ordered hlt
    (find_last_span h.ordered hc hlt fun d hd hkind hstart hstop ↦ ?_)
  have habove := mem_ancestors_of_mem_below hd
  have hdin : IsIn unit.tree d := hcin.descendant (descendants_eq_below c ▸ hd)
  exact hapart d hdin (eq_of_beq hkind) c habove (eq_of_beq (List.mem_filter.1 hc).2) hstart.symm
    hstop.symm

/-- The climb from the smallest node around the span of a method ends at the method. -/
theorem climb_eq_declaration (h : unit.WellFormed) (hapart : unit.MethodsApart)
    (hc : IsIn unit.tree c) (hnamed : c.named) (hkind : c.kind = .methodDeclaration)
    (hlt : c.start < c.stop) {n : Cursor} (hn : Smallest unit.tree c.start c.stop n) :
    n.climb c.start c.stop = some c := by
  obtain ⟨first, rest, hsplit⟩ := List.append_of_mem
    (hn.above h.ordered hlt hc ⟨Nat.le_refl _, Nat.le_refl _⟩)
  rw [climb, hsplit, List.find?_append, List.find?_eq_none.2 fun d hd ↦ ?_]
  · simp [hnamed, hkind]
  · -- what is met earlier stands in the method
    have habove := mem_ancestors_of_append hsplit hd
    have hdin : IsIn unit.tree d := hn.isIn.of_above (hsplit ▸ List.mem_append_left _ hd)
    simp only [Bool.and_eq_true, beq_iff_eq, not_and]
    exact fun hspan hstop ↦ hapart d hdin hspan.1.2 c habove hkind hspan.2.symm hstop.symm

end WellFormed

end SourceUnit

/-! ### Entries of the method table -/

namespace Registry

/-- The declaration that counts is one of the declarations. -/
theorem mem_of_preferred {declared : List MethodDecl} {m : MethodDecl}
    (h : preferred declared = some m) : m ∈ declared := by
  rcases Option.or_eq_some_iff.1 h with h | ⟨_, h⟩
  · exact (List.mem_filter.1 (List.mem_of_getLast? h)).1
  · exact List.mem_of_getLast? h

variable {units : List SourceUnit} {unit : SourceUnit} {m : MethodDecl} {c : Cursor} {id : SymbolId}

/-- An entry of the method table was made from a declaration of a unit, a member of a type
declaration. -/
structure MadeFrom (units : List SourceUnit) (m : MethodDecl) (unit : SourceUnit) (c : Cursor) :
    Prop where
  inUnit : units[m.unit]? = some unit
  kind : c.kind = .methodDeclaration
  recorded : ∃ t ∈ typeDeclarations unit, ∃ key, (Scope.of t).typeKey? = some key ∧
    c ∈ members t ∧ ∃ n, Site.method? ⟨m.unit, unit, key, Scope.of t⟩ c = some n ∧
      m = (collectAll units).resolveMethodDecl n

/-- Every entry was made from a declaration. -/
theorem exists_made_from (h : (build units).method? id = some m) :
    ∃ unit c, MadeFrom units m unit c := by
  rw [method_build] at h
  obtain ⟨n, hn, rfl⟩ := Option.map_eq_some_iff.1 h
  obtain ⟨i, unit, t, key, c, hunit, ht, hkey, hc, hkind, hrecorded⟩ :=
    mem_declared_methods.1 (List.mem_filter.1 (mem_of_preferred hn)).1
  obtain rfl := (Site.method_records hrecorded).unit
  exact ⟨unit, c, hunit, hkind, t, ht, key, hkey, hc, n, hrecorded, rfl⟩

namespace MadeFrom

/-- An entry is made from a member of a type declaration. -/
theorem is_member (h : MadeFrom units m unit c) : IsMember unit c := by
  obtain ⟨t, ht, key, hkey, hc, _⟩ := h.recorded
  exact ⟨t, ht, hkey ▸ rfl, hc⟩

/-- An entry has the identity, the span and the body of the declaration. -/
theorem entry (h : MadeFrom units m unit c) :
    methodIdentity? c = some m.symbol.id ∧ m.start = c.start ∧ m.stop = c.stop ∧
      m.hasBody = c.body?.isSome := by
  obtain ⟨t, _, key, _, _, n, hn, rfl⟩ := h.recorded
  have hrecords := Site.method_records hn
  exact ⟨hrecords.id, hrecords.start, hrecords.stop, hrecords.hasBody⟩

end MadeFrom

end Registry

namespace Model

open Cursor Registry

/-- A declaration is found again by what its entry remembers. -/
structure FoundAgain (units : List SourceUnit) (m : MethodDecl) (unit : SourceUnit) (c : Cursor) :
    Prop where
  inUnit : units[m.unit]? = some unit
  isIn : IsIn unit.tree c
  kind : c.kind = .methodDeclaration
  identity : methodIdentity? c = some m.symbol.id
  start : c.start = m.start
  stop : c.stop = m.stop
  /-- The look-up finds the declaration and its body. -/
  found : (ofUnits units).methodBody? m.symbol = some ⟨m.unit, c, c.body?⟩
  body : c.body?.isSome = m.hasBody
  /-- There is a smallest node around the span, and the climb from it ends at the declaration. -/
  smallest : ∃ n, Smallest unit.tree m.start m.stop n
  climbed : ∀ n, Smallest unit.tree m.start m.stop n → n.climb m.start m.stop = some c

variable {units : List SourceUnit}

/-- The declaration that an entry was made from is found again. -/
theorem found_again {id : SymbolId} {m : MethodDecl} {unit : SourceUnit} {c : Cursor}
    (hm : (build units).method? id = some m) (hmade : MadeFrom units m unit c)
    (hformed : unit.WellFormed) (hapart : unit.MethodsApart) : FoundAgain units m unit c := by
  obtain ⟨hidentity, hstart, hstop, hbody⟩ := hmade.entry
  have hc := hmade.is_member.is_in
  have hname : c.declaredName?.isSome := by
    obtain ⟨name, _, hname, _⟩ := method_identity_eq_some.1 hidentity
    rw [hname]
    rfl
  have hlt := hformed.start_lt_stop hc hname
  have hmethods := hformed.mem_methods hmade.is_member hmade.kind
  have hfound := hformed.find_method hapart hmethods hlt
  have hnamed := (size_lt_of_mem_below (descendants_eq_below unit.root ▸
    (List.mem_filter.1 hmethods).1)).2
  have hclimb := fun n hn ↦
    hformed.climb_eq_declaration hapart hc hnamed hmade.kind hlt (n := n) hn
  rw [← hstart, ← hstop] at hfound hclimb
  refine
    { inUnit := hmade.inUnit
      isIn := hc
      kind := hmade.kind
      identity := hidentity
      start := hstart.symm
      stop := hstop.symm
      found := ?_
      body := hbody.symm
      smallest := exists_smallest hc ⟨hstart.ge, hstop.le⟩
      climbed := hclimb }
  have hentry : (ofUnits units).registry.method? m.symbol.id = some m := id_of_method hm ▸ hm
  have hunit : (ofUnits units).units[m.unit]? = some unit := hmade.inUnit
  simp only [methodBody?, hentry, hunit, hfound, Option.bind_eq_bind, Option.bind_some,
    Option.pure_def]

/-- In well-formed units without nested methods of one span, every registered method is found again,
and the closure of a method skips nothing, whatever is external. -/
theorem registered_methods_found (hformed : ∀ unit ∈ units, unit.WellFormed)
    (hapart : ∀ unit ∈ units, unit.MethodsApart) :
    (∀ id m, (ofUnits units).registry.method? id = some m →
      (∃ unit c, MadeFrom units m unit c) ∧
        ∀ unit c, MadeFrom units m unit c → FoundAgain units m unit c) ∧
    ∀ external order seed, (ofUnits units).registry.Declares seed →
      ((ofUnits units).closure external (fun _ ↦ false) order seed).skipped.toList = [] ∧
        ((ofUnits units).closure external (fun _ ↦ false) order seed).bodiesClassified =
          ((ofUnits units).closure external (fun _ ↦ false) order seed).iterations := by
  have hfound : ∀ id m, (ofUnits units).registry.method? id = some m →
      ∀ unit c, MadeFrom units m unit c → FoundAgain units m unit c := by
    intro id m hm unit c hmade
    have hunit := List.mem_of_getElem? hmade.inUnit
    exact found_again hm hmade (hformed unit hunit) (hapart unit hunit)
  refine ⟨fun id m hm ↦ ⟨exists_made_from hm, hfound id m hm⟩, fun external order seed hseed ↦ ?_⟩
  have hground := resolver_grounded (ofUnits units) external fun _ ↦ false
  have hskipped : ((ofUnits units).closure external (fun _ ↦ false) order seed).skipped.toList =
      [] := by
    refine List.eq_nil_iff_forall_not_mem.2 fun s hs ↦ ?_
    obtain ⟨hreached, hnone⟩ := (Closure.mem_skipped_iff hground order hseed).1 hs
    have hvisited := (Closure.mem_visited_iff hground order hseed).2 hreached
    obtain ⟨m, hm, rfl⟩ := Closure.visited_declared hground order hseed hvisited
    obtain ⟨unit, c, hmade⟩ := exists_made_from hm
    have hbody := (hfound _ m hm unit c hmade).found
    change (ofUnits units).methodBody? m.symbol = none at hnone
    rw [hnone] at hbody
    cases hbody
  refine ⟨hskipped, ?_⟩
  have hsizes := Closure.classified_add_skipped hground order hseed
  have hiterations := Closure.iterations_eq_size hground order hseed
  change (Closure.build _ _ _ _).skipped.toList = [] at hskipped
  rw [SymbolSet.size, hskipped, List.length_nil, Nat.add_zero] at hsizes
  exact hsizes.trans hiterations.symm

end Model

namespace Redeclared

open Row

/-- A type that has a method of another file too. -/
def source : String :=
  "class A \x7b void M() \x7b \x7d \x7d"

/-- The nodes of the source. -/
def rows : List Row :=
  [node 0 .compilationUnit 0 24, node 1 .classDeclaration 0 24, token 2 "class" 0 5,
    part 2 .identifier .name 6 1, part 2 .declarationList .body 8 16, token 3 "\x7b" 8 1] ++
  plainMethod 3 10 1 ++ [token 3 "\x7d" 23 1]

/-- The second file of the project. -/
def unit : SourceUnit :=
  .create ⟨"B.cs"⟩ none source ((Node.ofRows? source rows).getD default)

/-- A project of two files that declare the same method. -/
def units : List SourceUnit :=
  [Conditional.unit, unit]

open Cursor in
/-- The units of the project are well formed, and their methods stand apart. -/
theorem units_well_formed : ∀ unit ∈ units, unit.WellFormed ∧ unit.MethodsApart := by
  have hread : ∀ (source : String) (rows : List Row), (Node.ofRows? source rows).isSome →
      Node.ofRows? source rows = some ((Node.ofRows? source rows).getD default) := by
    intro source rows h
    obtain ⟨tree, htree⟩ := Option.isSome_iff_exists.1 h
    rw [htree]
    rfl
  have hformed : ∀ unit ∈ units, unit.tree.wellFormed ∧ unit.MethodsApart ∧
      ∀ c, IsIn unit.tree c → c.named = false → c.children.isEmpty := by decide +kernel
  intro unit hunit
  obtain ⟨hordered, hapart, htokens⟩ := hformed unit hunit
  refine ⟨?_, hapart⟩
  rcases List.mem_cons.1 hunit with rfl | hunit
  · exact .of_rows (hread _ Conditional.rows (by decide +kernel)) hordered htokens
  · obtain rfl := List.mem_singleton.1 hunit
    exact .of_rows (hread _ rows (by decide +kernel)) hordered htokens

end Redeclared

namespace Model

open Registry

/-- Of a method that two files declare, the second declaration is found, and its closure skips
nothing. -/
theorem registered_methods_found_redeclared :
    (∀ unit ∈ Redeclared.units, unit.WellFormed ∧ unit.MethodsApart) ∧
      (∃ m unit c, (ofUnits Redeclared.units).registry.method? (.method ⟨"A"⟩ "M" []) = some m ∧
        m.unit = 1 ∧ m.hasBody ∧ FoundAgain Redeclared.units m unit c) ∧
      ∃ seed, (ofUnits Redeclared.units).registry.Declares seed ∧
        ((ofUnits Redeclared.units).closure (fun _ ↦ false) (fun _ ↦ false) .fifo
          seed).skipped.toList = [] := by
  have hunits := Redeclared.units_well_formed
  have hentry : ∃ m ∈ (ofUnits Redeclared.units).registry.method? (.method ⟨"A"⟩ "M" []),
      m.unit = 1 ∧ m.hasBody := by decide +kernel
  obtain ⟨m, hm, hunit, hbody⟩ := hentry
  obtain ⟨hfound, hclosure⟩ := registered_methods_found
    (fun unit h ↦ (hunits unit h).1) fun unit h ↦ (hunits unit h).2
  obtain ⟨⟨unit, c, hmade⟩, hagain⟩ := hfound _ m hm
  have hdeclared : (ofUnits Redeclared.units).registry.Declares m.symbol :=
    ⟨m, id_of_method hm ▸ hm, rfl⟩
  exact ⟨hunits, ⟨m, unit, c, hm, hunit, hbody, hagain unit c hmade⟩, m.symbol, hdeclared,
    (hclosure _ .fifo m.symbol hdeclared).1⟩

end Model

end MemberReach
