import Mathlib.Data.List.Flatten
import MemberReach.Proofs.Inheritance
import MemberReach.Registry.Collect
import MemberReach.Grammar.Rules

/-!
# Derived types before their bases

A look-up by name goes through the chain of a type and takes the first member it meets, so a member
of a derived type hides those of its bases only if the chain lists the derived type first. Visiting
the bases of a type from left to right does not ensure this: a later base that derives from one that
is reached from an earlier base comes after it (`base_method_before_derived`). For types that do not
inherit from themselves nothing else can go wrong (`derived_first_iff`). While a chain is listed,
all that the types on the stack inherit from is met in order, as long as the bases are
(`chain_from_derived_first`).
-/

namespace MemberReach.Registry

variable {r : Registry} {key k a b : TypeKey} {t : TypeDecl} {seen upper rest : List TypeKey}

/-! ### Derived types -/

/-- A type inherits from another one through at least one base. -/
def DerivesFrom (r : Registry) : TypeKey → TypeKey → Prop :=
  Relation.TransGen r.HasBase

/-- No type inherits from itself. -/
def Acyclic (r : Registry) : Prop :=
  ∀ key, ¬ r.DerivesFrom key key

/-- Types inherit from themselves only if a base of one of them does inherit from it. -/
theorem acyclic_iff : r.Acyclic ↔ ∀ t ∈ r.types, r.type? t.key = some t →
    ∀ b ∈ t.bases, t.key ∉ keysOf (r.typeChain b) := by
  constructor
  · intro h t _ ht b hb hmem
    obtain ⟨u, hu, hkey⟩ := List.mem_map.1 hmem
    have hinherits := (mem_type_chain.1 hu).2
    exact h t.key (Relation.TransGen.head' ⟨t, ht, hb⟩ (hkey ▸ hinherits))
  · intro h key hcycle
    obtain ⟨b, ⟨t, ht, hb⟩, hinherits⟩ := Relation.TransGen.head'_iff.1 hcycle
    have hkey := key_of_type ht
    have hchain : t ∈ r.typeChain b := mem_type_chain.2 (hkey.symm ▸ ⟨ht, hinherits⟩)
    exact h t (List.mem_of_find?_eq_some ht) (hkey.symm ▸ ht) b hb (List.mem_map_of_mem hchain)

instance (r : Registry) : Decidable r.Acyclic :=
  decidable_of_iff _ acyclic_iff.symm

/-- A type derives from its bases and from what they inherit from. -/
theorem derives_of_base (ht : r.type? key = some t) (hbase : b ∈ t.bases) (hk : r.Inherits b k) :
    r.DerivesFrom key k :=
  Relation.TransGen.head' ⟨t, ht, hbase⟩ hk

/-- A type that is not declared inherits from nothing else. -/
theorem inherits_of_undeclared (h : r.type? key = none) (hk : r.Inherits key k) : k = key := by
  rcases Relation.ReflTransGen.cases_head hk with heq | ⟨_, hbase, _⟩
  · exact heq.symm
  · obtain ⟨t, ht, _⟩ := hbase
    rw [h] at ht
    cases ht

/-- A declared type is one of those that it inherits from, the others are inherited from bases. -/
theorem inherits_iff (ht : r.type? key = some t) :
    r.Inherits key k ↔ k = key ∨ ∃ b ∈ t.bases, r.Inherits b k := by
  constructor
  · intro hk
    rcases Relation.ReflTransGen.cases_head hk with heq | ⟨b, ⟨u, hu, hbase⟩, hinherits⟩
    · exact Or.inl heq.symm
    · rw [ht] at hu
      cases hu
      exact Or.inr ⟨b, hbase, hinherits⟩
  · rintro (rfl | ⟨b, hbase, hinherits⟩)
    · exact Relation.ReflTransGen.refl
    · exact (derives_of_base ht hbase hinherits).to_reflTransGen

/-- The declared types that some types are or inherit from. -/
def reached (r : Registry) (keys : List TypeKey) : List TypeKey :=
  keysOf (keys.flatMap r.typeChain)

/-- What is reached are the declared types that are inherited from. -/
theorem mem_reached {keys : List TypeKey} :
    k ∈ r.reached keys ↔ r.isDeclared k ∧ ∃ x ∈ keys, r.Inherits x k := by
  simp only [reached, keysOf, List.mem_map, List.mem_flatMap]
  constructor
  · rintro ⟨t, ⟨x, hx, ht⟩, rfl⟩
    obtain ⟨htype, hinherits⟩ := mem_type_chain.1 ht
    exact ⟨is_declared_of_type htype, x, hx, hinherits⟩
  · rintro ⟨hdeclared, x, hx, hinherits⟩
    obtain ⟨t, ht⟩ := Option.isSome_iff_exists.1 hdeclared
    have hkey := key_of_type ht
    exact ⟨t, ⟨x, hx, mem_type_chain.2 (hkey.symm ▸ ⟨ht, hinherits⟩)⟩, hkey⟩

/-- No base of a type, nor a type that it inherits from, derives from a type that is reached from an
earlier base, unless it is reached from an earlier base itself. -/
def BasesInOrder (r : Registry) (t : TypeDecl) : Prop :=
  ∀ i : Fin t.bases.length, ∀ w ∈ r.typeChain t.bases[i], ∀ v ∈ w.bases,
    v ∈ r.reached (t.bases.take i) → w.key ∈ r.reached (t.bases.take i)

instance (r : Registry) (t : TypeDecl) : Decidable (r.BasesInOrder t) :=
  inferInstanceAs (Decidable (∀ _ : Fin t.bases.length, _))

/-- The condition on the bases, for the base after some others. -/
theorem BasesInOrder.reached_of_base {before after : List TypeKey} {base w v : TypeKey}
    (h : r.BasesInOrder t) (hbases : t.bases = before ++ base :: after) (hw : r.Inherits base w)
    (hv : r.HasBase w v) (hreached : v ∈ r.reached before) : w ∈ r.reached before := by
  obtain ⟨u, hu, hv⟩ := hv
  have hlt : before.length < t.bases.length := by simp [hbases]
  have hbase : t.bases[before.length] = base := by simp [hbases]
  have htake : t.bases.take before.length = before := by simp [hbases]
  have hkey := key_of_type hu
  have hchain : u ∈ r.typeChain base := mem_type_chain.2 (hkey.symm ▸ ⟨hu, hw⟩)
  have horder := h ⟨before.length, hlt⟩ u (hbase.symm ▸ hchain) v hv
  simp only [htake, hkey] at horder
  exact horder hreached

/-! ### Bases in order give derived types first -/

/-- A type was met, or is going to be through the upper part of the stack. -/
def Covered (r : Registry) (seen upper : List TypeKey) (k : TypeKey) : Prop :=
  k ∈ seen ∨ ∃ x ∈ upper, r.Inherits x k

/-- What a type on the stack inherits from is met in order: of a type and its base, the type is met
first. -/
structure Settled (r : Registry) (seen upper : List TypeKey) (key : TypeKey) : Prop where
  /-- The bases of a type that was met are met before the stack is worked off to here. -/
  base : ∀ k b, r.Inherits key k → k ∈ seen → r.HasBase k b → r.isDeclared b →
    r.Covered seen upper b
  /-- So is a type with a base that is met before. -/
  derived : ∀ k b, r.Inherits key k → r.HasBase k b → r.isDeclared b → r.Covered seen upper b →
    r.Covered seen upper k

/-- All types of the lower part of the stack are settled. -/
def AllSettled (r : Registry) (seen : List TypeKey) (upper : List TypeKey) :
    List TypeKey → Prop
  | [] => True
  | key :: rest => r.Settled seen upper key ∧ r.AllSettled seen (upper ++ [key]) rest

theorem covered_nil : r.Covered seen [] k ↔ k ∈ seen := by
  simp [Covered]

theorem covered_singleton : r.Covered seen [key] k ↔ k ∈ seen ∨ r.Inherits key k := by
  simp [Covered]

theorem covered_append :
    r.Covered seen (upper ++ rest) k ↔ r.Covered seen upper k ∨ ∃ x ∈ rest, r.Inherits x k := by
  simp only [Covered, List.mem_append, or_and_right, exists_or, or_assoc]

theorem all_settled_append (upper first second : List TypeKey) :
    r.AllSettled seen upper (first ++ second) ↔
      r.AllSettled seen upper first ∧ r.AllSettled seen (upper ++ first) second := by
  induction first generalizing upper with
  | nil => simp [AllSettled]
  | cons key first ih =>
      rw [List.cons_append, AllSettled, AllSettled, ih, List.append_assoc, List.singleton_append,
        and_assoc]

namespace Settled

/-- If the top of the stack was met, so was all that it inherits from. -/
theorem inherited_seen (h : r.Settled seen [] key) (hkey : key ∈ seen) (hk : r.Inherits key k) :
    r.isDeclared k → k ∈ seen := by
  induction hk with
  | refl => exact fun _ ↦ hkey
  | tail hj hbase ih =>
      intro hdeclared
      have hseen := ih hbase.is_declared
      exact covered_nil.1 (h.base _ _ hj hseen hbase hdeclared)

/-- If the top of the stack was not met, nothing that it inherits from was. -/
theorem inherited_unseen (h : r.Settled seen [] key) (hkey : key ∉ seen) (hk : r.Inherits key k) :
    r.isDeclared k → k ∉ seen := by
  induction hk with
  | refl => exact fun _ ↦ hkey
  | tail hj hbase ih =>
      intro hdeclared hseen
      have hcovered := h.derived _ _ hj hbase hdeclared (covered_nil.2 hseen)
      exact ih hbase.is_declared (covered_nil.1 hcovered)

end Settled

/-- Working off the top of the stack leaves what is below it settled, if the same types are covered
as before and so are the bases of the types that are met now. -/
theorem AllSettled.pop {seen' : List TypeKey} (new : List TypeKey)
    (hsame : ∀ k, r.isDeclared k → (r.Covered seen [key] k ↔ r.Covered seen' new k))
    (hmet : ∀ k ∈ seen', k ∈ seen ∨ ∀ b, r.HasBase k b → r.Covered seen' new b)
    (h : r.AllSettled seen ([key] ++ upper) rest) : r.AllSettled seen' (new ++ upper) rest := by
  induction rest generalizing upper with
  | nil => trivial
  | cons z rest ih =>
      have hcovered : ∀ k, r.isDeclared k →
          (r.Covered seen ([key] ++ upper) k ↔ r.Covered seen' (new ++ upper) k) := by
        intro k hdeclared
        rw [covered_append, covered_append, hsame k hdeclared]
      obtain ⟨hz, hrest⟩ := h
      rw [List.append_assoc] at hrest
      refine ⟨⟨fun k b hk hseen hbase hb ↦ ?_, fun k b hk hbase hb hbcovered ↦ ?_⟩, ?_⟩
      · rcases hmet k hseen with hseen | hbases
        · exact (hcovered b hb).1 (hz.base k b hk hseen hbase hb)
        · exact covered_append.2 (Or.inl (hbases b hbase))
      · have hk' := hz.derived k b hk hbase hb ((hcovered b hb).2 hbcovered)
        exact (hcovered k hbase.is_declared).1 hk'
      · rw [List.append_assoc]
        exact ih hrest

/-- The bases that take the place of the top of the stack are settled, if they are in order. -/
theorem bases_settled (hacyclic : r.Acyclic) (hkey : r.Settled seen [] key)
    (ht : r.type? key = some t) (hbases : r.BasesInOrder t) {before after : List TypeKey}
    (h : t.bases = before ++ after) : r.AllSettled (key :: seen) before after := by
  induction after generalizing before with
  | nil => trivial
  | cons base after ih =>
      have hderives : ∀ k, r.Inherits base k → r.DerivesFrom key k := fun k hk ↦
        derives_of_base ht (h ▸ List.mem_append_right before List.mem_cons_self) hk
      refine ⟨⟨fun k b hk hseen hbase hb ↦ ?_, fun k b hk hbase hb hbcovered ↦ ?_⟩, ih ?_⟩
      · have hne : k ≠ key := fun heq ↦ hacyclic key (heq ▸ hderives k hk)
        have hseen := (List.mem_cons.1 hseen).resolve_left hne
        have hcovered := hkey.base k b (hderives k hk).to_reflTransGen hseen hbase hb
        exact Or.inl (List.mem_cons_of_mem key (covered_nil.1 hcovered))
      · rcases hbcovered with hseen | hinherits
        · have hne : b ≠ key := fun heq ↦ hacyclic key (heq ▸ (hderives k hk).tail hbase)
          have hseen := (List.mem_cons.1 hseen).resolve_left hne
          have hcovered := hkey.derived k b (hderives k hk).to_reflTransGen hbase hb
            (covered_nil.2 hseen)
          exact Or.inl (List.mem_cons_of_mem key (covered_nil.1 hcovered))
        · have hreached := hbases.reached_of_base h hk hbase (mem_reached.2 ⟨hb, hinherits⟩)
          exact Or.inr (mem_reached.1 hreached).2
      · rw [h, List.append_assoc, List.singleton_append]

namespace AllSettled

/-- Passing over a type that was met before leaves the stack settled. -/
theorem pass_seen (h : r.AllSettled seen [] (key :: rest)) (hseen : key ∈ seen) :
    r.AllSettled seen [] rest := by
  obtain ⟨hkey, hrest⟩ := h
  refine hrest.pop [] (fun k hk ↦ ?_) fun k hk ↦ Or.inl hk
  rw [covered_singleton, covered_nil]
  exact or_iff_left_of_imp fun hinherits ↦ hkey.inherited_seen hseen hinherits hk

/-- Passing over a type that is not declared leaves the stack settled. -/
theorem pass_undeclared (h : r.AllSettled seen [] (key :: rest)) (hnone : r.type? key = none) :
    r.AllSettled (key :: seen) [] rest := by
  obtain ⟨_, hrest⟩ := h
  refine hrest.pop [] (fun k hk ↦ ?_) fun k hk ↦ ?_
  · have hne := ne_of_declared hk hnone
    rw [covered_singleton, covered_nil, List.mem_cons, or_iff_right hne]
    exact or_iff_left_of_imp fun hinherits ↦ absurd (inherits_of_undeclared hnone hinherits) hne
  · rcases List.mem_cons.1 hk with rfl | hk
    · exact Or.inr fun b hbase ↦ absurd rfl (ne_of_declared hbase.is_declared hnone)
    · exact Or.inl hk

/-- Listing a type whose bases are in order leaves the stack settled. -/
theorem list_new (h : r.AllSettled seen [] (key :: rest)) (hacyclic : r.Acyclic)
    (ht : r.type? key = some t) (hbases : r.BasesInOrder t) :
    r.AllSettled (key :: seen) [] (t.bases ++ rest) := by
  obtain ⟨hkey, hrest⟩ := h
  have hlower : r.AllSettled (key :: seen) (t.bases ++ []) rest := by
    refine hrest.pop t.bases (fun k _ ↦ ?_) fun k hk ↦ ?_
    · rw [covered_singleton, inherits_iff ht, Covered, List.mem_cons, or_assoc, or_left_comm]
    · rcases List.mem_cons.1 hk with rfl | hk
      · refine Or.inr fun b hbase ↦ Or.inr ⟨b, ?_, Relation.ReflTransGen.refl⟩
        obtain ⟨u, hu, hbase⟩ := hbase
        rw [ht] at hu
        exact Option.some.inj hu ▸ hbase
      · exact Or.inl hk
  rw [List.append_nil] at hlower
  exact (all_settled_append [] t.bases rest).2
    ⟨bases_settled hacyclic hkey ht hbases rfl, hlower⟩

end AllSettled

/-- A chain from a settled stack lists no type that derives from one that was met before or is
listed earlier. -/
theorem chain_from_derived_first (hacyclic : r.Acyclic) {stack : List TypeKey}
    (hstack : r.AllSettled seen [] stack)
    (hbases : ∀ t ∈ r.chainFrom seen stack, r.BasesInOrder t) :
    (∀ t ∈ r.chainFrom seen stack, ∀ k ∈ seen, r.isDeclared k → ¬ r.DerivesFrom t.key k) ∧
      (r.chainFrom seen stack).Pairwise fun a b ↦ ¬ r.DerivesFrom b.key a.key := by
  fun_induction chainFrom r seen stack with
  | case1 => exact ⟨fun t ht ↦ absurd ht List.not_mem_nil, List.Pairwise.nil⟩
  | case2 seen key rest hseen ih => exact ih (hstack.pass_seen hseen) hbases
  | case3 seen key rest hseen hnone ih =>
      obtain ⟨hmet, hpairwise⟩ := ih (hstack.pass_undeclared hnone) hbases
      exact ⟨fun t ht k hk ↦ hmet t ht k (List.mem_cons_of_mem key hk), hpairwise⟩
  | case4 seen key rest hseen u hu ih =>
      have hlisted := hstack.list_new hacyclic hu (hbases u List.mem_cons_self)
      obtain ⟨hmet, hpairwise⟩ := ih hlisted fun t ht ↦ hbases t (List.mem_cons_of_mem u ht)
      have hkey := key_of_type hu
      refine ⟨fun t ht k hk hdeclared ↦ ?_, List.pairwise_cons.2 ⟨fun t ht ↦ ?_, hpairwise⟩⟩
      · rcases List.mem_cons.1 ht with rfl | ht
        · rw [hkey]
          exact fun hderives ↦
            hstack.1.inherited_unseen hseen hderives.to_reflTransGen hdeclared hk
        · exact hmet t ht k (List.mem_cons_of_mem key hk) hdeclared
      · rw [hkey]
        exact hmet t ht key List.mem_cons_self (is_declared_of_type hu)

/-! ### Derived types first give bases in order -/

/-- Where a type is listed, its bases are on top of the stack and the types listed before it have
been met. -/
theorem chain_from_split {stack : List TypeKey} (ht : t ∈ r.chainFrom seen stack) :
    ∃ before rest, r.chainFrom seen stack =
      before ++ t :: r.chainFrom (t.key :: (keysOf before ++ seen)) (t.bases ++ rest) := by
  fun_induction chainFrom r seen stack with
  | case1 => cases ht
  | case2 seen key rest hseen ih => exact ih ht
  | case3 seen key rest hseen hnone ih =>
      obtain ⟨before, lower, heq⟩ := ih ht
      refine ⟨before, lower, heq.trans ?_⟩
      rw [chain_from_congr (fun k hk ↦ ?_)]
      simp [ne_of_declared hk hnone]
  | case4 seen key rest hseen u hu ih =>
      rcases List.mem_cons.1 ht with rfl | ht
      · refine ⟨[], rest, ?_⟩
        rw [key_of_type hu, keys_of_nil, List.nil_append, List.nil_append]
      · obtain ⟨before, lower, heq⟩ := ih ht
        refine ⟨u :: before, lower, ?_⟩
        rw [heq, List.cons_append, chain_from_congr (fun k _ ↦ ?_)]
        simp only [keys_of_cons, key_of_type hu, List.mem_cons, List.mem_append]
        exact or_congr_right (or_left_comm.trans or_assoc.symm)

/-- If derived types come first, nothing that a listed type derives from was met before it. -/
theorem derived_unmet (hacyclic : r.Acyclic) {before after : List TypeDecl}
    (hchain : (before ++ t :: after).Pairwise fun a b ↦ ¬ r.DerivesFrom b.key a.key)
    (hk : r.DerivesFrom t.key k) : k ∉ t.key :: keysOf before := by
  intro hmet
  rcases List.mem_cons.1 hmet with rfl | hmet
  · exact hacyclic _ hk
  · obtain ⟨u, hu, rfl⟩ := List.mem_map.1 hmet
    exact (List.pairwise_append.1 hchain).2.2 u hu t List.mem_cons_self hk

/-- If derived types come first, the bases of every type in a chain are in order. -/
theorem bases_in_order_of_derived_first (hacyclic : r.Acyclic)
    (hchain : (r.typeChain key).Pairwise fun a b ↦ ¬ r.DerivesFrom b.key a.key)
    (ht : t ∈ r.typeChain key) : r.BasesInOrder t := by
  intro i w hw v hv hreached
  obtain ⟨htype, hkey⟩ := mem_type_chain.1 ht
  obtain ⟨hwtype, hwbase⟩ := mem_type_chain.1 hw
  obtain ⟨hvdeclared, x, hx, hvx⟩ := mem_reached.1 hreached
  have hwderives := derives_of_base htype (List.getElem_mem i.isLt) hwbase
  have hwchain : w ∈ r.typeChain key :=
    mem_type_chain.2 ⟨hwtype, hkey.trans hwderives.to_reflTransGen⟩
  by_contra hunreached
  obtain ⟨before, rest, hsplit⟩ := chain_from_split ht
  rw [typeChain, hsplit, List.append_nil] at hchain hwchain
  have hunmet : ∀ k, r.DerivesFrom t.key k → k ∉ t.key :: keysOf before :=
    fun k hk ↦ derived_unmet hacyclic hchain hk
  -- the earlier bases list the type that `w` has as a base, and `w` comes after them
  rw [← List.take_append_drop i t.bases, List.append_assoc, chain_from_append] at hchain hwchain
  have hvlisted := mem_of_inherits hx
    (fun j hj _ ↦ hunmet j (derives_of_base htype (List.mem_of_mem_take hx) hj)) hvx hvdeclared
  obtain ⟨u, hu, rfl⟩ := List.mem_map.1 hvlisted
  simp only [List.mem_append, List.mem_cons] at hwchain
  rcases hwchain with hbefore | rfl | hupper | hlower
  · exact hunmet w.key hwderives (List.mem_cons_of_mem _ (List.mem_map_of_mem hbefore))
  · exact hunmet w.key hwderives List.mem_cons_self
  · obtain ⟨_, _, y, hy, hwy⟩ := of_mem_chain_from hupper
    exact hunreached (mem_reached.2 ⟨is_declared_of_type hwtype, y, hy, hwy⟩)
  · have hlisted := (List.pairwise_cons.1 (List.pairwise_append.1 hchain).2.1).2
    have hearlier := (List.pairwise_append.1 hlisted).2.2 u hu w hlower
    exact hearlier (Relation.TransGen.single ⟨w, hwtype, hv⟩)

/-! ### Members -/

/-- The methods of a name that a type declares. -/
def methodsOn (r : Registry) (t : TypeDecl) (name : String) : List MethodDecl :=
  (t.methods.filter fun id ↦ id.name == name).filterMap r.method?

/-- The members of a type are preferred to those of the types it derives from, for every name. -/
structure DerivedFirst (r : Registry) (key : TypeKey) : Prop where
  /-- No type of the chain comes before one that derives from it. -/
  chain : (r.typeChain key).Pairwise fun a b ↦ ¬ r.DerivesFrom b.key a.key
  /-- The methods of a type are listed before those of a type it derives from. -/
  methods : ∀ name, ∀ t ∈ r.typeChain key, ∀ u ∈ r.typeChain key, r.DerivesFrom u.key t.key →
    (r.methodsOn u name ++ r.methodsOn t name).Sublist (r.findMethods key name)
  /-- The property that is found is on a type from which no type with such a property derives. -/
  property : ∀ name p, r.findProperty? key name = some p → ∃ t ∈ r.typeChain key,
    (∃ id ∈ t.properties, id.name = name ∧ r.property? id = some p) ∧
      ∀ u ∈ r.typeChain key, r.DerivesFrom u.key t.key → ∀ id ∈ u.properties, id.name ≠ name
  /-- The field that is found is on a type from which no type with such a field derives. -/
  field : ∀ name f, r.findField? key name = some f → ∃ t ∈ r.typeChain key,
    (f ∈ t.fields ∧ f.name = name) ∧
      ∀ u ∈ r.typeChain key, r.DerivesFrom u.key t.key → ∀ g ∈ u.fields, g.name ≠ name

section Members

variable (hacyclic : r.Acyclic) {chain : List TypeDecl}
  (hchain : chain.Pairwise fun a b ↦ ¬ r.DerivesFrom b.key a.key)

include hacyclic hchain

/-- A type of the chain comes before the types that it derives from. -/
theorem sublist_of_derives {u : TypeDecl} (ht : t ∈ chain) (hu : u ∈ chain)
    (hderives : r.DerivesFrom u.key t.key) : [u, t].Sublist chain := by
  obtain ⟨before, after, rfl⟩ := List.append_of_mem ht
  rcases List.mem_append.1 hu with hbefore | hafter
  · have hu : [u].Sublist before := List.singleton_sublist.2 hbefore
    have ht : [t].Sublist (t :: after) := List.singleton_sublist.2 List.mem_cons_self
    exact hu.append ht
  · rcases List.mem_cons.1 hafter with rfl | hafter
    · exact absurd hderives (hacyclic _)
    · have hlater := (List.pairwise_cons.1 (List.pairwise_append.1 hchain).2.1).1 u hafter
      exact absurd hderives hlater

/-- The first member with a property is on a type from which no type with such a member derives. -/
theorem find_most_derived {α : Type} (members : TypeDecl → List α) (p : α → Bool) {x : α}
    (h : (chain.flatMap members).find? p = some x) :
    ∃ t ∈ chain, x ∈ members t ∧
      ∀ u ∈ chain, r.DerivesFrom u.key t.key → ∀ y ∈ members u, p y = false := by
  induction chain with
  | nil => cases h
  | cons t chain ih =>
      obtain ⟨hfirst, hrest⟩ := List.pairwise_cons.1 hchain
      rw [List.flatMap_cons, List.find?_append] at h
      cases hfound : (members t).find? p with
      | some y =>
          rw [hfound, Option.some_or] at h
          cases h
          refine ⟨t, List.mem_cons_self, List.mem_of_find?_eq_some hfound, fun u hu hderives ↦ ?_⟩
          rcases List.mem_cons.1 hu with rfl | hu
          · exact absurd hderives (hacyclic _)
          · exact absurd hderives (hfirst u hu)
      | none =>
          rw [hfound, Option.none_or] at h
          obtain ⟨s, hs, hx, hderived⟩ := ih hrest h
          refine ⟨s, List.mem_cons_of_mem t hs, hx, fun u hu hderives y hy ↦ ?_⟩
          rcases List.mem_cons.1 hu with rfl | hu
          · exact Bool.eq_false_iff.2 (List.find?_eq_none.1 hfound y hy)
          · exact hderived u hu hderives y hy

end Members

/-- For types that do not inherit from themselves, derived types come first in a chain, and their
members are preferred, exactly if the bases of every type in the chain are in order. -/
theorem derived_first_iff (hacyclic : r.Acyclic) (key : TypeKey) :
    r.DerivedFirst key ↔ ∀ t ∈ r.typeChain key, r.BasesInOrder t := by
  refine ⟨fun h t ht ↦ bases_in_order_of_derived_first hacyclic h.chain ht, fun h ↦ ?_⟩
  have hsettled : r.AllSettled [] [] [key] :=
    ⟨⟨fun k b _ hk ↦ absurd hk List.not_mem_nil,
      fun k b _ _ _ hb ↦ absurd (covered_nil.1 hb) List.not_mem_nil⟩, trivial⟩
  have hchain : (r.typeChain key).Pairwise fun a b ↦ ¬ r.DerivesFrom b.key a.key :=
    (chain_from_derived_first hacyclic hsettled h).2
  refine
    { chain := hchain
      methods := fun name t ht u hu hderives ↦ ?_
      property := fun name p hp ↦ ?_
      field := fun name f hf ↦ ?_ }
  · have horder := sublist_of_derives hacyclic hchain ht hu hderives
    have hmethods := ((horder.flatMap TypeDecl.methods).filter fun id ↦ id.name == name).filterMap
      r.method?
    simpa [methodsOn, findMethods] using hmethods
  · obtain ⟨id, hid, hp⟩ := Option.bind_eq_some_iff.1 hp
    obtain ⟨t, ht, hmem, hderived⟩ := find_most_derived hacyclic hchain TypeDecl.properties _ hid
    have hname : id.name = name := by simpa using List.find?_some hid
    refine ⟨t, ht, ⟨id, hmem, hname, hp⟩, fun u hu hderives other hother ↦ ?_⟩
    simpa using hderived u hu hderives other hother
  · obtain ⟨t, ht, hmem, hderived⟩ := find_most_derived hacyclic hchain TypeDecl.fields _ hf
    have hname : f.name = name := by simpa using List.find?_some hf
    refine ⟨t, ht, ⟨hmem, hname⟩, fun u hu hderives g hg ↦ ?_⟩
    simpa using hderived u hu hderives g hg

end MemberReach.Registry

namespace MemberReach.Diamond

/-- Two interfaces with a method of the same name, one derived from the other, and interfaces that
have both as bases in either order. -/
def source : String :=
  "interface I \x7b void M(); \x7d interface J : I \x7b void M(); \x7d " ++
    "interface K : I, J \x7b \x7d interface L : J, I \x7b \x7d"

/-- The registry of the interfaces. -/
def registry : Registry :=
  .build [.create ⟨"A.cs"⟩ none source (Node.ofSource source)]

open Registry in
/-- No interface inherits from itself. The interface with the derived base first has its bases in
order; of the other one, the chain and the methods of the name are these. -/
theorem registry_facts :
    registry.Acyclic ∧ (∃ t ∈ registry.types, registry.type? ⟨"J"⟩ = some t ∧ ⟨"I"⟩ ∈ t.bases) ∧
      (registry.typeChain ⟨"L"⟩).length = 3 ∧
      (∀ t ∈ registry.typeChain ⟨"L"⟩, registry.BasesInOrder t) ∧
      keysOf (registry.typeChain ⟨"K"⟩) = [⟨"K"⟩, ⟨"I"⟩, ⟨"J"⟩] ∧
      ((registry.findMethods ⟨"K"⟩ "M").map fun m ↦ m.symbol.id.owner) = [⟨"I"⟩, ⟨"J"⟩] := by
  decide +kernel

end MemberReach.Diamond

namespace MemberReach.Registry

/-- With the derived interface first, its members are preferred. -/
theorem derived_first_iff_diamond :
    Diamond.registry.Acyclic ∧ (Diamond.registry.typeChain ⟨"L"⟩).length = 3 ∧
      Diamond.registry.DerivedFirst ⟨"L"⟩ := by
  obtain ⟨hacyclic, _, hlength, hbases, _⟩ := Diamond.registry_facts
  exact ⟨hacyclic, hlength, (derived_first_iff hacyclic ⟨"L"⟩).2 hbases⟩

/-- With the derived interface last, the method of its base comes first. -/
theorem base_method_before_derived :
    Diamond.registry.Acyclic ∧ Diamond.registry.DerivesFrom ⟨"J"⟩ ⟨"I"⟩ ∧
      ((Diamond.registry.findMethods ⟨"K"⟩ "M").map fun m ↦ m.symbol.id.owner) = [⟨"I"⟩, ⟨"J"⟩] ∧
      ¬ Diamond.registry.DerivedFirst ⟨"K"⟩ := by
  obtain ⟨hacyclic, ⟨t, _, ht, hbase⟩, _, _, hchain, hmethods⟩ := Diamond.registry_facts
  have hderives : Diamond.registry.DerivesFrom ⟨"J"⟩ ⟨"I"⟩ :=
    Relation.TransGen.single ⟨t, ht, hbase⟩
  refine ⟨hacyclic, hderives, hmethods, fun h ↦ ?_⟩
  have hpairwise : (keysOf (Diamond.registry.typeChain ⟨"K"⟩)).Pairwise
      fun a b ↦ ¬ Diamond.registry.DerivesFrom b a := List.pairwise_map.2 h.chain
  rw [hchain] at hpairwise
  have hrest := (List.pairwise_cons.1 hpairwise).2
  exact (List.pairwise_cons.1 hrest).1 ⟨"J"⟩ List.mem_cons_self hderives

end MemberReach.Registry
