import Mathlib.Logic.Function.Iterate
import Mathlib.Logic.Relation
import MemberReach.Registry.Basic

/-!
# What a type inherits from

The chain of a type is listed with a stack: the type on top is listed, unless it was met before, and
its bases take its place. Read `chain_from_append` first: a stack is worked off from top to bottom,
each part of it with the types met so far left out. So the stack gives the walk that visits a type
and then its bases from left to right (`chain_from_eq_visit_all`), whatever the bases are, also if
types inherit from each other. The loop over the stack ends after a turn for the type and at most
one for each base of a declared type (`Walk.run_turns`), and lists each declared type that is
reached through bases once (`type_chain_depth_first`).
-/

namespace MemberReach.Registry

variable {r : Registry} {key : TypeKey} {t : TypeDecl} {seen rest : List TypeKey}

/-! ### Bases -/

/-- A type is declared with another one among its bases. -/
def HasBase (r : Registry) (key base : TypeKey) : Prop :=
  ∃ t, r.type? key = some t ∧ base ∈ t.bases

/-- A type is another one, or inherits from it through any number of bases. -/
def Inherits (r : Registry) : TypeKey → TypeKey → Prop :=
  Relation.ReflTransGen r.HasBase

/-- A declaration that is looked up has the key it is looked up by. -/
theorem key_of_type (h : r.type? key = some t) : t.key = key := by
  simpa using List.find?_some h

/-- A type that is found is declared. -/
theorem is_declared_of_type (h : r.type? key = some t) : r.isDeclared key := by
  rw [isDeclared, h]
  rfl

/-- A type with a base is declared. -/
theorem HasBase.is_declared {base : TypeKey} (h : r.HasBase key base) : r.isDeclared key := by
  obtain ⟨t, ht, _⟩ := h
  exact is_declared_of_type ht

/-- A declared type is not one that cannot be found. -/
theorem ne_of_declared {k : TypeKey} (hk : r.isDeclared k) (h : r.type? key = none) : k ≠ key := by
  rintro rfl
  rw [isDeclared, h] at hk
  cases hk

/-- The keys of some declarations. -/
def keysOf (types : List TypeDecl) : List TypeKey :=
  types.map TypeDecl.key

@[simp]
theorem keys_of_nil : keysOf [] = [] :=
  rfl

@[simp]
theorem keys_of_cons (t : TypeDecl) (types : List TypeDecl) :
    keysOf (t :: types) = t.key :: keysOf types :=
  rfl

/-! ### The top of the stack -/

/-- A type that was met before is passed over. -/
theorem chain_from_seen (h : key ∈ seen) :
    r.chainFrom seen (key :: rest) = r.chainFrom seen rest := by
  rw [chainFrom, dif_pos h]

/-- A type that is not declared is passed over. -/
theorem chain_from_undeclared (hseen : key ∉ seen) (h : r.type? key = none) :
    r.chainFrom seen (key :: rest) = r.chainFrom (key :: seen) rest := by
  rw [chainFrom, dif_neg hseen]
  split
  next => rfl
  next ht =>
    rw [h] at ht
    cases ht

/-- A type that is met for the first time is listed, and its bases take its place. -/
theorem chain_from_new (hseen : key ∉ seen) (h : r.type? key = some t) :
    r.chainFrom seen (key :: rest) = t :: r.chainFrom (key :: seen) (t.bases ++ rest) := by
  rw [chainFrom, dif_neg hseen]
  split
  next hnone =>
    rw [h] at hnone
    cases hnone
  next u hu =>
    rw [h] at hu
    cases hu
    rfl

/-- Two lists hold the same declared types. -/
def SameTypes (r : Registry) (a b : List TypeKey) : Prop :=
  ∀ k, r.isDeclared k → (k ∈ a ↔ k ∈ b)

namespace SameTypes

variable {a b : List TypeKey}

theorem symm (h : r.SameTypes a b) : r.SameTypes b a :=
  fun k hk ↦ (h k hk).symm

theorem cons (h : r.SameTypes a b) (key : TypeKey) : r.SameTypes (key :: a) (key :: b) := by
  intro k hk
  rw [List.mem_cons, List.mem_cons, h k hk]

/-- A type that is not declared makes no difference. -/
theorem cons_left (h : r.SameTypes a b) (hkey : r.type? key = none) :
    r.SameTypes (key :: a) b := by
  intro k hk
  rw [List.mem_cons, h k hk, or_iff_right (ne_of_declared hk hkey)]

end SameTypes

/-- What is listed depends on the declared types that were met before, and on nothing else. -/
theorem chain_from_congr {a b : List TypeKey} (h : r.SameTypes a b) (stack : List TypeKey) :
    r.chainFrom a stack = r.chainFrom b stack := by
  fun_induction chainFrom r a stack generalizing b with
  | case1 => rw [chainFrom]
  | case2 a key rest hseen ih =>
      by_cases hb : key ∈ b
      · rw [chain_from_seen hb, ih h]
      · have hnone : r.type? key = none := by
          by_contra hne
          exact hb ((h key (Option.isSome_iff_ne_none.2 hne)).1 hseen)
        rw [chain_from_undeclared hb hnone]
        exact ih (h.symm.cons_left hnone).symm
  | case3 a key rest hseen hnone ih =>
      by_cases hb : key ∈ b
      · rw [chain_from_seen hb]
        exact ih (h.cons_left hnone)
      · rw [chain_from_undeclared hb hnone]
        exact ih (h.cons key)
  | case4 a key rest hseen t ht ih =>
      have hb : key ∉ b := fun hb ↦ hseen ((h key (is_declared_of_type ht)).2 hb)
      rw [chain_from_new hb ht, ih (h.cons key)]

/-! ### Parts of the stack -/

/-- A stack is worked off from top to bottom: what the upper part lists is met before the lower part
is reached. -/
theorem chain_from_append (seen upper lower : List TypeKey) :
    r.chainFrom seen (upper ++ lower) =
      r.chainFrom seen upper ++ r.chainFrom (keysOf (r.chainFrom seen upper) ++ seen) lower := by
  fun_induction chainFrom r seen upper with
  | case1 => rfl
  | case2 seen key rest hseen ih => rw [List.cons_append, chain_from_seen hseen, ih]
  | case3 seen key rest hseen hnone ih =>
      rw [List.cons_append, chain_from_undeclared hseen hnone, ih]
      refine congrArg _ (chain_from_congr (fun k hk ↦ ?_) lower)
      simp [ne_of_declared hk hnone]
  | case4 seen key rest hseen t ht ih =>
      rw [List.cons_append, chain_from_new hseen ht, ← List.append_assoc, ih, keys_of_cons,
        key_of_type ht, List.cons_append]
      refine congrArg (List.cons t) (congrArg _ (chain_from_congr (fun k _ ↦ ?_) lower))
      simp only [List.mem_append, List.mem_cons]
      exact or_left_comm.trans or_assoc.symm

/-- Every listed type is declared as listed, was not met before, and is on the stack or inherited by
a type on it. -/
theorem of_mem_chain_from {stack : List TypeKey} (ht : t ∈ r.chainFrom seen stack) :
    r.type? t.key = some t ∧ t.key ∉ seen ∧ ∃ k ∈ stack, r.Inherits k t.key := by
  fun_induction chainFrom r seen stack with
  | case1 => cases ht
  | case2 seen key rest hseen ih =>
      obtain ⟨htype, hnew, k, hk, hinherits⟩ := ih ht
      exact ⟨htype, hnew, k, List.mem_cons_of_mem key hk, hinherits⟩
  | case3 seen key rest hseen hnone ih =>
      obtain ⟨htype, hnew, k, hk, hinherits⟩ := ih ht
      exact ⟨htype, fun hmem ↦ hnew (List.mem_cons_of_mem key hmem), k,
        List.mem_cons_of_mem key hk, hinherits⟩
  | case4 seen key rest hseen u hu ih =>
      rcases List.mem_cons.1 ht with rfl | ht
      · rw [key_of_type hu]
        exact ⟨hu, hseen, key, List.mem_cons_self, Relation.ReflTransGen.refl⟩
      · obtain ⟨htype, hnew, k, hk, hinherits⟩ := ih ht
        refine ⟨htype, fun hmem ↦ hnew (List.mem_cons_of_mem key hmem), ?_⟩
        rcases List.mem_append.1 hk with hk | hk
        · exact ⟨key, List.mem_cons_self, Relation.ReflTransGen.head ⟨u, hu, hk⟩ hinherits⟩
        · exact ⟨k, List.mem_cons_of_mem key hk, hinherits⟩

/-- No type is listed twice. -/
theorem chain_from_nodup (r : Registry) (seen stack : List TypeKey) :
    (keysOf (r.chainFrom seen stack)).Nodup := by
  fun_induction chainFrom r seen stack with
  | case1 => exact List.nodup_nil
  | case2 seen key rest hseen ih => exact ih
  | case3 seen key rest hseen hnone ih => exact ih
  | case4 seen key rest hseen t ht ih =>
      refine List.nodup_cons.2 ⟨fun hmem ↦ ?_, ih⟩
      obtain ⟨u, hu, hkey⟩ := List.mem_map.1 hmem
      refine (of_mem_chain_from hu).2.1 ?_
      rw [hkey, key_of_type ht]
      exact List.mem_cons_self

/-- A declared type on the stack, or among the bases of a type that is listed, was met before or is
listed. -/
theorem mem_chain_from {stack : List TypeKey} {k : TypeKey} (hk : r.isDeclared k)
    (h : k ∈ stack ∨ ∃ t ∈ r.chainFrom seen stack, k ∈ t.bases) :
    k ∈ seen ∨ k ∈ keysOf (r.chainFrom seen stack) := by
  fun_induction chainFrom r seen stack with
  | case1 => simp at h
  | case2 seen key rest hseen ih =>
      rcases h with h | h
      · rcases List.mem_cons.1 h with rfl | h
        · exact Or.inl hseen
        · exact ih (Or.inl h)
      · exact ih (Or.inr h)
  | case3 seen key rest hseen hnone ih =>
      have hne := ne_of_declared hk hnone
      have hmem : k ∈ rest ∨ ∃ t ∈ r.chainFrom (key :: seen) rest, k ∈ t.bases :=
        h.imp_left fun h ↦ (List.mem_cons.1 h).resolve_left hne
      exact (ih hmem).imp_left fun h ↦ (List.mem_cons.1 h).resolve_left hne
  | case4 seen key rest hseen u hu ih =>
      have hkey := key_of_type hu
      by_cases hmet : k = key
      · exact Or.inr (by rw [hmet, ← hkey]; exact List.mem_cons_self)
      · have hmem : k ∈ u.bases ++ rest ∨
            ∃ t ∈ r.chainFrom (key :: seen) (u.bases ++ rest), k ∈ t.bases := by
          rcases h with h | ⟨t, ht, h⟩
          · exact Or.inl (List.mem_append_right _ ((List.mem_cons.1 h).resolve_left hmet))
          · rcases List.mem_cons.1 ht with rfl | ht
            · exact Or.inl (List.mem_append_left _ h)
            · exact Or.inr ⟨t, ht, h⟩
        exact (ih hmem).imp (fun h ↦ (List.mem_cons.1 h).resolve_left hmet)
          fun h ↦ List.mem_cons_of_mem _ h

/-- What is listed under a key is the declaration that the key has. -/
theorem mem_of_key {stack : List TypeKey} (hkey : key ∈ keysOf (r.chainFrom seen stack))
    (ht : r.type? key = some t) : t ∈ r.chainFrom seen stack := by
  obtain ⟨u, hu, rfl⟩ := List.mem_map.1 hkey
  rw [(of_mem_chain_from hu).1] at ht
  exact Option.some.inj ht ▸ hu

/-- A declared type that one on the stack inherits from is listed, unless a type between them was
met before. -/
theorem mem_of_inherits {stack : List TypeKey} {top k : TypeKey} (htop : top ∈ stack)
    (hnew : ∀ j, r.Inherits top j → r.isDeclared j → j ∉ seen) (hk : r.Inherits top k) :
    r.isDeclared k → k ∈ keysOf (r.chainFrom seen stack) := by
  induction hk with
  | refl =>
      intro hdeclared
      exact (mem_chain_from hdeclared (Or.inl htop)).resolve_left
        (hnew top Relation.ReflTransGen.refl hdeclared)
  | @tail j k hj hbase ih =>
      intro hdeclared
      have hinherits : r.Inherits top k := Relation.ReflTransGen.tail hj hbase
      obtain ⟨u, hu, hbase⟩ := hbase
      have hlisted := mem_of_key (ih (is_declared_of_type hu)) hu
      exact (mem_chain_from hdeclared (Or.inr ⟨u, hlisted, hbase⟩)).resolve_left
        (hnew k hinherits hdeclared)

/-- A type is in a chain exactly if it is declared and the chain starts at a type that inherits from
it. -/
theorem mem_type_chain : t ∈ r.typeChain key ↔ r.type? t.key = some t ∧ r.Inherits key t.key := by
  constructor
  · intro ht
    obtain ⟨htype, _, k, hk, hinherits⟩ := of_mem_chain_from ht
    rw [List.mem_singleton.1 hk] at hinherits
    exact ⟨htype, hinherits⟩
  · rintro ⟨htype, hinherits⟩
    have hmem := mem_of_inherits (List.mem_singleton_self key) (fun _ _ _ ↦ List.not_mem_nil)
      hinherits (is_declared_of_type htype)
    exact mem_of_key hmem htype

/-! ### The walk through the bases -/

/-- More marks cannot open new base types. -/
theorem open_bases_append_le (more marked : List TypeKey) (types : List TypeDecl) :
    openBases (more ++ marked) types ≤ openBases marked types := by
  induction more with
  | nil => exact Nat.le_refl _
  | cons key more ih => exact Nat.le_trans (open_bases_cons_le key (more ++ marked) types) ih

mutual

/-- Visits a type that is not marked: marks it and visits its bases. -/
def visit (r : Registry) (marked : List TypeKey) (key : TypeKey) : List TypeDecl :=
  if _ : key ∈ marked then []
  else
    match _ : r.type? key with
    | none => []
    | some t => t :: visitAll r (key :: marked) t.bases
termination_by 2 * openBases marked r.types + 1
decreasing_by
  rename_i hnew htype
  have hkey := key_of_type htype
  have h := open_bases_cons_add_le (List.mem_of_find?_eq_some htype) (hkey ▸ hnew)
  rw [hkey] at h
  omega

/-- Visits types from left to right. What is visited is marked for those that come later. -/
def visitAll (r : Registry) (marked : List TypeKey) : List TypeKey → List TypeDecl
  | [] => []
  | key :: rest =>
      visit r marked key ++ visitAll r (keysOf (visit r marked key) ++ marked) rest
termination_by keys => 2 * (openBases marked r.types + keys.length)
decreasing_by
  · rw [List.length_cons]
    omega
  · refine Nat.mul_lt_mul_of_pos_left ?_ Nat.two_pos
    exact Nat.add_lt_add_of_le_of_lt (open_bases_append_le _ _ _) (Nat.lt_succ_self rest.length)

end

/-- A type that is not declared gives nothing to visit. -/
theorem visit_undeclared {marked : List TypeKey} (h : r.type? key = none) :
    r.visit marked key = [] := by
  rw [visit]
  split
  next => rfl
  next =>
    split
    next => rfl
    next ht =>
      rw [h] at ht
      cases ht

/-- A type that is not marked is visited before its bases. -/
theorem visit_new {marked : List TypeKey} (hnew : key ∉ marked) (h : r.type? key = some t) :
    r.visit marked key = t :: r.visitAll (key :: marked) t.bases := by
  rw [visit, dif_neg hnew]
  split
  next hnone =>
    rw [h] at hnone
    cases hnone
  next u hu =>
    rw [h] at hu
    cases hu
    rfl

/-- A stack is worked off as its types are visited from left to right. -/
theorem chain_from_eq_visit_all (r : Registry) (marked keys : List TypeKey) :
    r.chainFrom marked keys = r.visitAll marked keys := by
  -- a single type goes with the bases that it leaves on the stack
  refine visitAll.induct r (fun marked key ↦ r.chainFrom marked [key] = r.visit marked key)
    (fun marked keys ↦ r.chainFrom marked keys = r.visitAll marked keys) ?_ ?_ ?_ ?_ ?_ marked keys
  · intro marked key hseen
    rw [chain_from_seen hseen, chainFrom, visit, dif_pos hseen]
  · intro marked key hnew hnone
    rw [chain_from_undeclared hnew hnone, chainFrom, visit_undeclared hnone]
  · intro marked key hnew t ht ih
    rw [chain_from_new hnew ht, List.append_nil, ih, visit_new hnew ht]
  · intro marked
    rw [chainFrom, visitAll]
  · intro marked key rest ihKey ihRest
    rw [← List.singleton_append, chain_from_append, ihKey, ihRest, List.singleton_append, visitAll]

/-! ### The loop -/

/-- What the loop holds between two turns: the types it has met, the types to look at next, and the
chain so far. -/
@[ext]
structure Walk where
  seen : List TypeKey
  stack : List TypeKey
  chain : List TypeDecl
  deriving Repr, DecidableEq

namespace Walk

/-- A turn of the loop takes the top of the stack. Without one nothing happens any more. -/
def turn (r : Registry) : Walk → Walk
  | ⟨seen, [], chain⟩ => ⟨seen, [], chain⟩
  | ⟨seen, key :: rest, chain⟩ =>
      if key ∈ seen then ⟨seen, rest, chain⟩
      else
        match r.type? key with
        | none => ⟨key :: seen, rest, chain⟩
        | some t => ⟨key :: seen, t.bases ++ rest, chain ++ [t]⟩

/-- The chain that the loop is going to end with. -/
def result (r : Registry) (w : Walk) : List TypeDecl :=
  w.chain ++ r.chainFrom w.seen w.stack

/-- How many turns there are left at most: those for what is on the stack, and those for the bases
of the types that were not met yet. -/
def work (r : Registry) (w : Walk) : Nat :=
  openBases w.seen r.types + w.stack.length

/-- A turn passes over the top of the stack, or lists it and puts its bases in its place. -/
theorem turn_cases (r : Registry) (seen : List TypeKey) (key : TypeKey) (rest : List TypeKey)
    (chain : List TypeDecl) :
    (key ∈ seen ∧ turn r ⟨seen, key :: rest, chain⟩ = ⟨seen, rest, chain⟩) ∨
    (key ∉ seen ∧ r.type? key = none ∧
      turn r ⟨seen, key :: rest, chain⟩ = ⟨key :: seen, rest, chain⟩) ∨
    (key ∉ seen ∧ ∃ t, r.type? key = some t ∧
      turn r ⟨seen, key :: rest, chain⟩ = ⟨key :: seen, t.bases ++ rest, chain ++ [t]⟩) := by
  rw [turn]
  by_cases hseen : key ∈ seen
  · exact Or.inl ⟨hseen, if_pos hseen⟩
  · rw [if_neg hseen]
    cases r.type? key with
    | none => exact Or.inr (Or.inl ⟨hseen, rfl, rfl⟩)
    | some t => exact Or.inr (Or.inr ⟨hseen, t, rfl, rfl⟩)

/-- A turn keeps the chain that the loop ends with. -/
theorem result_turn (r : Registry) (w : Walk) : (w.turn r).result r = w.result r := by
  obtain ⟨seen, stack, chain⟩ := w
  cases stack with
  | nil => rfl
  | cons key rest =>
      obtain ⟨hseen, hturn⟩ | ⟨hnew, hnone, hturn⟩ | ⟨hnew, t, ht, hturn⟩ :=
        turn_cases r seen key rest chain
      · simp only [hturn, result, chain_from_seen hseen]
      · simp only [hturn, result, chain_from_undeclared hnew hnone]
      · simp only [hturn, result, chain_from_new hnew ht, List.append_assoc, List.singleton_append]

/-- A turn on a stack that is not empty leaves less work. -/
theorem work_turn_lt (r : Registry) {w : Walk} (h : w.stack ≠ []) :
    (w.turn r).work r < w.work r := by
  obtain ⟨seen, stack, chain⟩ := w
  cases stack with
  | nil => exact absurd rfl h
  | cons key rest =>
      obtain ⟨hseen, hturn⟩ | ⟨hnew, hnone, hturn⟩ | ⟨hnew, t, ht, hturn⟩ :=
        turn_cases r seen key rest chain
      · simp only [hturn, work, List.length_cons]
        omega
      · have hle := open_bases_cons_le key seen r.types
        simp only [hturn, work, List.length_cons]
        omega
      · have hkey := key_of_type ht
        have hle := open_bases_cons_add_le (List.mem_of_find?_eq_some ht) (hkey ▸ hnew)
        rw [hkey] at hle
        simp only [hturn, work, List.length_cons, List.length_append]
        omega

/-- An empty stack stays empty. -/
theorem turn_of_stack_nil (r : Registry) {w : Walk} (h : w.stack = []) : w.turn r = w := by
  obtain ⟨seen, stack, chain⟩ := w
  cases h
  rfl

/-- With a turn for all the work that is left, the stack is empty and the chain is complete. -/
theorem run_turns (r : Registry) {turns : Nat} {w : Walk} (h : w.work r ≤ turns) :
    ((turn r)^[turns] w).stack = [] ∧ ((turn r)^[turns] w).chain = w.result r := by
  induction turns generalizing w with
  | zero =>
      have hstack : w.stack = [] := List.eq_nil_of_length_eq_zero (by rw [work] at h; omega)
      rw [Function.iterate_zero_apply, result, hstack, chainFrom, List.append_nil]
      exact ⟨rfl, rfl⟩
  | succ turns ih =>
      by_cases hstack : w.stack = []
      · rw [Function.iterate_fixed (turn_of_stack_nil r hstack), result, hstack, chainFrom,
          List.append_nil]
        exact ⟨rfl, rfl⟩
      · rw [Function.iterate_succ_apply, ← result_turn]
        exact ih (Nat.le_of_lt_succ (Nat.lt_of_lt_of_le (work_turn_lt r hstack) h))

end Walk

/-- A list of declarations is what a type and all that it inherits from give, depth first. -/
structure DepthFirst (r : Registry) (key : TypeKey) (chain : List TypeDecl) : Prop where
  /-- The loop ends with the list, after a turn for the type and one for each base at most. -/
  ended : ∃ turns ≤ openBases [] r.types + 1, ∃ seen,
    (Walk.turn r)^[turns] ⟨[], [key], []⟩ = ⟨seen, [], chain⟩
  /-- No type is listed twice. -/
  nodup : (keysOf chain).Nodup
  /-- The types of the list are the declared ones that are reached through bases. -/
  mem_iff : ∀ t, t ∈ chain ↔ r.type? t.key = some t ∧ r.Inherits key t.key
  /-- A type that is not declared gives nothing. -/
  undeclared : r.isDeclared key = false → chain = []
  /-- The order is that of visiting the type, marking it, and visiting its bases from left to
  right without those that are marked. -/
  order : chain = r.visit [] key

/-- The chain of a type lists the type and all that it inherits from, depth first. -/
theorem type_chain_depth_first (r : Registry) (key : TypeKey) :
    r.DepthFirst key (r.typeChain key) where
  ended := by
    have hrun := Walk.run_turns r (w := ⟨[], [key], []⟩) (Nat.le_refl _)
    exact ⟨_, Nat.le_refl _, _, Walk.ext rfl hrun.1 hrun.2⟩
  nodup := chain_from_nodup r [] [key]
  mem_iff _ := mem_type_chain
  undeclared h := by
    have hnone : r.type? key = none := Option.not_isSome_iff_eq_none.1 (Bool.eq_false_iff.1 h)
    rw [typeChain, chain_from_undeclared List.not_mem_nil hnone, chainFrom]
  order := by
    rw [typeChain, chain_from_eq_visit_all, visitAll, visitAll, List.append_nil]

end MemberReach.Registry
