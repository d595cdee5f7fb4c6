import Mathlib.Data.List.Nodup
import MemberReach.SymbolSet

/-!
# Members of ordered symbol sets

What a set built by insertion holds. Insertion keeps the symbol that is already there, so
which symbol stands for an identity can depend on the order of insertion; the identities
cannot (`of_list_holds`). Where all symbols in play are determined by their identities, neither
can the symbols: `mem_insert_all` then says that a set holds exactly what was put into it, and
`eq_of_mem_iff` that nothing else matters.
-/

namespace MemberReach.SymbolSet

open Std

variable {α : Type} [Identified α]

/-- Symbols in strictly increasing order of identity have different identities. -/
theorem ident_ne_of_before {a b : α} (h : Before a b) : ident a ≠ ident b := by
  intro heq
  have hself : compare (ident b) (ident b) = .eq := ReflCmp.compare_self
  unfold Before at h
  rw [heq, hself] at h
  cases h

/-- No symbol comes before itself, so an ordered list has no repetition. -/
theorem nodup_of_ordered {symbols : List α} (h : symbols.Pairwise Before) :
    (symbols.map ident).Nodup :=
  List.pairwise_map.2 (h.imp ident_ne_of_before)

/-- Two sets with the same symbols are the same set. -/
theorem eq_of_mem_iff {a b : SymbolSet α} (h : ∀ x, x ∈ a.toList ↔ x ∈ b.toList) : a = b := by
  obtain ⟨left, hleft⟩ := a
  obtain ⟨right, hright⟩ := b
  have hperm : left.Perm right :=
    (List.perm_ext_iff_of_nodup (List.Nodup.of_map ident (nodup_of_ordered hleft))
      (List.Nodup.of_map ident (nodup_of_ordered hright))).2 h
  have hasymm : ∀ x y : α, x ∈ left → y ∈ right → Before x y → Before y x → x = y :=
    fun x y _ _ hxy hyx ↦ False.elim (OrientedCmp.not_lt_of_lt hxy hyx)
  cases hperm.eq_of_pairwise hasymm hleft hright
  rfl

/-- A set with the symbols of a list without repetition is as large as the list. -/
theorem size_eq_length {set : SymbolSet α} {symbols : List α} (hnodup : symbols.Nodup)
    (h : ∀ x, x ∈ set.toList ↔ x ∈ symbols) : set.size = symbols.length :=
  ((List.perm_ext_iff_of_nodup (List.Nodup.of_map ident (nodup_of_ordered set.ordered))
    hnodup).2 h).length_eq

/-- An insertion loses no symbol. -/
theorem mem_insert_sorted_of_mem {x z : α} {symbols : List α} (h : z ∈ symbols) :
    z ∈ insertSorted x symbols := by
  induction symbols with
  | nil => cases h
  | cons y rest ih =>
      unfold insertSorted
      split
      · exact List.mem_cons_of_mem x h
      · exact h
      · rcases List.mem_cons.1 h with rfl | h
        · exact List.mem_cons_self
        · exact List.mem_cons_of_mem y (ih h)

/-- After an insertion some symbol has the identity of the inserted one: the inserted one itself,
unless the list already had a symbol of that identity. -/
theorem exists_mem_insert_sorted (x : α) (symbols : List α) :
    ∃ z ∈ insertSorted x symbols, ident z = ident x ∧ (z = x ∨ z ∈ symbols) := by
  induction symbols with
  | nil => exact ⟨x, List.mem_singleton.2 rfl, rfl, Or.inl rfl⟩
  | cons y rest ih =>
      unfold insertSorted
      split
      next => exact ⟨x, List.mem_cons_self, rfl, Or.inl rfl⟩
      next h =>
        have hid : ident x = ident y := LawfulEqOrd.eq_of_compare h
        exact ⟨y, List.mem_cons_self, hid.symm, Or.inr List.mem_cons_self⟩
      next =>
        obtain ⟨z, hz, hid, hfrom⟩ := ih
        exact ⟨z, List.mem_cons_of_mem y hz, hid, hfrom.imp_right (List.mem_cons_of_mem y)⟩

/-- Adding the symbols of a list adds nothing else. -/
theorem mem_of_mem_insert_all {set : SymbolSet α} {symbols : List α} {z : α}
    (h : z ∈ (set.insertAll symbols).toList) : z ∈ set.toList ∨ z ∈ symbols := by
  unfold insertAll at h
  induction symbols generalizing set with
  | nil => exact Or.inl h
  | cons x rest ih =>
      rcases ih h with h | h
      · rcases mem_of_mem_insert_sorted h with rfl | h
        · exact Or.inr List.mem_cons_self
        · exact Or.inl h
      · exact Or.inr (List.mem_cons_of_mem x h)

/-- The set of a list has no symbol that is not in the list. -/
theorem mem_of_mem_of_list {symbols : List α} {z : α} (h : z ∈ (ofList symbols).toList) :
    z ∈ symbols := by
  rcases mem_of_mem_insert_all h with h | h
  · cases h
  · exact h

/-- A set holds exactly the symbols with a property: it has none without it, and for each symbol
with it the set has one of the same identity. -/
structure HoldsExactly (set : SymbolSet α) (P : α → Prop) : Prop where
  sound : ∀ x ∈ set.toList, P x
  complete : ∀ x, P x → set.contains (ident x)

/-- The identities in such a set are those of the symbols with the property. -/
theorem HoldsExactly.mem_ids {set : SymbolSet α} {P : α → Prop} (h : set.HoldsExactly P)
    {id : SymbolId} : id ∈ set.toList.map ident ↔ ∃ x, P x ∧ ident x = id := by
  rw [List.mem_map]
  constructor
  · rintro ⟨x, hx, hid⟩
    exact ⟨x, h.sound x hx, hid⟩
  · rintro ⟨x, hx, rfl⟩
    obtain ⟨y, hy, hid⟩ := List.any_eq_true.1 (h.complete x hx)
    exact ⟨y, hy, eq_of_beq hid⟩

/-- What is in a list that is added has its identity in the set, and nothing leaves the set. -/
theorem exists_mem_insert_all {set : SymbolSet α} {symbols : List α} {x : α}
    (h : x ∈ set.toList ∨ x ∈ symbols) :
    ∃ z ∈ (set.insertAll symbols).toList, ident z = ident x := by
  unfold insertAll
  induction symbols generalizing set x with
  | nil => exact ⟨x, h.resolve_right List.not_mem_nil, rfl⟩
  | cons y rest ih =>
      rw [List.mem_cons, ← or_assoc] at h
      rcases h with (h | rfl) | h
      · exact ih (Or.inl (mem_insert_sorted_of_mem h))
      · obtain ⟨y, hy, hid, _⟩ := exists_mem_insert_sorted x set.toList
        have hinserted : y ∈ (set.insert x).toList := hy
        obtain ⟨z, hz, hzid⟩ := ih (Or.inl hinserted)
        exact ⟨z, hz, hzid.trans hid⟩
      · exact ih (Or.inr h)

/-- The set of a list holds exactly the symbols of the list. -/
theorem of_list_holds {symbols : List α} {P : α → Prop} (h : ∀ x, x ∈ symbols ↔ P x) :
    (ofList symbols).HoldsExactly P where
  sound := fun x hx ↦ (h x).1 (mem_of_mem_of_list hx)
  complete := fun x hx ↦ by
    have hmem : x ∈ (empty : SymbolSet α).toList ∨ x ∈ symbols := Or.inr ((h x).2 hx)
    obtain ⟨z, hz, hid⟩ := exists_mem_insert_all hmem
    exact List.any_eq_true.2 ⟨z, hz, beq_iff_eq.2 hid⟩

section Determined

variable {P : α → Prop} (hP : ∀ ⦃a b : α⦄, P a → P b → ident a = ident b → a = b)

include hP

/-- Where identities determine symbols, an inserted symbol is in the set. -/
theorem mem_insert {set : SymbolSet α} {x z : α} (hset : ∀ y ∈ set.toList, P y) (hx : P x) :
    z ∈ (set.insert x).toList ↔ z = x ∨ z ∈ set.toList := by
  refine ⟨mem_of_mem_insert_sorted, ?_⟩
  rintro (rfl | h)
  · obtain ⟨y, hy, hid, hfrom⟩ := exists_mem_insert_sorted z set.toList
    have hyP : P y := hfrom.elim (fun h ↦ h ▸ hx) (hset y)
    exact hP hyP hx hid ▸ hy
  · exact mem_insert_sorted_of_mem h

/-- Where identities determine symbols, a set holds exactly what was put into it. -/
theorem mem_insert_all {set : SymbolSet α} {symbols : List α} {z : α}
    (hset : ∀ y ∈ set.toList, P y) (hsymbols : ∀ y ∈ symbols, P y) :
    z ∈ (set.insertAll symbols).toList ↔ z ∈ set.toList ∨ z ∈ symbols := by
  unfold insertAll
  induction symbols generalizing set with
  | nil => simp
  | cons x rest ih =>
      have hx : P x := hsymbols x List.mem_cons_self
      have hinsert : ∀ y ∈ (set.insert x).toList, P y := by
        intro y hy
        rcases (mem_insert hP hset hx).1 hy with rfl | hy
        · exact hx
        · exact hset y hy
      rw [List.foldl_cons, ih hinsert fun y hy ↦ hsymbols y (List.mem_cons_of_mem x hy),
        mem_insert hP hset hx, List.mem_cons, or_assoc, or_left_comm]

/-- Where identities determine symbols, the set of a list holds the symbols of the list. -/
theorem mem_of_list {symbols : List α} {z : α} (hsymbols : ∀ y ∈ symbols, P y) :
    z ∈ (ofList symbols).toList ↔ z ∈ symbols := by
  have hempty : ∀ y ∈ (empty : SymbolSet α).toList, P y := fun y hy ↦ by cases hy
  rw [ofList, mem_insert_all hP hempty hsymbols]
  simp [empty]

end Determined

end MemberReach.SymbolSet
