import MemberReach.Symbol

/-!
# Ordered sets of symbols

A set of symbols holds at most one symbol for each identity and lists its symbols in the
order of their identities. Inserting a symbol whose identity is already present keeps the
symbol that is there. The order is part of the type, so every set has it.
-/

namespace MemberReach

open Std

/-- Values that stand for a declared member. -/
class Identified (α : Type) where
  ident : α → SymbolId

export Identified (ident)

instance : Identified MethodSymbol := ⟨MethodSymbol.id⟩

instance : Identified PropertySymbol := ⟨PropertySymbol.id⟩

/-- Whether the identity of `a` comes strictly before that of `b`. -/
def Before {α : Type} [Identified α] (a b : α) : Prop :=
  compare (ident a) (ident b) = .lt

/-- A list of symbols in strictly increasing order of identity. -/
structure SymbolSet (α : Type) [Identified α] where
  toList : List α
  ordered : toList.Pairwise Before

namespace SymbolSet

variable {α : Type} [Identified α]

/-- The set without symbols. -/
def empty : SymbolSet α :=
  ⟨[], List.Pairwise.nil⟩

instance : Inhabited (SymbolSet α) := ⟨empty⟩

/-- Puts a symbol at its place in a list, unless one with its identity is there. -/
def insertSorted (x : α) : List α → List α
  | [] => [x]
  | y :: rest =>
      match compare (ident x) (ident y) with
      | .lt => x :: y :: rest
      | .eq => y :: rest
      | .gt => y :: insertSorted x rest

/-- An insertion adds nothing but the symbol itself. -/
theorem mem_of_mem_insert_sorted {x z : α} {symbols : List α}
    (h : z ∈ insertSorted x symbols) : z = x ∨ z ∈ symbols := by
  induction symbols with
  | nil => exact Or.inl (List.mem_singleton.1 h)
  | cons y rest ih =>
      unfold insertSorted at h
      split at h
      · exact List.mem_cons.1 h
      · exact Or.inr h
      · rcases List.mem_cons.1 h with h | h
        · exact Or.inr (List.mem_cons.2 (Or.inl h))
        · exact (ih h).imp_right (List.mem_cons_of_mem y)

/-- An insertion keeps a list strictly ordered. -/
theorem insert_sorted_ordered (x : α) {symbols : List α} (h : symbols.Pairwise Before) :
    (insertSorted x symbols).Pairwise Before := by
  induction symbols with
  | nil => exact List.pairwise_singleton Before x
  | cons y rest ih =>
      obtain ⟨hy, hrest⟩ := List.pairwise_cons.1 h
      unfold insertSorted
      split
      next hxy =>
        refine List.pairwise_cons.2 ⟨fun z hz ↦ ?_, h⟩
        rcases List.mem_cons.1 hz with rfl | hz
        · exact hxy
        · exact TransCmp.lt_trans hxy (hy z hz)
      next => exact h
      next hxy =>
        refine List.pairwise_cons.2 ⟨fun z hz ↦ ?_, ih hrest⟩
        rcases mem_of_mem_insert_sorted hz with rfl | hz
        · exact OrientedCmp.lt_of_gt hxy
        · exact hy z hz

/-- Adds a symbol, unless one with its identity is already in the set. -/
def insert (set : SymbolSet α) (x : α) : SymbolSet α :=
  ⟨insertSorted x set.toList, insert_sorted_ordered x set.ordered⟩

/-- Adds the symbols of a list one after the other. -/
def insertAll (set : SymbolSet α) (symbols : List α) : SymbolSet α :=
  symbols.foldl insert set

/-- The set of the symbols of a list; of two with one identity the earlier stays. -/
def ofList (symbols : List α) : SymbolSet α :=
  empty.insertAll symbols

/-- Whether a symbol with this identity is in the set. -/
def contains (set : SymbolSet α) (id : SymbolId) : Bool :=
  set.toList.any fun x ↦ ident x == id

/-- The number of symbols in the set. -/
def size (set : SymbolSet α) : Nat :=
  set.toList.length

end SymbolSet

end MemberReach
