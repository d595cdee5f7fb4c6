import MemberReach.Proofs.SymbolSets
import MemberReach.Report

/-!
# The order of a report

A report lists the symbols of a set by their full names, and its entries no longer show the
identities that order symbols of one full name. `OrderedView` says which entries that should give:
those of all symbols of the set, each once, in strictly increasing order of full name and identity.
Full names are ordered by their bytes there; `bytes_lt` relates that to the order by characters.
The main result is `report_ordered`: a report is the only ordered view of its closure. Nothing about
the way in which the sets were built can therefore show in it.
-/

namespace MemberReach

open Std

/-! ### Texts by their bytes -/

namespace Text

/-- The bytes of a text in UTF-8. -/
def bytes (s : String) : List UInt8 :=
  s.toByteArray.data.toList

/-- A text is encoded character by character. -/
theorem bytes_eq_flat_map (s : String) : bytes s = s.toList.flatMap String.utf8EncodeChar := by
  rw [bytes, ← String.utf8Encode_toList, List.utf8Encode, List.data_toByteArray]

/-- A code point has at most four digits in base 64, the first of them below 5. -/
theorem code_lt (c : Char) : c.val.toNat < 0x110000 := by
  rcases c.valid with h | ⟨_, h⟩
  · exact Nat.lt_trans h (by decide)
  · exact h

/-- Of two characters the lesser one has the lesser bytes, whatever follows: a longer encoding has
a greater first byte, and encodings of one length show the digits of the code points in base 64. -/
theorem encode_lt {c d : Char} (h : c < d) (rest rest' : List UInt8) :
    String.utf8EncodeChar c ++ rest < String.utf8EncodeChar d ++ rest' := by
  have hlt : c.val.toNat < d.val.toNat := UInt32.lt_iff_toNat_lt.1 h
  have hbound := code_lt d
  have htwo : ∀ n, n / 4096 = n / 64 / 64 := fun n ↦ by omega
  have hthree : ∀ n, n / 262144 = n / 64 / 64 / 64 := fun n ↦ by omega
  simp only [String.utf8EncodeChar, htwo, hthree]
  split_ifs <;>
    simp only [List.cons_append, List.nil_append, List.cons_lt_cons_iff, UInt8.lt_iff_toNat_lt,
      ← UInt8.toNat_inj, UInt8.toNat_ofNat'] <;>
    omega

/-- The order of lists of characters is that of their encodings. -/
theorem encode_all_lt {s t : List Char} (h : s < t) :
    s.flatMap String.utf8EncodeChar < t.flatMap String.utf8EncodeChar := by
  have hlex : List.Lex (· < ·) s t := h
  induction hlex with
  | nil =>
      rw [List.flatMap_nil, List.flatMap_cons]
      obtain ⟨byte, rest, hencoded⟩ := List.exists_cons_of_ne_nil String.utf8EncodeChar_ne_nil
      rw [hencoded]
      exact List.nil_lt_cons byte _
  | rel hlt => exact encode_lt hlt _ _
  | cons hlex ih => exact List.append_left_lt (ih hlex)

/-- A text that comes first by its characters comes first by its bytes. -/
theorem bytes_lt {s t : String} (h : s < t) : bytes s < bytes t := by
  rw [bytes_eq_flat_map, bytes_eq_flat_map]
  exact encode_all_lt h

end Text

open Text

/-! ### Ordered views -/

section

variable {α β : Type} [Identified α]

/-- A symbol comes strictly before another: by the bytes of its full name, or by its identity if the
full names are the same. -/
def Precedes (fullName : α → String) (a b : α) : Prop :=
  bytes (fullName a) < bytes (fullName b) ∨ fullName a = fullName b ∧ Before a b

/-- The entries of all symbols of a set, one for each of them, in strictly increasing order. -/
def OrderedView (fullName : α → String) (entry : α → β) (set : SymbolSet α) (entries : List β) :
    Prop :=
  ∃ symbols : List α,
    symbols.Perm set.toList ∧ symbols.Pairwise (Precedes fullName) ∧ entries = symbols.map entry

/-- No two symbols precede each other. -/
theorem Precedes.asymm {fullName : α → String} {a b : α} (h : Precedes fullName a b) :
    ¬ Precedes fullName b a := by
  rintro (hlt | ⟨hname, hbefore⟩)
  · rcases h with h | ⟨hname, _⟩
    · exact List.lt_asymm h hlt
    · rw [hname] at hlt
      exact List.lt_irrefl _ hlt
  · rcases h with h | ⟨_, h⟩
    · rw [hname] at h
      exact List.lt_irrefl _ h
    · exact OrientedCmp.not_lt_of_lt h hbefore

/-- There is at most one list of symbols in increasing order. -/
theorem eq_of_precedes {fullName : α → String} {left right : List α} (hperm : left.Perm right)
    (hleft : left.Pairwise (Precedes fullName)) (hright : right.Pairwise (Precedes fullName)) :
    left = right :=
  hperm.eq_of_pairwise (fun _ _ _ _ hab hba ↦ absurd hba hab.asymm) hleft hright

end

namespace SymbolSet

variable {α : Type} [Identified α]

/-- Two lists of symbols that have the same identities, and the same symbol for each of them. -/
structure SameSymbols (left right : List α) : Prop where
  ids : ∀ id, id ∈ left.map ident ↔ id ∈ right.map ident
  symbols : ∀ a ∈ left, ∀ b ∈ right, ident a = ident b → a = b

/-- Lists with the same symbols give the same set, in whatever order and however often each symbol
is inserted. -/
theorem SameSymbols.of_list_eq {left right : List α} (h : SameSymbols left right) :
    ofList left = ofList right := by
  -- a symbol that occurs on one side is the one symbol of its identity on both
  have hleft : ∀ a ∈ left, a ∈ right := by
    intro a ha
    obtain ⟨b, hb, hid⟩ := List.mem_map.1 ((h.ids _).1 (List.mem_map_of_mem ha))
    exact h.symbols a ha b hb hid.symm ▸ hb
  have hright : ∀ b ∈ right, b ∈ left := by
    intro b hb
    obtain ⟨a, ha, hid⟩ := List.mem_map.1 ((h.ids _).2 (List.mem_map_of_mem hb))
    exact h.symbols a ha b hb hid ▸ ha
  have hunique : ∀ ⦃a b : α⦄, a ∈ left → b ∈ left → ident a = ident b → a = b :=
    fun a b ha hb hid ↦ h.symbols a ha b (hleft b hb) hid
  refine eq_of_mem_iff fun a ↦ ?_
  rw [mem_of_list hunique fun _ ↦ id, mem_of_list hunique hright]
  exact ⟨hleft a, hright a⟩

end SymbolSet

namespace Report

variable {α β : Type}

/-- Whether a symbol may stand before another as far as their full names go. -/
def byName (fullName : α → String) (a b : α) : Bool :=
  decide (fullName a ≤ fullName b)

variable {fullName : α → String}

/-- The order by full names is transitive. -/
theorem by_name_trans (a b c : α) (hab : byName fullName a b) (hbc : byName fullName b c) :
    byName fullName a c :=
  decide_eq_true (String.le_trans (of_decide_eq_true hab) (of_decide_eq_true hbc))

/-- Of two symbols one may stand before the other. -/
theorem by_name_total (a b : α) : byName fullName a b || byName fullName b a := by
  simpa [byName] using String.le_total (fullName a) (fullName b)

/-- Entries are sorted as their symbols are. -/
theorem sorted_eq_map (entryName : β → String) (entry : α → β) (symbols : List α) :
    sorted entryName entry symbols =
      (symbols.mergeSort (byName fun a ↦ entryName (entry a))).map entry :=
  (List.map_mergeSort (r := byName fun a ↦ entryName (entry a)) (s := byName entryName)
    (f := entry) fun _ _ _ _ ↦ rfl).symm

/-- Symbols of one full name stay in the order in which they were. -/
theorem filter_sort (symbols : List α) (name : String) :
    (symbols.mergeSort (byName fullName)).filter (fullName · == name) =
      symbols.filter (fullName · == name) := by
  have hclass : (symbols.filter (fullName · == name)).Pairwise (byName fullName · ·) := by
    refine List.pairwise_of_forall_mem_list fun a ha b hb ↦ ?_
    rw [List.mem_filter, beq_iff_eq] at ha hb
    rw [byName, ha.2, hb.2]
    exact decide_eq_true (String.le_refl name)
  have hsublist := (List.sublist_mergeSort by_name_trans by_name_total hclass
    List.filter_sublist).filter (fullName · == name)
  rw [List.filter_filter] at hsublist
  simp only [Bool.and_self] at hsublist
  exact (hsublist.eq_of_length
    ((List.mergeSort_perm symbols _).filter (fullName · == name)).length_eq.symm).symm

variable [Identified α]

/-- Sorting symbols by their full names, when they are in the order of their identities, puts them
in strictly increasing order. -/
theorem sort_precedes {symbols : List α} (h : symbols.Pairwise Before) :
    (symbols.mergeSort (byName fullName)).Pairwise (Precedes fullName) := by
  have hnames : (symbols.mergeSort (byName fullName)).Pairwise (byName fullName · ·) :=
    List.pairwise_mergeSort by_name_trans by_name_total symbols
  rw [List.pairwise_iff_forall_sublist] at h hnames ⊢
  intro a b hab
  have hle : fullName a ≤ fullName b := of_decide_eq_true (hnames hab)
  by_cases hname : fullName a = fullName b
  · -- the two are in one class, whose order the sort has kept
    have hclass := hab.filter (fullName · == fullName b)
    rw [filter_sort] at hclass
    simp only [List.filter_cons, hname, BEq.rfl, if_true, List.filter_nil] at hclass
    exact Or.inr ⟨hname, h (hclass.trans List.filter_sublist)⟩
  · refine Or.inl (bytes_lt (String.not_le.1 fun hge ↦ hname ?_))
    exact String.le_antisymm hle hge

/-- The sorted entries of a set are its only ordered view. -/
theorem ordered_view_iff (entryName : β → String) (entry : α → β) (set : SymbolSet α)
    (entries : List β) :
    OrderedView (fun a ↦ entryName (entry a)) entry set entries ↔
      entries = sorted entryName entry set.toList := by
  rw [sorted_eq_map]
  have hperm := List.mergeSort_perm set.toList (byName fun a ↦ entryName (entry a))
  have hordered : (set.toList.mergeSort (byName fun a ↦ entryName (entry a))).Pairwise
      (Precedes fun a ↦ entryName (entry a)) := sort_precedes set.ordered
  constructor
  · rintro ⟨symbols, hsymbols, hincreasing, rfl⟩
    rw [eq_of_precedes (hsymbols.trans hperm.symm) hincreasing hordered]
  · intro h
    exact ⟨_, hperm, hordered, h⟩

/-- A report is the one ordered view of its closure: it has the entry of each property and of each
method once, in strictly increasing order of full name and identity, and no other list of entries
is such a view. So the order and number of the insertions that build the sets cannot show in it. -/
theorem report_ordered (closure : Closure) (seedFile seedMethod : String) :
    (∀ entries, OrderedView MethodSymbol.fullName MethodEntry.ofSymbol closure.methods entries ↔
        entries = (ofClosure closure seedFile seedMethod).methods) ∧
      (∀ entries,
        OrderedView PropertySymbol.fullName PropertyEntry.ofSymbol closure.properties entries ↔
          entries = (ofClosure closure seedFile seedMethod).properties) ∧
      ∀ (methods methods' : List MethodSymbol) (properties properties' : List PropertySymbol),
        SymbolSet.SameSymbols methods methods' → SymbolSet.SameSymbols properties properties' →
          ofSets (.ofList properties) (.ofList methods) seedFile seedMethod =
            ofSets (.ofList properties') (.ofList methods') seedFile seedMethod := by
  refine ⟨ordered_view_iff MethodEntry.fullName MethodEntry.ofSymbol closure.methods,
    ordered_view_iff PropertyEntry.fullName PropertyEntry.ofSymbol closure.properties, ?_⟩
  intro methods methods' properties properties' hmethods hproperties
  rw [hmethods.of_list_eq, hproperties.of_list_eq]

/-- A method `A.M` of the given namespace. -/
def namesake (space : String) : MethodSymbol :=
  { id := .method (.ofParts [space] ["A"]) "M" []
    ownerName := "A"
    returnType := "void"
    parameters := []
    location := ⟨space ++ ".cs", 1, 1⟩ }

/-- A closure with two methods of one full name. -/
def namesakes : Closure :=
  { methods := .ofList [namesake "P", namesake "N"]
    properties := .empty
    skipped := .empty
    visited := [namesake "P", namesake "N"]
    iterations := 2
    bodiesClassified := 2 }

/-- Of two methods with one full name, the one with the lesser identity is listed first, also if it
is inserted last, or the other one twice. -/
theorem report_ordered_namesakes :
    (ofClosure namesakes "A.cs" "M").methods =
        [⟨"M", "A", "A.M", "void", [], "N.cs:1:1"⟩, ⟨"M", "A", "A.M", "void", [], "P.cs:1:1"⟩] ∧
      SymbolSet.SameSymbols [namesake "P", namesake "N", namesake "P"]
        [namesake "N", namesake "P"] ∧
      ofSets .empty (.ofList [namesake "P", namesake "N", namesake "P"]) "A.cs" "M" =
        ofSets .empty (.ofList [namesake "N", namesake "P"]) "A.cs" "M" := by
  have hlist : [namesake "N", namesake "P"] = namesakes.methods.toList := by decide +kernel
  have hbefore : compare (ident (namesake "N")) (ident (namesake "P")) = .lt := by decide +kernel
  have hordered : [namesake "N", namesake "P"].Pairwise (Precedes MethodSymbol.fullName) :=
    List.pairwise_pair.2 (Or.inr ⟨rfl, hbefore⟩)
  have hmethods : SymbolSet.SameSymbols [namesake "P", namesake "N", namesake "P"]
      [namesake "N", namesake "P"] := by
    refine ⟨fun id ↦ ?_, by decide +kernel⟩
    simp only [List.map_cons, List.map_nil, List.mem_cons, List.not_mem_nil, or_false]
    tauto
  have hproperties : SymbolSet.SameSymbols ([] : List PropertySymbol) [] := ⟨by simp, by simp⟩
  obtain ⟨hview, _, hbuilt⟩ := report_ordered namesakes "A.cs" "M"
  exact ⟨((hview _).1 ⟨_, .of_eq hlist, hordered, rfl⟩).symm, hmethods,
    hbuilt _ _ [] [] hmethods hproperties⟩

end Report

end MemberReach
