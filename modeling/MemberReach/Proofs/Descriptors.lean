import Mathlib.Data.List.Basic
import MemberReach.Descriptor

/-!
# Names in descriptors

What a descriptor is looked up as, when it starts with a name. A plain name, simple or qualified,
has nothing that would be cut off, so it is looked up as it is written, and what follows it from the
first angle bracket on makes no difference (`lookup_name_of_front`).
-/

namespace MemberReach

open Text

namespace Text

/-- Nothing is removed from the end if the last element does not qualify. -/
theorem drop_end_while_of_last {α : Type} {p : α → Bool} {s : List α}
    (h : ∀ x ∈ s.getLast?, p x = false) : dropEndWhile p s = s := by
  have hkept : s.reverse.dropWhile p = s.reverse := by
    cases hs : s.reverse with
    | nil => rfl
    | cons x rest =>
        have hx : s.getLast? = some x := by rw [← List.head?_reverse, hs, List.head?_cons]
        rw [List.dropWhile_cons_of_neg (by rw [h x hx]; exact Bool.false_ne_true)]
  rw [dropEndWhile, hkept, List.reverse_reverse]

/-- Nothing is trimmed from the front of a text that does not start with a blank. -/
theorem trim_start_of_head {s : List Char} (h : ∀ c ∈ s.head?, isBlank c = false) :
    trimStart s = s := by
  cases s with
  | nil => rfl
  | cons c rest =>
      have hc := h c rfl
      exact List.dropWhile_cons_of_neg (by rw [hc]; exact Bool.false_ne_true)

/-- A text without blanks at its ends is trimmed. -/
theorem trim_of_ends {s : List Char} (hfirst : ∀ c ∈ s.head?, isBlank c = false)
    (hlast : ∀ c ∈ s.getLast?, isBlank c = false) : trim s = s := by
  rw [trim, trim_start_of_head hfirst, trimEnd, drop_end_while_of_last hlast]

/-- A character that a text lacks differs from all characters of the text. -/
theorem bne_of_not_mem {c : Char} {s : List Char} (h : c ∉ s) : ∀ x ∈ s, (x != c) = true := by
  intro x hx
  rw [bne_iff_ne]
  rintro rfl
  exact h hx

/-- A text does not start with a marker if the marker has a character that the front of the text
lacks, and what follows the front does not start with a character of the marker. -/
theorem not_marked_of_not_mem {marker front rest : List Char} {c : Char} (hc : c ∈ marker)
    (h : c ∉ front) (hrest : ∀ x ∈ rest.head?, x ∉ marker) :
    marker.isPrefixOf? (front ++ rest) = none := by
  induction marker generalizing front with
  | nil => cases hc
  | cons m marker ih =>
      cases front with
      | nil =>
          cases rest with
          | nil => rfl
          | cons x rest =>
              have hx : m ≠ x := fun hm ↦ hrest x rfl (hm ▸ List.mem_cons_self)
              rw [List.nil_append, List.isPrefixOf?, if_neg (by simpa using hx)]
      | cons x front =>
          rw [List.cons_append, List.isPrefixOf?]
          split
          next heq =>
            have hne : c ≠ m := fun hm ↦ h (hm ▸ eq_of_beq heq ▸ List.mem_cons_self)
            refine ih (List.mem_of_ne_of_mem hne hc) (fun hmem ↦ h (List.mem_cons_of_mem x hmem)) ?_
            exact fun y hy hmem ↦ hrest y hy (List.mem_cons_of_mem m hmem)
          next => rfl

/-- A marker that a text does not start with is not removed from it. -/
theorem drop_markers_eq_self {marker s : List Char} (h : marker.isPrefixOf? s = none) :
    dropMarkers marker s = s := by
  rw [dropMarkers, h]

end Text

namespace Descriptor

/-- The marks that have a meaning in descriptors. -/
def isMark (c : Char) : Bool :=
  ['.', ':', '<', '?', ']', '*', '('].contains c

/-- A text that is not empty and has neither blanks nor marks, as all identifiers are. -/
def isIdentifier (name : String) : Bool :=
  !name.isEmpty && name.toList.all fun c ↦ !isBlank c && !isMark c

/-- An identifier that a declaration may take as the name of a type. -/
def isTypeName (name : String) : Bool :=
  isIdentifier name && name != "var" && !isPredefined name

/-- A name without blanks, and without marks other than the dots of a qualified name. -/
structure IsPlain (name : List Char) : Prop where
  nonempty : name ≠ []
  visible : ∀ c ∈ name, isBlank c = false
  unmarked : ∀ c ∈ name, isMark c → c = '.'

/-- An identifier has no marks. -/
theorem not_mem_of_identifier {name : String} (h : isIdentifier name) {c : Char} (hc : isMark c) :
    c ∉ name.toList := by
  intro hmem
  simp only [isIdentifier, Bool.and_eq_true, List.all_eq_true, Bool.not_eq_true'] at h
  rw [(h.2 c hmem).2] at hc
  cases hc

/-- The name of a type has no marks. -/
theorem not_mem_of_mark {name : String} (h : isTypeName name) {c : Char} (hc : isMark c) :
    c ∉ name.toList := by
  simp only [isTypeName, Bool.and_eq_true] at h
  exact not_mem_of_identifier h.1.1 hc

/-- An identifier is a plain name. -/
theorem IsPlain.of_identifier {name : String} (h : isIdentifier name) : IsPlain name.toList where
  nonempty hnil := by
    rw [String.toList_eq_nil_iff.1 hnil] at h
    exact absurd h (by decide)
  visible c hc := by
    simp only [isIdentifier, Bool.and_eq_true, List.all_eq_true, Bool.not_eq_true'] at h
    exact (h.2 c hc).1
  unmarked _ hc hmark := absurd hc (not_mem_of_identifier h hmark)

namespace IsPlain

variable {name rest : List Char}

/-- One character that is neither a blank nor a mark other than a dot is a plain name. -/
theorem singleton {c : Char} (hvisible : isBlank c = false) (hmark : isMark c → c = '.') :
    IsPlain [c] where
  nonempty := List.cons_ne_nil c []
  visible _ hd := List.mem_singleton.1 hd ▸ hvisible
  unmarked _ hd := List.mem_singleton.1 hd ▸ hmark

/-- Dots are the only marks of a plain name. -/
theorem not_mem (h : IsPlain name) {c : Char} (hmark : isMark c) (hdot : c ≠ '.') : c ∉ name :=
  fun hc ↦ hdot (h.unmarked c hc hmark)

/-- A plain name with arguments starts with a character of the name. -/
theorem head_append (h : IsPlain name) : (name ++ rest).head? = name.head? := by
  obtain ⟨c, front, rfl⟩ := List.exists_cons_of_ne_nil h.nonempty
  rfl

/-- A plain name has neither a blank nor a mark other than a dot at its end, and neither has a text
that starts with it and ends in such a way. -/
theorem last_append (h : IsPlain name) (hend : ∀ c ∈ rest.getLast?, IsPlain [c]) {c : Char}
    (hc : (name ++ rest).getLast? = some c) : isBlank c = false ∧ (isMark c → c = '.') := by
  rw [List.getLast?_append, Option.or_eq_some_iff] at hc
  rcases hc with hc | ⟨_, hc⟩
  · have hplain := hend c hc
    exact ⟨hplain.visible c (by simp), hplain.unmarked c (by simp)⟩
  · have hmem := List.mem_of_getLast? hc
    exact ⟨h.visible c hmem, h.unmarked c hmem⟩

/-- What follows a plain name from an angle bracket on is cut off. -/
theorem without_arguments (h : IsPlain name) (hopen : ∀ c ∈ rest.head?, c = '<') :
    withoutArguments (name ++ rest) = name := by
  have hname : '<' ∉ name := h.not_mem rfl (by decide)
  cases rest with
  | nil => rw [List.append_nil, withoutArguments, if_neg (by simpa using hname)]
  | cons c rest =>
      obtain rfl := hopen c rfl
      have htake : (name ++ '<' :: rest).takeWhile (· != '<') = name := by
        rw [List.takeWhile_append_of_pos (bne_of_not_mem hname),
          List.takeWhile_cons_of_neg (by decide), List.append_nil]
      have htrim : trim name = name := trim_of_ends
        (fun c hc ↦ h.visible c (List.mem_of_head? hc))
        fun c hc ↦ h.visible c (List.mem_of_getLast? hc)
      rw [withoutArguments, if_pos (by simp), htake, htrim]

end IsPlain

/-- A plain name at the start of a text is looked up, unless it is one that no declaration can take.
What follows it from an angle bracket on is left out, as long as the text does not end like a
descriptor without a name. -/
theorem lookup_name_of_front {name : String} {rest : List Char} (h : IsPlain name.toList)
    (hopen : ∀ c ∈ rest.head?, c = '<') (hend : ∀ c ∈ rest.getLast?, IsPlain [c]) :
    lookupName? (String.ofList (name.toList ++ rest)) =
      if name == "var" || isPredefined name then none else some name := by
  have htrim : trim (name.toList ++ rest) = name.toList ++ rest := by
    refine trim_of_ends (fun c hc ↦ ?_) fun c hc ↦ (h.last_append hend hc).1
    rw [h.head_append] at hc
    exact h.visible c (List.mem_of_head? hc)
  have hlast : ∀ {c}, isMark c → c ≠ '.' → (name.toList ++ rest).getLast? ≠ some c :=
    fun hmark hdot hc ↦ hdot ((h.last_append hend hc).2 hmark)
  have hbare : bare (name.toList ++ rest) = name.toList ++ rest := by
    have hcolon : ':' ∈ globalMarker := by decide
    have hbracket : '<' ∉ globalMarker := by decide
    have hunmarked := not_marked_of_not_mem hcolon (h.not_mem rfl (by decide))
      fun c hc ↦ hopen c hc ▸ hbracket
    rw [bare, htrim, drop_markers_eq_self hunmarked]
    refine drop_end_while_of_last fun c hc ↦ beq_eq_false_iff_ne.2 ?_
    rintro rfl
    exact hlast rfl (by decide) hc
  have hsquare : ((name.toList ++ rest).getLast? == some ']') = false :=
    beq_eq_false_iff_ne.2 (hlast rfl (by decide))
  have hstar : ((name.toList ++ rest).getLast? == some '*') = false :=
    beq_eq_false_iff_ne.2 (hlast rfl (by decide))
  have hround : ((name.toList ++ rest).head? == some '(') = false := by
    refine beq_eq_false_iff_ne.2 fun hhead ↦ ?_
    rw [h.head_append] at hhead
    exact h.not_mem rfl (by decide) (List.mem_of_head? hhead)
  have hnil : (name.toList ++ rest).isEmpty = false := by
    rw [List.isEmpty_eq_false_iff]
    exact List.append_ne_nil_of_left_ne_nil h.nonempty rest
  rw [lookupName?, String.toList_ofList, hbare, htrim, hnil, hsquare, hstar, hround,
    h.without_arguments hopen, String.ofList_toList]
  rfl

/-- A plain name is looked up as it is written, unless it is one that no declaration can take. -/
theorem lookup_name_of_plain {name : String} (h : IsPlain name.toList) :
    lookupName? name = if name == "var" || isPredefined name then none else some name := by
  have hlookup : lookupName? (String.ofList (name.toList ++ [])) = _ :=
    lookup_name_of_front h nofun nofun
  rwa [List.append_nil, String.ofList_toList] at hlookup

/-- The name of a type is looked up as it is written. -/
theorem lookup_name_of_type_name {name : String} (h : isTypeName name) :
    lookupName? name = some name := by
  simp only [isTypeName, Bool.and_eq_true, bne_iff_ne, ne_eq, Bool.not_eq_true'] at h
  obtain ⟨⟨hname, hvar⟩, hpredefined⟩ := h
  rw [lookup_name_of_plain (IsPlain.of_identifier hname), hpredefined]
  simp [hvar]

end Descriptor

end MemberReach
