import Mathlib.Data.List.TakeWhile
import MemberReach.Proofs.Descriptors
import MemberReach.Proofs.Reachability

/-!
# Nullable marks and the blanks around them

A nullable mark may stand apart from the type that it marks, and a descriptor may have blanks around
it. Both readers of a descriptor start from its bare form, and `bare_nullable` says what is left of
the mark there: the blanks before it. The look-up of a declared type trims them away
(`lookup_name_of_bare`), the test for the tracked type does not, so `nullable_spacing_iff` has a
condition for the one and none for the other.
-/

namespace MemberReach

open Text

namespace Text

/-- A text of blanks only. -/
def IsBlankText (s : List Char) : Prop :=
  ∀ c ∈ s, isBlank c

instance (s : List Char) : Decidable (IsBlankText s) :=
  decidable_of_iff (s.all isBlank) List.all_eq_true

variable {s rest blanks : List Char}

/-- Blanks in front of a text are trimmed. -/
theorem trim_start_append (h : IsBlankText blanks) : trimStart (blanks ++ s) = trimStart s :=
  List.dropWhile_append_of_pos h

/-- What is dropped from the end of a text is dropped from a text with more of it at the end. -/
theorem drop_end_while_append {α : Type} {p : α → Bool} {s dropped : List α}
    (h : ∀ x ∈ dropped, p x) : dropEndWhile p (s ++ dropped) = dropEndWhile p s := by
  rw [dropEndWhile, List.reverse_append,
    List.dropWhile_append_of_pos fun x hx ↦ h x (List.mem_reverse.1 hx), dropEndWhile]

/-- Blanks around a text make no difference when it is trimmed. -/
theorem trim_around {front back : List Char} (hfront : IsBlankText front)
    (hback : IsBlankText back) : trim (front ++ s ++ back) = trim s := by
  rw [trim, List.append_assoc, trim_start_append hfront, trim, trimStart, List.dropWhile_append]
  split
  next hnil =>
    -- nothing but blanks
    have hblank : back.dropWhile isBlank = [] := List.dropWhile_eq_nil_iff.2 hback
    rw [hblank, trimStart, List.isEmpty_iff.1 hnil]
  next => exact drop_end_while_append hback

/-- A marker at the start of a text that something else follows is found in front of it, if what
follows does not start with a character of the marker. -/
theorem marked_append {marker : List Char} (h : ∀ x ∈ rest.head?, x ∉ marker) :
    marker.isPrefixOf? (s ++ rest) = (marker.isPrefixOf? s).map (· ++ rest) := by
  induction marker generalizing s with
  | nil => simp [List.isPrefixOf?]
  | cons m marker ih =>
      cases s with
      | nil =>
          cases rest with
          | nil => rfl
          | cons x rest =>
              have hx : m ≠ x := fun hm ↦ h x rfl (hm ▸ List.mem_cons_self)
              simp [List.isPrefixOf?, hx]
      | cons x s =>
          simp only [List.cons_append, List.isPrefixOf?]
          split
          next => exact ih fun y hy hmem ↦ h y hy (List.mem_cons_of_mem m hmem)
          next => rfl

/-- Markers are removed from the front of a text whatever follows it, if that does not start with a
character of the marker. -/
theorem drop_markers_append {marker : List Char} (h : ∀ x ∈ rest.head?, x ∉ marker) :
    dropMarkers marker (s ++ rest) = dropMarkers marker s ++ rest := by
  fun_induction dropMarkers marker s with
  | case1 s hnone => rw [dropMarkers, marked_append h, hnone]; rfl
  | case2 s found hfound hlt ih =>
      rw [dropMarkers, marked_append h, hfound]
      simp only [Option.map_some, List.length_append]
      rw [if_pos (Nat.add_lt_add_right hlt _), ih]
  | case3 s found hfound hlt =>
      rw [dropMarkers, marked_append h, hfound]
      simp only [Option.map_some, List.length_append]
      rw [if_neg fun hmore ↦ hlt (Nat.lt_of_add_lt_add_right hmore)]

/-- What is left without its markers is the end of the text. -/
theorem drop_markers_suffix (marker s : List Char) : dropMarkers marker s <:+ s := by
  fun_induction dropMarkers marker s with
  | case1 => exact List.suffix_refl _
  | case2 s found hfound _ ih =>
      rw [← List.append_eq_of_isPrefixOf?_eq_some hfound]
      exact ih.trans (List.suffix_append marker found)
  | case3 => exact List.suffix_refl _

/-- The end of a text ends like the text. -/
theorem last_of_suffix {back : List Char} (h : back <:+ s) {c : Char}
    (hc : c ∈ back.getLast?) : c ∈ s.getLast? := by
  obtain ⟨front, rfl⟩ := h
  rw [List.getLast?_append, Option.mem_def.1 hc]
  rfl

/-- Nothing is trimmed from the back of a text that does not end in a blank. -/
theorem trim_eq_trim_start (h : ∀ c ∈ s.getLast?, isBlank c = false) : trim s = trimStart s :=
  drop_end_while_of_last fun c hc ↦ h c (last_of_suffix (List.dropWhile_suffix isBlank) hc)

/-- What follows a text that does not end in a blank stays when the front is trimmed. -/
theorem trim_start_append_of_last (hs : s ≠ []) (h : ∀ c ∈ s.getLast?, isBlank c = false) :
    trimStart (s ++ rest) = trimStart s ++ rest := by
  rw [trimStart, List.dropWhile_append, if_neg]
  · rfl
  · intro hnil
    have hblank := List.dropWhile_eq_nil_iff.1 (List.isEmpty_iff.1 hnil)
    have hlast := h (s.getLast hs) (List.getLast?_eq_some_getLast hs)
    rw [hblank _ (List.getLast_mem hs)] at hlast
    cases hlast

end Text

namespace Descriptor

/-- A descriptor that a nullable mark may be put behind: it is not empty and ends in neither a mark
nor a blank. -/
structure IsMarkable (type : List Char) : Prop where
  nonempty : type ≠ []
  unmarked : '?' ∉ type.getLast?
  visible : ∀ c ∈ type.getLast?, isBlank c = false

/-- The conditions on a markable descriptor, as a test. -/
theorem is_markable_iff (type : List Char) :
    (type ≠ [] ∧ '?' ∉ type.getLast? ∧ type.getLast?.all fun c ↦ !isBlank c) ↔
      IsMarkable type := by
  simp only [Option.all_eq_true, Bool.not_eq_true']
  constructor
  · intro ⟨hnonempty, hunmarked, hvisible⟩
    exact ⟨hnonempty, hunmarked, hvisible⟩
  · intro h
    exact ⟨h.nonempty, h.unmarked, h.visible⟩

instance (type : List Char) : Decidable (IsMarkable type) :=
  decidable_of_iff _ (is_markable_iff type)

variable {type blanks : List Char}

/-- Neither a blank nor a nullable mark is in a global marker. -/
theorem not_mem_global_marker {c : Char} (h : isBlank c ∨ c = '?') : c ∉ globalMarker := by
  have hmarker : globalMarker.all fun c ↦ ¬ (isBlank c ∨ c = '?') := by decide
  exact fun hmem ↦ of_decide_eq_true (List.all_eq_true.1 hmarker c hmem) h

/-- The bare form of a descriptor with a nullable mark is that of the descriptor, and behind it the
blanks that stand before the mark. -/
theorem bare_nullable (htype : IsMarkable type) (hblanks : IsBlankText blanks) :
    bare (type ++ blanks ++ ['?']) = bare type ++ blanks := by
  have htrim : trim type = trimStart type := trim_eq_trim_start htype.visible
  have hmarked : trim (type ++ blanks ++ ['?']) = trimStart type ++ (blanks ++ ['?']) := by
    rw [trim_eq_trim_start (by simp; decide), List.append_assoc,
      trim_start_append_of_last htype.nonempty htype.visible]
  have hhead : ∀ x ∈ (blanks ++ ['?']).head?, x ∉ globalMarker := by
    intro x hx
    refine not_mem_global_marker ?_
    cases blanks with
    | nil => exact Or.inr (Option.some.inj hx).symm
    | cons blank rest => exact Or.inl (Option.some.inj hx ▸ hblanks blank List.mem_cons_self)
  have hname : ∀ c ∈ (dropMarkers globalMarker (trimStart type)).getLast?, (c == '?') = false := by
    intro c hc
    refine beq_eq_false_iff_ne.2 fun heq ↦ htype.unmarked ?_
    have hstart : trimStart type <:+ type := List.dropWhile_suffix isBlank
    exact heq ▸ last_of_suffix ((drop_markers_suffix globalMarker _).trans hstart) hc
  have hspaced : ∀ c ∈ (dropMarkers globalMarker (trimStart type) ++ blanks).getLast?,
      (c == '?') = false := by
    intro c hc
    rw [List.getLast?_append, Option.mem_def, Option.or_eq_some_iff] at hc
    rcases hc with hc | ⟨_, hc⟩
    · have hblank := hblanks c (List.mem_of_getLast? hc)
      refine beq_eq_false_iff_ne.2 fun heq ↦ ?_
      rw [heq] at hblank
      exact absurd hblank (by decide)
    · exact hname c hc
  rw [bare, bare, htrim, hmarked, drop_markers_append hhead, ← List.append_assoc,
    drop_end_while_append (by simp), drop_end_while_of_last hspaced, drop_end_while_of_last hname]

/-- Blanks around a descriptor are not in its bare form. -/
theorem bare_around {front back : List Char} (hfront : IsBlankText front)
    (hback : IsBlankText back) : bare (front ++ type ++ back) = bare type := by
  rw [bare, bare, trim_around hfront hback]

/-- No spelling of the tracked type ends in a blank. -/
theorem not_target_of_blanks {name : List Char} (hblanks : IsBlankText blanks)
    (hsome : blanks ≠ []) : targetNames.contains (String.ofList (name ++ blanks)) = false := by
  have hends : ∀ target ∈ targetNames, IsMarkable target.toList := by decide
  rw [List.contains_eq_mem, decide_eq_false_iff_not]
  intro hmem
  have hlast : blanks.getLast hsome ∈ (String.ofList (name ++ blanks)).toList.getLast? := by
    rw [String.toList_ofList, List.getLast?_append, List.getLast?_eq_some_getLast hsome]
    rfl
  have hblank := hblanks _ (List.getLast_mem hsome)
  rw [(hends _ hmem).visible _ hlast] at hblank
  cases hblank

/-- Descriptors whose bare forms differ only in blanks at the end are looked up by one name. -/
theorem lookup_name_of_bare {left right : String} (hblanks : IsBlankText blanks)
    (h : bare left.toList = bare right.toList ++ blanks) :
    lookupName? left = lookupName? right := by
  have htrim : trim ([] ++ bare right.toList ++ blanks) = trim (bare right.toList) :=
    trim_around (List.forall_mem_nil _) hblanks
  rw [lookupName?, h, lookupName?, ← htrim, List.nil_append]

/-- A nullable mark, blanks before it and blanks around the whole descriptor do not change the type
that the descriptor denotes, in any registry and context. They do not change either whether the
descriptor names the tracked type, unless it does without them and there is a blank before the
mark. -/
theorem nullable_spacing_iff {type front gap back : String} (htype : IsMarkable type.toList)
    (hfront : IsBlankText front.toList) (hgap : IsBlankText gap.toList)
    (hback : IsBlankText back.toList) :
    (isTarget (front ++ (type ++ gap ++ "?") ++ back) = isTarget type ↔
        gap = "" ∨ isTarget type = false) ∧
      isTarget (front ++ type ++ back) = isTarget type ∧
      ∀ (r : Registry) (context : LookupContext),
        r.resolveType? (front ++ (type ++ gap ++ "?") ++ back) context =
            r.resolveType? type context ∧
          r.resolveType? (front ++ type ++ back) context = r.resolveType? type context := by
  have hmarked : bare (front ++ (type ++ gap ++ "?") ++ back).toList =
      bare type.toList ++ gap.toList := by
    simp only [String.toList_append]
    rw [bare_around hfront hback]
    exact bare_nullable htype hgap
  have haround : bare (front ++ type ++ back).toList = bare type.toList := by
    simp only [String.toList_append]
    exact bare_around hfront hback
  refine ⟨?_, ?_, fun r context ↦ ⟨?_, ?_⟩⟩
  · rw [isTarget, isTarget, hmarked]
    by_cases hnone : gap = ""
    · simp [hnone]
    · have hsome : gap.toList ≠ [] := fun hnil ↦ hnone (String.toList_eq_nil_iff.1 hnil)
      rw [not_target_of_blanks hgap hsome]
      simp only [hnone, false_or]
      exact eq_comm
  · rw [isTarget, haround, isTarget]
  · rw [Registry.resolveType?, lookup_name_of_bare hgap hmarked, Registry.resolveType?]
  · have hsame : bare (front ++ type ++ back).toList = bare type.toList ++ [] := by
      rw [haround, List.append_nil]
    rw [Registry.resolveType?, lookup_name_of_bare (List.forall_mem_nil _) hsame,
      Registry.resolveType?]

end Descriptor

namespace Nullable

/-- A type with a property of the given type, which its method `M` reads. -/
def source (type : String) : String :=
  "class A \x7b " ++ type ++ " S \x7b get; \x7d void M() \x7b N(this.S); \x7d \x7d"

/-- The project with this file only. -/
def model (type : String) : Model :=
  .ofUnits [.create ⟨"A.cs"⟩ none (source type) (Node.ofSource (source type))]

/-- The properties in the closure of `M`. -/
def tracked (type : String) : Option (List SymbolId) :=
  ((model type).findSeed 0 "M").toOption.map fun seed ↦
    ((model type).closure (fun _ ↦ false) (fun _ ↦ false) .fifo seed).properties.toList.map ident

/-- The place outside of all types of the file. -/
def top : LookupContext :=
  ⟨0, ⟨[], []⟩⟩

end Nullable

namespace Descriptor

open Nullable

/-- A mark that stands apart from the name of a declared type, on a line of its own. -/
theorem nullable_spacing_iff_declared :
    IsMarkable "A".toList ∧ isTarget "\tA \n? " = isTarget "A" ∧
      (model "string").registry.resolveType? "\tA \n? " top = some ⟨"A"⟩ := by
  have hmarkable : IsMarkable "A".toList := by decide
  have hfacts : isTarget "A" = false ∧
      (model "string").registry.resolveType? "A" top = some ⟨"A"⟩ := by decide +kernel
  obtain ⟨htarget, _, hdenotes⟩ :=
    @nullable_spacing_iff "A" "\t" " \n" " " hmarkable (by decide) (by decide) (by decide)
  exact ⟨hmarkable, htarget.2 (Or.inr hfacts.1), (hdenotes _ top).1.trans hfacts.2⟩

/-- A property whose type is spelled with a blank before the mark is not tracked. -/
theorem blank_before_mark_untracked :
    (normalize "string ?" = "string ?" ∧ isTarget "string ?" = false ∧ isTarget "string" = true ∧
      tracked "string ?" = some [] ∧ tracked "string?" = some [.property ⟨"A"⟩ "S"]) ∧
    ¬ ∀ type gap : String, IsMarkable type.toList → IsBlankText gap.toList →
      isTarget (type ++ gap ++ "?") = isTarget type := by
  have hfacts : normalize "string ?" = "string ?" ∧ isTarget "string ?" = false ∧
      isTarget "string" = true ∧ tracked "string ?" = some [] ∧
      tracked "string?" = some [.property ⟨"A"⟩ "S"] := by decide +kernel
  refine ⟨hfacts, fun hsameTarget ↦ ?_⟩
  have hsame := hsameTarget "string" " " (by decide) (by decide)
  rw [hfacts.2.2.1] at hsame
  exact absurd (hsame.symm.trans hfacts.2.1) (by decide)

end Descriptor

end MemberReach
