import MemberReach.Grammar.Rules
import MemberReach.Proofs.Paths
import MemberReach.Proofs.TypeNames

/-!
# Paths of type keys

A key is the text of a path: the namespaces and types that lead to a type, with dots between them. A
segment is a part that such a text can be divided into again: it is not empty, has no dot and no
blank at its ends. If all parts of a path are segments, the path is read back off its key
(`namespace_parts_join`), so keys are equal only if paths are. Dividing a name gives segments and
nothing else (`segment_of_mem_parts`), whatever the name is, so the namespaces around a node always
are.
-/

namespace MemberReach

open Text

namespace Text

/-- What is left after a cut at the end does not end in what was cut off. -/
theorem last_drop_end_while {α : Type} (p : α → Bool) (s : List α) :
    ∀ x ∈ (dropEndWhile p s).getLast?, p x = false := by
  intro x hx
  have hhead := List.head?_dropWhile_not p s.reverse
  rw [dropEndWhile, List.getLast?_reverse] at hx
  rw [hx] at hhead
  exact hhead

/-- A cut at the end leaves the front. -/
theorem drop_end_while_prefix {α : Type} (p : α → Bool) (s : List α) : dropEndWhile p s <+: s := by
  have hsuffix : s.reverse.dropWhile p <:+ s.reverse := List.dropWhile_suffix p
  rw [dropEndWhile, ← List.reverse_suffix, List.reverse_reverse]
  exact hsuffix

/-- A trimmed text does not start with a blank. -/
theorem head_trim (s : List Char) : ∀ c ∈ (trim s).head?, isBlank c = false := by
  intro c hc
  have hstart := List.head?_dropWhile_not isBlank s
  obtain ⟨rest, hrest⟩ := drop_end_while_prefix isBlank (trimStart s)
  have hsame : (trimStart s).head? = some c := by
    rw [← hrest, List.head?_append, ← trimEnd, ← trim, hc, Option.some_or]
  rw [← trimStart, hsame] at hstart
  exact hstart

/-- A trimmed text does not end with a blank. -/
theorem last_trim (s : List Char) : ∀ c ∈ (trim s).getLast?, isBlank c = false :=
  last_drop_end_while isBlank (trimStart s)

/-- Trimming adds nothing. -/
theorem trim_sublist (s : List Char) : (trim s).Sublist s := by
  have hfront : trim s <+: trimStart s := drop_end_while_prefix isBlank (trimStart s)
  exact hfront.sublist.trans (List.dropWhile_suffix isBlank).sublist

end Text

namespace Scope

/-- A part that a dotted name can be divided into. -/
structure IsSegment (part : String) : Prop where
  nonempty : part ≠ ""
  undotted : '.' ∉ part.toList
  first : ∀ c ∈ part.toList.head?, isBlank c = false
  last : ∀ c ∈ part.toList.getLast?, isBlank c = false

/-- The conditions on a segment, as a test. -/
theorem is_segment_iff (part : String) :
    (part ≠ "" ∧ '.' ∉ part.toList ∧ (part.toList.head?.all fun c ↦ !isBlank c) ∧
      part.toList.getLast?.all fun c ↦ !isBlank c) ↔ IsSegment part := by
  simp only [Option.all_eq_true, Bool.not_eq_true']
  constructor
  · intro ⟨hnonempty, hundotted, hfirst, hlast⟩
    exact ⟨hnonempty, hundotted, hfirst, hlast⟩
  · intro h
    exact ⟨h.nonempty, h.undotted, h.first, h.last⟩

instance (part : String) : Decidable (IsSegment part) :=
  decidable_of_iff _ (is_segment_iff part)

/-- There is nothing to trim from a segment. -/
theorem IsSegment.trimmed_eq {part : String} (h : IsSegment part) : trimmed part = part := by
  rw [trimmed, trim_of_ends h.first h.last, String.ofList_toList]

/-- A name is divided into segments. -/
theorem segment_of_mem_parts {name part : String} (h : part ∈ namespaceParts name) :
    IsSegment part := by
  obtain ⟨hpart, hsome⟩ := List.mem_filter.1 h
  obtain ⟨piece, hpiece, rfl⟩ := List.mem_map.1 hpart
  have hchars : (trimmed piece).toList = trim piece.toList := String.toList_ofList
  refine ⟨?_, ?_, ?_, ?_⟩
  · intro hnil
    rw [hnil] at hsome
    exact absurd hsome (by decide)
  · intro hdot
    rw [hchars] at hdot
    exact not_mem_of_mem_pieces hpiece ((trim_sublist _).subset hdot)
  · rw [hchars]
    exact head_trim _
  · rw [hchars]
    exact last_trim _

/-- Segments that are joined by dots are found again when the text is divided. -/
theorem namespace_parts_join {parts : List String} (h : ∀ part ∈ parts, IsSegment part) :
    namespaceParts (join "." parts) = parts := by
  by_cases hne : parts = []
  · subst hne
    decide
  · have htrim : parts.map trimmed = parts := by
      rw [List.map_congr_left fun part hpart ↦ (h part hpart).trimmed_eq]
      exact List.map_id' parts
    have hsome : ∀ part ∈ parts, (!part.isEmpty) = true := by
      intro part hpart
      simpa using (h part hpart).nonempty
    rw [namespaceParts, pieces_join rfl hne fun part hpart ↦ (h part hpart).undotted, htrim,
      List.filter_eq_self.2 hsome]

/-- The name of a node is divided into segments. -/
theorem segment_of_mem_name_parts {c : Cursor} {part : String} (h : part ∈ nameParts c) :
    IsSegment part := by
  rw [nameParts] at h
  cases hname : c.child? .name with
  | none =>
      rw [hname] at h
      cases h
  | some name =>
      rw [hname] at h
      exact segment_of_mem_parts h

/-- The namespaces around a node are segments. -/
theorem segment_of_mem_spaces {c : Cursor} {part : String} (h : part ∈ (Scope.of c).spaces) :
    IsSegment part := by
  rcases List.mem_append.1 h with hsibling | hopened
  · split at hsibling
    next => cases hsibling
    next =>
      rw [siblingSpaces] at hsibling
      cases hspace : c.root.childOfKind? .fileScopedNamespaceDeclaration with
      | none =>
          rw [hspace] at hsibling
          cases hsibling
      | some space =>
          rw [hspace] at hsibling
          exact segment_of_mem_name_parts hsibling
  · obtain ⟨n, _, hpart⟩ := List.mem_flatMap.1 hopened
    rw [openedSpaces] at hpart
    split at hpart
    next => exact segment_of_mem_name_parts hpart
    next => exact segment_of_mem_name_parts hpart
    next => cases hpart

end Scope

namespace TypeKey

open Scope

/-- The last segment of a key is the innermost type. -/
theorem simple_name_eq_last {spaces types : List String} (h : types ≠ [])
    (hlast : '.' ∉ (types.getLast h).toList) :
    (ofParts spaces types).simpleName = types.getLast h := by
  have hsplit : ofParts spaces types = ofParts (spaces ++ types.dropLast) [types.getLast h] := by
    rw [ofParts, ofParts, List.append_assoc, List.dropLast_append_getLast h]
  rw [hsplit, simple_name_of_parts hlast]

/-- Keys of paths of segments are equal only if the paths are. -/
theorem of_parts_eq_iff {spaces types spaces' types' : List String}
    (h : ∀ part ∈ spaces ++ types, IsSegment part)
    (h' : ∀ part ∈ spaces' ++ types', IsSegment part) :
    ofParts spaces types = ofParts spaces' types' ↔ spaces ++ types = spaces' ++ types' := by
  constructor
  · intro hkeys
    have hparts := congrArg (fun key ↦ namespaceParts key.path) hkeys
    simp only [ofParts] at hparts
    rwa [namespace_parts_join h, namespace_parts_join h'] at hparts
  · intro hpaths
    rw [ofParts, hpaths, ofParts]

/-- A path of segments is read back off its key, which ends in the name of the innermost type, and
keys of such paths are equal only if the paths are. Dividing any name gives segments. So the key of
a node is divided into the namespaces and types around it, if the names of the types are
segments. -/
theorem keys_faithful :
    (∀ spaces types : List String, (∀ part ∈ spaces ++ types, IsSegment part) →
      ∀ h : types ≠ [], namespaceParts (ofParts spaces types).path = spaces ++ types ∧
        (ofParts spaces types).simpleName = types.getLast h) ∧
    (∀ spaces types spaces' types' : List String, (∀ part ∈ spaces ++ types, IsSegment part) →
      (∀ part ∈ spaces' ++ types', IsSegment part) →
        (ofParts spaces types = ofParts spaces' types' ↔
          spaces ++ types = spaces' ++ types')) ∧
    (∀ name : String, ∀ part ∈ namespaceParts name, IsSegment part) ∧
    ∀ (c : Cursor) (key : TypeKey), (Scope.of c).typeKey? = some key →
      (∀ name ∈ (Scope.of c).types, IsSegment name) →
        namespaceParts key.path = (Scope.of c).spaces ++ (Scope.of c).types := by
  refine ⟨fun spaces types hparts hne ↦ ⟨namespace_parts_join hparts, ?_⟩,
    fun _ _ _ _ h h' ↦ of_parts_eq_iff h h', fun name part ↦ segment_of_mem_parts, ?_⟩
  · have hlast := hparts _ (List.mem_append_right spaces (List.getLast_mem hne))
    exact simple_name_eq_last hne hlast.undotted
  · intro c key hkey htypes
    rw [(path_of_type_key hkey).2]
    refine namespace_parts_join fun part hpart ↦ ?_
    rcases List.mem_append.1 hpart with hspace | htype
    · exact segment_of_mem_spaces hspace
    · exact htypes part htype

/-- A type in a type of a namespace whose name is spelled with blanks around its dot. -/
def spaced : Cursor :=
  .atRoot (.ofSource "namespace N . M \x7b class A \x7b class B \x7b \x7d \x7d \x7d")

/-- The key of the inner type gives back the path without the blanks. It is the key of the same path
where another part of it is meant for namespaces, and of no other path. -/
theorem keys_faithful_spaced :
    (∀ part ∈ ["N", "M"] ++ ["A", "B"], IsSegment part) ∧
    (∃ c ∈ spaced.descendants, (Scope.of c).typeKey? = some (ofParts ["N", "M"] ["A", "B"]) ∧
      namespaceParts (ofParts ["N", "M"] ["A", "B"]).path =
        (Scope.of c).spaces ++ (Scope.of c).types) ∧
    namespaceParts (ofParts ["N", "M"] ["A", "B"]).path = ["N", "M", "A", "B"] ∧
    (ofParts ["N", "M"] ["A", "B"]).simpleName = "B" ∧
    ofParts ["N", "M"] ["A", "B"] = ofParts ["N"] ["M", "A", "B"] ∧
    ofParts ["N", "M"] ["A", "B"] ≠ ofParts ["N"] ["M", "B"] ∧
    IsSegment "M" := by
  obtain ⟨hpaths, hkeys, hparts, hscopes⟩ := keys_faithful
  have hsegments : ∀ part ∈ ["N", "M"] ++ ["A", "B"], IsSegment part := by decide
  have hother : ∀ part ∈ ["N"] ++ ["M", "B"], IsSegment part := by decide
  have hnode : ∃ c ∈ spaced.descendants,
      (Scope.of c).typeKey? = some (ofParts ["N", "M"] ["A", "B"]) ∧
      ∀ name ∈ (Scope.of c).types, IsSegment name := by decide +kernel
  obtain ⟨c, hc, hkey, htypes⟩ := hnode
  have hpath := hpaths ["N", "M"] ["A", "B"] hsegments (List.cons_ne_nil "A" ["B"])
  refine ⟨hsegments, ⟨c, hc, hkey, hscopes c _ hkey htypes⟩, hpath.1, hpath.2, ?_, ?_, ?_⟩
  · exact (hkeys ["N", "M"] ["A", "B"] ["N"] ["M", "A", "B"] hsegments hsegments).2 rfl
  · intro hsame
    have hlists := (hkeys ["N", "M"] ["A", "B"] ["N"] ["M", "B"] hsegments hother).1 hsame
    exact absurd hlists (by decide)
  · exact hparts "N . M" "M" (by decide)

end TypeKey

end MemberReach
