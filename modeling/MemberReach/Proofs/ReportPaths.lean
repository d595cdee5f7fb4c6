import Mathlib.Data.List.Induction
import MemberReach.Proofs.FileWrites
import MemberReach.Report

/-!
# The place of a report

The report of a method stands beside the seed file: the path of the report has the segments of the
path of the seed, up to segments that are followed to where they start, and another last one
(`segments_of_path`). The name of the report is never that of the seed (`file_name_ne`), it divides
no directories, and it ends in an extension of its own.
-/

namespace MemberReach

open Text

/-! ### Segments -/

namespace Path

/-- A text without slashes is one segment. -/
theorem pieces_of_no_slash {text : String} (h : '/' ∉ text.toList) : pieces '/' text = [text] := by
  rw [pieces, List.splitOn_eq_singleton h, List.map_singleton, String.ofList_toList]

/-- No segment holds a slash. -/
theorem no_slash_of_segment {path : Path} {segment : String} (h : segment ∈ path.segments) :
    '/' ∉ segment.toList :=
  not_mem_of_mem_pieces h

/-- The segments of a path are joined to its text. -/
theorem join_segments (path : Path) : Text.join "/" path.segments = path.text := by
  rw [Text.join, segments, pieces, List.map_map]
  have hid : String.toList ∘ String.ofList = id := by
    funext chars
    exact String.toList_ofList
  rw [hid, List.map_id]
  exact (congrArg String.ofList (List.intercalate_splitOn '/')).trans String.ofList_toList

/-- What stands in one of several texts stands in what they are joined to. -/
theorem mem_join_of_mem {c : Char} {parts : List String} {part : String} (hpart : part ∈ parts)
    (hc : c ∈ part.toList) : c ∈ (Text.join "/" parts).toList := by
  rw [Text.join, String.toList_ofList]
  induction parts with
  | nil => cases hpart
  | cons first rest ih =>
      cases rest with
      | nil =>
          rw [List.mem_singleton.1 hpart] at hc
          simpa using hc
      | cons next rest =>
          rw [List.map_cons, List.map_cons, List.intercalate_cons_cons, List.mem_append,
            List.mem_append]
          rcases List.mem_cons.1 hpart with rfl | hpart
          · exact Or.inl (Or.inl hc)
          · exact Or.inr (ih hpart)

/-- What stands in a segment stands in the path. -/
theorem mem_text_of_segment {path : Path} {segment : String} (h : segment ∈ path.segments)
    {c : Char} (hc : c ∈ segment.toList) : c ∈ path.text.toList := by
  rw [← join_segments]
  exact mem_join_of_mem h hc

/-- Whether segments are those of an absolute path. -/
def startsAtRoot : List String → Bool
  | first :: _ :: _ => first == ""
  | _ => false

/-- A path is absolute if its segments say so. -/
theorem is_absolute_eq (path : Path) : path.isAbsolute = startsAtRoot path.segments := by
  rw [isAbsolute, segments, pieces]
  cases htext : path.text.toList with
  | nil => rfl
  | cons first rest =>
      rw [List.splitOn_cons_eq_if_modifyHead, List.head?_cons]
      cases hsplit : rest.splitOn '/' with
      | nil => exact absurd hsplit (List.splitOn_ne_nil '/' rest)
      | cons head tail =>
          by_cases hfirst : first = '/'
          · simp [hfirst, startsAtRoot]
          · cases tail <;> simp [hfirst, startsAtRoot]

/-! ### Components -/

/-- The components of some segments with their positions. -/
def componentsOf (segments : List String) : List (Component × Nat) :=
  segments.zipIdx.filterMap fun (segment, index) ↦
    (component? segment index).map fun component ↦ (component, index)

/-- A segment at the end gives the last component, or none. -/
theorem components_of_concat (segments : List String) (segment : String) :
    componentsOf (segments ++ [segment]) = componentsOf segments ++
      ((component? segment segments.length).map fun component ↦
        (component, segments.length)).toList := by
  rw [componentsOf, List.zipIdx_append, List.filterMap_append]
  cases hcomponent : component? segment segments.length <;> simp [componentsOf, hcomponent]

/-- Segments without components are followed to where they start. -/
def AreSkipped (segments : List String) : Prop :=
  ∀ segment ∈ segments, segment = "" ∨ segment = "."

/-- A segment without a component is skipped, and the first one only if it is empty. -/
theorem component_eq_none {segment : String} {index : Nat} (h : component? segment index = none) :
    segment = "" ∨ segment = "." ∧ index ≠ 0 := by
  unfold component? at h
  split_ifs at h with hempty hhere hindex
  · exact Or.inl (eq_of_beq hempty)
  · exact Or.inr ⟨eq_of_beq hhere, by simpa using hindex⟩

/-- Segments end with a component and segments that are skipped, or they have no components. Those
without components start at the root if there are any. -/
theorem components_of_cases (segments : List String) :
    componentsOf segments = [] ∧ AreSkipped segments ∧
        (segments = [] ∨ ∃ rest, segments = "" :: rest) ∨
      ∃ front base segment skipped component,
        segments = base ++ [segment] ++ skipped ∧ AreSkipped skipped ∧ segment ≠ "" ∧
          component ≠ .root ∧ componentsOf segments = front ++ [(component, base.length)] := by
  induction segments using List.reverseRecOn with
  | nil => exact Or.inl ⟨rfl, nofun, Or.inl rfl⟩
  | append_singleton front segment ih =>
      rw [components_of_concat]
      cases hcomponent : component? segment front.length with
      | some component =>
          refine Or.inr ⟨componentsOf front, front, segment, [], component, by simp, nofun, ?_, ?_,
            rfl⟩
          · rintro rfl
            cases hcomponent
          · rintro rfl
            unfold component? at hcomponent
            split_ifs at hcomponent <;> cases hcomponent
      | none =>
          have hskip := component_eq_none hcomponent
          have hsegment : AreSkipped [segment] := by
            simpa [AreSkipped] using hskip.imp_right And.left
          rw [Option.map_none, Option.toList_none, List.append_nil]
          rcases ih with ⟨hnone, hfront, hstart⟩ |
            ⟨before, base, last, skipped, component, hsegments, hskipped, hlast, hroot, hsome⟩
          · refine Or.inl ⟨hnone, List.forall_mem_append.2 ⟨hfront, hsegment⟩, Or.inr ?_⟩
            rcases hstart with rfl | ⟨rest, rfl⟩
            · rcases hskip with rfl | ⟨_, hindex⟩
              · exact ⟨[], rfl⟩
              · exact absurd rfl hindex
            · exact ⟨rest ++ [segment], rfl⟩
          · refine Or.inr ⟨before, base, last, skipped ++ [segment], component, ?_,
              List.forall_mem_append.2 ⟨hskipped, hsegment⟩, hlast, hroot, hsome⟩
            rw [hsegments, List.append_assoc]

/-! ### The directory of a path -/

/-- A text without slashes is no absolute path. -/
theorem is_relative {file : String} (h : '/' ∉ file.toList) :
    (Path.mk file).isAbsolute = false := by
  rw [is_absolute_eq, segments, pieces_of_no_slash h]
  rfl

/-- A file name is joined to a directory as its last segment. -/
theorem segments_join_file {directory : Path} {front : List String} {last file : String}
    (hdirectory : directory.segments = front ++ [last]) (hlast : last ≠ "")
    (hfile : '/' ∉ file.toList) :
    (directory.join ⟨file⟩).segments = directory.segments ++ [file] := by
  have hempty : (directory.text == "") = false := by
    refine beq_eq_false_iff_ne.2 fun hempty ↦ hlast ?_
    rw [segments, hempty] at hdirectory
    exact (List.append_singleton_inj.1 (hdirectory.symm.trans (List.nil_append [""]).symm)).2
  have hslash : (directory.text.toList.getLast? == some '/') = false := by
    refine beq_eq_false_iff_ne.2 fun hslash ↦ hlast ?_
    obtain ⟨chars, hchars⟩ := List.getLast?_eq_some_iff.1 hslash
    have htext : directory.text = String.ofList chars ++ "/" ++ "" := by
      apply String.toList_injective
      simp [hchars]
    rw [segments, htext, pieces_slash] at hdirectory
    exact (List.append_singleton_inj.1 hdirectory).2.symm
  rw [join, is_relative hfile, hempty, hslash]
  show pieces '/' (directory.text ++ "/" ++ file) = pieces '/' directory.text ++ [file]
  rw [pieces_slash, pieces_of_no_slash hfile]

/-- The directory of a path that has two components or more. -/
theorem parent_of_located {path : Path} (front : List (Component × Nat))
    {last : Component × Nat} {name : String} {index : Nat}
    (h : path.located = front ++ [last] ++ [(.name name, index)]) :
    path.parent? = some (path.between 0 last) := by
  rw [parent?, h, List.reverse_concat, List.reverse_concat]

section Parent

variable {path : Path} {segments : List String} {segment : String}
  (hpath : path.segments = segments ++ [segment]) (hsegment : FileSystem.isEntryName segment = true)

include hpath hsegment

/-- The last component of a path that ends with the name of an entry. -/
theorem located_concat :
    path.located = ((if path.isAbsolute then [(.root, 0)] else []) ++ componentsOf segments) ++
      [(.name segment, segments.length)] := by
  have hcomponent : component? segment segments.length = some (.name segment) := by
    simp only [FileSystem.isEntryName, Bool.and_eq_true, bne_iff_ne] at hsegment
    simp [component?, hsegment]
  have hlocated : path.located =
      (if path.isAbsolute then [(.root, 0)] else []) ++ componentsOf path.segments := rfl
  rw [hlocated, hpath, components_of_concat, hcomponent, List.append_assoc]
  rfl

/-- A path that ends with the name of an entry has this name. -/
theorem file_name_of_concat : path.fileName? = some segment := by
  rw [fileName?, components, located_concat hpath hsegment, List.map_append, List.map_singleton,
    List.getLast?_concat]

/-- The path of another entry of the directory has the segments of the path, those that are skipped
before the last one left out. -/
theorem segments_beside {file : String} (hfile : '/' ∉ file.toList) :
    ∃ base skipped directory, path.parent? = some directory ∧ segments = base ++ skipped ∧
      AreSkipped skipped ∧ (base = [] → skipped = []) ∧
      (directory.join ⟨file⟩).segments = base ++ [file] := by
  have hlocated := located_concat hpath hsegment
  rw [is_absolute_eq, hpath] at hlocated
  rcases components_of_cases segments with ⟨hnone, hskipped, rfl | ⟨rest, rfl⟩⟩ |
    ⟨front, base, last, skipped, component, rfl, hskipped, hlast, hroot, hsome⟩
  · -- a bare name stands in the working directory
    refine ⟨[], [], ⟨""⟩, ?_, rfl, nofun, fun _ ↦ rfl, ?_⟩
    · rw [parent?, hlocated]
      rfl
    · rw [join, is_relative hfile]
      exact pieces_of_no_slash hfile
  · -- a name below the root only
    refine ⟨[""], rest, ⟨"/"⟩, ?_, rfl, (List.forall_mem_cons.1 hskipped).2, nofun, ?_⟩
    · have habsolute : startsAtRoot ("" :: rest ++ [segment]) = true := by
        cases rest <;> rfl
      rw [habsolute, hnone] at hlocated
      exact parent_of_located [] hlocated
    · rw [join, is_relative hfile]
      show pieces '/' ("" ++ "/" ++ file) = ["", file]
      rw [pieces_slash, pieces_of_no_slash hfile]
      rfl
  · have hparts : ∀ part ∈ base ++ [last], '/' ∉ part.toList := by
      intro part hpart
      have hmem : part ∈ path.segments := by
        rw [hpath, List.append_assoc]
        exact List.mem_append_left _ hpart
      exact no_slash_of_segment hmem
    rw [hsome, ← List.append_assoc] at hlocated
    have hbetween : path.between 0 (component, base.length) =
        ⟨Text.join "/" (base ++ [last])⟩ := by
      have htake : (base ++ [last] ++ skipped ++ [segment]).take (base.length + 1) =
          base ++ [last] := by
        rw [List.append_assoc]
        exact List.take_left' (by simp)
      rw [between, if_neg (by simpa using hroot), hpath, htake, List.drop_zero]
    have hsegments : (Path.mk (Text.join "/" (base ++ [last]))).segments = base ++ [last] :=
      pieces_join rfl (by simp) hparts
    refine ⟨base ++ [last], skipped, _, parent_of_located _ hlocated, rfl, hskipped, by simp, ?_⟩
    rw [hbetween, segments_join_file hsegments hlast hfile, hsegments]

end Parent

/-! ### The name of a file -/

/-- A name is its part before the last dot, or this part, the dot and its extension. -/
theorem split_at_dot_cases (name : String) :
    splitAtDot name = (name, none) ∨
      ∃ stem extension, splitAtDot name = (stem, some extension) ∧
        name = stem ++ "." ++ extension := by
  rw [splitAtDot]
  split
  next => exact Or.inl rfl
  next hbefore =>
    refine Or.inr ⟨_, _, rfl, ?_⟩
    have hsplit : name.toList.reverse.takeWhile (· != '.') ++
        name.toList.reverse.dropWhile (· != '.') = name.toList.reverse :=
      List.takeWhile_append_dropWhile
    have hhead := List.head?_dropWhile_not (· != '.') name.toList.reverse
    cases hdrop : name.toList.reverse.dropWhile (· != '.') with
    | nil =>
        rw [hdrop] at hbefore
        exact absurd rfl hbefore
    | cons dot rest =>
        rw [hdrop] at hhead hsplit
        obtain rfl : dot = '.' := by simpa using hhead
        apply String.toList_injective
        rw [← List.reverse_inj]
        refine hsplit.symm.trans ?_
        simp

/-- The extension is what follows the last dot, if something stands before the dot. -/
theorem extension_of_append (front extension : String)
    (hextension : '.' ∉ extension.toList) :
    (splitAtDot (front ++ "." ++ extension)).2 =
      if front = "" then none else some extension := by
  have hreverse : (front ++ "." ++ extension).toList.reverse =
      extension.toList.reverse ++ '.' :: front.toList.reverse := by simp
  have hall : ∀ c ∈ extension.toList.reverse, (c != '.') = true := by
    intro c hc
    rw [bne_iff_ne]
    rintro rfl
    exact hextension (List.mem_reverse.1 hc)
  rw [splitAtDot, hreverse, List.dropWhile_append_of_pos hall, List.takeWhile_append_of_pos hall]
  by_cases hfront : front = ""
  · simp [hfront]
  · simp [hfront]

end Path

/-! ### The name of a report -/

namespace Report

/-- The name of the report of a method in a file of a given name. -/
def fileName (name method suffix : String) : String :=
  (Path.splitAtDot name).1 ++ "_" ++ method ++ (if suffix.isEmpty then "" else "_" ++ suffix) ++
    ".json"

variable {name method suffix : String}

/-- The extension of the name of a report. -/
theorem extension_of_file_name (name method suffix : String) :
    (Path.splitAtDot (fileName name method suffix)).2 = some "json" := by
  let front := (Path.splitAtDot name).1 ++ "_" ++ method ++
    if suffix.isEmpty then "" else "_" ++ suffix
  have hname : fileName name method suffix = front ++ "." ++ "json" := by
    rw [String.append_assoc]
    rfl
  have hfront : front ≠ "" := fun hempty ↦ by
    have hchars := congrArg String.toList hempty
    simp [front] at hchars
  rw [hname, Path.extension_of_append front "json" (by decide), if_neg hfront]

/-- The report of a file does not have the name of the file. -/
theorem file_name_ne (name method suffix : String) : fileName name method suffix ≠ name := by
  intro hsame
  have hchars := congrArg String.toList hsame
  rcases Path.split_at_dot_cases name with hsplit | ⟨stem, extension, hsplit, hname⟩
  · rw [fileName, hsplit] at hchars
    simp at hchars
  · -- the name goes on with a dot where the report goes on with a line
    rw [fileName, hsplit, hname] at hchars
    simp at hchars

/-- The name of a report divides no directories. -/
theorem file_name_no_slash (hname : '/' ∉ name.toList) (hmethod : '/' ∉ method.toList)
    (hsuffix : '/' ∉ suffix.toList) : '/' ∉ (fileName name method suffix).toList := by
  have hstem : '/' ∉ (Path.splitAtDot name).1.toList := by
    rcases Path.split_at_dot_cases name with hsplit | ⟨stem, extension, hsplit, rfl⟩
    · rwa [hsplit]
    · rw [hsplit]
      intro hmem
      exact hname (by simp [hmem])
  have htail : '/' ∉ (if suffix.isEmpty then "" else "_" ++ suffix).toList := by
    split
    · exact List.not_mem_nil
    · simpa using hsuffix
  rw [fileName]
  simp only [String.toList_append, List.mem_append, not_or]
  exact ⟨⟨⟨⟨hstem, by decide⟩, hmethod⟩, htail⟩, by decide⟩

/-- The report has the segments of the seed file, those that are skipped before the last one left
out, and its own name. -/
theorem segments_of_path {seed : Path} {segments : List String} {name : String}
    (hseed : seed.segments = segments ++ [name])
    (hname : FileSystem.isEntryName name = true) (hmethod : '/' ∉ method.toList)
    (hsuffix : '/' ∉ suffix.toList) :
    ∃ base skipped, segments = base ++ skipped ∧ Path.AreSkipped skipped ∧
      (path seed method suffix).segments = base ++ [fileName name method suffix] ∧
      (path seed method suffix).isAbsolute = seed.isAbsolute := by
  have hslash : '/' ∉ name.toList := by
    have hmem : name ∈ seed.segments := by simp [hseed]
    exact Path.no_slash_of_segment hmem
  obtain ⟨base, skipped, directory, hparent, rfl, hskipped, hbare, hsegments⟩ :=
    Path.segments_beside hseed hname (file_name_no_slash hslash hmethod hsuffix)
  have hpath : path seed method suffix = directory.join ⟨fileName name method suffix⟩ := by
    simp only [path, hparent, Path.stem?, Path.file_name_of_concat hseed hname, Option.map_some,
      Option.getD_some]
    rfl
  rw [← hpath] at hsegments
  refine ⟨base, skipped, rfl, hskipped, hsegments, ?_⟩
  rw [Path.is_absolute_eq, Path.is_absolute_eq, hsegments, hseed]
  cases base with
  | nil =>
      rw [hbare rfl]
      rfl
  | cons first rest => cases rest <;> cases skipped <;> simp [Path.startsAtRoot]

end Report

end MemberReach
