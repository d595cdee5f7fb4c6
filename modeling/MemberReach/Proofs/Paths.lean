import Mathlib.Data.List.Nodup
import MemberReach.Proofs.FileTrees

/-!
# Paths and places

The absolute path through some names has these names as its components (`components_of_names`), so
different places have different paths, and it leads to the place that the names lead to
(`resolve_of_names`). Whatever path is followed, it ends at a place that exists.
-/

namespace MemberReach

open Text

/-! ### Texts in pieces -/

namespace Text

/-- Texts without the separator are the pieces of what they are joined to. -/
theorem pieces_join {c : Char} {separator : String} (hseparator : separator.toList = [c])
    {parts : List String} (hne : parts ≠ []) (hparts : ∀ part ∈ parts, c ∉ part.toList) :
    pieces c (join separator parts) = parts := by
  have hsplit := List.splitOn_intercalate c (List.forall_mem_map.2 hparts)
    (fun hnil ↦ hne (List.map_eq_nil_iff.1 hnil))
  rw [pieces, join, String.toList_ofList, hseparator, hsplit, List.map_map]
  simp

/-- No piece holds what divides the pieces. -/
theorem not_mem_of_mem_split {c : Char} {chars piece : List Char} (h : piece ∈ chars.splitOn c) :
    c ∉ piece := by
  induction chars generalizing piece with
  | nil =>
      rw [List.splitOn_nil, List.mem_singleton] at h
      subst h
      exact List.not_mem_nil
  | cons first rest ih =>
      rw [List.splitOn_cons_eq_if_modifyHead] at h
      split at h
      next =>
        rcases List.mem_cons.1 h with rfl | h
        · exact List.not_mem_nil
        · exact ih h
      next hfirst =>
        cases hsplit : rest.splitOn c with
        | nil =>
            rw [hsplit] at h
            cases h
        | cons head tail =>
            rw [hsplit] at h ih
            rcases List.mem_cons.1 h with rfl | h
            · rw [List.mem_cons, not_or]
              exact ⟨fun hc ↦ hfirst (beq_iff_eq.2 hc.symm), ih List.mem_cons_self⟩
            · exact ih (List.mem_cons_of_mem head h)

/-- No piece of a string holds the character that divides it. -/
theorem not_mem_of_mem_pieces {c : Char} {s piece : String} (h : piece ∈ pieces c s) :
    c ∉ piece.toList := by
  obtain ⟨chars, hchars, rfl⟩ := List.mem_map.1 h
  rw [String.toList_ofList]
  exact not_mem_of_mem_split hchars

end Text

/-! ### Segments -/

namespace Path

/-- A slash divides the segments. -/
theorem pieces_slash (front back : String) :
    pieces '/' (front ++ "/" ++ back) = pieces '/' front ++ pieces '/' back := by
  have hsplit := List.splitOnP_append_cons (p := (· == '/')) front.toList back.toList
    (show ('/' == '/') = true from rfl)
  have hlist : (front ++ "/" ++ back).toList = front.toList ++ '/' :: back.toList := by simp
  rw [pieces, hlist, List.splitOn, hsplit, List.map_append]
  rfl

/-- A character of joined texts is a slash or stands in one of them. -/
theorem mem_join {c : Char} {parts : List String} (h : c ∈ (Text.join "/" parts).toList) :
    c = '/' ∨ ∃ part ∈ parts, c ∈ part.toList := by
  rw [Text.join, String.toList_ofList] at h
  induction parts with
  | nil => cases h
  | cons part rest ih =>
      cases rest with
      | nil =>
          rw [List.map_cons, List.map_nil, List.intercalate_singleton] at h
          exact Or.inr ⟨part, List.mem_cons_self, h⟩
      | cons next rest =>
          rw [List.map_cons, List.map_cons, List.intercalate_cons_cons, List.mem_append,
            List.mem_append] at h
          rcases h with (h | h) | h
          · exact Or.inr ⟨part, List.mem_cons_self, h⟩
          · exact Or.inl (List.mem_singleton.1 h)
          · rcases ih h with hslash | ⟨other, hother, hc⟩
            · exact Or.inl hslash
            · exact Or.inr ⟨other, List.mem_cons_of_mem part hother, hc⟩

section Names

variable {names : List String} (hnames : ∀ name ∈ names, FileTree.isFileName name = true)

include hnames

/-- The segments of the absolute path through some names. -/
theorem segments_of_names :
    (ofNames names).segments = "" :: if names = [] then [""] else names := by
  have htext : "/" ++ Text.join "/" names = "" ++ "/" ++ Text.join "/" names := by simp
  have hfirst : pieces '/' "" = [""] := by decide
  rw [segments, ofNames, htext, pieces_slash, hfirst, List.singleton_append]
  split
  next hnil =>
    subst hnil
    decide
  next hne =>
    rw [pieces_join rfl hne fun name hname ↦
      (FileTree.is_file_name_iff.1 (hnames name hname)).2.2.2.1]

omit hnames in
/-- Segments that are names of files stand for these names. -/
theorem components_of_segments (hnames : ∀ name ∈ names, FileTree.isFileName name = true)
    (n : Nat) :
    ((names.zipIdx n).filterMap fun (segment, index) ↦
      (component? segment index).map fun component ↦ (component, index)).map Prod.fst =
        names.map .name := by
  induction names generalizing n with
  | nil => rfl
  | cons name rest ih =>
      obtain ⟨hname, hrest⟩ := List.forall_mem_cons.1 hnames
      obtain ⟨hempty, hhere, hup, _⟩ := FileTree.is_file_name_iff.1 hname
      have hcomponent : component? name n = some (.name name) := by
        simp [component?, hempty, hhere, hup]
      rw [List.zipIdx_cons, List.filterMap_cons_some (b := (.name name, n)), List.map_cons,
        ih hrest (n + 1), List.map_cons]
      simp [hcomponent]

/-- The components of the absolute path through some names. -/
theorem components_of_names : (ofNames names).components = .root :: names.map .name := by
  have habsolute : (ofNames names).isAbsolute = true := by simp [isAbsolute, ofNames]
  have hempty : ∀ n, component? "" n = none := fun n ↦ rfl
  rw [components, located, if_pos habsolute, segments_of_names hnames, List.zipIdx_cons,
    List.filterMap_cons_none (by simp [hempty]), List.singleton_append, List.map_cons]
  split
  next hnil =>
    subst hnil
    rfl
  next => rw [components_of_segments hnames]

omit hnames in
/-- The extension of the absolute path through some names is that of the last one. -/
theorem extension_of_names {above : List String} {name : String}
    (hplace : ∀ other ∈ above ++ [name], FileTree.isFileName other = true) :
    (ofNames (above ++ [name])).extension? = (splitAtDot name).2 := by
  rw [extension?, fileName?, components_of_names hplace, List.map_append, ← List.cons_append,
    List.map_singleton, List.getLast?_concat]
  rfl

/-- Places with different names have different paths. -/
theorem of_names_injective {others : List String}
    (hothers : ∀ name ∈ others, FileTree.isFileName name = true)
    (h : ofNames names = ofNames others) : names = others := by
  have hcomponents := congrArg components h
  rw [components_of_names hnames, components_of_names hothers] at hcomponents
  refine List.map_injective_iff.2 (fun a b hab ↦ ?_) (List.cons.inj hcomponents).2
  exact Component.name.inj hab

end Names

/-- The names among the components of a path. -/
def names (path : Path) : List String :=
  path.components.filterMap fun
    | .name name => some name
    | _ => none

/-- The names of the absolute path through some names. -/
theorem names_of_names {names : List String}
    (hnames : ∀ name ∈ names, FileTree.isFileName name = true) :
    (ofNames names).names = names := by
  rw [Path.names, components_of_names hnames]
  simp

end Path

/-! ### Places -/

/-- The value of a computation is the value that it gives. -/
theorem to_option_eq_some {ε α : Type} {result : Except ε α} {value : α} :
    result.toOption = some value ↔ result = .ok value := by
  cases result <;> simp [Except.toOption]

/-- A computation without a value fails. -/
theorem to_option_eq_none {ε α : Type} {result : Except ε α} :
    result.toOption = none ↔ ∃ error, result = .error error := by
  cases result <;> simp [Except.toOption]

namespace FileSystem

variable {fs : FileSystem}

/-- What following a segment needs, and where it leads. -/
theorem step_eq_ok {names next : List String} {segment : String} :
    fs.step names segment = .ok next ↔
      ∃ entries, fs.root.at? names = some (.directory entries) ∧
        ((segment = "" ∨ segment = ".") ∧ next = names ∨
          segment = ".." ∧ next = names.dropLast ∨
          (segment ≠ "" ∧ segment ≠ "." ∧ segment ≠ "..") ∧
            segment.utf8ByteSize ≤ maxNameSize ∧ (entries.lookup segment).isSome ∧
            next = names ++ [segment]) := by
  unfold step
  cases hat : fs.root.at? names with
  | none => simp
  | some tree =>
      cases tree with
      | file content => simp [FileTree.isDirectory]
      | directory entries =>
          show (if (segment == "" || segment == ".") = true then Except.ok names
            else if (segment == "..") = true then .ok names.dropLast
            else if maxNameSize < segment.utf8ByteSize then .error FileError.nameTooLong
            else if (entries.lookup segment).isSome = true then .ok (names ++ [segment])
            else .error FileError.notFound) = .ok next ↔ _
          simp only [Bool.or_eq_true, beq_iff_eq, Option.some.injEq, FileTree.directory.injEq,
            exists_eq_left']
          split
          next hstay =>
            have hup : segment ≠ ".." := by rcases hstay with rfl | rfl <;> decide
            grind
          next hstay =>
            split
            next => grind
            next hup =>
              split
              next => grind
              next => split <;> grind

/-- What stands above a place is a directory. -/
theorem exists_entries_of_append {tree : FileTree} {names : List String} {name : String}
    (h : (tree.at? (names ++ [name])).isSome) :
    ∃ entries, tree.at? names = some (.directory entries) ∧ (entries.lookup name).isSome := by
  obtain ⟨inner, hinner⟩ := Option.isSome_iff_exists.1 h
  rw [FileTree.at_append] at hinner
  obtain ⟨above, habove, hname⟩ := Option.bind_eq_some_iff.1 hinner
  obtain ⟨entries, next, rfl, hlookup, _⟩ := FileTree.at_cons_eq_some.1 hname
  exact ⟨entries, habove, hlookup ▸ rfl⟩

/-- Following a segment ends at a place that exists. -/
theorem at_is_some_of_step {names next : List String} {segment : String}
    (h : fs.step names segment = .ok next) : (fs.root.at? next).isSome := by
  obtain ⟨entries, hat, ⟨_, rfl⟩ | ⟨_, rfl⟩ | ⟨_, _, hlookup, rfl⟩⟩ := step_eq_ok.1 h
  · rw [hat]
    rfl
  · rcases List.eq_nil_or_concat names with rfl | ⟨above, name, rfl⟩
    · rw [List.dropLast_nil, hat]
      rfl
    · rw [List.concat_eq_append] at hat ⊢
      rw [List.dropLast_concat]
      obtain ⟨_, habove, _⟩ := exists_entries_of_append (Option.isSome_iff_exists.2 ⟨_, hat⟩)
      rw [habove]
      rfl
  · obtain ⟨inner, hinner⟩ := Option.isSome_iff_exists.1 hlookup
    rw [FileTree.at_append, hat, Option.bind_some, FileTree.at_cons_eq_some.2
      ⟨entries, inner, rfl, hinner, rfl⟩]
    rfl

/-- Following segments ends at a place that exists, if there is a segment or the start exists. -/
theorem at_is_some_of_foldl {segments start names : List String}
    (h : segments.foldlM fs.step start = .ok names)
    (hstart : segments ≠ [] ∨ (fs.root.at? start).isSome) : (fs.root.at? names).isSome := by
  induction segments generalizing start with
  | nil =>
      cases h
      exact hstart.resolve_left fun hne ↦ hne rfl
  | cons segment rest ih =>
      rw [List.foldlM_cons] at h
      cases hstep : fs.step start segment with
      | error error =>
          rw [hstep] at h
          cases h
      | ok next =>
          rw [hstep] at h
          exact ih h (Or.inr (at_is_some_of_step hstep))

/-- A path has a segment. -/
theorem segments_ne_nil (path : Path) : path.segments ≠ [] := by
  intro hnil
  exact List.splitOn_ne_nil '/' path.text.toList (List.map_eq_nil_iff.1 hnil)

/-- A path that is located leads to a place that exists. -/
theorem at_is_some_of_locate {path : Path} {names : List String}
    (h : fs.locate path = .ok names) : (fs.root.at? names).isSome := by
  unfold locate at h
  cases htext : checkText path with
  | error error =>
      rw [htext] at h
      cases h
  | ok _ =>
      rw [htext] at h
      exact at_is_some_of_foldl h (Or.inl (segments_ne_nil path))

/-- Names that lead to a place are followed to it. -/
theorem foldl_step_names {start rest : List String}
    (hrest : ∀ name ∈ rest, FileTree.isFileName name = true)
    (h : (fs.root.at? (start ++ rest)).isSome) :
    rest.foldlM fs.step start = .ok (start ++ rest) := by
  induction rest generalizing start with
  | nil =>
      rw [List.append_nil]
      rfl
  | cons name rest ih =>
      obtain ⟨hname, hnames⟩ := List.forall_mem_cons.1 hrest
      obtain ⟨hempty, hhere, hup, _, _, hsize⟩ := FileTree.is_file_name_iff.1 hname
      have hassoc : start ++ name :: rest = (start ++ [name]) ++ rest := by simp
      rw [hassoc] at h ⊢
      have hnext : (fs.root.at? (start ++ [name])).isSome := by
        rw [FileTree.at_append] at h
        cases hat : fs.root.at? (start ++ [name]) with
        | none =>
            rw [hat] at h
            cases h
        | some _ => rfl
      obtain ⟨entries, hat, hlookup⟩ := exists_entries_of_append hnext
      have hstep : fs.step start name = .ok (start ++ [name]) :=
        step_eq_ok.2 ⟨entries, hat, Or.inr (Or.inr ⟨⟨hempty, hhere, hup⟩, hsize, hlookup, rfl⟩)⟩
      rw [List.foldlM_cons, hstep]
      exact ih hnames h

/-- The absolute path through names of files can be followed. -/
theorem check_text_of_names {names : List String}
    (hnames : ∀ name ∈ names, FileTree.isFileName name = true) :
    checkText (.ofNames names) = .ok () := by
  have hnul : '\x00' ∉ (Path.ofNames names).text.toList := by
    rw [Path.ofNames, String.toList_append, List.mem_append]
    rintro (hmem | hmem)
    · revert hmem
      decide
    · rcases Path.mem_join hmem with hslash | ⟨name, hname, hmem⟩
      · revert hslash
        decide
      · exact (FileTree.is_file_name_iff.1 (hnames name hname)).2.2.2.2.1 hmem
  have hempty : (Path.ofNames names).text ≠ "" := by
    intro hnil
    have := congrArg String.toList hnil
    simp [Path.ofNames] at this
  rw [checkText, if_neg (by simpa using hnul), if_neg (by simpa using hempty)]

section Absolute

variable {names : List String} (hfs : fs.isWellFormed = true) (hat : (fs.root.at? names).isSome)

include hfs hat

/-- The names of a place in a well-formed file system are names of files. -/
theorem file_names_of_at : ∀ name ∈ names, FileTree.isFileName name = true := by
  obtain ⟨tree, htree⟩ := Option.isSome_iff_exists.1 hat
  exact (FileTree.well_formed_at (Bool.and_eq_true_iff.1 hfs).2 htree).2

/-- The absolute path through the names of a place leads there. -/
theorem follow_of_names :
    fs.follow (.ofNames names) (Path.ofNames names).segments = .ok names := by
  have hnames := file_names_of_at hfs hat
  have habsolute : (Path.ofNames names).isAbsolute = true := by simp [Path.isAbsolute, Path.ofNames]
  have hstay : fs.step [] "" = .ok [] := by
    unfold step
    simp [FileTree.at?, (Bool.and_eq_true_iff.1 hfs).1]
  rw [follow, if_pos habsolute, Path.segments_of_names hnames, List.foldlM_cons, hstay]
  split
  next hnil =>
    subst hnil
    exact congrArg (fun result ↦ result >>= pure) hstay
  next => exact foldl_step_names hnames hat

/-- A place is found by the absolute path through its names, unless the path is too long. -/
theorem resolve_of_names :
    fs.resolve (.ofNames names) = (checkSize (.ofNames names)).map fun _ ↦ names := by
  rw [resolve, check_text_of_names (file_names_of_at hfs hat), follow_of_names hfs hat]
  cases checkSize (.ofNames names) <;> rfl

end Absolute

/-- The text of a file is read by the absolute path through its names, unless the path is too
long. -/
theorem read_text_of_names (hfs : fs.isWellFormed = true) {names : List String}
    {content : ByteArray} (hfile : fs.root.at? names = some (.file content)) {source : String} :
    fs.readText (.ofNames names) = .ok source ↔
      (checkSize (.ofNames names)).toOption.isSome = true ∧
        String.fromUTF8? content = some source := by
  rw [readText, readBytes, resolve_of_names hfs (Option.isSome_iff_exists.2 ⟨_, hfile⟩)]
  cases checkSize (.ofNames names) with
  | error error => simp [Except.map, bind, Except.bind, Except.toOption]
  | ok _ =>
      simp only [Except.map, hfile, bind, Except.bind, Except.toOption, Option.isSome_some,
        true_and]
      cases String.fromUTF8? content <;> simp

end FileSystem

end MemberReach
