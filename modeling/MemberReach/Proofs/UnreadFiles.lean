import MemberReach.Proofs.ProjectLoading

/-!
# Files that a project does not read

What a walk leaves out is decided by files of a few names (`Walk.ruleNames`), none of which has an
extension. A file of another name that is written changes neither what is left out (`is_kept_eq`)
nor whether a walk succeeds, so the walk does not depend on files with an extension
(`walker_overlooks`). With every walker that does not depend on files with some extension other than
that of source files, the same project is loaded before and after one is written (`load_eq`).
-/

namespace MemberReach

/-! ### Joined paths -/

namespace Path

/-- A joined path ends with the segments of what is joined to it. -/
theorem segments_join (path : Path) {next : Path} (hnext : next.isAbsolute = false) :
    ∃ segments, (path.join next).segments = segments ++ next.segments := by
  unfold join
  rw [hnext, Bool.false_or]
  split
  next => exact ⟨[], rfl⟩
  next hempty =>
    split
    next hlast =>
      rw [beq_iff_eq, List.getLast?_eq_some_iff] at hlast
      obtain ⟨front, hfront⟩ := hlast
      have htext : path.text ++ next.text = String.ofList front ++ "/" ++ next.text := by
        apply String.toList_injective
        simp [hfront]
      refine ⟨Text.pieces '/' (String.ofList front), ?_⟩
      rw [segments, htext, pieces_slash]
      rfl
    next => exact ⟨path.segments, pieces_slash path.text next.text⟩

end Path

/-- The exclude file of a linked working tree is below the shared directory. -/
theorem Repository.exists_of_found {fs : FileSystem} {link path : Path} {content : ByteArray}
    (h : linkedExclude fs link content = .found path) :
    ∃ directory line, path = excludeBelow directory line := by
  unfold linkedExclude at h
  split at h
  · cases h
  · split at h
    · cases h
    next directory _ =>
      split at h
      · cases h
      · cases h
      · split at h
        · cases h
        · cases h
        next line _ => exact ⟨directory, line, (ExcludeFile.found.inj h).symm⟩

namespace Walk

/-- The names of the files that decide what a walk leaves out. -/
def ruleNames : List String :=
  [".ignore", ".gitignore", "commondir", "exclude"] ++ Repository.markers

/-- What stands at the end of some names, or an empty directory. -/
def treeAt (fs : FileSystem) (names : List String) : FileTree :=
  (fs.root.at? names).getD (.directory [])

/-- What stands below the tree at a place stands below the place. -/
theorem look_tree_at (fs : FileSystem) (names : List String) (name : String)
    (rest : List String) :
    (treeAt fs names).look? (name :: rest) = fs.root.look? (names ++ name :: rest) := by
  rw [FileTree.look_append, treeAt]
  cases fs.root.at? names <;> rfl

/-- The exclude file of a repository depends on whether its marker is a file. -/
theorem Level.exclude_of_eq (fs : FileSystem) (names : List String) (directory : FileTree) :
    excludeOf fs names directory =
      match directory.bytesAt? [".git"] with
      | some link =>
          match Repository.linkedExclude fs (.ofNames (names ++ [".git"])) link with
          | .missing => (.empty, [])
          | .unreadable path error => (.empty, [path.text ++ ": " ++ error.message])
          | .found path =>
              let file := ((fs.readBytes path).toOption.map .ofBytes).getD .empty
              (file, file.messages path)
      | none =>
          let file := fileIn directory (".git" :: Repository.excludeNames)
          (file, file.messages (.ofNames (names ++ [".git"] ++ Repository.excludeNames))) := by
  unfold excludeOf FileTree.bytesAt?
  cases directory.at? [".git"] with
  | none => rfl
  | some inner => cases inner <;> rfl

end Walk

namespace FileSystem.Written

open Walk

variable {after before : FileSystem} {above : List String} {name : String}
  {content : ByteArray} (h : Written after before (above ++ [name]) content)
  (hname : name ∉ ruleNames)

include h hname

/-! ### The exclude file of a repository -/

omit h in
/-- A path that ends with the name of a rule file leads elsewhere. -/
theorem place_ne {fs : FileSystem} {path : Path} {segments names : List String} {segment : String}
    (hpath : path.segments = segments ++ [segment]) (hsegment : segment ∈ ruleNames)
    (hresolve : fs.resolve path = .ok names) : names ≠ above ++ [name] := by
  have hentries : ∀ rule ∈ ruleNames, isEntryName rule = true := by decide
  have hfollow := (resolve_eq_ok.1 hresolve).2.2
  rw [hpath] at hfollow
  obtain ⟨other, rfl⟩ := exists_above_of_foldl (hentries segment hsegment) hfollow
  intro hsame
  obtain ⟨_, rfl⟩ := List.append_singleton_inj.1 hsame
  exact hname hsegment

/-- A path that ends with the name of a rule file is read as before. -/
theorem read_iff {path : Path} {segments : List String} {segment : String}
    (hpath : path.segments = segments ++ [segment]) (hsegment : segment ∈ ruleNames) :
    (∀ bytes, after.readBytes path = .ok bytes ↔ before.readBytes path = .ok bytes) ∧
      (after.readBytes path = .error .isDirectory ↔
        before.readBytes path = .error .isDirectory) := by
  have hresolve : ∀ names found, after.resolve path = .ok names ∧
      after.root.look? names = found ↔
        before.resolve path = .ok names ∧ before.root.look? names = found := by
    intro names found
    by_cases hplace : names = above ++ [name]
    · exact iff_of_false (fun hafter ↦ place_ne hname hpath hsegment hafter.1 hplace)
        fun hbefore ↦ place_ne hname hpath hsegment hbefore.1 hplace
    · rw [h.resolve_iff hplace, h.elsewhere names hplace]
  constructor
  · intro bytes
    rw [read_bytes_eq_ok, read_bytes_eq_ok]
    exact exists_congr fun names ↦ hresolve names _
  · rw [read_bytes_eq_is_directory, read_bytes_eq_is_directory]
    exact exists_congr fun names ↦ hresolve names _

/-- The exclude file of a linked working tree is where it was. -/
theorem linked_exclude_eq (link : Path) (bytes : ByteArray) :
    Repository.linkedExclude after link bytes = Repository.linkedExclude before link bytes := by
  unfold Repository.linkedExclude
  cases Repository.firstLine bytes with
  | error error => rfl
  | ok line =>
      simp only
      cases line.bind Repository.linkTarget? with
      | none => rfl
      | some directory =>
          have hnext : (Path.mk "commondir").isAbsolute = false := by decide
          have hlast : (Path.mk "commondir").segments = ["commondir"] := by decide
          obtain ⟨segments, hsegments⟩ := directory.segments_join hnext
          rw [hlast] at hsegments
          obtain ⟨hok, hdirectory⟩ := h.read_iff hname hsegments (by decide)
          simp only [Repository.sharedFile]
          cases hbefore : before.readBytes (directory.join ⟨"commondir"⟩) with
          | ok shared => rw [(hok shared).2 hbefore]
          | error error =>
              cases hafter : after.readBytes (directory.join ⟨"commondir"⟩) with
              | ok shared =>
                  rw [(hok shared).1 hafter] at hbefore
                  cases hbefore
              | error other =>
                  rw [hafter, hbefore] at hdirectory
                  cases error <;> cases other <;> simp_all

/-- The exclude file of a linked working tree is read as before. -/
theorem read_exclude_eq (directory : Path) (line : String) :
    (after.readBytes (Repository.excludeBelow directory line)).toOption =
      (before.readBytes (Repository.excludeBelow directory line)).toOption := by
  have hnext : (Path.mk "info/exclude").isAbsolute = false := by decide
  have hlast : (Path.mk "info/exclude").segments = ["info"] ++ ["exclude"] := by decide
  obtain ⟨segments, hsegments⟩ := Path.segments_join
    (if line.toList.head? == some '.' then directory.join ⟨line⟩ else ⟨line⟩) hnext
  rw [hlast, ← List.append_assoc] at hsegments
  obtain ⟨hok, _⟩ := h.read_iff hname hsegments (by decide)
  exact Option.ext fun bytes ↦ to_option_eq_some.trans ((hok bytes).trans to_option_eq_some.symm)

/-! ### The ignore files of a directory -/

/-- The files that decide what a walk leaves out are the same before and after. -/
theorem look_rule_eq (names : List String) {first : String} {rest : List String}
    (hlast : ∀ last ∈ (first :: rest).getLast?, last ∈ ruleNames) :
    (treeAt after names).look? (first :: rest) = (treeAt before names).look? (first :: rest) := by
  rw [look_tree_at, look_tree_at]
  refine h.elsewhere _ fun hplace ↦ ?_
  have hend := congrArg List.getLast? hplace
  rw [List.getLast?_append_cons, List.getLast?_concat] at hend
  exact hname (hlast name hend)

/-- The bytes of the files that decide what a walk leaves out are the same before and after. -/
theorem bytes_rule_eq (names : List String) {first : String} {rest : List String}
    (hlast : ∀ last ∈ (first :: rest).getLast?, last ∈ ruleNames) :
    (treeAt after names).bytesAt? (first :: rest) =
      (treeAt before names).bytesAt? (first :: rest) := by
  rw [FileTree.bytes_at_eq_look, FileTree.bytes_at_eq_look, h.look_rule_eq hname names hlast]

/-- The exclude file of a directory is the same before and after. -/
theorem exclude_of_eq (names : List String) :
    Level.excludeOf after names (treeAt after names) =
      Level.excludeOf before names (treeAt before names) := by
  rw [Level.exclude_of_eq, Level.exclude_of_eq, h.bytes_rule_eq hname names (by decide),
    Level.fileIn, Level.fileIn, h.bytes_rule_eq hname names (by decide)]
  cases (treeAt before names).bytesAt? [".git"] with
  | none => rfl
  | some link =>
      simp only
      rw [h.linked_exclude_eq hname]
      cases hlinked : Repository.linkedExclude before (.ofNames (names ++ [".git"])) link with
      | missing => rfl
      | unreadable path error => rfl
      | found path =>
          obtain ⟨directory, line, rfl⟩ := Repository.exists_of_found hlinked
          simp only [h.read_exclude_eq hname directory line]

/-- The ignore files of a directory are the same before and after. -/
theorem level_of_eq (options : Options) (names : List String) :
    Level.of after options names (treeAt after names) =
      Level.of before options names (treeAt before names) := by
  have hmarkers : (Repository.markers.any fun marker ↦
      ((treeAt after names).at? [marker]).isSome) =
        Repository.markers.any fun marker ↦ ((treeAt before names).at? [marker]).isSome := by
    simp only [← FileTree.look_is_some, Repository.markers, List.any_cons, List.any_nil]
    rw [h.look_rule_eq hname names (by decide), h.look_rule_eq hname names (by decide)]
  simp only [Level.of, Level.fileIn, h.exclude_of_eq hname names, hmarkers]
  rw [h.bytes_rule_eq hname names (by decide), h.bytes_rule_eq hname names (by decide)]

/-! ### What is left out -/

/-- The ignore files around a path are the same before and after. -/
theorem levels_at_eq (options : Options) (top path : List String) :
    levelsAt after options top path = levelsAt before options top path := by
  refine List.map_congr_left fun names _ ↦ ?_
  have hlevel := h.level_of_eq hname options names
  simp only [levelAt, Level.above]
  unfold treeAt at hlevel
  rw [hlevel]

variable (global : IgnoreFile)

/-- Writing leaves out what was left out, and nothing else. -/
theorem is_left_out_eq (options : Options) (top : List String) :
    isLeftOut global after options top = isLeftOut global before options top := by
  funext path
  have hdirectory : ∀ fs : FileSystem,
      ((fs.root.at? path).map FileTree.isDirectory).getD false =
        decide (fs.root.look? path = some none) := by
    intro fs
    rw [FileTree.look?]
    cases fs.root.at? path with
    | none => rfl
    | some tree => cases tree <;> rfl
  rw [isLeftOut, isLeftOut, h.levels_at_eq hname, hdirectory, hdirectory]
  simp only [h.directory_iff]

/-- Writing keeps what was kept, and nothing else. -/
theorem is_kept_eq (options : Options) (top path : List String) :
    isKept global after options top path = isKept global before options top path := by
  have hfrom : ∀ rest start, isKeptFrom global after options top start rest =
      isKeptFrom global before options top start rest := by
    intro rest
    induction rest with
    | nil => exact fun start ↦ rfl
    | cons name rest ih =>
        intro start
        rw [isKeptFrom, isKeptFrom, ih, h.is_left_out_eq hname]
  exact hfrom _ _

/-- A place that was walked without errors is walked without errors. -/
theorem walk_is_ok {options : Options} {top : List String} {listed : List (List String)}
    (hwalk : places global before options top = listed.map .ok) :
    ∃ others : List (List String), places global after options top = others.map .ok := by
  have habove : (parents top).map (Level.above after options) =
      (parents top).map (Level.above before options) := by
    rw [← levels_at_top, ← levels_at_top, h.levels_at_eq hname]
  unfold places at hwalk ⊢
  cases htree : after.root.at? top with
  | none => exact ⟨[], rfl⟩
  | some tree =>
      cases tree with
      | file bytes => exact ⟨[top], rfl⟩
      | directory entries =>
          obtain ⟨others, hothers⟩ := FileTree.look_eq_directory.1
            (h.directory_iff.1 (FileTree.look_eq_directory.2 ⟨entries, htree⟩))
          rw [hothers] at hwalk
          simp only [habove] at hwalk ⊢
          split at hwalk
          next hempty => exact ⟨_, if_pos hempty⟩
          next => cases listed <;> cases hwalk

end FileSystem.Written

namespace Walk

/-- None of the names of rule files has an extension. -/
theorem extension_of_rule_name : ∀ rule ∈ ruleNames, (Path.splitAtDot rule).2 = none := by
  decide

/-- Which files are walked, and in what order, does not depend on files with an extension. -/
theorem walker_overlooks (global : IgnoreFile) (extension : String) :
    (walker global).Overlooks extension := by
  intro after before place content options root listed hafter hbefore h hextension _ _ hwalk
  obtain ⟨above, name, rfl⟩ : ∃ above name, place = above ++ [name] := by
    rcases List.eq_nil_or_concat place with rfl | ⟨above, name, rfl⟩
    · cases hextension
    · exact ⟨above, name, List.concat_eq_append⟩
  have hthere : (after.root.at? (above ++ [name])).isSome := by
    rw [← FileTree.look_is_some, h.there]
    rfl
  have hname : name ∉ ruleNames := by
    intro hrule
    rw [Path.extension_of_names (FileSystem.file_names_of_at hafter hthere),
      extension_of_rule_name name hrule] at hextension
    cases hextension
  obtain ⟨others, hothers⟩ := h.walk_is_ok hname global hwalk
  have hlisting := walker_lawful global hbefore inferInstance hwalk
  have hlistingAfter := walker_lawful global hafter inferInstance hothers
  refine ⟨others, hothers, hlisting.filter_eq hlistingAfter
    (fun names hnames ↦ (Bool.and_eq_true_iff.1 hnames).1) fun names ↦ ?_⟩
  simp only [List.mem_filter, Bool.and_eq_true, bne_iff_ne]
  by_cases hplace : names = above ++ [name]
  · subst hplace
    exact iff_of_false (fun hmem ↦ hmem.2.2 hextension) fun hmem ↦ hmem.2.2 hextension
  · have hsame := h.bytes_at_eq hplace
    rw [hsame]
    refine and_congr_left fun ⟨hfile, _⟩ ↦ ?_
    rw [hlisting.mem_iff names hfile, hlistingAfter.mem_iff names (hsame ▸ hfile)]
    simp only [h.is_kept_eq hname global]

end Walk

/-! ### The project -/

namespace FileSystem.Written

variable {Rule : Type} {walker : Walker Rule} {parse : String → Node} {config : ParsingConfig}
  {after before : FileSystem} {place : List String} {content : ByteArray} {extension : String}
  (h : Written after before place content)
  (hextension : (Path.ofNames place).extension? = some extension)
  (hsource : extension ≠ Project.sourceExtension)

include h hextension hsource

/-- The unit of a place is the same before and after a file is written that is no source file. -/
theorem unit_eq (root : Path) (names : List String) :
    Project.unit? parse config after root names = Project.unit? parse config before root names := by
  unfold Project.unit?
  by_cases hplace : names = place
  · have hnone : Project.isSource config (Path.ofNames names) = false := by
      rw [Project.isSource, hplace, hextension]
      simp [hsource]
    simp only [hnone, Bool.false_and, Bool.false_eq_true, if_false]
    cases after.root.bytesAt? names <;> cases before.root.bytesAt? names <;> rfl
  · rw [h.bytes_at_eq hplace]

variable {rootNames : List String} in
/-- The units of a walk are the same before and after a file is written that is no source file, if
the other files of the walk are. -/
theorem walked_units_eq {places others : List (List String)}
    (hfiles : after.filesWithout extension others = before.filesWithout extension places) :
    Project.walkedUnits parse config after rootNames others =
      Project.walkedUnits parse config before rootNames places := by
  have hother : ∀ (fs : FileSystem) names source, Project.Loadable config fs names source →
      ((fs.root.bytesAt? names).isSome &&
        (Path.ofNames names).extension? != some extension) = true := by
    intro fs names source hloadable
    rw [hloadable.is_file, Bool.true_and, bne_iff_ne, hloadable.extension]
    exact fun hsame ↦ hsource (Option.some.inj hsame).symm
  rw [← Project.walked_units_filter (hother after), ← Project.walked_units_filter (hother before)]
  exact (List.filterMap_congr fun names _ ↦ h.unit_eq hextension hsource _ names).trans
    (congrArg (Project.walkedUnits parse config before rootNames) hfiles)

variable (hwalker : walker.Overlooks extension) (hafter : after.isWellFormed = true)
  (hbefore : before.isWellFormed = true)

include hafter hbefore

omit hextension hsource in
/-- The text of a file at another place is the same before and after. -/
theorem read_text_iff {names : List String} (hplace : names ≠ place)
    (hfile : (before.root.bytesAt? names).isSome) {source : String} :
    after.readText (.ofNames names) = .ok source ↔
      before.readText (.ofNames names) = .ok source := by
  obtain ⟨bytes, hbytes⟩ := Option.isSome_iff_exists.1 hfile
  have hsame := h.bytes_at_eq hplace
  rw [read_text_of_names hafter (FileTree.bytes_at_eq_some.1 (hsame.trans hbytes)),
    read_text_of_names hbefore (FileTree.bytes_at_eq_some.1 hbytes)]

include hwalker

/-- The project that is loaded is the same before and after a file is written that is no source
file, with every walker that does not depend on such files. -/
theorem load_eq {root seed : Path} {seedNames : List String}
    (hseed : before.locate seed = .ok seedNames) (hplace : seedNames ≠ place)
    (hfile : (before.root.bytesAt? seedNames).isSome) {loaded : List SourceUnit × Nat}
    (hload : Project.load walker parse config before root seed = .ok loaded) :
    Project.load walker parse config after root seed = .ok loaded := by
  obtain ⟨rootNames, seedNames', rules, places, hroot, hseed', hrules, hwalk⟩ :=
    Project.of_load_eq_ok hload
  cases hseed.symm.trans hseed'
  obtain ⟨others, hothers, hfiles⟩ :=
    hwalker hafter hbefore h hextension inferInstance inferInstance hwalk
  have hunits : Project.walkedUnits parse config after rootNames others = _ :=
    h.walked_units_eq hextension hsource hfiles
  have hrootAfter := h.locate_kept hroot
  have hseedAfter := h.locate_kept hseed
  cases hfind : (Project.walkedUnits parse config before rootNames places).findIdx?
      fun unit ↦ unit.path == .ofNames seedNames with
  | some index =>
      rw [Project.load_of_found hroot hseed hrules hwalk hfind] at hload
      rw [Project.load_of_found hrootAfter hseedAfter hrules hothers (hunits ▸ hfind), hunits,
        hload]
  | none =>
      rw [Project.load_of_not_found hroot hseed hrules hwalk hfind] at hload
      rw [Project.load_of_not_found hrootAfter hseedAfter hrules hothers (hunits ▸ hfind), hunits]
      cases hread : before.readText (.ofNames seedNames) with
      | error error =>
          rw [hread] at hload
          cases hload
      | ok source =>
          rw [hread] at hload
          rw [(h.read_text_iff hafter hbefore hplace hfile).2 hread, hload]

end FileSystem.Written

end MemberReach
