import MemberReach.Grammar.Rules
import MemberReach.Project
import MemberReach.Proofs.WalkedFiles

/-!
# What a project consists of

The units of a project are the files that the walk of its root admits, in the order of their paths.
The seed file is always one of them: if it is not admitted it comes last. Loading a project whose
root can be walked fails exactly if the seed file does not exist or cannot be read as text
(`load_exact`). All this holds with every walker that lists the files that are not ignored, once,
and siblings in order (`Walker.Lawful`).
-/

namespace MemberReach.Project

/-- A source file that can be loaded: its extension is `cs` and the settings ask for that extension,
it is not too large, and its text is `source`. A file whose path is too long cannot be read. -/
structure Loadable (config : ParsingConfig) (fs : FileSystem) (names : List String)
    (source : String) : Prop where
  extension : (Path.ofNames names).extension? = some "cs"
  configured : "cs" ∈ config.fileExtensions
  content : ∃ content, fs.root.bytesAt? names = some content ∧
    content.size ≤ config.maxFileSize ∧ String.fromUTF8? content = some source
  path : (Path.ofNames names).text.utf8ByteSize ≤ FileSystem.maxPathSize

/-- A file that the walk of a root gives to a project: it is below the root and not ignored, and it
can be loaded. -/
structure Admitted (config : ParsingConfig) (fs : FileSystem) (isIgnored : List String → Bool)
    (root names : List String) (source : String) : Prop
    extends Loadable config fs names source where
  below : root <+: names
  notIgnored : isIgnored names = false

/-- The unit of the file at a place. -/
def unitAt (parse : String → Node) (root names : List String) (source : String) : SourceUnit :=
  unitOf parse (.ofNames root) (.ofNames names) source

/-- The units of the places of a walk. -/
def walkedUnits (parse : String → Node) (config : ParsingConfig) (fs : FileSystem)
    (root : List String) (places : List (List String)) : List SourceUnit :=
  places.filterMap (unit? parse config fs (.ofNames root))

/-- Units in the order of their paths, name by name. -/
def Ordered (units : List SourceUnit) : Prop :=
  units.Pairwise fun a b ↦ compare a.path.names b.path.names = .lt

/-- The entries of a directory are compared by a linear order. -/
instance {Rule : Type} (config : ParsingConfig) (rules : List Rule) :
    Std.TransCmp (walkOptions config rules).order :=
  inferInstanceAs (Std.TransCmp (compare : List String → List String → Ordering))

instance {Rule : Type} (config : ParsingConfig) (rules : List Rule) :
    Std.LawfulEqCmp (walkOptions config rules).order :=
  inferInstanceAs (Std.LawfulEqCmp (compare : List String → List String → Ordering))

/-! ### Files that are loaded -/

/-- The settings ask for a file if its extension is that of source files and one of theirs. -/
theorem is_source_iff {config : ParsingConfig} {path : Path} :
    isSource config path = true ↔
      path.extension? = some "cs" ∧ "cs" ∈ config.fileExtensions := by
  rw [isSource]
  cases path.extension? with
  | none => simp
  | some extension =>
      simp only [Option.any_some, Bool.and_eq_true, List.contains_iff_mem, beq_iff_eq,
        Option.some.injEq, sourceExtension]
      constructor
      · rintro ⟨hmem, rfl⟩
        exact ⟨rfl, hmem⟩
      · rintro ⟨rfl, hmem⟩
        exact ⟨hmem, rfl⟩

/-- A path can be used as a whole if it is not too long. -/
theorem check_size_iff {path : Path} :
    (FileSystem.checkSize path).toOption.isSome = true ↔
      path.text.utf8ByteSize ≤ FileSystem.maxPathSize := by
  unfold FileSystem.checkSize
  split
  next hlong => exact iff_of_false Bool.false_ne_true (Nat.not_le.2 hlong)
  next hshort => exact iff_of_true rfl (Nat.not_lt.1 hshort)

/-- A place has a unit if there is a file that can be loaded. -/
theorem unit_eq_some {parse : String → Node} {config : ParsingConfig} {fs : FileSystem}
    {root names : List String} {unit : SourceUnit} :
    unit? parse config fs (.ofNames root) names = some unit ↔
      ∃ source, Loadable config fs names source ∧ unit = unitAt parse root names source := by
  unfold unit?
  cases hbytes : fs.root.bytesAt? names with
  | none =>
      refine iff_of_false nofun ?_
      rintro ⟨source, hloadable, _⟩
      obtain ⟨content, hcontent, _⟩ := hloadable.content
      cases hbytes.symm.trans hcontent
  | some content =>
      simp only
      constructor
      · intro h
        split at h
        next hadmitted =>
          simp only [Bool.and_eq_true, decide_eq_true_eq, is_source_iff, check_size_iff]
            at hadmitted
          obtain ⟨⟨⟨hextension, hconfigured⟩, hpath⟩, hsize⟩ := hadmitted
          obtain ⟨source, hsource, rfl⟩ := Option.map_eq_some_iff.1 h
          exact ⟨source, ⟨hextension, hconfigured, ⟨content, hbytes, hsize, hsource⟩, hpath⟩, rfl⟩
        next => cases h
      · rintro ⟨source, ⟨hextension, hconfigured, ⟨other, hother, hsize, hsource⟩, hpath⟩, rfl⟩
        obtain rfl := Option.some.inj (hbytes.symm.trans hother)
        rw [if_pos]
        · exact Option.map_eq_some_iff.2 ⟨source, hsource, rfl⟩
        · simp only [Bool.and_eq_true, decide_eq_true_eq, is_source_iff, check_size_iff]
          exact ⟨⟨⟨hextension, hconfigured⟩, hpath⟩, hsize⟩

namespace Loadable

variable {config : ParsingConfig} {fs : FileSystem} {names : List String} {source : String}
  (h : Loadable config fs names source)

include h

/-- A file that can be loaded is there. -/
theorem is_file : (fs.root.bytesAt? names).isSome := by
  obtain ⟨content, hcontent, _⟩ := h.content
  exact Option.isSome_iff_exists.2 ⟨content, hcontent⟩

/-- The names that lead to a file that can be loaded are names of files. -/
theorem file_names (hfs : fs.isWellFormed = true) :
    ∀ name ∈ names, FileTree.isFileName name = true := by
  obtain ⟨content, hcontent, _⟩ := h.content
  exact FileSystem.file_names_of_at hfs
    (Option.isSome_iff_exists.2 ⟨_, FileTree.bytes_at_eq_some.1 hcontent⟩)

/-- A file that can be loaded can be read. -/
theorem read (hfs : fs.isWellFormed = true) : fs.readText (.ofNames names) = .ok source := by
  obtain ⟨content, hcontent, _, hsource⟩ := h.content
  exact (FileSystem.read_text_of_names hfs (FileTree.bytes_at_eq_some.1 hcontent)).2
    ⟨check_size_iff.2 h.path, hsource⟩

end Loadable

/-! ### The units of a walk -/

/-- Only places with a file that can be loaded have units. -/
theorem walked_units_filter {parse : String → Node} {config : ParsingConfig} {fs : FileSystem}
    {root : List String} {places : List (List String)} {p : List String → Bool}
    (hp : ∀ names source, Loadable config fs names source → p names = true) :
    walkedUnits parse config fs root (places.filter p) =
      walkedUnits parse config fs root places := by
  rw [walkedUnits, walkedUnits, List.filterMap_filter]
  refine List.filterMap_congr fun names _ ↦ ?_
  split
  next => rfl
  next hnot =>
    refine (Option.eq_none_iff_forall_not_mem.2 fun unit hunit ↦ hnot ?_).symm
    obtain ⟨source, hloadable, _⟩ := unit_eq_some.1 hunit
    exact hp names source hloadable

section Walked

variable {Rule : Type} (parse : String → Node) (config : ParsingConfig) {fs : FileSystem}
  {options : WalkOptions Rule} {isIgnored : List String → Bool} {root : List String}
  {places : List (List String)} (hfs : fs.isWellFormed = true)
  (hlisting : Listing fs options root isIgnored places)

include hfs hlisting

omit hfs in
/-- The units of the walk are those of the admitted files. -/
theorem mem_units {unit : SourceUnit} :
    unit ∈ walkedUnits parse config fs root places ↔
      ∃ names source, Admitted config fs isIgnored root names source ∧
        unit = unitAt parse root names source := by
  rw [walkedUnits, List.mem_filterMap]
  constructor
  · rintro ⟨names, hnames, hunit⟩
    obtain ⟨source, hloadable, rfl⟩ := unit_eq_some.1 hunit
    obtain ⟨hbelow, hkept⟩ := (hlisting.mem_iff names hloadable.is_file).1 hnames
    exact ⟨names, source, ⟨hloadable, hbelow, hkept⟩, rfl⟩
  · rintro ⟨names, source, hadmitted, rfl⟩
    have hloadable := hadmitted.toLoadable
    exact ⟨names, (hlisting.mem_iff names hloadable.is_file).2
      ⟨hadmitted.below, hadmitted.notIgnored⟩, unit_eq_some.2 ⟨source, hloadable, rfl⟩⟩

/-- The units of the walk come in the order of their paths. -/
theorem units_ordered (horder : options.order = compare) :
    Ordered (walkedUnits parse config fs root places) := by
  let isFile (names : List String) : Bool := (fs.root.bytesAt? names).isSome
  rw [← walked_units_filter fun names _ h ↦ (h.is_file : isFile names = true), Ordered,
    walkedUnits, List.pairwise_filterMap]
  refine (hlisting.compare_lt horder (p := isFile) fun _ h ↦ h).imp ?_
  intro a b hab unit hunit other hother
  obtain ⟨source, hloadable, rfl⟩ := unit_eq_some.1 hunit
  obtain ⟨source', hloadable', rfl⟩ := unit_eq_some.1 hother
  have ha := Path.names_of_names (hloadable.file_names hfs)
  have hb := Path.names_of_names (hloadable'.file_names hfs)
  rw [unitAt, unitAt, unitOf, unitOf, SourceUnit.create, SourceUnit.create, ha, hb]
  exact hab

/-- The unit of a place is among the units of the walk exactly if its file is admitted. -/
theorem find_unit_is_some {names : List String} (hnames : (fs.root.at? names).isSome) :
    ((walkedUnits parse config fs root places).findIdx?
        fun unit ↦ unit.path == .ofNames names).isSome ↔
      ∃ source, Admitted config fs isIgnored root names source := by
  rw [List.findIdx?_isSome, List.any_eq_true]
  constructor
  · rintro ⟨unit, hunit, hpath⟩
    obtain ⟨other, source, hadmitted, rfl⟩ := (mem_units parse config hlisting).1 hunit
    have hsame : other = names := Path.of_names_injective (hadmitted.file_names hfs)
      (FileSystem.file_names_of_at hfs hnames) (eq_of_beq hpath)
    exact ⟨source, hsame ▸ hadmitted⟩
  · rintro ⟨source, hadmitted⟩
    exact ⟨_, (mem_units parse config hlisting).2 ⟨names, source, hadmitted, rfl⟩,
      beq_self_eq_true _⟩

end Walked

/-! ### What loading gives -/

/-- Different paths are in order. -/
theorem Ordered.paths_nodup {units : List SourceUnit} (h : Ordered units) :
    (units.map SourceUnit.path).Nodup := by
  rw [List.Nodup, List.pairwise_map]
  refine h.imp fun {a b} hab hpath ↦ ?_
  have hself : compare b.path.names b.path.names = .eq := Std.ReflCmp.compare_self
  rw [hpath, hself] at hab
  cases hab

/-- All entries of a walk are places exactly if there is no error among them. -/
theorem map_error_eq_ok (wrap : String → AnalysisError)
    {entries : List (Except String (List String))} {places : List (List String)} :
    entries.mapM (fun entry ↦ entry.mapError wrap) = .ok places ↔ entries = places.map .ok := by
  induction entries generalizing places with
  | nil => simp [pure, Except.pure, eq_comm]
  | cons entry rest ih =>
      rw [List.mapM_cons]
      cases entry with
      | error error =>
          refine iff_of_false (fun h ↦ nomatch h) fun h ↦ ?_
          cases places <;> cases h
      | ok names =>
          change (do
            let others ← rest.mapM fun entry ↦ entry.mapError wrap
            pure (names :: others)) = Except.ok places ↔ _
          cases hrest : rest.mapM fun entry ↦ entry.mapError wrap with
          | error error =>
              refine iff_of_false nofun fun h ↦ ?_
              cases places with
              | nil => cases h
              | cons first places => cases hrest.symm.trans (ih.2 (List.cons.inj h).2)
          | ok others =>
              rw [ih.1 hrest, ← List.map_cons, map_ok_inj]
              exact ⟨Except.ok.inj, congrArg Except.ok⟩

section Opened

variable {Rule : Type} {walker : Walker Rule} {parse : String → Node} {config : ParsingConfig}
  {fs : FileSystem}

/-- The units below a root are loaded if the patterns are read and the root is walked. -/
theorem load_directory_eq_ok {root : List String} {units : List SourceUnit} :
    loadDirectory walker parse config fs root = .ok units ↔
      ∃ rules, ∃ places : List (List String), exclusions walker config = .ok rules ∧
        walker.walk fs (walkOptions config rules) root = places.map .ok ∧
        units = walkedUnits parse config fs root places := by
  unfold loadDirectory
  cases exclusions walker config with
  | error error => exact iff_of_false nofun fun ⟨_, _, h, _⟩ ↦ nomatch h
  | ok rules =>
      simp only [bind, Except.bind, Except.ok.injEq, exists_and_left, exists_eq_left']
      cases hplaces : (walker.walk fs (walkOptions config rules) root).mapM
          fun entry ↦ entry.mapError AnalysisError.ignoreRules with
      | error error =>
          refine iff_of_false nofun ?_
          rintro ⟨places, hwalk, _⟩
          cases hplaces.symm.trans ((map_error_eq_ok _).2 hwalk)
      | ok places =>
          have hwalk := (map_error_eq_ok _).1 hplaces
          simp only [pure, Except.pure, Except.ok.injEq]
          constructor
          · rintro rfl
            exact ⟨places, hwalk, rfl⟩
          · rintro ⟨others, hothers, rfl⟩
            rw [← map_error_eq_ok .ignoreRules, hplaces] at hothers
            cases hothers
            rfl

/-- A project that is loaded has a root and a seed that are located, patterns that are read and a
root that is walked. -/
theorem of_load_eq_ok {root seed : Path} {loaded : List SourceUnit × Nat}
    (h : load walker parse config fs root seed = .ok loaded) :
    ∃ rootNames seedNames rules, ∃ places : List (List String),
      fs.locate root = .ok rootNames ∧ fs.locate seed = .ok seedNames ∧
      exclusions walker config = .ok rules ∧
      walker.walk fs (walkOptions config rules) rootNames = places.map .ok := by
  unfold load at h
  cases hroot : fs.locate root with
  | error error =>
      rw [hroot] at h
      cases h
  | ok rootNames =>
      cases hseed : fs.locate seed with
      | error error =>
          rw [hroot, hseed] at h
          cases h
      | ok seedNames =>
          cases hunits : loadDirectory walker parse config fs rootNames with
          | error error =>
              rw [hroot, hseed] at h
              simp only [Except.mapError, bind, Except.bind, hunits] at h
              cases h
          | ok units =>
              obtain ⟨rules, places, hrules, hwalk, _⟩ := load_directory_eq_ok.1 hunits
              exact ⟨rootNames, seedNames, rules, places, rfl, rfl, hrules, hwalk⟩

end Opened

/-- The units of a project and the position of the seed are what they should be: the seed is where
it is said to be, no path occurs twice, and beside the seed there are exactly the files that the
walk admits, in the order of their paths. A seed that is not admitted comes last. -/
structure Exact (parse : String → Node) (config : ParsingConfig) (fs : FileSystem)
    (isIgnored : List String → Bool) (root seed : List String) (units : List SourceUnit)
    (seedId : Nat) : Prop where
  seedPath : units[seedId]?.map SourceUnit.path = some (.ofNames seed)
  once : (units.map SourceUnit.path).Nodup
  walked : ∃ walked, Ordered walked ∧
    (∀ unit, unit ∈ walked ↔ ∃ names source, Admitted config fs isIgnored root names source ∧
      unit = unitAt parse root names source) ∧
    ((∃ source, Admitted config fs isIgnored root seed source) ∧ units = walked ∨
      (¬ ∃ source, Admitted config fs isIgnored root seed source) ∧
        ∃ source, fs.readText (.ofNames seed) = .ok source ∧
          units = walked ++ [unitAt parse root seed source])

/-- The failures that are due to the seed: it does not exist, or it cannot be read as text. -/
inductive SeedFailure (fs : FileSystem) (seed : Path) : AnalysisError → Prop where
  | notFound {error : FileError} (h : fs.locate seed = .error error) :
      SeedFailure fs seed (.seedFileNotFound seed)
  | unreadable {names : List String} {error : FileError} (hseed : fs.locate seed = .ok names)
      (h : fs.readText (.ofNames names) = .error error) :
      SeedFailure fs seed (.seedFileUnreadable (.ofNames names) error)

section Load

variable {Rule : Type} {walker : Walker Rule}
  {isIgnored : FileSystem → WalkOptions Rule → List String → List String → Bool}
  (hwalker : walker.Lawful isIgnored) {parse : String → Node} {config : ParsingConfig}
  {fs : FileSystem} (hfs : fs.isWellFormed = true) {root seed : Path}
  {rootNames seedNames : List String} {rules : List Rule} {places : List (List String)}
  (hroot : fs.locate root = .ok rootNames) (hseed : fs.locate seed = .ok seedNames)
  (hrules : exclusions walker config = .ok rules)
  (hwalk : walker.walk fs (walkOptions config rules) rootNames = places.map .ok)

include hroot hseed hrules hwalk

/-- If the walk gives the seed, nothing else is loaded. -/
theorem load_of_found {index : Nat}
    (hfind : (walkedUnits parse config fs rootNames places).findIdx?
      (fun unit ↦ unit.path == .ofNames seedNames) = some index) :
    load walker parse config fs root seed =
      .ok (walkedUnits parse config fs rootNames places, index) := by
  have hunits : loadDirectory walker parse config fs rootNames =
      .ok (walkedUnits parse config fs rootNames places) :=
    load_directory_eq_ok.2 ⟨rules, places, hrules, hwalk, rfl⟩
  unfold load
  rw [hroot, hseed]
  simp only [Except.mapError, bind, Except.bind, hunits, pure, Except.pure, hfind]

/-- If the walk does not give the seed, it is read and comes last. -/
theorem load_of_not_found
    (hfind : (walkedUnits parse config fs rootNames places).findIdx?
      (fun unit ↦ unit.path == .ofNames seedNames) = none) :
    load walker parse config fs root seed =
      ((fs.readText (.ofNames seedNames)).mapError
        (.seedFileUnreadable (.ofNames seedNames))).map fun source ↦
          (walkedUnits parse config fs rootNames places ++
              [unitAt parse rootNames seedNames source],
            (walkedUnits parse config fs rootNames places).length) := by
  have hunits : loadDirectory walker parse config fs rootNames =
      .ok (walkedUnits parse config fs rootNames places) :=
    load_directory_eq_ok.2 ⟨rules, places, hrules, hwalk, rfl⟩
  unfold load
  rw [hroot, hseed]
  simp only [Except.mapError, bind, Except.bind, hunits, pure, Except.pure, hfind, readUnit]
  cases fs.readText (.ofNames seedNames) <;> rfl

variable (parse) in
/-- If the seed can be read, the project is loaded. -/
theorem load_is_ok {source : String} (hsource : fs.readText (.ofNames seedNames) = .ok source) :
    ∃ loaded, load walker parse config fs root seed = .ok loaded := by
  cases hfind : (walkedUnits parse config fs rootNames places).findIdx?
      fun unit ↦ unit.path == .ofNames seedNames with
  | some index => exact ⟨_, load_of_found hroot hseed hrules hwalk hfind⟩
  | none =>
      rw [load_of_not_found hroot hseed hrules hwalk hfind, hsource]
      exact ⟨_, rfl⟩

include hwalker hfs

/-- If the seed cannot be read, the project is not loaded. -/
theorem load_of_unreadable {error : FileError}
    (herror : fs.readText (.ofNames seedNames) = .error error) :
    load walker parse config fs root seed =
      .error (.seedFileUnreadable (.ofNames seedNames) error) := by
  have hadmitted := find_unit_is_some parse config hfs (hwalker hfs inferInstance hwalk)
    (FileSystem.at_is_some_of_locate hseed)
  cases hfind : (walkedUnits parse config fs rootNames places).findIdx?
      fun unit ↦ unit.path == .ofNames seedNames with
  | some index =>
      obtain ⟨source, hsource⟩ := hadmitted.1 (hfind ▸ rfl)
      cases herror.symm.trans (hsource.read hfs)
  | none =>
      rw [load_of_not_found hroot hseed hrules hwalk hfind, herror]
      rfl

/-- The units that are loaded are the right ones. -/
theorem exact_of_load {units : List SourceUnit} {seedId : Nat}
    (h : load walker parse config fs root seed = .ok (units, seedId)) :
    Exact parse config fs (isIgnored fs (walkOptions config rules) rootNames) rootNames seedNames
      units seedId := by
  have hlisting := hwalker hfs inferInstance hwalk
  have hordered := units_ordered parse config hfs hlisting rfl
  have hmem : ∀ unit, unit ∈ walkedUnits parse config fs rootNames places ↔ _ :=
    fun _ ↦ mem_units parse config hlisting
  have hadmitted := find_unit_is_some parse config hfs hlisting
    (FileSystem.at_is_some_of_locate hseed)
  cases hfind : (walkedUnits parse config fs rootNames places).findIdx?
      fun unit ↦ unit.path == .ofNames seedNames with
  | some index =>
      rw [load_of_found hroot hseed hrules hwalk hfind] at h
      cases h
      obtain ⟨hindex, hpath, _⟩ := List.findIdx?_eq_some_iff_getElem.1 hfind
      refine ⟨?_, hordered.paths_nodup, _, hordered, hmem, Or.inl ⟨?_, rfl⟩⟩
      · rw [List.getElem?_eq_getElem hindex]
        exact congrArg some (eq_of_beq hpath)
      · exact hadmitted.1 (hfind ▸ rfl)
  | none =>
      rw [load_of_not_found hroot hseed hrules hwalk hfind] at h
      cases hread : fs.readText (.ofNames seedNames) with
      | error error =>
          rw [hread] at h
          cases h
      | ok source =>
          rw [hread] at h
          cases h
          refine ⟨?_, ?_, _, hordered, hmem, Or.inr ⟨?_, source, hread, rfl⟩⟩
          · rw [List.getElem?_concat_length]
            rfl
          · rw [List.map_append]
            refine hordered.paths_nodup.append (List.nodup_singleton _)
              (List.disjoint_singleton.2 fun hmem ↦ ?_)
            obtain ⟨unit, hunit, hpath⟩ := List.mem_map.1 hmem
            have hne := List.findIdx?_eq_none_iff.1 hfind unit hunit
            exact Bool.false_ne_true (hne.symm.trans (beq_iff_eq.2 hpath))
          · intro hexists
            rw [← hadmitted, hfind] at hexists
            cases hexists

end Load

/-- A seed that does not exist is not found. -/
theorem seed_failure_of_missing {fs : FileSystem} {seed : Path} {missing : FileError}
    (hseed : fs.locate seed = .error missing) {error : AnalysisError} :
    SeedFailure fs seed error ↔ error = .seedFileNotFound seed := by
  constructor
  · rintro (_ | ⟨hfound, _⟩)
    · rfl
    · rw [hseed] at hfound
      cases hfound
  · rintro rfl
    exact .notFound hseed

/-- A seed that exists fails if it cannot be read. -/
theorem seed_failure_of_located {fs : FileSystem} {seed : Path} {names : List String}
    (hseed : fs.locate seed = .ok names) {error : AnalysisError} :
    SeedFailure fs seed error ↔ ∃ unreadable, fs.readText (.ofNames names) = .error unreadable ∧
      error = .seedFileUnreadable (.ofNames names) unreadable := by
  constructor
  · rintro (hmissing | ⟨hfound, hread⟩)
    · rw [hseed] at hmissing
      cases hmissing
    · cases hseed.symm.trans hfound
      exact ⟨_, hread, rfl⟩
  · rintro ⟨unreadable, hread, rfl⟩
    exact .unreadable hseed hread

/-- With a walker that lists every file that is not ignored once, and siblings in order, loading a
project gives exactly the seed and the admitted files below the root, and fails, once the root can
be walked, exactly if there is no seed or it cannot be read. -/
theorem load_exact {Rule : Type} {walker : Walker Rule}
    {isIgnored : FileSystem → WalkOptions Rule → List String → List String → Bool}
    (hwalker : walker.Lawful isIgnored) (parse : String → Node) (config : ParsingConfig)
    {fs : FileSystem} (hfs : fs.isWellFormed = true) (root seed : Path) :
    (∀ units seedId, load walker parse config fs root seed = .ok (units, seedId) →
      ∃ rootNames seedNames rules, fs.locate root = .ok rootNames ∧
        fs.locate seed = .ok seedNames ∧ exclusions walker config = .ok rules ∧
        Exact parse config fs (isIgnored fs (walkOptions config rules) rootNames) rootNames
          seedNames units seedId) ∧
      ∀ rootNames rules (places : List (List String)), fs.locate root = .ok rootNames →
        exclusions walker config = .ok rules →
        walker.walk fs (walkOptions config rules) rootNames = places.map .ok →
        ∀ error, load walker parse config fs root seed = .error error ↔
          SeedFailure fs seed error := by
  constructor
  · intro units seedId h
    obtain ⟨rootNames, seedNames, rules, places, hroot, hseed, hrules, hwalk⟩ := of_load_eq_ok h
    exact ⟨rootNames, seedNames, rules, hroot, hseed, hrules,
      exact_of_load hwalker hfs hroot hseed hrules hwalk h⟩
  · intro rootNames rules places hroot hrules hwalk error
    cases hseed : fs.locate seed with
    | error missing =>
        have hload : load walker parse config fs root seed = .error (.seedFileNotFound seed) := by
          unfold load
          rw [hroot, hseed]
          rfl
        rw [hload, seed_failure_of_missing hseed, Except.error.injEq, eq_comm]
    | ok seedNames =>
        rw [seed_failure_of_located hseed]
        cases hread : fs.readText (.ofNames seedNames) with
        | ok source =>
            obtain ⟨loaded, hload⟩ := load_is_ok parse hroot hseed hrules hwalk hread
            rw [hload]
            exact iff_of_false nofun fun ⟨_, hnone, _⟩ ↦ nomatch hnone
        | error unreadable =>
            rw [load_of_unreadable hwalker hfs hroot hseed hrules hwalk hread]
            constructor
            · rintro ⟨rfl⟩
              exact ⟨unreadable, rfl, rfl⟩
            · rintro ⟨other, hsame, rfl⟩
              rw [Except.error.inj hsame]

end MemberReach.Project

namespace MemberReach.Folder

/-- A directory with a file that is no source file, and an ignore file that leaves out one of the
source files. -/
def fs : FileSystem :=
  { root := .directory [("p", .directory [
      (".ignore", .file "x.cs".toUTF8), ("a", .directory [("c.cs", .file "".toUTF8)]),
      ("b.cs", .file "".toUTF8), ("n.txt", .file "".toUTF8), ("x.cs", .file "".toUTF8)])]
    working := [] }

/-- The rules of the patterns that are left out by default. -/
def rules : List IgnoreRule :=
  (Project.exclusions (Walk.walker .empty) Config.defaultParsing).toOption.getD []

/-- What is not left out of the directory. -/
def places : List (List String) :=
  [["p"], ["p", ".ignore"], ["p", "a"], ["p", "a", "c.cs"], ["p", "b.cs"], ["p", "n.txt"]]

/-- The patterns that are left out by default are read. -/
theorem exclusions_eq :
    Project.exclusions (Walk.walker .empty) Config.defaultParsing = .ok rules := by
  have hread : (Project.exclusions (Walk.walker .empty) Config.defaultParsing).toOption.isSome := by
    decide +kernel
  obtain ⟨read, hread⟩ := Option.isSome_iff_exists.1 hread
  rw [rules, hread]
  exact to_option_eq_some.1 hread

/-- The walk of the directory. -/
theorem walk_eq :
    Walk.places .empty fs (Project.walkOptions Config.defaultParsing rules) ["p"] =
      places.map .ok := by
  have hat : fs.root.at? ["p"] = some (.directory _) := rfl
  unfold Walk.places
  rw [hat]
  simp only
  rw [if_pos (by decide +kernel), Walk.joined_of_ordered (by decide +kernel)]
  decide +kernel

end MemberReach.Folder

namespace MemberReach.Project

/-- The two source files that are not left out are loaded in the order of their paths, and after
them the one that is left out if it is the seed. A seed that does not exist is not found. -/
theorem load_exact_folder :
    Folder.fs.isWellFormed = true ∧
      (∃ units,
        load (Walk.walker .empty) Node.ofSource Config.defaultParsing Folder.fs ⟨"p"⟩ ⟨"p/x.cs"⟩ =
          .ok (units, 2) ∧
        units.map SourceUnit.path = [⟨"/p/a/c.cs"⟩, ⟨"/p/b.cs"⟩, ⟨"/p/x.cs"⟩] ∧
        Exact Node.ofSource Config.defaultParsing Folder.fs
          (fun names ↦ !Walk.isKept .empty Folder.fs
            (walkOptions Config.defaultParsing Folder.rules) ["p"] names)
          ["p"] ["p", "x.cs"] units 2) ∧
      load (Walk.walker .empty) Node.ofSource Config.defaultParsing Folder.fs ⟨"p"⟩ ⟨"p/y.cs"⟩ =
        .error (.seedFileNotFound ⟨"p/y.cs"⟩) := by
  have hfs : Folder.fs.isWellFormed = true := by decide +kernel
  have hroot : Folder.fs.locate ⟨"p"⟩ = .ok ["p"] := to_option_eq_some.1 (by decide +kernel)
  have hseed : Folder.fs.locate ⟨"p/x.cs"⟩ = .ok ["p", "x.cs"] :=
    to_option_eq_some.1 (by decide +kernel)
  have hread : Folder.fs.readText (.ofNames ["p", "x.cs"]) = .ok "" :=
    to_option_eq_some.1 (by decide +kernel)
  have hmissing : (Folder.fs.locate ⟨"p/y.cs"⟩).toOption = none := by decide +kernel
  have hexact := load_exact (Walk.walker_lawful .empty) Node.ofSource Config.defaultParsing hfs
    ⟨"p"⟩
  have hload : load (Walk.walker .empty) Node.ofSource Config.defaultParsing Folder.fs ⟨"p"⟩
      ⟨"p/x.cs"⟩ = .ok (walkedUnits Node.ofSource Config.defaultParsing Folder.fs ["p"]
        Folder.places ++ [unitAt Node.ofSource ["p"] ["p", "x.cs"] ""], 2) := by
    have hcount : (walkedUnits Node.ofSource Config.defaultParsing Folder.fs ["p"]
        Folder.places).length = 2 := by decide +kernel
    rw [load_of_not_found hroot hseed Folder.exclusions_eq Folder.walk_eq (by decide +kernel),
      hread, hcount]
    rfl
  refine ⟨hfs, ⟨_, hload, by decide +kernel, ?_⟩, ?_⟩
  · obtain ⟨rootNames, seedNames, rules, hroot', hseed', hrules, hright⟩ :=
      (hexact ⟨"p/x.cs"⟩).1 _ _ hload
    cases hroot.symm.trans hroot'
    cases hseed.symm.trans hseed'
    cases Folder.exclusions_eq.symm.trans hrules
    exact hright
  · obtain ⟨error, hlocate⟩ := to_option_eq_none.1 hmissing
    exact ((hexact ⟨"p/y.cs"⟩).2 ["p"] Folder.rules Folder.places hroot Folder.exclusions_eq
      Folder.walk_eq _).2 (.notFound hlocate)

end MemberReach.Project
