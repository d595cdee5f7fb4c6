import MemberReach.Analysis
import MemberReach.Grammar.Rules
import MemberReach.Proofs.ReportPaths
import MemberReach.Proofs.UnreadFiles

/-!
# What an analysis writes

An analysis that fails changes nothing. One that succeeds writes its report beside the seed file and
changes nothing else, and another analysis after it finds and writes the same (`run_writes_report`).
The report is no source file and has an extension that the walker overlooks, so it does not count
for the project.
-/

namespace MemberReach

/-! ### The place of the seed -/

namespace FileSystem

variable {fs : FileSystem}

/-- Segments that are skipped are followed to where they start. -/
theorem eq_of_foldl_skipped {start names skipped : List String} (hskipped : Path.AreSkipped skipped)
    (h : skipped.foldlM fs.step start = .ok names) : names = start := by
  induction skipped generalizing start with
  | nil => exact (Except.ok.inj h).symm
  | cons segment rest ih =>
      obtain ⟨hsegment, hrest⟩ := List.forall_mem_cons.1 hskipped
      obtain ⟨middle, hstep, hfollow⟩ := foldl_step_cons.1 h
      obtain ⟨_, ⟨_, hmiddle⟩ | ⟨hup, _⟩ | ⟨hentry, _⟩⟩ := step_eq_ok_look.1 hstep
      · exact (ih hrest hfollow).trans hmiddle
      · rcases hsegment with rfl | rfl <;> simp at hup
      · rcases hsegment with rfl | rfl <;> cases hentry

/-- What stands above a directory is a directory. -/
theorem look_drop_last {names : List String} (h : fs.root.look? names = some none) :
    fs.root.look? names.dropLast = some none := by
  rcases List.eq_nil_or_concat names with rfl | ⟨above, name, rfl⟩
  · exact h
  · rw [List.concat_eq_append] at h ⊢
    rw [List.dropLast_concat, FileTree.look_eq_directory]
    obtain ⟨entries, hat⟩ := FileTree.look_eq_directory.1 h
    obtain ⟨entries, habove, _⟩ := exists_entries_of_append (Option.isSome_iff_exists.2 ⟨_, hat⟩)
    exact ⟨entries, habove⟩

/-- Where a file stands that a path leads to: in a directory, under the last segment of the path. -/
structure StandsAt (fs : FileSystem) (path : Path) (front above : List String) (name : String) :
    Prop where
  segments : path.segments = front ++ [name]
  entry : isEntryName name = true
  follow : fs.follow path front = .ok above
  directory : fs.root.look? above = some none
  resolve : fs.resolve path = .ok (above ++ [name])
  file : ∃ content, fs.root.look? (above ++ [name]) = some (some content)

/-- A file stands where its path leads. -/
theorem stands_at_of_is_file {path : Path} (h : fs.isFile path = true) :
    ∃ front above name, StandsAt fs path front above name := by
  obtain ⟨content, hread⟩ := Option.isSome_iff_exists.1 h
  obtain ⟨names, hresolve, hlook⟩ := read_bytes_eq_ok.1 (to_option_eq_some.1 hread)
  obtain ⟨front, name, hsegments⟩ : ∃ front name, path.segments = front ++ [name] :=
    ⟨_, _, (List.dropLast_append_getLast (segments_ne_nil path)).symm⟩
  have hfollow := (resolve_eq_ok.1 hresolve).2.2
  rw [hsegments] at hfollow
  obtain ⟨above, habove, hlast⟩ := foldl_step_append.1 hfollow
  obtain ⟨middle, hstep, hend⟩ := foldl_step_cons.1 hlast
  cases hend
  obtain ⟨hdirectory, hcases⟩ := step_eq_ok_look.1 hstep
  -- the last segment leads to a file, so it neither stays in a directory nor leaves one
  rcases hcases with ⟨_, rfl⟩ | ⟨_, rfl⟩ | ⟨hentry, _, _, rfl⟩
  · cases hdirectory.symm.trans hlook
  · cases (look_drop_last hdirectory).symm.trans hlook
  · exact ⟨front, above, name, hsegments, hentry, habove, hdirectory, hresolve, content, hlook⟩

end FileSystem

/-! ### The report -/

namespace Report

/-- The name of a report is the name of an entry. -/
theorem file_name_is_entry (name method suffix : String) :
    FileSystem.isEntryName (fileName name method suffix) = true := by
  have hothers : ∀ other ∈ ["", ".", ".."], (Path.splitAtDot other).2 ≠ some "json" := by decide
  have hplain : fileName name method suffix ∉ ["", ".", ".."] :=
    fun hmem ↦ hothers _ hmem (extension_of_file_name name method suffix)
  simpa [FileSystem.isEntryName, and_assoc] using hplain

section Written

variable {fs after : FileSystem} {seed : Path} {front above : List String} {name method : String}
  {suffix : String} {content : ByteArray} (hfs : fs.isWellFormed = true)
  (hseed : FileSystem.StandsAt fs seed front above name) (hmethod : '/' ∉ method.toList)
  (hsuffix : '/' ∉ suffix.toList)

include hseed hmethod hsuffix

/-- The path of a report is followed to the directory of the seed. -/
theorem exists_follow :
    ∃ base, (path seed method suffix).segments = base ++ [fileName name method suffix] ∧
      fs.follow (path seed method suffix) base = .ok above := by
  obtain ⟨base, skipped, rfl, hskipped, hsegments, habsolute⟩ :=
    segments_of_path hseed.segments hseed.entry hmethod hsuffix
  refine ⟨base, hsegments, ?_⟩
  obtain ⟨middle, hbase, hrest⟩ := FileSystem.foldl_step_append.1 hseed.follow
  rw [FileSystem.eq_of_foldl_skipped hskipped hrest, FileSystem.follow, habsolute]
  exact hbase

variable (hwrite : fs.write (path seed method suffix) content = (.ok (), after))

include hwrite

/-- What writing a report needs, and what it does. -/
theorem of_write :
    ∃ base, (path seed method suffix).segments = base ++ [fileName name method suffix] ∧
      fs.follow (path seed method suffix) base = .ok above ∧
      FileSystem.checkText (path seed method suffix) = .ok () ∧
      FileSystem.checkSize (path seed method suffix) = .ok () ∧
      (fileName name method suffix).utf8ByteSize ≤ FileSystem.maxNameSize ∧
      fs.root.look? (above ++ [fileName name method suffix]) ≠ some none ∧
      after = { fs with
        root := fs.root.update (some (.file content))
          (above ++ [fileName name method suffix]) } := by
  obtain ⟨base, hsegments, hfollow⟩ := exists_follow hseed hmethod hsuffix
  obtain ⟨place, hplace, hafter⟩ := FileSystem.write_eq_ok.1 hwrite
  obtain ⟨htext, hlength, hsize, hfree, rfl⟩ := (FileSystem.place_to_write_eq_ok hsegments
    (file_name_is_entry name method suffix) hfollow hseed.directory).1 hplace
  exact ⟨base, hsegments, hfollow, htext, hlength, hsize, hfree, hafter⟩

/-- A report that is written is written beside the seed. -/
theorem written_of_write :
    FileSystem.Written after fs (above ++ [fileName name method suffix]) content := by
  obtain ⟨base, _, _, _, _, _, hfree, rfl⟩ := of_write hseed hmethod hsuffix hwrite
  exact ⟨FileTree.written_update content hseed.directory hfree, rfl⟩

/-- The path of a report that is written leads to it. -/
theorem resolve_of_write :
    after.resolve (path seed method suffix) = .ok (above ++ [fileName name method suffix]) := by
  have hwritten := written_of_write hseed hmethod hsuffix hwrite
  obtain ⟨base, hsegments, hfollow, htext, hlength, hsize, _⟩ :=
    of_write hseed hmethod hsuffix hwrite
  have hstep : after.step above (fileName name method suffix) =
      .ok (above ++ [fileName name method suffix]) := by
    rw [FileSystem.step_entry (hwritten.directory_iff.2 hseed.directory)
      (file_name_is_entry name method suffix), if_neg (Nat.not_lt.2 hsize), hwritten.there]
    rfl
  refine FileSystem.resolve_eq_ok.2 ⟨htext, hlength, ?_⟩
  rw [hsegments]
  exact FileSystem.foldl_step_append.2 ⟨above, hwritten.follow_kept hfollow,
    FileSystem.foldl_step_cons.2 ⟨_, hstep, rfl⟩⟩

include hfs

/-- A file system stays well formed when a report is written. -/
theorem well_formed_of_write : after.isWellFormed = true := by
  obtain ⟨hdirectory, htree⟩ := Bool.and_eq_true_iff.1 hfs
  obtain ⟨base, hsegments, _, htext, _, hsize, _, hafter⟩ :=
    of_write hseed hmethod hsuffix hwrite
  have hentry := file_name_is_entry name method suffix
  have hmem : fileName name method suffix ∈ (path seed method suffix).segments := by
    simp [hsegments]
  have hname : FileTree.isFileName (fileName name method suffix) = true := by
    simp only [FileSystem.isEntryName, Bool.and_eq_true, bne_iff_ne] at hentry
    refine FileTree.is_file_name_iff.2 ⟨hentry.1.1, hentry.1.2, hentry.2,
      Path.no_slash_of_segment hmem, fun hnul ↦ ?_, hsize⟩
    have hnul := Path.mem_text_of_segment hmem hnul
    unfold FileSystem.checkText at htext
    rw [if_pos (by simpa using hnul)] at htext
    cases htext
  have hroot : ∀ tree : FileTree, tree.isDirectory = true ↔ tree.look? [] = some none := by
    intro tree
    cases tree <;> simp [FileTree.isDirectory, FileTree.look?, FileTree.at?]
  refine Bool.and_eq_true_iff.2 ⟨?_, ?_⟩
  · rw [hroot] at hdirectory ⊢
    exact (written_of_write hseed hmethod hsuffix hwrite).directory_iff.2 hdirectory
  · rw [hafter]
    exact FileTree.well_formed_update htree content hseed.directory hname

/-- A report that is written again as it stands changes nothing. -/
theorem write_again : after.write (path seed method suffix) content = (.ok (), after) := by
  have hwritten := written_of_write hseed hmethod hsuffix hwrite
  have hafter := well_formed_of_write hfs hseed hmethod hsuffix hwrite
  obtain ⟨base, hsegments, hfollow, htext, hlength, hsize, _⟩ :=
    of_write hseed hmethod hsuffix hwrite
  have hplace := (FileSystem.place_to_write_eq_ok hsegments (file_name_is_entry name method suffix)
    (hwritten.follow_kept hfollow) (hwritten.directory_iff.2 hseed.directory)).2
      ⟨htext, hlength, hsize, by rw [hwritten.there]; nofun, rfl⟩
  refine FileSystem.write_eq_ok.2 ⟨_, hplace, ?_⟩
  rw [FileTree.update_self (Bool.and_eq_true_iff.1 hafter).2
    (FileTree.look_eq_file.1 hwritten.there)]

end Written

end Report

/-! ### Runs -/

namespace Analysis

variable {Rule : Type} {walker : Walker Rule} {parse : String → Node} {config : Config}
  {fs : FileSystem} {seed : Path} {method : String} {root : Option Path}

/-- What an analysis that found something went through. -/
theorem of_outcome_eq_ok {found : Outcome}
    (h : outcome walker parse config fs seed method root = .ok found) :
    fs.isFile seed = true ∧
      (∃ loaded, Project.load walker parse config.parsing fs (root.getD (defaultRoot seed)) seed =
        .ok loaded) ∧
      found.reportPath = Report.path seed method config.output.fileSuffix := by
  unfold outcome at h
  cases hfile : fs.isFile seed with
  | false =>
      rw [hfile] at h
      cases h
  | true =>
      rw [hfile] at h
      cases hload : Project.load walker parse config.parsing fs (root.getD (defaultRoot seed))
          seed with
      | error error =>
          rw [hload] at h
          cases h
      | ok loaded =>
          rw [hload] at h
          cases hseed : (Model.ofUnits loaded.1).findSeed loaded.2 method with
          | error error =>
              simp only [bind, Except.bind, hseed] at h
              cases h
          | ok symbol =>
              simp only [bind, Except.bind, hseed] at h
              cases h
              exact ⟨rfl, ⟨loaded, rfl⟩, rfl⟩

/-- What an analysis finds depends on the seed and the project. -/
theorem outcome_congr {after : FileSystem} (hfile : after.isFile seed = fs.isFile seed)
    (hload : Project.load walker parse config.parsing after (root.getD (defaultRoot seed)) seed =
      Project.load walker parse config.parsing fs (root.getD (defaultRoot seed)) seed) :
    outcome walker parse config after seed method root =
      outcome walker parse config fs seed method root := by
  unfold outcome
  rw [hfile, hload]

/-- An analysis succeeds if it finds something and writes the report of it. -/
theorem run_eq_ok {found : Outcome} {after : FileSystem} :
    run walker parse config fs seed method root = (.ok found, after) ↔
      outcome walker parse config fs seed method root = .ok found ∧
        fs.write found.reportPath (found.report.render config.output.pretty).toUTF8 =
          (.ok (), after) := by
  unfold run
  cases outcome walker parse config fs seed method root with
  | error error => exact iff_of_false nofun fun h ↦ nomatch h.1
  | ok result =>
      simp only [writeReport, Except.ok.injEq]
      rcases hwrite : fs.write result.reportPath
        (result.report.render config.output.pretty).toUTF8 with ⟨written, files⟩
      cases written with
      | error error =>
          refine iff_of_false nofun ?_
          rintro ⟨rfl, hother⟩
          cases hwrite.symm.trans hother
      | ok _ =>
          simp only [Except.mapError, Except.map, Prod.mk.injEq, Except.ok.injEq]
          refine and_congr_right ?_
          rintro rfl
          rw [hwrite, Prod.mk.injEq, and_iff_right rfl]

/-- An analysis that fails leaves the file system as it is, whether it fails before it writes or
when it writes. -/
theorem eq_of_run_error {error : AnalysisError} {after : FileSystem}
    (h : run walker parse config fs seed method root = (.error error, after)) : after = fs := by
  unfold run at h
  cases hfound : outcome walker parse config fs seed method root with
  | error other =>
      rw [hfound] at h
      cases h
      rfl
  | ok found =>
      rw [hfound] at h
      simp only [writeReport] at h
      rcases hwrite : fs.write found.reportPath
        (found.report.render config.output.pretty).toUTF8 with ⟨written, files⟩
      rw [hwrite] at h
      cases written with
      | error other =>
          cases h
          exact FileSystem.write_of_error hwrite
      | ok _ => cases h

/-- After an analysis another one finds the same. -/
theorem outcome_again (hwalker : walker.Overlooks "json") (hfs : fs.isWellFormed = true)
    {front above : List String} {name : String}
    (hseed : FileSystem.StandsAt fs seed front above name) (hmethod : '/' ∉ method.toList)
    (hsuffix : '/' ∉ config.output.fileSuffix.toList) {found : Outcome} {after : FileSystem}
    {content : ByteArray} (hfound : outcome walker parse config fs seed method root = .ok found)
    (hwrite : fs.write (Report.path seed method config.output.fileSuffix) content =
      (.ok (), after)) :
    outcome walker parse config after seed method root = .ok found := by
  let reportName := Report.fileName name method config.output.fileSuffix
  have hwritten := Report.written_of_write hseed hmethod hsuffix hwrite
  have hafter := Report.well_formed_of_write hfs hseed hmethod hsuffix hwrite
  have hplace : above ++ [name] ≠ above ++ [reportName] := fun hsame ↦
    Report.file_name_ne name method config.output.fileSuffix
      (List.append_singleton_inj.1 hsame).2.symm
  have hthere : (after.root.at? (above ++ [reportName])).isSome := by
    rw [← FileTree.look_is_some, hwritten.there]
    rfl
  have hextension : (Path.ofNames (above ++ [reportName])).extension? = some "json" := by
    rw [Path.extension_of_names (FileSystem.file_names_of_at hafter hthere)]
    exact Report.extension_of_file_name name method config.output.fileSuffix
  obtain ⟨hfile, ⟨loaded, hload⟩, _⟩ := of_outcome_eq_ok hfound
  obtain ⟨bytes, hbytes⟩ := hseed.file
  have hread : after.isFile seed = true := by
    have hbytesAfter := (hwritten.elsewhere _ hplace).trans hbytes
    rw [FileSystem.isFile, FileSystem.read_bytes_eq_ok.2
      ⟨_, (hwritten.resolve_iff hplace).2 hseed.resolve, hbytesAfter⟩]
    rfl
  rw [← hfound]
  refine outcome_congr (hread.trans hfile.symm) ?_
  rw [hload]
  refine hwritten.load_eq hextension (by decide) hwalker hafter hfs
    (FileSystem.locate_of_resolve hseed.resolve) hplace ?_ hload
  rw [FileTree.bytes_at_eq_look, hbytes]
  rfl

/-- An analysis that fails leaves the file system as it is. One that succeeds writes its report
beside the seed, under another name, and changes nothing else; and the same analysis afterwards
finds the same and leaves the file system as it is. The walker is any one for which the files that
it walks do not depend on files with the extension of a report. -/
theorem run_writes_report {Rule : Type} {walker : Walker Rule}
    (hwalker : walker.Overlooks "json") (parse : String → Node) (config : Config)
    {fs : FileSystem} (hfs : fs.isWellFormed = true) (seed : Path) {method : String}
    (root : Option Path) (hmethod : '/' ∉ method.toList)
    (hsuffix : '/' ∉ config.output.fileSuffix.toList) :
    (∀ error after, run walker parse config fs seed method root = (.error error, after) →
      after = fs) ∧
    ∀ found after, run walker parse config fs seed method root = (.ok found, after) →
      (∃ above name reportName, fs.resolve seed = .ok (above ++ [name]) ∧
        after.resolve found.reportPath = .ok (above ++ [reportName]) ∧ reportName ≠ name ∧
        FileSystem.Written after fs (above ++ [reportName])
          (found.report.render config.output.pretty).toUTF8) ∧
      run walker parse config after seed method root = (.ok found, after) := by
  refine ⟨fun error after ↦ eq_of_run_error, fun found after hrun ↦ ?_⟩
  obtain ⟨hfound, hwrite⟩ := run_eq_ok.1 hrun
  obtain ⟨hfile, _, hpath⟩ := of_outcome_eq_ok hfound
  obtain ⟨front, above, name, hseed⟩ := FileSystem.stands_at_of_is_file hfile
  rw [hpath] at hwrite
  refine ⟨⟨above, name, _, hseed.resolve, ?_,
    Report.file_name_ne name method config.output.fileSuffix,
    Report.written_of_write hseed hmethod hsuffix hwrite⟩, run_eq_ok.2 ⟨?_, ?_⟩⟩
  · rw [hpath]
    exact Report.resolve_of_write hseed hmethod hsuffix hwrite
  · exact outcome_again hwalker hfs hseed hmethod hsuffix hfound hwrite
  · rw [hpath]
    exact Report.write_again hfs hseed hmethod hsuffix hwrite

end Analysis

/-- A seed file beside an old report, outside of the directory with the other source file. -/
def Outside.fs : FileSystem :=
  { root := .directory [
      ("p", .directory [
        ("A.cs", .file "class A { B b; void M() { b.N(); } }".toUTF8),
        ("A_M_analysis.json", .file "old".toUTF8)]),
      ("q", .directory [("B.cs", .file "class B { public void N() { } }".toUTF8)])]
    working := ["p"] }

/-- An analysis in these files with the walker that follows ignore files. -/
def Outside.run (fs : FileSystem) (method : String) : Except AnalysisError Outcome × FileSystem :=
  Analysis.run (Walk.walker .empty) Node.ofSource Config.standard fs ⟨"A.cs"⟩ method
    (some ⟨"../q"⟩)

/-- The old report is replaced by the one that is found again, and a method that is not found leaves
it as it is. -/
theorem Analysis.run_writes_report_outside :
    Outside.fs.isWellFormed = true ∧ '/' ∉ "M".toList ∧ '/' ∉ "X".toList ∧
      '/' ∉ Config.standard.output.fileSuffix.toList ∧
      (∃ found after, Outside.run Outside.fs "M" = (.ok found, after) ∧
        (∃ above name reportName,
          Outside.fs.resolve ⟨"A.cs"⟩ = .ok (above ++ [name]) ∧
          after.resolve found.reportPath = .ok (above ++ [reportName]) ∧ reportName ≠ name ∧
          FileSystem.Written after Outside.fs (above ++ [reportName])
            (found.report.render true).toUTF8) ∧
        Outside.run after "M" = (.ok found, after)) ∧
      ∃ error, Outside.run Outside.fs "X" = (.error error, Outside.fs) := by
  have hfs : Outside.fs.isWellFormed = true := by decide +kernel
  have hmethod : '/' ∉ "M".toList := by decide
  have hother : '/' ∉ "X".toList := by decide
  have hsuffix : '/' ∉ Config.standard.output.fileSuffix.toList := by decide
  have hfound : (Outside.run Outside.fs "M").1.toOption.isSome = true := by decide +kernel
  have hmissing : (Outside.run Outside.fs "X").1.toOption = none := by
    refine Option.isNone_iff_eq_none.1 ?_
    decide +kernel
  refine ⟨hfs, hmethod, hother, hsuffix, ?_, ?_⟩
  · obtain ⟨found, hfound⟩ := Option.isSome_iff_exists.1 hfound
    have hrun : Outside.run Outside.fs "M" = (.ok found, (Outside.run Outside.fs "M").2) :=
      Prod.ext (to_option_eq_some.1 hfound) rfl
    obtain ⟨hwritten, hagain⟩ := (run_writes_report (Walk.walker_overlooks .empty "json")
      Node.ofSource Config.standard hfs ⟨"A.cs"⟩ (some ⟨"../q"⟩) hmethod hsuffix).2 found _ hrun
    exact ⟨found, _, hrun, hwritten, hagain⟩
  · obtain ⟨error, herror⟩ := to_option_eq_none.1 hmissing
    have hrun : Outside.run Outside.fs "X" = (.error error, (Outside.run Outside.fs "X").2) :=
      Prod.ext herror rfl
    have hsame := (run_writes_report (Walk.walker_overlooks .empty "json") Node.ofSource
      Config.standard hfs ⟨"A.cs"⟩ (some ⟨"../q"⟩) hother hsuffix).1 error _ hrun
    rw [hsame] at hrun
    exact ⟨error, hrun⟩

end MemberReach
