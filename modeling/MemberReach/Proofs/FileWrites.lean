import MemberReach.Proofs.Paths

/-!
# Writing a file

A file system in which one file has been written differs from the one before at the place of the
file alone (`FileSystem.Written`). Every path that is followed to another place in one of them is
followed to the same place in the other (`resolve_iff`), and the files there are the same. Writing a
file again as it stands changes nothing (`update_self`).
-/

namespace MemberReach

namespace FileTree

/-! ### What stands at a place -/

/-- What stands at the end of some names: nothing, a directory, or a file with its bytes. -/
def look? (tree : FileTree) (names : List String) : Option (Option ByteArray) :=
  (tree.at? names).map fun
    | .file content => some content
    | .directory _ => none

/-- What stands at a name is looked up among the entries. -/
theorem look_cons (tree : FileTree) (name : String) (rest : List String) :
    tree.look? (name :: rest) =
      (tree.entries.lookup name).bind fun inner ↦ inner.look? rest := by
  rw [look?, at?]
  cases tree.entries.lookup name <;> rfl

/-- Names are followed one after another. -/
theorem look_append (tree : FileTree) (names rest : List String) :
    tree.look? (names ++ rest) = (tree.at? names).bind fun inner ↦ inner.look? rest := by
  rw [look?, at_append]
  cases tree.at? names <;> rfl

/-- A file stands at a place if its bytes are found there. -/
theorem look_eq_file {tree : FileTree} {names : List String} {content : ByteArray} :
    tree.look? names = some (some content) ↔ tree.at? names = some (.file content) := by
  rw [look?]
  cases tree.at? names with
  | none => simp
  | some inner => cases inner <;> simp

/-- A directory stands at a place if its entries are found there. -/
theorem look_eq_directory {tree : FileTree} {names : List String} :
    tree.look? names = some none ↔ ∃ entries, tree.at? names = some (.directory entries) := by
  rw [look?]
  cases tree.at? names with
  | none => simp
  | some inner => cases inner <;> simp

/-- Something stands at a place if a tree is found there. -/
theorem look_is_some (tree : FileTree) (names : List String) :
    (tree.look? names).isSome = (tree.at? names).isSome :=
  Option.isSome_map

/-- The bytes at names are those of the file that stands there. -/
theorem bytes_at_eq_look (tree : FileTree) (names : List String) :
    tree.bytesAt? names = (tree.look? names).join := by
  unfold bytesAt? look?
  cases tree.at? names with
  | none => rfl
  | some inner => cases inner <;> rfl

/-- Nothing stands below a place where there is no directory. -/
theorem look_below {tree : FileTree} {names : List String} (h : tree.look? names ≠ some none)
    {rest : List String} (hrest : rest ≠ []) : tree.look? (names ++ rest) = none := by
  obtain ⟨name, rest, rfl⟩ := List.exists_cons_of_ne_nil hrest
  rw [look_append]
  cases hat : tree.at? names with
  | none => rfl
  | some inner =>
      cases inner with
      | file content => rfl
      | directory entries => exact absurd (look_eq_directory.2 ⟨entries, hat⟩) h

/-! ### Entries -/

/-- Replacing what a name has changes its entry, if there is one, and no other. -/
theorem lookup_replace (entries : List (String × FileTree)) (name other : String)
    (tree : FileTree) :
    (entries.map fun entry ↦ if entry.1 == name then (name, tree) else entry).lookup other =
      if other = name then (entries.lookup name).map fun _ ↦ tree else entries.lookup other := by
  induction entries with
  | nil => simp
  | cons entry rest ih =>
      obtain ⟨key, inner⟩ := entry
      rw [List.map_cons]
      by_cases hkey : key = name
      · subst hkey
        rw [if_pos (beq_self_eq_true key), List.lookup_cons, List.lookup_cons_self,
          List.lookup_cons, ih]
        by_cases hother : other = key
        · simp [hother]
        · have hne : (other == key) = false := by simpa using hother
          simp [hother, hne]
      · rw [if_neg (by simpa using hkey), List.lookup_cons, List.lookup_cons,
          List.lookup_cons, ih]
        by_cases hother : other = name
        · have hne : (name == key) = false := by simpa using Ne.symm hkey
          simp [hother, hne]
        · simp [hother]

/-- A name has the entry that it is given, and other names keep theirs. -/
theorem lookup_set_entry (entries : List (String × FileTree)) (name other : String)
    (tree : FileTree) :
    (setEntry entries name (some tree)).lookup other =
      if other = name then some tree else entries.lookup other := by
  rw [setEntry]
  split
  next hsome =>
    obtain ⟨inner, hinner⟩ := Option.isSome_iff_exists.1 hsome
    rw [lookup_replace, hinner]
    rfl
  next hnone =>
    rw [List.lookup_append]
    by_cases hother : other = name
    · subst hother
      rw [Option.not_isSome_iff_eq_none.1 hnone, List.lookup_cons_self, if_pos rfl, Option.none_or]
    · have hne : (other == name) = false := by simpa using hother
      simp [List.lookup_cons, hne, hother]

/-- The entries after a name is given one are that one and others that were there. -/
theorem mem_set_entry {entries : List (String × FileTree)} {name : String} {tree : FileTree}
    {entry : String × FileTree} (h : entry ∈ setEntry entries name (some tree)) :
    entry = (name, tree) ∨ entry ∈ entries := by
  rw [setEntry] at h
  split at h
  next =>
    obtain ⟨old, hold, rfl⟩ := List.mem_map.1 h
    split
    next => exact Or.inl rfl
    next => exact Or.inr hold
  next =>
    rcases List.mem_append.1 h with h | h
    · exact Or.inr h
    · exact Or.inl (List.mem_singleton.1 h)

/-- Names stay different when one of them is given an entry. -/
theorem set_entry_nodup {entries : List (String × FileTree)}
    (hnames : (entries.map Prod.fst).Nodup) (name : String) (tree : FileTree) :
    ((setEntry entries name (some tree)).map Prod.fst).Nodup := by
  rw [setEntry]
  split
  next =>
    have hsame : (entries.map fun entry ↦ if entry.1 == name then (name, tree) else entry).map
        Prod.fst = entries.map Prod.fst := by
      rw [List.map_map]
      refine List.map_congr_left fun entry _ ↦ ?_
      by_cases hname : entry.1 = name <;> simp [hname]
    rwa [hsame]
  next hnone =>
    rw [List.map_append]
    refine hnames.append (List.nodup_singleton name) (List.disjoint_singleton.2 fun hmem ↦ ?_)
    obtain ⟨entry, hentry, rfl⟩ := List.mem_map.1 hmem
    exact hnone (Option.isSome_iff_exists.2 ⟨_, lookup_of_mem hnames hentry⟩)

/-- Giving a name the entry that it has changes nothing. -/
theorem set_entry_self {entries : List (String × FileTree)}
    (hnames : (entries.map Prod.fst).Nodup) {name : String} {tree : FileTree}
    (h : entries.lookup name = some tree) : setEntry entries name (some tree) = entries := by
  rw [setEntry, if_pos (h ▸ rfl)]
  refine (List.map_congr_left fun entry hentry ↦ ?_).trans (List.map_id entries)
  split
  next hname =>
    obtain rfl := eq_of_beq hname
    rw [lookup_of_mem hnames hentry] at h
    rw [← Option.some.inj h]
    rfl
  next => rfl

/-- A directory stays well formed when a name of files is given a well-formed entry. -/
theorem set_entry_well_formed {entries : List (String × FileTree)} {name : String}
    {inner : FileTree} (h : (directory entries).isWellFormed = true)
    (hname : isFileName name = true) (hinner : inner.isWellFormed = true) :
    (directory (setEntry entries name (some inner))).isWellFormed = true := by
  obtain ⟨hnames, hentries⟩ := directory_well_formed_iff.1 h
  refine directory_well_formed_iff.2 ⟨set_entry_nodup hnames name inner, fun entry hentry ↦ ?_⟩
  rcases mem_set_entry hentry with rfl | hold
  · exact ⟨hname, hinner⟩
  · exact hentries entry hold

/-! ### Putting a file at a place -/

/-- Below a name, a tree is put into the entry of that name. -/
theorem update_cons (tree : FileTree) (content : Option FileTree) (name : String)
    {rest : List String} (hrest : rest ≠ []) :
    tree.update content (name :: rest) =
      .directory (setEntry tree.entries name
        (some (((tree.entries.lookup name).getD (.directory [])).update content rest))) := by
  obtain ⟨next, rest, rfl⟩ := List.exists_cons_of_ne_nil hrest
  rw [update]
  exact List.cons_ne_nil next rest

/-- Putting a tree where it stands changes nothing. -/
theorem update_self {tree inner : FileTree} (htree : tree.isWellFormed = true)
    {names : List String} (h : tree.at? names = some inner) :
    tree.update (some inner) names = tree := by
  induction names generalizing tree with
  | nil => exact (Option.some.inj h).symm
  | cons name rest ih =>
      obtain ⟨entries, next, rfl, hlookup, hrest⟩ := at_cons_eq_some.1 h
      obtain ⟨hnames, hentries⟩ := directory_well_formed_iff.1 htree
      have hnext := ih (hentries _ (mem_of_lookup hlookup)).2 hrest
      cases rest with
      | nil =>
          obtain rfl := Option.some.inj hrest
          rw [update, FileTree.entries, set_entry_self hnames hlookup]
      | cons other rest =>
          rw [update_cons _ _ _ (List.cons_ne_nil other rest), FileTree.entries, hlookup,
            Option.getD_some, hnext, set_entry_self hnames hlookup]

/-- The first tree is the second with a file written at a place where no directory stands. -/
structure Written (after before : FileTree) (place : List String) (content : ByteArray) :
    Prop where
  there : after.look? place = some (some content)
  unoccupied : before.look? place ≠ some none
  elsewhere : ∀ names, names ≠ place → after.look? names = before.look? names

/-- A file is written below a name if it is written into the entry of that name. -/
theorem written_set_entry {entries : List (String × FileTree)} {name : String}
    {inner : FileTree} {rest : List String} {content : ByteArray}
    (hthere : inner.look? rest = some (some content))
    (hfree : (directory entries).look? (name :: rest) ≠ some none)
    (helsewhere : ∀ names, names ≠ rest →
      inner.look? names = (directory entries).look? (name :: names)) :
    Written (.directory (setEntry entries name (some inner))) (.directory entries)
      (name :: rest) content := by
  have hlook : ∀ other names,
      (directory (setEntry entries name (some inner))).look? (other :: names) =
        if other = name then inner.look? names else (directory entries).look? (other :: names) := by
    intro other names
    rw [look_cons, FileTree.entries, lookup_set_entry]
    split
    next => rfl
    next => rw [look_cons, FileTree.entries]
  refine ⟨by rw [hlook, if_pos rfl, hthere], hfree, fun names hne ↦ ?_⟩
  cases names with
  | nil => rfl
  | cons other names =>
      rw [hlook]
      split
      next hname =>
        subst hname
        exact helsewhere names fun hsame ↦ hne (hsame ▸ rfl)
      next => rfl

/-- A file that is put into a directory, where no other directory stands, is written there. -/
theorem written_update {tree : FileTree} {above : List String} {name : String}
    (content : ByteArray) (habove : tree.look? above = some none)
    (hfree : tree.look? (above ++ [name]) ≠ some none) :
    Written (tree.update (some (.file content)) (above ++ [name])) tree (above ++ [name])
      content := by
  induction above generalizing tree with
  | nil =>
      obtain ⟨entries, hat⟩ := look_eq_directory.1 habove
      obtain rfl := Option.some.inj hat
      refine written_set_entry rfl hfree fun names hne ↦ ?_
      obtain ⟨next, rest, rfl⟩ := List.exists_cons_of_ne_nil hne
      exact (look_below hfree hne).symm
  | cons first above ih =>
      obtain ⟨entries, hat⟩ := look_eq_directory.1 habove
      obtain ⟨entries, next, rfl, hlookup, hnext⟩ := at_cons_eq_some.1 hat
      have hlook : ∀ names, (directory entries).look? (first :: names) = next.look? names := by
        intro names
        rw [look_cons, FileTree.entries, hlookup, Option.bind_some]
      rw [List.cons_append, hlook] at hfree
      have hwritten := ih (look_eq_directory.2 ⟨_, hnext⟩) hfree
      rw [List.cons_append, update_cons _ _ _ (by simp), FileTree.entries, hlookup,
        Option.getD_some]
      exact written_set_entry hwritten.there (by rwa [hlook]) fun names hne ↦ by
        rw [hlook, hwritten.elsewhere names hne]

/-- A tree in which a file is written under a name of files stays well formed. -/
theorem well_formed_update {tree : FileTree} (htree : tree.isWellFormed = true)
    {above : List String} {name : String} (content : ByteArray)
    (habove : tree.look? above = some none) (hname : isFileName name = true) :
    (tree.update (some (.file content)) (above ++ [name])).isWellFormed = true := by
  induction above generalizing tree with
  | nil =>
      obtain ⟨entries, hat⟩ := look_eq_directory.1 habove
      obtain rfl := Option.some.inj hat
      exact set_entry_well_formed htree hname rfl
  | cons first above ih =>
      obtain ⟨entries, hat⟩ := look_eq_directory.1 habove
      obtain ⟨entries, next, rfl, hlookup, hnext⟩ := at_cons_eq_some.1 hat
      obtain ⟨hfirst, hinner⟩ := (directory_well_formed_iff.1 htree).2 _ (mem_of_lookup hlookup)
      rw [List.cons_append, update_cons _ _ _ (by simp), FileTree.entries, hlookup,
        Option.getD_some]
      exact set_entry_well_formed htree hfirst (ih hinner (look_eq_directory.2 ⟨_, hnext⟩))

end FileTree

namespace FileSystem

/-! ### Following a path -/

/-- A segment that is followed to an entry of the directory where it stands. -/
def isEntryName (segment : String) : Bool :=
  segment != "" && segment != "." && segment != ".."

/-- What stands below a directory is looked up among its entries. -/
theorem look_entry {fs : FileSystem} {names : List String} {entries : List (String × FileTree)}
    (hat : fs.root.at? names = some (.directory entries)) (segment : String) :
    (fs.root.look? (names ++ [segment])).isSome = (entries.lookup segment).isSome := by
  rw [FileTree.look_append, hat, Option.bind_some, FileTree.look_cons, FileTree.entries]
  cases entries.lookup segment <;> rfl

/-- Following a segment depends on what stands at two places. -/
theorem step_eq_ok_look {fs : FileSystem} {names next : List String} {segment : String} :
    fs.step names segment = .ok next ↔
      fs.root.look? names = some none ∧
        ((segment = "" ∨ segment = ".") ∧ next = names ∨
          segment = ".." ∧ next = names.dropLast ∨
          isEntryName segment = true ∧ segment.utf8ByteSize ≤ maxNameSize ∧
            (fs.root.look? next).isSome ∧ next = names ++ [segment]) := by
  rw [step_eq_ok, FileTree.look_eq_directory, ← exists_and_right]
  refine exists_congr fun entries ↦ and_congr_right fun hat ↦ ?_
  have hentry := look_entry hat segment
  have hname : isEntryName segment = true ↔ segment ≠ "" ∧ segment ≠ "." ∧ segment ≠ ".." := by
    simp [isEntryName, and_assoc]
  rw [hname]
  constructor
  · rintro (hstay | hup | ⟨hordinary, hsize, hlookup, rfl⟩)
    · exact Or.inl hstay
    · exact Or.inr (Or.inl hup)
    · exact Or.inr (Or.inr ⟨hordinary, hsize, hentry ▸ hlookup, rfl⟩)
  · rintro (hstay | hup | ⟨hordinary, hsize, hlook, rfl⟩)
    · exact Or.inl hstay
    · exact Or.inr (Or.inl hup)
    · exact Or.inr (Or.inr ⟨hordinary, hsize, hentry ▸ hlook, rfl⟩)

/-- The name of an entry is followed from its directory if the entry exists. -/
theorem step_entry {fs : FileSystem} {names : List String} {segment : String}
    (hnames : fs.root.look? names = some none) (hsegment : isEntryName segment = true) :
    fs.step names segment =
      if maxNameSize < segment.utf8ByteSize then .error .nameTooLong
      else if (fs.root.look? (names ++ [segment])).isSome then .ok (names ++ [segment])
      else .error .notFound := by
  obtain ⟨entries, hat⟩ := FileTree.look_eq_directory.1 hnames
  simp only [isEntryName, Bool.and_eq_true, bne_iff_ne] at hsegment
  have hstay : ¬ (segment == "" || segment == ".") = true := by simp [hsegment]
  have hup : ¬ (segment == "..") = true := by simp [hsegment]
  rw [look_entry hat, step, hat]
  simp only [FileTree.isDirectory, Bool.not_true, Bool.false_eq_true, if_false]
  rw [if_neg hstay, if_neg hup, FileTree.entries]

/-- Segments are followed one after another. -/
theorem foldl_step_cons {fs : FileSystem} {start next : List String} {segment : String}
    {rest : List String} :
    (segment :: rest).foldlM fs.step start = .ok next ↔
      ∃ middle, fs.step start segment = .ok middle ∧ rest.foldlM fs.step middle = .ok next := by
  rw [List.foldlM_cons]
  cases fs.step start segment with
  | error error => exact iff_of_false nofun nofun
  | ok middle => simp [bind, Except.bind]

/-- Segments are followed before those after them. -/
theorem foldl_step_append {fs : FileSystem} {start next : List String}
    {segments rest : List String} :
    (segments ++ rest).foldlM fs.step start = .ok next ↔
      ∃ middle, segments.foldlM fs.step start = .ok middle ∧
        rest.foldlM fs.step middle = .ok next := by
  rw [List.foldlM_append]
  cases segments.foldlM fs.step start with
  | error error => exact iff_of_false nofun nofun
  | ok middle => simp [bind, Except.bind]

/-- A path that ends with the name of an entry leads to that entry. -/
theorem exists_above_of_foldl {fs : FileSystem} {start names segments : List String}
    {segment : String} (hsegment : isEntryName segment = true)
    (h : (segments ++ [segment]).foldlM fs.step start = .ok names) :
    ∃ above, names = above ++ [segment] := by
  obtain ⟨above, _, hlast⟩ := foldl_step_append.1 h
  obtain ⟨middle, hstep, hend⟩ := foldl_step_cons.1 hlast
  cases hend
  obtain ⟨_, ⟨hstay, _⟩ | ⟨hup, _⟩ | ⟨_, _, _, hnames⟩⟩ := step_eq_ok_look.1 hstep
  · rcases hstay with rfl | rfl <;> cases hsegment
  · subst hup
    cases hsegment
  · exact ⟨above, hnames⟩

/-- Nothing is followed from a place where no directory stands. -/
theorem eq_of_foldl_step {fs : FileSystem} {start next : List String}
    (hstart : fs.root.look? start ≠ some none) {segments : List String}
    (h : segments.foldlM fs.step start = .ok next) : next = start := by
  cases segments with
  | nil => exact (Except.ok.inj h).symm
  | cons segment rest =>
      obtain ⟨middle, hstep, _⟩ := foldl_step_cons.1 h
      exact absurd (step_eq_ok_look.1 hstep).1 hstart

/-- A path leads to a place if its text is in order and its segments are followed there. -/
theorem resolve_eq_ok {fs : FileSystem} {path : Path} {names : List String} :
    fs.resolve path = .ok names ↔ checkText path = .ok () ∧ checkSize path = .ok () ∧
      fs.follow path path.segments = .ok names := by
  unfold resolve
  cases checkText path with
  | error error => exact iff_of_false nofun fun h ↦ nomatch h.1
  | ok _ =>
      cases checkSize path with
      | error error => exact iff_of_false nofun fun h ↦ nomatch h.2.1
      | ok _ => exact ⟨fun h ↦ ⟨rfl, rfl, h⟩, fun h ↦ h.2.2⟩

/-- A path that leads to a place is located there. -/
theorem locate_of_resolve {fs : FileSystem} {path : Path} {names : List String}
    (h : fs.resolve path = .ok names) : fs.locate path = .ok names := by
  obtain ⟨htext, _, hfollow⟩ := resolve_eq_ok.1 h
  rw [locate, htext]
  exact hfollow

/-- The bytes of a file are read if the path leads to it. -/
theorem read_bytes_eq_ok {fs : FileSystem} {path : Path} {content : ByteArray} :
    fs.readBytes path = .ok content ↔
      ∃ names, fs.resolve path = .ok names ∧ fs.root.look? names = some (some content) := by
  rw [readBytes]
  cases fs.resolve path with
  | error error => simp [bind, Except.bind]
  | ok names =>
      simp only [bind, Except.bind, FileTree.look_eq_file, Except.ok.injEq, exists_eq_left']
      cases fs.root.at? names with
      | none => simp
      | some tree => cases tree <;> simp

/-- A path is followed without an error or stops for another reason than a directory. -/
theorem resolve_ne_is_directory (fs : FileSystem) (path : Path) :
    fs.resolve path ≠ .error .isDirectory := by
  have hstep : ∀ names segment, fs.step names segment ≠ .error .isDirectory := by
    intro names segment
    unfold step
    split
    · simp
    · split_ifs <;> simp
  have hfollow : ∀ (segments start : List String),
      segments.foldlM fs.step start ≠ .error .isDirectory := by
    intro segments
    induction segments with
    | nil => exact fun start ↦ nofun
    | cons segment rest ih =>
        intro start
        rw [List.foldlM_cons]
        cases hnext : fs.step start segment with
        | error error => exact fun h ↦ hstep start segment (hnext.trans h)
        | ok middle => exact ih middle
  unfold resolve
  cases htext : checkText path with
  | error error =>
      intro h
      cases h
      unfold checkText at htext
      split_ifs at htext <;> cases htext
  | ok _ =>
      cases hsize : checkSize path with
      | error error =>
          intro h
          cases h
          unfold checkSize at hsize
          split_ifs at hsize
          cases hsize
      | ok _ => exact hfollow path.segments _

/-- A path leads to a directory if reading it fails for that reason. -/
theorem read_bytes_eq_is_directory {fs : FileSystem} {path : Path} :
    fs.readBytes path = .error .isDirectory ↔
      ∃ names, fs.resolve path = .ok names ∧ fs.root.look? names = some none := by
  rw [readBytes]
  cases hresolve : fs.resolve path with
  | error error =>
      constructor
      · intro h
        cases h
        exact absurd hresolve (resolve_ne_is_directory fs path)
      · rintro ⟨names, hnames, _⟩
        cases hnames
  | ok names =>
      simp only [bind, Except.bind, FileTree.look_eq_directory, Except.ok.injEq, exists_eq_left']
      cases fs.root.at? names with
      | none => simp
      | some tree => cases tree <;> simp

/-! ### Writing -/

/-- A file is written into an existing directory, under a name that is not too long and not that of
a directory. -/
theorem place_to_write_eq_ok {fs : FileSystem} {path : Path} {segments above place : List String}
    {name : String} (hpath : path.segments = segments ++ [name])
    (hname : isEntryName name = true) (hfollow : fs.follow path segments = .ok above)
    (habove : fs.root.look? above = some none) :
    fs.placeToWrite path = .ok place ↔
      checkText path = .ok () ∧ checkSize path = .ok () ∧ name.utf8ByteSize ≤ maxNameSize ∧
        fs.root.look? (above ++ [name]) ≠ some none ∧ place = above ++ [name] := by
  unfold placeToWrite
  cases checkText path with
  | error error => exact iff_of_false nofun fun h ↦ nomatch h.1
  | ok _ =>
      cases checkSize path with
      | error error => exact iff_of_false nofun fun h ↦ nomatch h.2.1
      | ok _ =>
          simp only [hpath, List.dropLast_concat, List.getLast?_concat, hfollow, bind, Except.bind,
            Option.map_some, Option.getD_some, step_entry habove hname, true_and]
          by_cases hsize : maxNameSize < name.utf8ByteSize
          · rw [if_pos hsize]
            exact iff_of_false nofun fun h ↦ Nat.not_lt.2 h.1 hsize
          · have hbytes := FileTree.bytes_at_eq_look fs.root (above ++ [name])
            rw [if_neg hsize]
            cases hlook : fs.root.look? (above ++ [name]) with
            | none => simp [Nat.not_lt.1 hsize, pure, Except.pure, eq_comm]
            | some found =>
                rw [hlook] at hbytes
                cases found <;> simp [hbytes, Nat.not_lt.1 hsize, pure, Except.pure, eq_comm]

/-- A file that is written is put at its place. -/
theorem write_eq_ok {fs after : FileSystem} {path : Path} {content : ByteArray} :
    fs.write path content = (.ok (), after) ↔
      ∃ place, fs.placeToWrite path = .ok place ∧
        after = { fs with root := fs.root.update (some (.file content)) place } := by
  unfold write
  cases fs.placeToWrite path <;> simp [eq_comm]

/-- A file that cannot be written changes nothing. -/
theorem write_of_error {fs after : FileSystem} {path : Path} {content : ByteArray}
    {error : FileError} (h : fs.write path content = (.error error, after)) : after = fs := by
  unfold write at h
  cases hplace : fs.placeToWrite path with
  | error other =>
      rw [hplace] at h
      cases h
      rfl
  | ok place =>
      rw [hplace] at h
      cases h

/-! ### Before and after -/

/-- The first file system is the second with a file written at a place. -/
structure Written (after before : FileSystem) (place : List String) (content : ByteArray) : Prop
    extends FileTree.Written after.root before.root place content where
  working : after.working = before.working

namespace Written

variable {after before : FileSystem} {place : List String} {content : ByteArray}
  (h : Written after before place content)

include h

/-- The directories are the same before and after. -/
theorem directory_iff {names : List String} :
    after.root.look? names = some none ↔ before.root.look? names = some none := by
  by_cases hplace : names = place
  · subst hplace
    exact iff_of_false (fun hnone ↦ nomatch h.there.symm.trans hnone) h.unoccupied
  · rw [h.elsewhere names hplace]

/-- The bytes at another place are the same before and after. -/
theorem bytes_at_eq {names : List String} (hplace : names ≠ place) :
    after.root.bytesAt? names = before.root.bytesAt? names := by
  rw [FileTree.bytes_at_eq_look, FileTree.bytes_at_eq_look, h.elsewhere names hplace]

/-- What exists before exists after. -/
theorem look_is_some {names : List String} (hsome : (before.root.look? names).isSome) :
    (after.root.look? names).isSome := by
  by_cases hplace : names = place
  · rw [hplace, h.there]
    rfl
  · rwa [h.elsewhere names hplace]

/-- A segment that is followed to another place is followed there before and after. -/
theorem step_iff {names next : List String} (hnext : next ≠ place) {segment : String} :
    after.step names segment = .ok next ↔ before.step names segment = .ok next := by
  rw [step_eq_ok_look, step_eq_ok_look, h.directory_iff, h.elsewhere next hnext]

/-- Segments that are followed to another place are followed there before and after. -/
theorem foldl_iff {start next : List String} (hnext : next ≠ place) {segments : List String} :
    segments.foldlM after.step start = .ok next ↔
      segments.foldlM before.step start = .ok next := by
  induction segments generalizing start with
  | nil => rfl
  | cons segment rest ih =>
      rw [foldl_step_cons, foldl_step_cons]
      refine exists_congr fun middle ↦ ?_
      by_cases hmiddle : middle = place
      -- nothing is followed from the place that is written, and it is not the end
      · subst hmiddle
        have hafter : after.root.look? middle ≠ some none :=
          fun hnone ↦ h.unoccupied (h.directory_iff.1 hnone)
        exact iff_of_false (fun hend ↦ hnext (eq_of_foldl_step hafter hend.2))
          fun hend ↦ hnext (eq_of_foldl_step h.unoccupied hend.2)
      · rw [h.step_iff hmiddle, ih]

/-- Segments that were followed are followed to the same place. -/
theorem foldl_kept {start next segments : List String}
    (hbefore : segments.foldlM before.step start = .ok next) :
    segments.foldlM after.step start = .ok next := by
  induction segments generalizing start with
  | nil => exact hbefore
  | cons segment rest ih =>
      obtain ⟨middle, hstep, hrest⟩ := foldl_step_cons.1 hbefore
      refine foldl_step_cons.2 ⟨middle, ?_, ih hrest⟩
      obtain ⟨hdirectory, hcases⟩ := step_eq_ok_look.1 hstep
      refine step_eq_ok_look.2 ⟨h.directory_iff.2 hdirectory, ?_⟩
      exact hcases.imp_right (Or.imp_right fun ⟨hentry, hsize, hsome, hmiddle⟩ ↦
        ⟨hentry, hsize, h.look_is_some hsome, hmiddle⟩)

/-- Segments of a path that were followed are followed to the same place. -/
theorem follow_kept {path : Path} {segments names : List String}
    (hbefore : before.follow path segments = .ok names) :
    after.follow path segments = .ok names := by
  unfold follow at hbefore ⊢
  rw [h.working]
  exact h.foldl_kept hbefore

/-- A path that was located is located at the same place. -/
theorem locate_kept {path : Path} {names : List String} (hbefore : before.locate path = .ok names) :
    after.locate path = .ok names := by
  unfold locate at hbefore ⊢
  cases htext : checkText path with
  | error error =>
      rw [htext] at hbefore
      cases hbefore
  | ok _ =>
      rw [htext] at hbefore
      exact h.follow_kept hbefore

/-- A path that leads to another place leads there before and after. -/
theorem resolve_iff {path : Path} {names : List String} (hnames : names ≠ place) :
    after.resolve path = .ok names ↔ before.resolve path = .ok names := by
  rw [resolve_eq_ok, resolve_eq_ok, follow, follow, h.working, h.foldl_iff hnames]

end Written

end FileSystem

end MemberReach
