import MemberReach.FileTree

/-!
# Trees of files

A tree is well formed if no directory has two entries of one name and every name can be the name of
a file. In such a tree every entry is found by its name (`lookup_of_mem`), and what stands in it is
well formed (`well_formed_at`).
-/

namespace MemberReach

/-- Whether a text can be the name of a file: it is not empty, does not mean another directory, is
not too long and holds neither a slash nor NUL. -/
def FileTree.isFileName (name : String) : Bool :=
  name != "" && name != "." && name != ".." && !name.toList.contains '/' &&
    !name.toList.contains '\x00' && decide (name.utf8ByteSize ≤ FileSystem.maxNameSize)

namespace FileTree

/-- What makes a text the name of a file. -/
theorem is_file_name_iff {name : String} :
    isFileName name = true ↔ name ≠ "" ∧ name ≠ "." ∧ name ≠ ".." ∧ '/' ∉ name.toList ∧
      '\x00' ∉ name.toList ∧ name.utf8ByteSize ≤ FileSystem.maxNameSize := by
  simp only [isFileName, Bool.and_eq_true, bne_iff_ne, Bool.not_eq_true', List.contains_eq_mem,
    decide_eq_false_iff_not, decide_eq_true_eq, and_assoc]

mutual

/-- Whether no directory of a tree has two entries of one name and all names are names of files. -/
def isWellFormed : FileTree → Bool
  | .file _ => true
  | .directory entries => decide ((entries.map Prod.fst).Nodup) && entriesWellFormed entries

/-- Whether the entries of a directory have names of files and are well formed themselves. -/
def entriesWellFormed : List (String × FileTree) → Bool
  | [] => true
  | (name, tree) :: rest => isFileName name && tree.isWellFormed && entriesWellFormed rest

end

/-- What holds of files, and of directories if it holds of all entries, holds of every tree. -/
@[elab_as_elim]
theorem induct {motive : FileTree → Prop} (file : ∀ content, motive (.file content))
    (directory : ∀ entries, (∀ entry ∈ entries, motive entry.2) → motive (.directory entries))
    (tree : FileTree) : motive tree :=
  match tree with
  | .file content => file content
  | .directory entries => directory entries fun entry hentry ↦
      have := List.sizeOf_lt_of_mem hentry
      induct file directory entry.2
termination_by sizeOf tree
decreasing_by
  obtain ⟨name, inner⟩ := entry
  simp only [Prod.mk.sizeOf_spec, FileTree.directory.sizeOf_spec] at this ⊢
  omega

/-! ### Entries -/

/-- Entries are well formed if each of them is. -/
theorem entries_well_formed_iff {entries : List (String × FileTree)} :
    entriesWellFormed entries = true ↔
      ∀ entry ∈ entries, isFileName entry.1 = true ∧ entry.2.isWellFormed = true := by
  induction entries with
  | nil => simp [entriesWellFormed]
  | cons entry rest ih =>
      obtain ⟨name, tree⟩ := entry
      simp only [entriesWellFormed, Bool.and_eq_true, ih, List.forall_mem_cons]

/-- A directory is well formed if its names differ and its entries are well formed. -/
theorem directory_well_formed_iff {entries : List (String × FileTree)} :
    (directory entries).isWellFormed = true ↔
      (entries.map Prod.fst).Nodup ∧
        ∀ entry ∈ entries, isFileName entry.1 = true ∧ entry.2.isWellFormed = true := by
  rw [isWellFormed, Bool.and_eq_true, decide_eq_true_iff, entries_well_formed_iff]

/-- An entry that is found is there. -/
theorem mem_of_lookup {entries : List (String × FileTree)} {name : String} {tree : FileTree}
    (h : entries.lookup name = some tree) : (name, tree) ∈ entries := by
  induction entries with
  | nil => cases h
  | cons entry rest ih =>
      obtain ⟨other, inner⟩ := entry
      rw [List.lookup_cons] at h
      split at h
      next heq =>
        rw [eq_of_beq heq, Option.some.inj h]
        exact List.mem_cons_self
      next => exact List.mem_cons_of_mem _ (ih h)

/-- If names differ, every entry is found by its name. -/
theorem lookup_of_mem {entries : List (String × FileTree)} (hnames : (entries.map Prod.fst).Nodup)
    {name : String} {tree : FileTree} (h : (name, tree) ∈ entries) :
    entries.lookup name = some tree := by
  induction entries with
  | nil => cases h
  | cons entry rest ih =>
      rw [List.map_cons, List.nodup_cons] at hnames
      rcases List.mem_cons.1 h with rfl | h
      · exact List.lookup_cons_self
      · have hne : (name == entry.1) = false := by
          refine beq_eq_false_iff_ne.2 ?_
          rintro rfl
          exact hnames.1 (List.mem_map.2 ⟨_, h, rfl⟩)
        rw [List.lookup_cons, hne]
        exact ih hnames.2 h

/-! ### What stands at the end of names -/

/-- Names are followed one after another. -/
theorem at_append (tree : FileTree) (names rest : List String) :
    tree.at? (names ++ rest) = (tree.at? names).bind fun inner ↦ inner.at? rest := by
  induction names generalizing tree with
  | nil => rfl
  | cons name names ih =>
      rw [List.cons_append, at?, at?]
      cases tree.entries.lookup name with
      | none => rfl
      | some inner => exact ih inner

/-- What stands at a name is an entry of a directory. -/
theorem at_cons_eq_some {tree inner : FileTree} {name : String} {rest : List String} :
    tree.at? (name :: rest) = some inner ↔
      ∃ entries next, tree = .directory entries ∧ entries.lookup name = some next ∧
        next.at? rest = some inner := by
  rw [at?]
  cases tree with
  | file content => simp [entries]
  | directory entries =>
      simp only [FileTree.entries]
      cases hlookup : entries.lookup name with
      | none => simp [hlookup]
      | some next => simp [hlookup]

/-- What stands in a well-formed tree is well formed, and the names that lead to it are names of
files. -/
theorem well_formed_at {tree inner : FileTree} {names : List String}
    (htree : tree.isWellFormed = true) (h : tree.at? names = some inner) :
    inner.isWellFormed = true ∧ ∀ name ∈ names, isFileName name = true := by
  induction names generalizing tree with
  | nil =>
      cases h
      exact ⟨htree, nofun⟩
  | cons name rest ih =>
      obtain ⟨entries, next, rfl, hlookup, hrest⟩ := at_cons_eq_some.1 h
      obtain ⟨_, hentries⟩ := directory_well_formed_iff.1 htree
      obtain ⟨hname, hnext⟩ := hentries _ (mem_of_lookup hlookup)
      obtain ⟨hinner, hnames⟩ := ih hnext hrest
      exact ⟨hinner, List.forall_mem_cons.2 ⟨hname, hnames⟩⟩

/-- The bytes at names are those of a file. -/
theorem bytes_at_eq_some {tree : FileTree} {names : List String} {content : ByteArray} :
    tree.bytesAt? names = some content ↔ tree.at? names = some (.file content) := by
  unfold bytesAt?
  cases tree.at? names with
  | none => simp
  | some inner => cases inner <;> simp

end FileTree

/-- Whether the root of a file system is a directory and its tree is well formed. -/
def FileSystem.isWellFormed (fs : FileSystem) : Bool :=
  fs.root.isDirectory && fs.root.isWellFormed

end MemberReach
