import MemberReach.Proofs.Walkers
import MemberReach.Walk

/-!
# The files of a walk

A path is left out of a walk if the exclusion patterns or the ignore files around it say so. The
walk of a place lists what is below it for which neither the path itself nor a directory on the way
down to it is left out, each once, and siblings in the order that is asked for (`walker_lawful`).
-/

namespace MemberReach.Walk

/-! ### Paths that are kept -/

section Kept

variable (global : IgnoreFile) (fs : FileSystem) (options : Options) (top : List String)

/-- The ignore files of a directory around a path of the walk of `top`. -/
def levelAt (names : List String) : Level :=
  if names.length < top.length then .above fs options names
  else .of fs options names ((fs.root.at? names).getD (.directory []))

/-- The ignore files of the directories around a path, innermost first. -/
def levelsAt (path : List String) : List Level :=
  (parents path).map (levelAt fs options top)

/-- Whether the exclusion patterns and the ignore files around a path leave it out. -/
def isLeftOut (path : List String) : Bool :=
  isIgnored global options top (levelsAt fs options top path) path
    (((fs.root.at? path).map FileTree.isDirectory).getD false)

/-- Whether no path is left out from a directory down along some names. -/
def isKeptFrom (path : List String) : List String → Bool
  | [] => true
  | name :: rest =>
      !isLeftOut global fs options top (path ++ [name]) && isKeptFrom (path ++ [name]) rest

/-- Whether neither a path nor a directory between it and `top` is left out. -/
def isKept (path : List String) : Bool :=
  isKeptFrom global fs options top top (path.drop top.length)

end Kept

/-- The directories above an entry are its directory and those above that. -/
theorem parents_append (path : List String) (name : String) :
    parents (path ++ [name]) = path :: parents path := by
  have htake : (List.range path.length).map (fun n ↦ (path ++ [name]).take n) =
      (List.range path.length).map fun n ↦ path.take n := by
    refine List.map_congr_left fun n hn ↦ ?_
    exact List.take_append_of_le_length (Nat.le_of_lt (List.mem_range.1 hn))
  rw [parents, List.length_append, List.length_singleton, List.range_succ, List.map_append, htake,
    List.reverse_append, List.map_singleton, List.take_append_of_le_length (Nat.le_refl _),
    List.take_length]
  rfl

variable {global : IgnoreFile} {fs : FileSystem} {options : Options} {top : List String}

/-- The ignore files around an entry are those of its directory and those around that. -/
theorem levels_at_append {path : List String} {tree : FileTree}
    (hat : fs.root.at? path = some tree) (hbelow : top.length ≤ path.length) (name : String) :
    levelsAt fs options top (path ++ [name]) =
      .of fs options path tree :: levelsAt fs options top path := by
  rw [levelsAt, parents_append, List.map_cons, levelAt, if_neg (Nat.not_lt.2 hbelow), hat]
  rfl

/-- The ignore files around the place that is walked are those above it. -/
theorem levels_at_top :
    levelsAt fs options top top = (parents top).map (Level.above fs options) := by
  refine List.map_congr_left fun names hnames ↦ if_pos ?_
  obtain ⟨n, hn, rfl⟩ := List.mem_map.1 (List.mem_reverse.1 hnames)
  rw [List.length_take]
  exact Nat.lt_of_le_of_lt (Nat.min_le_left _ _) (List.mem_range.1 hn)

/-- What stands at a path decides with the ignore files around it whether it is left out. -/
theorem is_left_out_of_at {path : List String} {tree : FileTree}
    (hat : fs.root.at? path = some tree) :
    isLeftOut global fs options top path =
      isIgnored global options top (levelsAt fs options top path) path tree.isDirectory := by
  rw [isLeftOut, hat]
  rfl

/-! ### Joined walks -/

/-- The walks of entries are those of each entry. -/
theorem below_entries_eq_map (levels : List Level) (path : List String)
    (entries : List (String × FileTree)) :
    belowEntries global fs options top levels path entries = entries.map fun entry ↦
      (path ++ [entry.1], below global fs options top levels (path ++ [entry.1]) entry.2) := by
  induction entries with
  | nil => rfl
  | cons entry rest ih => rw [belowEntries, ih, List.map_cons]

/-- What is listed by walks is listed when they are joined. -/
theorem mem_joined {order : List String → List String → Ordering}
    {walks : List (List String × List (List String))} {names : List String} :
    names ∈ joined order walks ↔ ∃ walk ∈ walks, names ∈ walk.2 := by
  simp only [joined, List.mem_flatMap, List.mem_mergeSort]

/-- Walks that are in order are joined as they are. -/
theorem joined_of_ordered {order : List String → List String → Ordering}
    {walks : List (List String × List (List String))}
    (h : walks.Pairwise fun a b ↦ (order a.1 b.1).isLE = true) :
    joined order walks = walks.flatMap Prod.snd := by
  rw [joined, List.mergeSort_of_pairwise h]

/-- Walks are sorted by the places of their entries. -/
theorem sorted_walks (order : List String → List String → Ordering) [Std.TransCmp order]
    (walks : List (List String × List (List String))) :
    (walks.mergeSort fun a b ↦ (order a.1 b.1).isLE).Pairwise
      fun a b ↦ (order a.1 b.1).isLE = true := by
  refine List.pairwise_mergeSort (fun a b c ↦ Std.TransCmp.isLE_trans) (fun a b ↦ ?_) walks
  have hswap : order b.1 a.1 = (order a.1 b.1).swap := Std.OrientedCmp.eq_swap
  rw [hswap]
  cases order a.1 b.1 <;> rfl

/-- Places are listed once, and siblings in order. -/
def InOrder (order : List String → List String → Ordering) (places : List (List String)) : Prop :=
  places.Pairwise fun a b ↦ a ≠ b ∧ InSiblingOrder order a b

/-- A directory and the joined walks of its entries are in order if the walk of each entry is. -/
theorem joined_ordered {order : List String → List String → Ordering} [Std.TransCmp order]
    {path : List String} {walks : List (List String × List (List String))}
    (hnames : (walks.map Prod.fst).Nodup) (hplaces : ∀ walk ∈ walks, ∃ x, walk.1 = path ++ [x])
    (hbelow : ∀ walk ∈ walks, ∀ names ∈ walk.2, walk.1 <+: names)
    (hwalks : ∀ walk ∈ walks, InOrder order walk.2) :
    InOrder order (path :: joined order walks) := by
  refine List.pairwise_cons.2 ⟨fun names hmem ↦ ?_, List.pairwise_flatMap.2 ⟨?_, ?_⟩⟩
  · obtain ⟨walk, hwalk, hmem⟩ := mem_joined.1 hmem
    obtain ⟨x, hx⟩ := hplaces walk hwalk
    have habove := hbelow walk hwalk names hmem
    rw [hx] at habove
    refine ⟨fun hsame ↦ ?_, in_sibling_order_of_above _ ((path.prefix_append [x]).trans habove)⟩
    have hlength := habove.length_le
    rw [hsame, List.length_append, List.length_singleton] at hlength
    omega
  · exact fun walk hwalk ↦ hwalks walk (List.mem_mergeSort.1 hwalk)
  · have hdistinct : (walks.mergeSort fun a b ↦ (order a.1 b.1).isLE).Pairwise
        fun a b ↦ a.1 ≠ b.1 := by
      rw [← List.pairwise_map]
      exact ((walks.mergeSort_perm _).map Prod.fst).nodup_iff.2 hnames
    refine ((sorted_walks order walks).and hdistinct).imp_of_mem
      fun {a b} ha hb ⟨hle, hne⟩ s hs t ht ↦ ?_
    rw [List.mem_mergeSort] at ha hb
    have hsbelow := hbelow a ha s hs
    have htbelow := hbelow b hb t ht
    obtain ⟨x, hx⟩ := hplaces a ha
    obtain ⟨y, hy⟩ := hplaces b hb
    rw [hx] at hsbelow hne hle
    rw [hy] at htbelow hne hle
    have hxy : x ≠ y := fun hsame ↦ hne (hsame ▸ rfl)
    refine ⟨fun hsame ↦ ?_, in_sibling_order_of_fork hsbelow htbelow hxy hle⟩
    rw [hsame] at hsbelow
    exact hne ((List.prefix_of_prefix_length_le hsbelow htbelow (by simp)).eq_of_length (by simp))

/-! ### The walk as a selection -/

/-- The walk of a directory with the ignore files around it. -/
def directoryWalk (global : IgnoreFile) (fs : FileSystem) (options : Options)
    (top path : List String) (entries : List (String × FileTree)) : List (List String) :=
  path :: joined options.order (belowEntries global fs options top
    (.of fs options path (.directory entries) :: levelsAt fs options top path) path entries)

section Directory

variable {path : List String} {entries : List (String × FileTree)}
  (htree : (FileTree.directory entries).isWellFormed = true)
  (hat : fs.root.at? path = some (.directory entries)) (hbelow : top.length ≤ path.length)

include htree hat

/-- An entry of a directory stands below it. -/
theorem at_entry {entry : String × FileTree} (hentry : entry ∈ entries) :
    fs.root.at? (path ++ [entry.1]) = some entry.2 := by
  have hlookup := FileTree.lookup_of_mem (FileTree.directory_well_formed_iff.1 htree).1 hentry
  rw [FileTree.at_append, hat, Option.bind_some]
  exact FileTree.at_cons_eq_some.2 ⟨entries, entry.2, rfl, hlookup, rfl⟩

include hbelow

/-- The walk of a directory lists what is kept, if that of each entry does. -/
theorem mem_directory
    (hentries : ∀ entry ∈ entries, ∀ names,
      names ∈ below global fs options top (levelsAt fs options top (path ++ [entry.1]))
          (path ++ [entry.1]) entry.2 ↔
        ∃ rest, names = path ++ entry.1 :: rest ∧ (entry.2.at? rest).isSome ∧
          isKeptFrom global fs options top path (entry.1 :: rest) = true)
    (names : List String) :
    names ∈ directoryWalk global fs options top path entries ↔
      ∃ rest, names = path ++ rest ∧ ((FileTree.directory entries).at? rest).isSome ∧
        isKeptFrom global fs options top path rest = true := by
  rw [directoryWalk, List.mem_cons, mem_joined, below_entries_eq_map]
  constructor
  · rintro (rfl | ⟨walk, hwalk, hnames⟩)
    · exact ⟨[], (List.append_nil _).symm, rfl, rfl⟩
    · obtain ⟨entry, hentry, rfl⟩ := List.mem_map.1 hwalk
      rw [← levels_at_append hat hbelow entry.1, hentries entry hentry] at hnames
      obtain ⟨rest, rfl, hrest, hkept⟩ := hnames
      refine ⟨entry.1 :: rest, rfl, ?_, hkept⟩
      obtain ⟨inner, hinner⟩ := Option.isSome_iff_exists.1 hrest
      have hlookup := FileTree.lookup_of_mem (FileTree.directory_well_formed_iff.1 htree).1 hentry
      rw [FileTree.at_cons_eq_some.2 ⟨entries, entry.2, rfl, hlookup, hinner⟩]
      rfl
  · rintro ⟨rest, rfl, hrest, hkept⟩
    cases rest with
    | nil => exact Or.inl (List.append_nil _)
    | cons name rest =>
        obtain ⟨inner, hinner⟩ := Option.isSome_iff_exists.1 hrest
        obtain ⟨_, next, hdirectory, hlookup, hnext⟩ := FileTree.at_cons_eq_some.1 hinner
        cases hdirectory
        have hentry := FileTree.mem_of_lookup hlookup
        refine Or.inr ⟨_, List.mem_map_of_mem hentry, ?_⟩
        rw [← levels_at_append hat hbelow name, hentries _ hentry]
        exact ⟨rest, rfl, hnext ▸ rfl, hkept⟩

end Directory

/-- The walk below an entry of a directory lists what is kept. -/
theorem mem_below {tree : FileTree} (htree : tree.isWellFormed = true) {path : List String}
    {name : String} (hat : fs.root.at? (path ++ [name]) = some tree)
    (hbelow : top.length ≤ path.length) {names : List String} :
    names ∈ below global fs options top (levelsAt fs options top (path ++ [name]))
        (path ++ [name]) tree ↔
      ∃ rest, names = path ++ name :: rest ∧ (tree.at? rest).isSome ∧
        isKeptFrom global fs options top path (name :: rest) = true := by
  simp only [isKeptFrom]
  induction tree using FileTree.induct generalizing path name names with
  | file content =>
      have hout : isIgnored global options top (levelsAt fs options top (path ++ [name]))
          (path ++ [name]) false = isLeftOut global fs options top (path ++ [name]) :=
        (is_left_out_of_at hat).symm
      rw [below, hout]
      constructor
      · intro hnames
        split at hnames
        next => cases hnames
        next hin => exact ⟨[], List.mem_singleton.1 hnames, rfl, by simp [hin, isKeptFrom]⟩
      · rintro ⟨rest, rfl, hrest, hkept⟩
        rw [Bool.and_eq_true, Bool.not_eq_true'] at hkept
        rw [hkept.1]
        cases rest with
        | nil => exact List.mem_singleton.2 rfl
        | cons other rest => cases hrest
  | directory entries ih =>
      have hentries := (FileTree.directory_well_formed_iff.1 htree).2
      have hlonger : top.length ≤ (path ++ [name]).length :=
        Nat.le_trans hbelow (List.prefix_append path [name]).length_le
      have hdirectory := mem_directory htree hat hlonger
        (fun entry hentry names ↦
          ih entry hentry (hentries entry hentry).2 (at_entry htree hat hentry) hlonger) names
      have hout : isIgnored global options top (levelsAt fs options top (path ++ [name]))
          (path ++ [name]) true = isLeftOut global fs options top (path ++ [name]) :=
        (is_left_out_of_at hat).symm
      rw [below, hout]
      cases isLeftOut global fs options top (path ++ [name]) with
      | true => simp
      | false => simpa [directoryWalk] using hdirectory

variable (global options) in
/-- The walk of a directory is in order if that of each entry is. -/
theorem directory_ordered [Std.TransCmp options.order] {path : List String}
    {entries : List (String × FileTree)}
    (htree : (FileTree.directory entries).isWellFormed = true)
    (hat : fs.root.at? path = some (.directory entries)) (hbelow : top.length ≤ path.length)
    (hentries : ∀ entry ∈ entries, InOrder options.order (below global fs options top
      (levelsAt fs options top (path ++ [entry.1])) (path ++ [entry.1]) entry.2)) :
    InOrder options.order (directoryWalk global fs options top path entries) := by
  obtain ⟨hnames, hwellFormed⟩ := FileTree.directory_well_formed_iff.1 htree
  rw [directoryWalk, below_entries_eq_map]
  refine joined_ordered ?_ ?_ ?_ ?_
  · have hnodup : ((entries.map Prod.fst).map fun name ↦ path ++ [name]).Nodup :=
      hnames.map fun a b hab ↦ (List.append_singleton_inj.1 hab).2
    rw [List.map_map] at hnodup ⊢
    exact hnodup
  all_goals
    intro walk hwalk
    obtain ⟨entry, hentry, rfl⟩ := List.mem_map.1 hwalk
    rw [← levels_at_append hat hbelow entry.1]
  · exact ⟨entry.1, rfl⟩
  · intro names hmem
    obtain ⟨rest, rfl, _⟩ :=
      (mem_below (hwellFormed entry hentry).2 (at_entry htree hat hentry) hbelow).1 hmem
    exact ⟨rest, List.append_assoc _ _ _⟩
  · exact hentries entry hentry

/-- The walk below an entry of a directory is in order. -/
theorem below_ordered [Std.TransCmp options.order] {tree : FileTree}
    (htree : tree.isWellFormed = true) {path : List String} {name : String}
    (hat : fs.root.at? (path ++ [name]) = some tree) (hbelow : top.length ≤ path.length) :
    InOrder options.order (below global fs options top (levelsAt fs options top (path ++ [name]))
      (path ++ [name]) tree) := by
  induction tree using FileTree.induct generalizing path name with
  | file content =>
      rw [below]
      split
      · exact List.Pairwise.nil
      · exact List.pairwise_singleton _ _
  | directory entries ih =>
      have hentries := (FileTree.directory_well_formed_iff.1 htree).2
      have hlonger : top.length ≤ (path ++ [name]).length :=
        Nat.le_trans hbelow (List.prefix_append path [name]).length_le
      rw [below]
      split
      · exact List.Pairwise.nil
      · exact directory_ordered global options htree hat hlonger fun entry hentry ↦
          ih entry hentry (hentries entry hentry).2 (at_entry htree hat hentry) hlonger

/-- The walk of a directory lists what is kept, once, and siblings in order. -/
theorem listing_of_directory [Std.TransCmp options.order] (hfs : fs.root.isWellFormed = true)
    {entries : List (String × FileTree)} (hat : fs.root.at? top = some (.directory entries)) :
    Listing fs options top (fun names ↦ !isKept global fs options top names)
      (directoryWalk global fs options top top entries) := by
  have htree := (FileTree.well_formed_at hfs hat).1
  have hentries := (FileTree.directory_well_formed_iff.1 htree).2
  have hordered := directory_ordered global options htree hat (Nat.le_refl _)
    fun entry hentry ↦
      below_ordered (hentries entry hentry).2 (at_entry htree hat hentry) (Nat.le_refl _)
  refine ⟨fun names hfile ↦ ?_, hordered.imp And.left, hordered.imp And.right⟩
  rw [mem_directory htree hat (Nat.le_refl _) fun entry hentry _ ↦
    mem_below (hentries entry hentry).2 (at_entry htree hat hentry) (Nat.le_refl _)]
  simp only [Bool.not_eq_false', isKept]
  constructor
  · rintro ⟨rest, rfl, _, hkept⟩
    rw [List.drop_left]
    exact ⟨List.prefix_append _ _, hkept⟩
  · rintro ⟨⟨rest, rfl⟩, hkept⟩
    rw [List.drop_left] at hkept
    refine ⟨rest, rfl, ?_, hkept⟩
    obtain ⟨content, hcontent⟩ := Option.isSome_iff_exists.1 hfile
    have hthere := FileTree.bytes_at_eq_some.1 hcontent
    rw [FileTree.at_append, hat, Option.bind_some] at hthere
    rw [hthere]
    rfl

/-- A walk without errors lists what is kept, once, and siblings in order. -/
theorem walker_lawful (global : IgnoreFile) :
    (walker global).Lawful fun fs options top names ↦ !isKept global fs options top names := by
  intro fs options top listed hfs horder hwalk
  change places global fs options top = listed.map .ok at hwalk
  unfold places at hwalk
  cases hat : fs.root.at? top with
  | none =>
      rw [hat] at hwalk
      obtain rfl : listed = [] := List.map_eq_nil_iff.1 hwalk.symm
      refine ⟨fun names hfile ↦ iff_of_false List.not_mem_nil ?_, List.nodup_nil, List.Pairwise.nil⟩
      rintro ⟨⟨rest, rfl⟩, _⟩
      rw [FileTree.bytesAt?, FileTree.at_append, hat] at hfile
      cases hfile
  | some tree =>
      rw [hat] at hwalk
      cases tree with
      | file content =>
          obtain rfl : [top] = listed := map_ok_inj.1 hwalk
          have htop : (fs.root.bytesAt? top).isSome := by
            rw [FileTree.bytesAt?, hat]
            rfl
          refine ⟨fun names hfile ↦ ?_, List.nodup_singleton _, List.pairwise_singleton _ _⟩
          rw [List.mem_singleton]
          constructor
          · rintro rfl
            exact ⟨List.prefix_rfl, by simp [isKept, isKeptFrom]⟩
          · rintro ⟨habove, _⟩
            exact (FileSystem.eq_of_above htop hfile habove).symm
      | directory entries =>
          simp only at hwalk
          split at hwalk
          · obtain rfl := map_ok_inj.1 hwalk
            rw [← levels_at_top]
            exact listing_of_directory (Bool.and_eq_true_iff.1 hfs).2 hat
          · cases listed <;> cases hwalk

end MemberReach.Walk
