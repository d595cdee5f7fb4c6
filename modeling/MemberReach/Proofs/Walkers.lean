import MemberReach.Proofs.FileWrites
import MemberReach.Walker

/-!
# What a walker is relied on for

Loading a project relies on a walker to list every file below the root that is not ignored, once,
and siblings in the order that is asked for (`Walker.Lawful`). Siblings in the order of their paths
put all files in the order of their paths, name by name (`Listing.compare_lt`). Loading a project
again after a file was written relies on walks that do not depend on files with the extension of
that file (`Walker.Overlooks`).
-/

namespace MemberReach

/-! ### Assumptions -/

/-- Siblings on the way to two places come in an order of their places. -/
def InSiblingOrder (order : List String → List String → Ordering) (a b : List String) : Prop :=
  ∀ directory x y, directory ++ [x] <+: a → directory ++ [y] <+: b → x ≠ y →
    (order (directory ++ [x]) (directory ++ [y])).isLE = true

/-- What the walk of a root lists: the files below it that are not ignored, each once, perhaps with
directories, and siblings in the order that is asked for. -/
structure Listing {Rule : Type} (fs : FileSystem) (options : WalkOptions Rule)
    (root : List String) (isIgnored : List String → Bool) (places : List (List String)) :
    Prop where
  mem_iff : ∀ names, (fs.root.bytesAt? names).isSome →
    (names ∈ places ↔ root <+: names ∧ isIgnored names = false)
  once : places.Nodup
  siblings : places.Pairwise (InSiblingOrder options.order)

/-- A walk without errors lists the files that are not ignored, once, and siblings in order. -/
def Walker.Lawful {Rule : Type} (walker : Walker Rule)
    (isIgnored : FileSystem → WalkOptions Rule → List String → List String → Bool) : Prop :=
  ∀ {fs : FileSystem} {options : WalkOptions Rule} {root : List String}
    {places : List (List String)}, fs.isWellFormed = true → Std.TransCmp options.order →
      walker.walk fs options root = places.map .ok →
        Listing fs options root (isIgnored fs options root) places

/-- The files among some places that do not have a given extension. -/
def FileSystem.filesWithout (fs : FileSystem) (extension : String)
    (places : List (List String)) : List (List String) :=
  places.filter fun names ↦ (fs.root.bytesAt? names).isSome &&
    (Path.ofNames names).extension? != some extension

/-- Which files without a given extension are walked, and in what order, does not depend on a file
with that extension: they are the same after such a file is written. -/
def Walker.Overlooks {Rule : Type} (walker : Walker Rule) (extension : String) : Prop :=
  ∀ {after before : FileSystem} {place : List String} {content : ByteArray}
    {options : WalkOptions Rule} {root : List String} {places : List (List String)},
    after.isWellFormed = true → before.isWellFormed = true →
      after.Written before place content → (Path.ofNames place).extension? = some extension →
      Std.TransCmp options.order → Std.LawfulEqCmp options.order →
      walker.walk before options root = places.map .ok →
        ∃ others, walker.walk after options root = others.map .ok ∧
          after.filesWithout extension others = before.filesWithout extension places

/-- Walks without errors are the same if they list the same. -/
theorem map_ok_inj {ε α : Type} {places others : List α} :
    places.map (Except.ok : α → Except ε α) = others.map .ok ↔ places = others :=
  (List.map_injective_iff.2 fun _ _ hsame ↦ Except.ok.inj hsame).eq_iff

/-! ### Places -/

/-- Of two places one is above the other, or they part in a directory. -/
theorem exists_fork (a b : List String) :
    a <+: b ∨ b <+: a ∨
      ∃ directory x y, directory ++ [x] <+: a ∧ directory ++ [y] <+: b ∧ x ≠ y := by
  induction a generalizing b with
  | nil => exact Or.inl List.nil_prefix
  | cons first rest ih =>
      cases b with
      | nil => exact Or.inr (Or.inl List.nil_prefix)
      | cons other others =>
          by_cases hsame : first = other
          · subst hsame
            rcases ih others with hbelow | habove | ⟨directory, x, y, hx, hy, hne⟩
            · exact Or.inl (List.cons_prefix_cons.2 ⟨rfl, hbelow⟩)
            · exact Or.inr (Or.inl (List.cons_prefix_cons.2 ⟨rfl, habove⟩))
            · exact Or.inr (Or.inr ⟨first :: directory, x, y,
                List.cons_prefix_cons.2 ⟨rfl, hx⟩, List.cons_prefix_cons.2 ⟨rfl, hy⟩, hne⟩)
          · refine Or.inr (Or.inr ⟨[], first, other, ?_, ?_, hsame⟩)
            · exact List.cons_prefix_cons.2 ⟨rfl, List.nil_prefix⟩
            · exact List.cons_prefix_cons.2 ⟨rfl, List.nil_prefix⟩

/-- Nothing stands below a file. -/
theorem FileSystem.eq_of_above {fs : FileSystem} {a b : List String}
    (ha : (fs.root.bytesAt? a).isSome) (hb : (fs.root.bytesAt? b).isSome) (h : a <+: b) :
    a = b := by
  obtain ⟨rest, rfl⟩ := h
  cases rest with
  | nil => exact (List.append_nil a).symm
  | cons name rest =>
      rw [FileTree.bytes_at_eq_look] at ha hb
      have hfile : fs.root.look? a ≠ some none := fun hnone ↦ by
        rw [hnone] at ha
        cases ha
      rw [FileTree.look_below hfile (List.cons_ne_nil name rest)] at hb
      cases hb

/-- Two files are one, or they part in a directory. -/
theorem FileSystem.exists_fork {fs : FileSystem} {a b : List String}
    (ha : (fs.root.bytesAt? a).isSome) (hb : (fs.root.bytesAt? b).isSome) (hne : a ≠ b) :
    ∃ directory x y, directory ++ [x] <+: a ∧ directory ++ [y] <+: b ∧ x ≠ y := by
  rcases MemberReach.exists_fork a b with hbelow | habove | hfork
  · exact absurd (eq_of_above ha hb hbelow) hne
  · exact absurd (eq_of_above hb ha habove).symm hne
  · exact hfork

/-- Places are in the order of the siblings on the way to them. -/
theorem compare_of_fork {directory a b : List String} {x y : String}
    (ha : directory ++ [x] <+: a) (hb : directory ++ [y] <+: b) (hne : x ≠ y) :
    compare a b = compare (directory ++ [x]) (directory ++ [y]) := by
  obtain ⟨s, rfl⟩ := ha
  obtain ⟨t, rfl⟩ := hb
  induction directory with
  | nil =>
      have hnames : compare x y ≠ .eq := fun heq ↦ hne (Std.LawfulEqOrd.eq_of_compare heq)
      simp only [List.nil_append, List.cons_append, List.compare_cons_cons]
      cases hcompare : compare x y with
      | eq => exact absurd hcompare hnames
      | lt => rfl
      | gt => rfl
  | cons first rest ih =>
      simp only [List.cons_append, List.append_assoc, List.compare_cons_cons] at ih ⊢
      rw [ih]

/-- Two places part in one directory only. -/
theorem fork_unique {directory other a b : List String} {x y x' y' : String}
    (ha : directory ++ [x] <+: a) (hb : directory ++ [y] <+: b) (hne : x ≠ y)
    (ha' : other ++ [x'] <+: a) (hb' : other ++ [y'] <+: b) (hne' : x' ≠ y') :
    directory ++ [x] = other ++ [x'] ∧ directory ++ [y] = other ++ [y'] := by
  -- where one fork is, the two places agree if the other fork comes later
  have hlater : ∀ {d e : List String} {u v u' v' : String}, d ++ [u] <+: a → d ++ [v] <+: b →
      e ++ [u'] <+: a → e ++ [v'] <+: b → d.length < e.length → u = v := by
    intro d e u v u' v' hda hdb hea heb hlength
    have hu := List.prefix_of_prefix_length_le hda ((e.prefix_append [u']).trans hea)
      (by rwa [List.length_append, List.length_singleton])
    have hv := List.prefix_of_prefix_length_le hdb ((e.prefix_append [v']).trans heb)
      (by rwa [List.length_append, List.length_singleton])
    have hsame := (List.prefix_of_prefix_length_le hu hv (by simp)).eq_of_length (by simp)
    exact (List.append_singleton_inj.1 hsame).2
  rcases Nat.lt_trichotomy directory.length other.length with hlt | heq | hgt
  · exact absurd (hlater ha hb ha' hb' hlt) hne
  · exact ⟨(List.prefix_of_prefix_length_le ha ha' (by simp [heq])).eq_of_length (by simp [heq]),
      (List.prefix_of_prefix_length_le hb hb' (by simp [heq])).eq_of_length (by simp [heq])⟩
  · exact absurd (hlater ha' hb' ha hb hgt) hne'

/-- A directory comes before what is below it. -/
theorem in_sibling_order_of_above (order : List String → List String → Ordering)
    {a b : List String} (h : a <+: b) : InSiblingOrder order a b := by
  intro directory x y hx hy hne
  have hsame := (List.prefix_of_prefix_length_le (hx.trans h) hy (by simp)).eq_of_length (by simp)
  exact absurd (List.append_singleton_inj.1 hsame).2 hne

/-- What is below two siblings comes in the order of the siblings. -/
theorem in_sibling_order_of_fork {order : List String → List String → Ordering}
    {directory a b : List String} {x y : String} (ha : directory ++ [x] <+: a)
    (hb : directory ++ [y] <+: b) (hne : x ≠ y)
    (horder : (order (directory ++ [x]) (directory ++ [y])).isLE = true) :
    InSiblingOrder order a b := by
  intro other x' y' hx hy hne'
  obtain ⟨hfirst, hsecond⟩ := fork_unique ha hb hne hx hy hne'
  rwa [← hfirst, ← hsecond]

namespace Listing

variable {Rule : Type} {fs : FileSystem} {options : WalkOptions Rule} {root : List String}
  {isIgnored : List String → Bool} {places : List (List String)}

/-- If the entries of directories come by their names, files come by their paths. -/
theorem compare_lt (h : Listing fs options root isIgnored places)
    (horder : options.order = compare) {p : List String → Bool}
    (hfiles : ∀ names, p names = true → (fs.root.bytesAt? names).isSome) :
    (places.filter p).Pairwise fun a b ↦ compare a b = .lt := by
  refine List.Pairwise.imp_of_mem ?_ ((h.once.and h.siblings).sublist List.filter_sublist)
  intro a b ha hb ⟨hne, hsiblings⟩
  obtain ⟨directory, x, y, hx, hy, hfork⟩ := FileSystem.exists_fork
    (hfiles a (List.mem_filter.1 ha).2) (hfiles b (List.mem_filter.1 hb).2) hne
  have hle := hsiblings directory x y hx hy hfork
  rw [horder, ← compare_of_fork hx hy hfork] at hle
  cases hcompare : compare a b with
  | lt => rfl
  | eq => exact absurd (Std.LawfulEqOrd.eq_of_compare hcompare) hne
  | gt =>
      rw [hcompare] at hle
      cases hle

/-- Which files a walk lists determines their order. -/
theorem filter_eq [Std.TransCmp options.order] [Std.LawfulEqCmp options.order]
    (h : Listing fs options root isIgnored places) {after : FileSystem}
    {isIgnoredAfter : List String → Bool} {others : List (List String)}
    (hafter : Listing after options root isIgnoredAfter others) {p q : List String → Bool}
    (hfiles : ∀ names, p names = true → (fs.root.bytesAt? names).isSome)
    (hmem : ∀ names, names ∈ others.filter q ↔ names ∈ places.filter p) :
    others.filter q = places.filter p := by
  have hperm : (others.filter q).Perm (places.filter p) :=
    (List.perm_ext_iff_of_nodup (hafter.once.filter q) (h.once.filter p)).2 hmem
  refine hperm.eq_of_pairwise (fun a b ha hb hab hba ↦ ?_)
    (hafter.siblings.sublist List.filter_sublist) (h.siblings.sublist List.filter_sublist)
  by_contra hne
  obtain ⟨directory, x, y, hx, hy, hfork⟩ := FileSystem.exists_fork
    (hfiles a (List.mem_filter.1 ((hmem a).1 ha)).2) (hfiles b (List.mem_filter.1 hb).2) hne
  -- the siblings where the two files part would come in both orders
  have heq := Std.OrientedCmp.isLE_antisymm (hab directory x y hx hy hfork)
    (hba directory y x hy hx (Ne.symm hfork))
  have hsame := Std.LawfulEqCmp.eq_of_compare heq
  exact hfork (List.append_singleton_inj.1 hsame).2

end Listing

end MemberReach
