import MemberReach.Path
import MemberReach.Symbol
import MemberReach.Tree.Node

/-!
# Source units

A source unit is one file of a project: its path, the path that reports show for it, its
text and the tree of that text.
-/

namespace MemberReach

/-- One source file with its tree. -/
structure SourceUnit where
  path : Path
  displayPath : String
  source : String
  tree : Node
  deriving Inhabited

/-- Line and column of a byte offset, counted from one. Only line feeds end a line. -/
def lineColumn (source : String) (offset : Nat) : Nat × Nat :=
  let before := source.toUTF8.toList.take offset
  (before.count 10 + 1, (before.reverse.takeWhile (· != 10)).length + 1)

namespace SourceUnit

/-- A unit that is shown with its whole path, or with the path below `base` if it lies there. -/
def create (path : Path) (base : Option Path) (source : String) (tree : Node) : SourceUnit :=
  { path := path
    displayPath := ((base.bind path.below?).getD path).forwardSlashes
    source := source
    tree := tree }

/-- The cursor at the root of the tree. -/
def root (unit : SourceUnit) : Cursor :=
  .atRoot unit.tree

/-- The place where a node starts. -/
def location (unit : SourceUnit) (c : Cursor) : Location :=
  let (line, column) := lineColumn unit.source c.start
  { file := unit.displayPath, line := line, column := column }

end SourceUnit

end MemberReach
