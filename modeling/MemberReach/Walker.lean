import MemberReach.FileTree

/-!
# Walkers

A walker lists what is below a directory. Loading a project needs one and does not depend on
which: it gives the walker the patterns of the paths to leave out, says whether `.gitignore` files
count and how the entries of a directory are ordered, and looks at what is listed.
-/

namespace MemberReach

/-- What a walk is told: the rules of the paths to leave out, whether `.gitignore` files count, and
how to compare the places of two entries of a directory. -/
structure WalkOptions (Rule : Type) where
  exclusions : List Rule
  respectGitignore : Bool
  order : List String → List String → Ordering

/-- A way to walk directories. Patterns are read one by one, and their rules are checked together;
a walk lists places below a root, the root included, and the errors that it meets. A place is given
by the names that lead to it, an error by its wording. -/
structure Walker (Rule : Type) where
  readPattern : String → Except String Rule
  checkRules : List Rule → Except String Unit
  walk : FileSystem → WalkOptions Rule → List String → List (Except String (List String))

end MemberReach
