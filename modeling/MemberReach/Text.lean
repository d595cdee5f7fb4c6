/-!
# Characters, blanks and words

Text that has to be taken apart is a list of characters. This module holds the class of
blank characters and the cuts that the rest of the library is written with: trimming,
words, separators, and markers that are removed from an end as often as they occur.
-/

namespace MemberReach.Text

/-- The characters with the Unicode property White_Space. -/
def isBlank (c : Char) : Bool :=
  let n := c.toNat
  (9 ≤ n && n ≤ 13) || n == 0x20 || n == 0x85 || n == 0xA0 || n == 0x1680 ||
    (0x2000 ≤ n && n ≤ 0x200A) || n == 0x2028 || n == 0x2029 || n == 0x202F ||
    n == 0x205F || n == 0x3000

/-- Removes the longest suffix whose elements all satisfy `p`. -/
def dropEndWhile {α : Type} (p : α → Bool) (s : List α) : List α :=
  (s.reverse.dropWhile p).reverse

/-- Removes blanks from the front. -/
def trimStart (s : List Char) : List Char :=
  s.dropWhile isBlank

/-- Removes blanks from the back. -/
def trimEnd (s : List Char) : List Char :=
  dropEndWhile isBlank s

/-- Removes blanks from both ends. -/
def trim (s : List Char) : List Char :=
  trimEnd (trimStart s)

/-- The maximal runs of characters that are not blank, in order. -/
def words (s : List Char) : List (List Char) :=
  (s.splitOnP isBlank).filter fun w ↦ !w.isEmpty

/-- Removes `marker` from the front as long as the text starts with it. -/
def dropMarkers (marker s : List Char) : List Char :=
  match marker.isPrefixOf? s with
  | none => s
  | some rest => if rest.length < s.length then dropMarkers marker rest else s
termination_by s.length

/-- The part of the text before `suffix`, when the text ends with it. -/
def dropSuffix? (suffix s : List Char) : Option (List Char) :=
  suffix.isSuffixOf? s

/-- The texts in order, with `separator` between each two. -/
def join (separator : String) (parts : List String) : String :=
  String.ofList (separator.toList.intercalate (parts.map String.toList))

/-- Removes blanks from both ends of a string. -/
def trimmed (s : String) : String :=
  String.ofList (trim s.toList)

/-- The pieces of a string between the occurrences of `c`; at least one. -/
def pieces (c : Char) (s : String) : List String :=
  (s.toList.splitOn c).map String.ofList

/-- The decimal numeral of a natural number. -/
def decimal (n : Nat) : String :=
  String.ofList (Nat.toDigits 10 n)

end MemberReach.Text
