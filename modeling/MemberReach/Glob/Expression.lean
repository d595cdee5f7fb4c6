import MemberReach.Glob

/-!
# Globs as regular expressions

A glob says the same about paths as a regular expression over their bytes. Expressions consist of
parts inside parts, and how deep the parts of an expression lie limits which globs can be used:
of globs that are used together, one that is nested too deeply spoils all. Globs that only
compare texts need no expression.
-/

namespace MemberReach

/-- A regular expression over bytes. The mark of `repeated` says how often the inner part may
occur, and the ranges of a class include both ends. -/
inductive Expression where
  | byte (value : UInt8)
  | anyByte
  | oneOf (negated : Bool) (ranges : List (UInt8 × UInt8))
  | repeated (inner : Expression) (mark : Char)
  | group (inner : Expression)
  | sequence (parts : List Expression)
  | choice (parts : List Expression)
  deriving Inhabited

namespace Expression

/-- A sequence of parts; one part alone is no sequence. -/
def ofParts : List Expression → Expression
  | [part] => part
  | parts => .sequence parts

/-! ### Nesting -/

mutual

/-- How deep the innermost part lies. Single bytes have no depth, and a class of several ranges
holds them in a list of its own. -/
def depth : Expression → Nat
  | .byte _ | .anyByte => 0
  | .oneOf _ ranges => if 1 < ranges.length then 2 else 1
  | .repeated inner _ | .group inner => inner.depth + 1
  | .sequence parts | .choice parts => depthOfAll parts + 1

/-- The depth of the deepest of some parts. -/
def depthOfAll : List Expression → Nat
  | [] => 0
  | part :: rest => Nat.max part.depth (depthOfAll rest)

end

/-! ### Spelling -/

/-- The characters that have a meaning in expressions. -/
def specialCharacters : List Char :=
  "\\.+*?()|[]\x7b\x7d^$#&-~".toList

/-- The spelling of a byte. -/
def byteText (value : UInt8) : String :=
  let c := Char.ofNat value.toNat
  if 128 ≤ value.toNat then
    "\\x" ++ String.ofList [(value.toNat / 16).digitChar, (value.toNat % 16).digitChar]
  else if specialCharacters.contains c then "\\" ++ c.toString
  else c.toString

/-- The spelling of a range of bytes. -/
def rangeText (range : UInt8 × UInt8) : String :=
  if range.1 == range.2 then byteText range.1 else byteText range.1 ++ "-" ++ byteText range.2

mutual

/-- The spelling of an expression. -/
def text : Expression → String
  | .byte value => byteText value
  | .anyByte => "."
  | .oneOf negated ranges =>
      "[" ++ (if negated then "^" else "") ++ String.join (ranges.map rangeText) ++ "]"
  | .repeated inner mark => inner.text ++ mark.toString
  | .group inner => "(?:" ++ inner.text ++ ")"
  | .sequence parts => String.join (textsOf parts)
  | .choice parts => Text.join "|" (textsOf parts)

/-- The spellings of some parts. -/
def textsOf : List Expression → List String
  | [] => []
  | part :: rest => part.text :: textsOf rest

end

end Expression

namespace Glob

/-- The expression of a slash. -/
def slashPart : Expression :=
  .byte slash

/-- The expression of a byte that is not a slash. -/
def segmentByte : Expression :=
  .oneOf true [(slash, slash)]

/-- The expression of any bytes. -/
def anyBytes : Expression :=
  .repeated .anyByte '*'

/-- The ranges of bytes of a range of characters, as `inRange` has it. -/
def byteRanges (range : Char × Char) : List (UInt8 × UInt8) :=
  let low := String.utf8EncodeChar range.1
  let high := String.utf8EncodeChar range.2
  let single := fun (b : UInt8) ↦ (b, b)
  if range.1 == range.2 then low.map single
  else
    low.dropLast.map single ++ low.getLast?.toList.zip high.head?.toList ++ high.tail.map single

mutual

/-- The parts of the expression of a token. Alternatives that are all empty have none. -/
def partsOf : GlobToken → List Expression
  | .literal c => (String.utf8EncodeChar c).map .byte
  | .any => [segmentByte]
  | .star => [.repeated segmentByte '*']
  | .directories =>
      [.group (.choice [.repeated slashPart '?', .sequence [anyBytes, slashPart]])]
  | .inside => [.group (.choice [slashPart, .sequence [slashPart, anyBytes, slashPart]])]
  | .everything => [slashPart, anyBytes]
  | .oneOf negated ranges => [.oneOf negated (ranges.flatMap byteRanges)]
  | .alternates branches =>
      match branchParts branches with
      | [] => []
      | [branch] => [.group branch]
      | branches => [.group (.choice branches)]

/-- The parts of the expression of a sequence of tokens. -/
def partsOfAll : List GlobToken → List Expression
  | [] => []
  | token :: rest => partsOf token ++ partsOfAll rest

/-- The expressions of the alternatives that are not empty. -/
def branchParts : List (List GlobToken) → List Expression
  | [] => []
  | branch :: rest =>
      match partsOfAll branch with
      | [] => branchParts rest
      | parts => .ofParts parts :: branchParts rest

end

/-- The expression of a glob, which is matched with a path as a whole. Two stars alone match every
path. -/
def expression : Glob → Expression
  | [.directories] => .sequence [anyBytes]
  | glob => .sequence (partsOfAll glob)

/-- The spelling of the expression of a glob, with the marks that it is about bytes and about whole
paths. -/
def expressionText (glob : Glob) : String :=
  "(?-u)^" ++ glob.expression.text ++ "$"

/-! ### Globs that are used together -/

/-- The greatest depth of an expression that can be used. -/
def maxDepth : Nat :=
  250

/-- Whether a glob is nested too deeply. -/
def isTooDeep (glob : Glob) : Bool :=
  maxDepth < glob.expression.depth

/-- Whether a token is a character other than the given ones. -/
def isLiteralBut (others : List Char) : GlobToken → Bool
  | .literal c => !others.contains c
  | _ => false

/-- Whether a glob only compares texts: it is a text, a text at every depth, or an extension at
every depth. -/
def isPlain : Glob → Bool
  | .directories :: .star :: .literal '.' :: rest => rest.all (isLiteralBut ['.', '/'])
  | .directories :: token :: rest | token :: rest => (token :: rest).all (isLiteralBut [])
  | [] => false

/-- Whether a glob ends with an extension. -/
def hasExtension (glob : Glob) : Bool :=
  match glob.reverse.dropWhile (isLiteralBut ['.', '/']) with
  | .literal '.' :: _ => true
  | _ => false

/-- Why globs cannot be used together: a glob with an extension, which is looked at by itself, or
the glob at a position among all others that need an expression. -/
inductive NestingError where
  | byItself (expression : String)
  | among (position : Nat)
  deriving DecidableEq, Repr, Inhabited

/-- The wording of an error about nesting. -/
def NestingError.message : NestingError → String
  | byItself expression =>
      "error parsing glob '" ++ expression ++ "': error parsing pattern 0"
  | among position => "error parsing pattern " ++ Text.decimal position

/-- Refuses globs of which one is nested too deeply. Those with an extension are looked at first. -/
def checkNesting (globs : List Glob) : Except NestingError Unit :=
  let (byThemselves, others) := (globs.filter fun glob ↦ !isPlain glob).partition hasExtension
  match byThemselves.find? isTooDeep, others.findIdx? isTooDeep with
  | some glob, _ => .error (.byItself (expressionText glob))
  | none, some position => .error (.among position)
  | none, none => .ok ()

end Glob

end MemberReach
