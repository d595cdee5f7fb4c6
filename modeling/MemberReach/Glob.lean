import MemberReach.Text

/-!
# Globs

A glob is a pattern for paths. A star stands for any bytes but slashes, a question mark for one
such byte, two stars for whole directories where they make up a segment of the pattern, brackets
for one byte of a class, and braces for alternatives. Paths are matched byte by byte, and a
glob matches a path as a whole.
-/

namespace MemberReach

/-- Why a text is no glob. -/
inductive GlobError where
  | unclosedClass
  | invalidRange (low high : Char)
  | unopenedAlternates
  | unclosedAlternates
  | danglingEscape
  deriving DecidableEq, Repr, Inhabited

namespace GlobError

/-- The wording of an error in a glob. -/
def message : GlobError → String
  | unclosedClass => "unclosed character class; missing ']'"
  | invalidRange low high =>
      "invalid range; '" ++ low.toString ++ "' > '" ++ high.toString ++ "'"
  | unopenedAlternates =>
      "unopened alternate group; missing '\x7b' (maybe escape '\x7d' with '[\x7d]'?)"
  | unclosedAlternates =>
      "unclosed alternate group; missing '\x7d' (maybe escape '\x7b' with '[\x7b]'?)"
  | danglingEscape => "dangling '\\'"

end GlobError

/-- A part of a glob. `directories` stands for any number of leading directories, `inside` for
directories between two segments, `everything` for all that is below a directory. -/
inductive GlobToken where
  | literal (c : Char)
  | any
  | star
  | directories
  | inside
  | everything
  | oneOf (negated : Bool) (ranges : List (Char × Char))
  | alternates (branches : List (List GlobToken))
  deriving Inhabited

/-- A glob as a sequence of parts. -/
abbrev Glob := List GlobToken

namespace Glob

/-! ### Reading -/

/-- A group of alternatives that is still open: the alternatives before the current one, and the
parts of the current one, the last part first. -/
structure Group where
  branches : List (List GlobToken)
  current : List GlobToken
  deriving Inhabited

/-- A glob while it is read: the character before the rest, the open groups around the current
one, and the current one. Outside of all braces the current group is the glob itself. -/
structure Draft where
  previous : Option Char
  outer : List Group
  group : Group
  deriving Inhabited

namespace Draft

/-- Adds a part to the current alternative. -/
def push (draft : Draft) (token : GlobToken) : Draft :=
  { draft with group := { draft.group with current := token :: draft.group.current } }

/-- Whether a group is open. -/
def inGroup (draft : Draft) : Bool :=
  !draft.outer.isEmpty

/-- Opens a group. -/
def openGroup (draft : Draft) : Draft :=
  { draft with outer := draft.group :: draft.outer, group := ⟨[], []⟩ }

/-- Starts the next alternative; outside of a group a comma stands for itself. -/
def comma (draft : Draft) : Draft :=
  if draft.inGroup then
    { draft with
      group := ⟨draft.group.branches ++ [draft.group.current.reverse], []⟩ }
  else draft.push (.literal ',')

/-- Closes the current group. -/
def closeGroup (draft : Draft) : Except GlobError Draft :=
  match draft.outer with
  | [] => .error .unopenedAlternates
  | outer :: rest =>
      let branches := draft.group.branches ++ [draft.group.current.reverse]
      .ok (push { draft with outer := rest, group := outer } (.alternates branches))

/-- Two stars that are not a segment of their own. -/
def twoStars (draft : Draft) : Draft :=
  (draft.push .star).push .star

/-- Two stars that end a segment: they take the place of the slash before them. -/
def segmentStars (draft : Draft) (isLast : Bool) : Draft :=
  match draft.group.current with
  | .directories :: _ | .everything :: _ => draft
  | current =>
      let token := if isLast then GlobToken.everything else GlobToken.inside
      { draft with group := { draft.group with current := token :: current.tail } }

end Draft

/-- The ranges of a class and the text after it, after the opening bracket and the mark of
negation. `first` says that no member has been read, `open?` that a range waits for its end. -/
def classMembers (first open? : Bool) (ranges : List (Char × Char)) :
    List Char → Except GlobError (List (Char × Char) × List Char)
  | [] => .error .unclosedClass
  | ']' :: rest =>
      if first then classMembers false false (ranges ++ [(']', ']')]) rest
      else .ok (if open? then ranges ++ [('-', '-')] else ranges, rest)
  | '-' :: rest =>
      if first then classMembers false false (ranges ++ [('-', '-')]) rest
      else if open? then closeRange ranges '-' rest
      else classMembers false true ranges rest
  | c :: rest =>
      if open? then closeRange ranges c rest
      else classMembers false false (ranges ++ [(c, c)]) rest
where
  /-- Ends the open range with a character. -/
  closeRange (ranges : List (Char × Char)) (high : Char) (rest : List Char) :
      Except GlobError (List (Char × Char) × List Char) :=
    match ranges.getLast? with
    | none => classMembers false false [(high, high)] rest
    | some (low, _) =>
        if high < low then .error (.invalidRange low high)
        else classMembers false false (ranges.dropLast ++ [(low, high)]) rest

/-- A class and the text after it, after the opening bracket. -/
def readClass (s : List Char) : Except GlobError (GlobToken × List Char) := do
  let (negated, s) :=
    match s with
    | '!' :: rest | '^' :: rest => (true, rest)
    | _ => (false, s)
  let (ranges, rest) ← classMembers true false [] s
  return (.oneOf negated ranges, rest)

/-- Reads two stars, given the text after them. The result is the new draft, the text after what
was read, and the last character that was read. -/
def readStars (draft : Draft) (s : List Char) : Draft × List Char × Char :=
  -- at the front of the glob or of an alternative there is no slash to take the place of
  if draft.group.current.isEmpty then
    match s with
    | [] => (draft.push .directories, [], '*')
    | '/' :: rest => (draft.push .directories, rest, '/')
    | _ => (draft.twoStars, s, '*')
  else if draft.previous != some '/' &&
      (!draft.inGroup || (draft.previous != some ',' && draft.previous != some '\x7b')) then
    (draft.twoStars, s, '*')
  else
    match s with
    | [] => (draft.segmentStars true, [], '*')
    | '/' :: rest => (draft.segmentStars false, rest, '/')
    | c :: _ =>
        if draft.inGroup && (c == ',' || c == '\x7d') then (draft.segmentStars true, s, '*')
        else (draft.twoStars, s, '*')

/-- Reads the parts of a glob, at most `fuel` of them. With `lenient`, a bracket that opens a
class without an end stands for itself, and so do all brackets after it. -/
def readTokens (lenient : Bool) : Nat → Bool → Draft → List Char → Except GlobError Draft
  | 0, _, draft, _ => .ok draft
  | _, _, draft, [] => .ok draft
  | fuel + 1, classes, draft, c :: rest =>
      let next := fun (draft : Draft) (last : Char) (rest : List Char) ↦
        readTokens lenient fuel classes { draft with previous := some last } rest
      match c, rest with
      | '?', _ => next (draft.push .any) c rest
      | '*', '*' :: rest =>
          let (draft, rest, last) := readStars draft rest
          next draft last rest
      | '*', _ => next (draft.push .star) c rest
      | '\x7b', _ => next draft.openGroup c rest
      | '\x7d', _ => do next (← draft.closeGroup) c rest
      | ',', _ => next draft.comma c rest
      | '\\', [] => .error .danglingEscape
      | '\\', e :: rest => next (draft.push (.literal e)) e rest
      | '[', _ =>
          if classes then
            match readClass rest with
            | .ok (token, rest) => next (draft.push token) ']' rest
            | .error .unclosedClass =>
                if lenient then
                  readTokens lenient fuel false
                    { draft.push (.literal '[') with previous := some c } rest
                else .error .unclosedClass
            | .error error => .error error
          else next (draft.push (.literal '[')) c rest
      | _, _ => next (draft.push (.literal c)) c rest

/-- The glob that a text spells out. -/
def parse (lenient : Bool) (text : List Char) : Except GlobError Glob := do
  let draft ← readTokens lenient (text.length + 1) true ⟨none, [], ⟨[], []⟩⟩ text
  if draft.inGroup then .error .unclosedAlternates
  else .ok draft.group.current.reverse

/-! ### Matching -/

/-- The byte of a slash. -/
def slash : UInt8 :=
  47

/-- The bytes of a text. -/
abbrev Bytes := List UInt8

/-- A text and all that remains of it after dropping bytes from the front. -/
def suffixes : Bytes → List Bytes
  | [] => [[]]
  | b :: rest => (b :: rest) :: suffixes rest

/-- A text and all that remains of it after dropping bytes that are not slashes. -/
def segmentSuffixes : Bytes → List Bytes
  | [] => [[]]
  | b :: rest => if b == slash then [b :: rest] else (b :: rest) :: segmentSuffixes rest

/-- What remains of a text after each of its slashes. -/
def afterSlashes : Bytes → List Bytes
  | [] => []
  | b :: rest => if b == slash then rest :: afterSlashes rest else afterSlashes rest

/-- Whether a byte belongs to a range of characters. Characters of several bytes contribute each
of their bytes, and a range spans from the last byte of its start to the first of its end. -/
def inRange (b : UInt8) (range : Char × Char) : Bool :=
  let low := String.utf8EncodeChar range.1
  let high := String.utf8EncodeChar range.2
  if range.1 == range.2 then low.contains b
  else
    low.dropLast.contains b || high.tail.contains b ||
      (low.getLast?.any (· ≤ b) && high.head?.any (b ≤ ·))

mutual

/-- Whether a part stands for nothing at all: alternatives that are all empty. -/
def isVoid : GlobToken → Bool
  | .alternates branches => areVoid branches
  | _ => false

/-- Whether every part of an alternative stands for nothing at all. -/
def isVoidBranch : List GlobToken → Bool
  | [] => true
  | token :: rest => isVoid token && isVoidBranch rest

/-- Whether all alternatives are empty. -/
def areVoid : List (List GlobToken) → Bool
  | [] => true
  | branch :: rest => isVoidBranch branch && areVoid rest

end

mutual

/-- What may remain of a text after a part of a glob. -/
def remainders : GlobToken → Bytes → List Bytes
  | .literal c, s => ((String.utf8EncodeChar c).isPrefixOf? s).toList
  | .any, s =>
      match s with
      | [] => []
      | b :: rest => if b == slash then [] else [rest]
  | .star, s => segmentSuffixes s
  | .directories, s => s :: afterSlashes s
  | .inside, s =>
      match s with
      | [] => []
      | b :: rest => if b == slash then rest :: afterSlashes rest else []
  | .everything, s =>
      match s with
      | [] => []
      | b :: rest => if b == slash then suffixes rest else []
  | .oneOf negated ranges, s =>
      match s with
      | [] => []
      | b :: rest => if ranges.any (inRange b) != negated then [rest] else []
  | .alternates branches, s =>
      if areVoid branches then [s] else remaindersOfAny branches s

/-- What may remain of a text after a sequence of parts. -/
def remaindersOfAll : List GlobToken → List Bytes → List Bytes
  | [], states => states
  | token :: rest, states =>
      remaindersOfAll rest (states.flatMap fun s ↦ remainders token s).eraseDups

/-- What may remain of a text after one of some alternatives that are not empty. -/
def remaindersOfAny : List (List GlobToken) → Bytes → List Bytes
  | [], _ => []
  | branch :: rest, s =>
      (if isVoidBranch branch then [] else remaindersOfAll branch [s]) ++ remaindersOfAny rest s

end

/-- Whether a glob matches a path. Two stars alone match every path. -/
def isMatch (glob : Glob) (path : String) : Bool :=
  match glob with
  | [.directories] => true
  | _ => (remaindersOfAll glob [path.toUTF8.toList]).any List.isEmpty

end Glob

end MemberReach
