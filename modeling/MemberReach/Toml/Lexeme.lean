import MemberReach.Text

/-!
# Lexemes of a configuration document

Readers take lexemes off the front of a text: blanks, comments and line ends, strings in their
four forms, numbers, dates and times. A reader gives what it read and the rest of the text, or
nothing if the text does not start with such a lexeme.
-/

namespace MemberReach.Toml

/-- Takes something off the front of a text. -/
abbrev Reader (α : Type) := List Char → Option (α × List Char)

/-! ### Blanks, comments, line ends -/

/-- The blanks within a line. -/
def isSpace (c : Char) : Bool :=
  c == ' ' || c == '\t'

/-- Skips blanks within a line. -/
def skipSpaces (s : List Char) : List Char :=
  s.dropWhile isSpace

/-- The text after a line feed, which a carriage return may precede. -/
def newLine? : List Char → Option (List Char)
  | '\n' :: rest => some rest
  | '\r' :: '\n' :: rest => some rest
  | _ => none

/-- The characters that may stand in a line of text: no control characters but the tab. -/
def isPlain (c : Char) : Bool :=
  c == '\t' || (0x20 ≤ c.toNat && c.toNat != 0x7F)

/-- Skips a comment, up to the end of its line. -/
def skipComment : List Char → List Char
  | '#' :: rest => rest.dropWhile isPlain
  | s => s

/-- The text after the rest of a line that holds nothing but blanks and a comment. -/
def endOfLine? (s : List Char) : Option (List Char) :=
  match skipComment (skipSpaces s) with
  | [] => some []
  | rest => newLine? rest

/-- Skips blanks, comments and line ends, at most `fuel` of them. -/
def skipLines : Nat → List Char → List Char
  | 0, s => s
  | fuel + 1, s =>
      let s := skipComment (skipSpaces s)
      match newLine? s with
      | none => s
      | some rest => skipLines fuel rest

/-! ### Strings -/

/-- The value of a hexadecimal digit. -/
def hexValue? (c : Char) : Option Nat :=
  if c.isDigit then some (c.toNat - 48)
  else if 'a' ≤ c && c ≤ 'f' then some (c.toNat - 87)
  else if 'A' ≤ c && c ≤ 'F' then some (c.toNat - 55)
  else none

/-- The value of some hexadecimal digits. -/
def hexNumber? (digits : List Char) : Option Nat :=
  digits.foldlM (fun n c ↦ (hexValue? c).map (16 * n + ·)) 0

/-- A character given by a fixed count of hexadecimal digits. -/
def codePoint (count : Nat) : Reader Char := fun s ↦ do
  let digits := s.take count
  let n ← hexNumber? digits
  if digits.length == count && n.isValidChar then some (Char.ofNat n, s.drop count) else none

/-- The character that an escape stands for, after the backslash. -/
def escaped : Reader Char
  | 'b' :: rest => some ('\x08', rest)
  | 't' :: rest => some ('\t', rest)
  | 'n' :: rest => some ('\n', rest)
  | 'f' :: rest => some ('\x0c', rest)
  | 'r' :: rest => some ('\r', rest)
  | '"' :: rest => some ('"', rest)
  | '\\' :: rest => some ('\\', rest)
  | 'u' :: rest => codePoint 4 rest
  | 'U' :: rest => codePoint 8 rest
  | _ => none

/-- The rest of a basic string, after its opening mark. -/
def basicBody : Nat → Reader (List Char)
  | 0, _ => none
  | _ + 1, '"' :: rest => some ([], rest)
  | fuel + 1, '\\' :: rest => do
      let (c, rest) ← escaped rest
      let (cs, rest) ← basicBody fuel rest
      return (c :: cs, rest)
  | fuel + 1, c :: rest => do
      if isPlain c then
        let (cs, rest) ← basicBody fuel rest
        return (c :: cs, rest)
      else none
  | _ + 1, [] => none

/-- The rest of a literal string, after its opening mark. -/
def literalBody (s : List Char) : Option (List Char × List Char) :=
  let body := s.takeWhile fun c ↦ isPlain c && c != '\''
  match s.drop body.length with
  | '\'' :: rest => some (body, rest)
  | _ => none

/-- The length of the run of `mark` at the front of a text. -/
def runLength (mark : Char) (s : List Char) : Nat :=
  (s.takeWhile (· == mark)).length

/-- The text after a backslash that ends a line: it swallows all blanks and line ends up to the
next character. -/
def lineContinuation? (fuel : Nat) (s : List Char) : Option (List Char) := do
  let rest ← newLine? (skipSpaces s)
  return skip fuel rest
where
  /-- Skips blanks and line ends. -/
  skip : Nat → List Char → List Char
    | 0, s => s
    | fuel + 1, s =>
        match newLine? (skipSpaces s) with
        | none => skipSpaces s
        | some rest => skip fuel rest

/-- The rest of a string over several lines. It ends with three marks; up to two more before
them belong to the string. -/
def longBody (mark : Char) (escapes : Bool) : Nat → Reader (List Char)
  | 0, _ => none
  | fuel + 1, s =>
      let run := runLength mark s
      if 3 ≤ run then
        let taken := min run 5
        some (List.replicate (taken - 3) mark, s.drop taken)
      else
        match newLine? s with
        | some rest => do
            let (cs, rest) ← longBody mark escapes fuel rest
            return ('\n' :: cs, rest)
        | none =>
            match s with
            | [] => none
            | c :: rest => do
                if escapes && c == '\\' then
                  match lineContinuation? fuel rest with
                  | some rest => longBody mark escapes fuel rest
                  | none => do
                      let (c, rest) ← escaped rest
                      let (cs, rest) ← longBody mark escapes fuel rest
                      return (c :: cs, rest)
                else if isPlain c then
                  let (cs, rest) ← longBody mark escapes fuel rest
                  return (c :: cs, rest)
                else none

/-- The body of a string over several lines; a line end right after the opening marks is not
part of it. -/
def longString (mark : Char) (escapes : Bool) (s : List Char) : Option (List Char × List Char) :=
  let s := (newLine? s).getD s
  longBody mark escapes (s.length + 1) s

/-- A string on one line. -/
def shortString : Reader String
  | '"' :: rest => do
      let (cs, rest) ← basicBody (rest.length + 1) rest
      return (String.ofList cs, rest)
  | '\'' :: rest => do
      let (cs, rest) ← literalBody rest
      return (String.ofList cs, rest)
  | _ => none

/-- A string in any of its forms. -/
def stringLexeme : Reader String
  | '"' :: '"' :: '"' :: rest => do
      let (cs, rest) ← longString '"' true rest
      return (String.ofList cs, rest)
  | '\'' :: '\'' :: '\'' :: rest => do
      let (cs, rest) ← longString '\'' false rest
      return (String.ofList cs, rest)
  | s => shortString s

/-! ### Keys -/

/-- The characters of a name without quotation marks. -/
def isBare (c : Char) : Bool :=
  c.isAlphanum || c == '_' || c == '-'

/-- One name of a key. -/
def simpleKey (s : List Char) : Option (String × List Char) :=
  match s with
  | '"' :: _ | '\'' :: _ => shortString s
  | _ =>
      let name := s.takeWhile isBare
      if name.isEmpty then none else some (String.ofList name, s.drop name.length)

/-- The names of a key with dots between them, with blanks around each. -/
def keyNames : Nat → Reader (List String)
  | 0, _ => none
  | fuel + 1, s => do
      let (name, rest) ← simpleKey (skipSpaces s)
      match skipSpaces rest with
      | '.' :: rest => do
          let (names, rest) ← keyNames fuel rest
          return (name :: names, rest)
      | rest => return ([name], rest)

/-- The number of levels that keys and values may nest, and one more. -/
def nestingLimit : Nat :=
  80

/-- A key: the names that lead to a table, and the name in it. -/
def key (s : List Char) : Option ((List String × String) × List Char) := do
  let (names, rest) ← keyNames (nestingLimit - 1) s
  return ((names.dropLast, ← names.getLast?), rest)

/-! ### Numbers -/

/-- Digits of a base, with single underscores between digits. -/
def digits (isDigit : Char → Bool) : List Char → List Char × List Char
  | '_' :: c :: rest =>
      if isDigit c then
        let (ds, rest) := digits isDigit rest
        (c :: ds, rest)
      else ([], '_' :: c :: rest)
  | c :: rest =>
      if isDigit c then
        let (ds, rest) := digits isDigit rest
        (c :: ds, rest)
      else ([], c :: rest)
  | [] => ([], [])

/-- At least one digit, and not an underscore first. -/
def someDigits (isDigit : Char → Bool) (s : List Char) : Option (List Char × List Char) :=
  match s with
  | '_' :: _ => none
  | _ =>
      let (ds, rest) := digits isDigit s
      if ds.isEmpty then none else some (ds, rest)

/-- The number with some digits in a base. -/
def number (base : Nat) (ds : List Char) : Nat :=
  ds.foldl (fun n c ↦ base * n + (hexValue? c).getD 0) 0

/-- A sign; true is minus. -/
def sign : List Char → Bool × List Char
  | '+' :: rest => (false, rest)
  | '-' :: rest => (true, rest)
  | s => (false, s)

/-- The digits of a decimal integer; only the number zero starts with a zero. -/
def decimalDigits (s : List Char) : Option (List Char × List Char) :=
  match s with
  | '0' :: rest => some (['0'], rest)
  | _ => someDigits Char.isDigit s

/-- The largest integer. -/
def maxInteger : Nat :=
  Nat.pow 2 63 - 1

/-- An integer with a sign, if it fits into 64 bits. -/
def signed (negative : Bool) (n : Nat) : Option Int :=
  if negative then (if n ≤ maxInteger + 1 then some (-(n : Int)) else none)
  else (if n ≤ maxInteger then some (n : Int) else none)

/-- Whether a character is a digit of a base up to sixteen. -/
def isDigitOf (base : Nat) (c : Char) : Bool :=
  (hexValue? c).any fun n ↦ decide (n < base)

/-- An integer in a base that its front names, after that front. -/
def basedInteger (base : Nat) (s : List Char) : Option (Int × List Char) := do
  let (ds, rest) ← someDigits (isDigitOf base) s
  return (← signed false (number base ds), rest)

/-- An integer. -/
def integer (s : List Char) : Option (Int × List Char) :=
  match s with
  | '0' :: 'x' :: rest => basedInteger 16 rest
  | '0' :: 'o' :: rest => basedInteger 8 rest
  | '0' :: 'b' :: rest => basedInteger 2 rest
  | _ => do
      let (negative, rest) := sign s
      let (ds, rest) ← decimalDigits rest
      return (← signed negative (number 10 ds), rest)

/-- The exponent of a floating-point number. -/
def exponent : Reader Int
  | c :: rest =>
      if c == 'e' || c == 'E' then do
        let (negative, rest) := sign rest
        let (ds, rest) ← someDigits Char.isDigit rest
        let n : Int := number 10 ds
        return (if negative then -n else n, rest)
      else none
  | [] => none

/-- The digits after the point of a floating-point number. -/
def fraction : Reader (List Char)
  | '.' :: rest => someDigits Char.isDigit rest
  | _ => none

/-- The least number that rounds to infinity in double precision. -/
def roundsToInfinity : Nat :=
  Nat.pow 2 1024 - Nat.pow 2 970

/-- Whether `n * 10 ^ e` lies beyond the largest double-precision number and rounds to infinity. -/
def overflows (n : Nat) (e : Int) : Bool :=
  let magnitude := e + (Nat.toDigits 10 n).length
  if n == 0 || magnitude < 308 then false
  else if 310 < magnitude then true
  else if 0 ≤ e then decide (roundsToInfinity ≤ n * Nat.pow 10 e.toNat)
  else decide (roundsToInfinity * Nat.pow 10 e.natAbs ≤ n)

/-- A floating-point number in digits. Numbers that are too large are refused. -/
def floatDigits (s : List Char) : Option (List Char) := do
  let (negative, rest) := sign s
  let (whole, rest) ← decimalDigits rest
  let (after, power, rest) ←
    match fraction rest with
    | some (ds, rest) =>
        match exponent rest with
        | some (e, rest) => some (ds, e, rest)
        | none => some (ds, 0, rest)
    | none => (exponent rest).map fun (e, rest) ↦ ([], e, rest)
  if !negative && overflows (number 10 (whole ++ after)) (power - after.length) then none
  else some rest

/-- The text after a word, if the text starts with it. -/
def word? (word : String) (s : List Char) : Option (List Char) :=
  word.toList.isPrefixOf? s

/-- The text after a floating-point number. -/
def float? (s : List Char) : Option (List Char) :=
  (floatDigits s).or ((word? "inf" (sign s).2).or (word? "nan" (sign s).2))

/-! ### Dates and times -/

/-- A number of a fixed count of digits within bounds. -/
def fixed (count least most : Nat) : Reader Nat := fun s ↦
  let ds := s.take count
  let n := number 10 ds
  if ds.length == count && ds.all Char.isDigit && least ≤ n && n ≤ most then
    some (n, s.drop count)
  else none

/-- The text after a character, if the text starts with it. -/
def char? (c : Char) : List Char → Option (List Char)
  | d :: rest => if d == c then some rest else none
  | [] => none

/-- The number of days of a month. -/
def daysOf (year month : Nat) : Nat :=
  if month == 2 then
    (if year % 4 == 0 && (year % 100 != 0 || year % 400 == 0) then 29 else 28)
  else if month == 4 || month == 6 || month == 9 || month == 11 then 30
  else 31

/-- The text after a date. -/
def date? (s : List Char) : Option (List Char) := do
  let (year, rest) ← fixed 4 0 9999 s
  let (month, rest) ← fixed 2 1 12 (← char? '-' rest)
  let (_, rest) ← fixed 2 1 (daysOf year month) (← char? '-' rest)
  return rest

/-- The text after a time of day. -/
def time? (s : List Char) : Option (List Char) := do
  let (_, rest) ← fixed 2 0 23 s
  let (_, rest) ← fixed 2 0 59 (← char? ':' rest)
  let (_, rest) ← fixed 2 0 60 (← char? ':' rest)
  match rest with
  | '.' :: after =>
      let ds := after.takeWhile Char.isDigit
      if ds.isEmpty then none else some (after.drop ds.length)
  | _ => some rest

/-- The text after the offset of a time. -/
def offset? (s : List Char) : Option (List Char) :=
  match s with
  | 'Z' :: rest | 'z' :: rest => some rest
  | '+' :: rest | '-' :: rest => do
      let (_, rest) ← fixed 2 0 23 rest
      let (_, rest) ← fixed 2 0 59 (← char? ':' rest)
      return rest
  | _ => none

/-- The text after the time that may follow a date. -/
def afterDate (s : List Char) : List Char :=
  match s with
  | c :: rest =>
      if c == 'T' || c == 't' || c == ' ' then
        match time? rest with
        | some rest => (offset? rest).getD rest
        | none => s
      else s
  | [] => []

/-- The text after a date, a time, or both. -/
def dateTime? (s : List Char) : Option (List Char) :=
  ((date? s).map afterDate).or (time? s)

end MemberReach.Toml
