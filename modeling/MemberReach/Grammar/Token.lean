import MemberReach.Text

/-!
# Tokens of a source text

A source text is a sequence of words, numbers, marks and comments with blanks between them. A
string is three tokens: its quotation marks and what stands between them. `Token.scan?` splits a
text into its tokens; a text with a character outside of these forms is not split at all.
-/

namespace MemberReach

/-- The forms of tokens. `content` is what stands between the quotation marks of a string. -/
inductive TokenForm where
  | word
  | number
  | mark
  | content
  | comment
  deriving DecidableEq, Repr, Inhabited

/-- A token and the bytes that it spans. -/
structure Token where
  form : TokenForm
  text : String
  start : Nat
  stop : Nat
  deriving DecidableEq, Repr, Inhabited

namespace Token

/-- A token without its place in the source. -/
abbrev Lexeme := TokenForm × List Char

/-- The characters of words and numbers. -/
def isWordChar (c : Char) : Bool :=
  c.isAlphanum || c == '_'

/-- The characters that separate tokens. -/
def isBlank (c : Char) : Bool :=
  c == ' ' || c == '\t' || c == '\r' || c == '\n'

/-- The marks; one that starts with another comes before it. A closing angle bracket is a mark of
its own in front of a second one, since both may end a list of types. -/
def marks : List String :=
  ["=>", "::", "&&", "||", "==", "!=", "<=", ">=", "+=", "-=", "++", "--", "??", "\x7b", "\x7d",
    "(", ")", "[", "]", ";", ",", ".", ":", "=", "<", ">", "+", "-", "*", "/", "%", "?", "!"]

/-- The mark at the front of a text. -/
def mark? (s : List Char) : Option (List Char) :=
  (marks.map String.toList).find? fun mark ↦ mark.isPrefixOf s

/-- A comment over several lines, after its opening, up to and including its end. -/
def blockComment? : List Char → Option (List Char)
  | '*' :: '/' :: _ => some ['*', '/']
  | c :: rest => (blockComment? rest).map (c :: ·)
  | [] => none

/-- The lexemes of a string on one line without escapes, after its opening quotation mark. -/
def stringLexemes? (s : List Char) : Option (List Lexeme) :=
  let content := s.takeWhile fun c ↦ c != '"' && c != '\\' && c != '\n'
  match s.drop content.length with
  | '"' :: rest =>
      if content.isEmpty && rest.head? == some '"' then none
      else
        some ((.mark, ['"']) :: (if content.isEmpty then [] else [(.content, content)]) ++
          [(.mark, ['"'])])
  | _ => none

/-- The lexemes at the front of a text: those of a string, or else a single one. -/
def lexemes? (s : List Char) : Option (List Lexeme) :=
  match s with
  | '/' :: '/' :: _ => some [(.comment, s.takeWhile fun c ↦ c != '\n' && c != '\r')]
  | '/' :: '*' :: rest =>
      (blockComment? rest).map fun body ↦ [(.comment, '/' :: '*' :: body)]
  | '"' :: rest => stringLexemes? rest
  | c :: _ =>
      if isWordChar c then
        let word := s.takeWhile isWordChar
        if !c.isDigit then some [(.word, word)]
        else if word.all Char.isDigit then some [(.number, word)]
        else none
      else (mark? s).map fun mark ↦ [(.mark, mark)]
  | [] => none

/-- Places lexemes one after another from an offset on. -/
def place : Nat → List Lexeme → List Token
  | _, [] => []
  | offset, (form, chars) :: rest =>
      let text := String.ofList chars
      ⟨form, text, offset, offset + text.utf8ByteSize⟩ :: place (offset + text.utf8ByteSize) rest

/-- The tokens of a text from an offset on, read in fewer than `fuel` steps. -/
def scanFrom : Nat → Nat → List Char → Option (List Token)
  | 0, _, _ => none
  | _ + 1, _, [] => some []
  | fuel + 1, offset, c :: rest =>
      if isBlank c then scanFrom fuel (offset + c.utf8Size) rest
      else do
        let lexemes ← lexemes? (c :: rest)
        let length := (lexemes.flatMap Prod.snd).length
        let tokens := place offset lexemes
        let stop := (tokens.getLast?.map stop).getD offset
        return tokens ++ (← scanFrom fuel stop ((c :: rest).drop length))

/-- The tokens of a text. -/
def scan? (source : String) : Option (List Token) :=
  scanFrom (source.length + 1) 0 source.toList

/-- The words that are no names. -/
def reserved : List String :=
  ["abstract", "as", "base", "bool", "break", "byte", "case", "catch", "char", "checked", "class",
    "const", "continue", "decimal", "default", "delegate", "do", "double", "else", "enum",
    "event", "explicit", "extern", "false", "finally", "fixed", "float", "for", "foreach", "goto",
    "if", "implicit", "in", "int", "interface", "internal", "is", "lock", "long", "namespace",
    "new", "null", "object", "operator", "out", "override", "params", "private", "protected",
    "public", "readonly", "ref", "return", "sbyte", "sealed", "short", "sizeof", "stackalloc",
    "static", "string", "struct", "switch", "this", "throw", "true", "try", "typeof", "uint",
    "ulong", "unchecked", "unsafe", "ushort", "using", "virtual", "void", "volatile", "while"]

/-- Whether a token is a name. -/
def isName (token : Token) : Bool :=
  token.form == .word && !reserved.contains token.text

/-- Whether a token is one of some words. -/
def isAnyOf (words : List String) (token : Token) : Bool :=
  token.form == .word && words.contains token.text

end Token

end MemberReach
