import Mathlib.Data.List.Forall2
import Mathlib.Tactic.SplitIfs
import MemberReach.Json

/-!
# Reading JSON text

A reader for the values that reports are made of, and what the two layouts have to do with each
other. `Json.parse?` reads strings, arrays and objects with all escapes and blanks that the format
allows; numbers and literals, which no report has, it refuses. It reads a compact text back to the
value that was written (`parse_compact`). `strip` deletes the blanks outside strings, and the
indented text of a value becomes its compact text that way (`strip_pretty`).
-/

namespace MemberReach.Json

/-! ### A reader -/

/-- The blanks that may stand between the parts of a value. -/
def isSpace (c : Char) : Bool :=
  c = ' ' || c = '\t' || c = '\n' || c = '\r'

/-- Passes over blanks. -/
def skip (s : List Char) : List Char :=
  s.dropWhile isSpace

/-- The value of a hexadecimal digit. -/
def digit? (c : Char) : Option Nat :=
  if '0' ≤ c ∧ c ≤ '9' then some (c.toNat - '0'.toNat)
  else if 'a' ≤ c ∧ c ≤ 'f' then some (c.toNat - 'a'.toNat + 10)
  else if 'A' ≤ c ∧ c ≤ 'F' then some (c.toNat - 'A'.toNat + 10)
  else none

/-- The number that four hexadecimal digits spell. -/
def codeUnit? (a b c d : Char) : Option Nat := do
  return ((← digit? a) * 16 + (← digit? b)) * 256 + (← digit? c) * 16 + (← digit? d)

/-- The character that a backslash and a letter or mark stand for. -/
def shortEscape? : Char → Option Char
  | '"' => some '"'
  | '\\' => some '\\'
  | '/' => some '/'
  | 'b' => some '\x08'
  | 'f' => some '\x0c'
  | 'n' => some '\n'
  | 'r' => some '\r'
  | 't' => some '\t'
  | _ => none

/-- Reads a string up to its closing quotation mark, as the numbers of its characters; an escape
with digits gives the number that they spell. Control characters have to be escaped. -/
def readUnits : List Char → Option (List Nat × List Char)
  | [] => none
  | '"' :: rest => some ([], rest)
  | '\\' :: 'u' :: a :: b :: c :: d :: rest => do
      let unit ← codeUnit? a b c d
      (readUnits rest).map fun (units, rest) ↦ (unit :: units, rest)
  | '\\' :: c :: rest => do
      let escaped ← shortEscape? c
      (readUnits rest).map fun (units, rest) ↦ (escaped.toNat :: units, rest)
  | c :: rest =>
      if c.toNat < 32 then none
      else (readUnits rest).map fun (units, rest) ↦ (c.toNat :: units, rest)

/-- The characters of some numbers. A character beyond the first 65536 may be given by two numbers,
one from each half of the surrogates, which are no characters by themselves. -/
def ofUnits? : List Nat → Option (List Char)
  | [] => some []
  | unit :: rest =>
      if unit.isValidChar then (ofUnits? rest).map (Char.ofNat unit :: ·)
      else
        match rest with
        | low :: rest =>
            if 0xD800 ≤ unit ∧ unit < 0xDC00 ∧ 0xDC00 ≤ low ∧ low < 0xE000 then
              (ofUnits? rest).map
                (Char.ofNat (0x10000 + (unit - 0xD800) * 0x400 + (low - 0xDC00)) :: ·)
            else none
        | [] => none

/-- Reads a string behind its opening quotation mark. -/
def readText (s : List Char) : Option (String × List Char) := do
  let (units, rest) ← readUnits s
  return (String.ofList (← ofUnits? units), rest)

mutual

/-- Reads a value, with at most so many calls of a reader inside each other. -/
def readValue : Nat → List Char → Option (Json × List Char)
  | 0, _ => none
  | fuel + 1, s =>
      match skip s with
      | '"' :: rest => do
          let (value, rest) ← readText rest
          return (.text value, rest)
      | '[' :: rest =>
          match skip rest with
          | ']' :: rest => some (.list [], rest)
          | _ => do
              let (items, rest) ← readItems fuel rest
              return (.list items, rest)
      | '\x7b' :: rest =>
          match skip rest with
          | '\x7d' :: rest => some (.object [], rest)
          | _ => do
              let (members, rest) ← readMembers fuel rest
              return (.object members, rest)
      | _ => none

/-- Reads one or more items, and the bracket behind them. -/
def readItems : Nat → List Char → Option (List Json × List Char)
  | 0, _ => none
  | fuel + 1, s => do
      let (item, rest) ← readValue fuel s
      match skip rest with
      | ']' :: rest => return ([item], rest)
      | ',' :: rest =>
          let (items, rest) ← readItems fuel rest
          return (item :: items, rest)
      | _ => none

/-- Reads one or more members, and the brace behind them. -/
def readMembers : Nat → List Char → Option (List (String × Json) × List Char)
  | 0, _ => none
  | fuel + 1, s =>
      match skip s with
      | '"' :: rest => do
          let (name, rest) ← readText rest
          match skip rest with
          | ':' :: rest =>
              let (value, rest) ← readValue fuel rest
              match skip rest with
              | '\x7d' :: rest => return ([(name, value)], rest)
              | ',' :: rest =>
                  let (members, rest) ← readMembers fuel rest
                  return ((name, value) :: members, rest)
              | _ => none
          | _ => none
      | _ => none

end

/-- Reads a text that holds one value and otherwise only blanks. -/
def parse? (s : List Char) : Option Json :=
  match readValue (s.length + 1) s with
  | some (value, rest) => if (skip rest).isEmpty then some value else none
  | none => none

/-! ### Reading what was written -/

/-- A character that is not a blank is not passed over. -/
theorem skip_cons {c : Char} (h : isSpace c = false) (rest : List Char) :
    skip (c :: rest) = c :: rest :=
  List.dropWhile_cons_of_neg (by rw [h]; exact Bool.false_ne_true)

/-- How a character is written: with a short escape, with its digits, or as it is. -/
theorem escape_cases (c : Char) :
    (∃ mark, escape c = ['\\', mark] ∧ mark ≠ 'u' ∧ shortEscape? mark = some c) ∨
      (c.toNat < 32 ∧ escape c = '\\' :: 'u' :: hexDigits c) ∨
      (c ≠ '"' ∧ c ≠ '\\' ∧ ¬ c.toNat < 32 ∧ escape c = [c]) := by
  unfold escape
  split_ifs with hquote hback hb hf hn hr ht hcode
  · exact Or.inl ⟨'"', rfl, by decide, by rw [hquote]; rfl⟩
  · exact Or.inl ⟨'\\', rfl, by decide, by rw [hback]; rfl⟩
  · exact Or.inl ⟨'b', rfl, by decide, hb ▸ rfl⟩
  · exact Or.inl ⟨'f', rfl, by decide, hf ▸ rfl⟩
  · exact Or.inl ⟨'n', rfl, by decide, hn ▸ rfl⟩
  · exact Or.inl ⟨'r', rfl, by decide, hr ▸ rfl⟩
  · exact Or.inl ⟨'t', rfl, by decide, ht ▸ rfl⟩
  · exact Or.inr (Or.inl ⟨hcode, rfl⟩)
  · exact Or.inr (Or.inr ⟨hquote, hback, hcode, rfl⟩)

/-- The digits of a control character spell its number. -/
theorem code_unit_hex_digits {c : Char} (h : c.toNat < 32) :
    ∃ hi lo, hexDigits c = ['0', '0', hi, lo] ∧ codeUnit? '0' '0' hi lo = some c.toNat := by
  have hall : ∀ n < 32,
      hexDigits (Char.ofNat n) = ['0', '0', Nat.digitChar (n / 16), Nat.digitChar (n % 16)] ∧
        codeUnit? '0' '0' (Nat.digitChar (n / 16)) (Nat.digitChar (n % 16)) = some n := by decide
  obtain ⟨hdigits, hunit⟩ := hall c.toNat h
  rw [Char.ofNat_toNat] at hdigits
  exact ⟨_, _, hdigits, hunit⟩

/-- A short escape is read as the character that it stands for. -/
theorem read_units_short {mark c : Char} (hdigits : mark ≠ 'u') (h : shortEscape? mark = some c)
    (s : List Char) :
    readUnits ('\\' :: mark :: s) =
      (readUnits s).map fun (units, rest) ↦ (c.toNat :: units, rest) := by
  rw [readUnits, h]
  · rfl
  · exact fun a b c d rest hmark _ ↦ hdigits hmark

/-- A character that needs no escape is read as it is. -/
theorem read_units_plain {c : Char} (hquote : c ≠ '"') (hback : c ≠ '\\') (hcode : ¬ c.toNat < 32)
    (s : List Char) :
    readUnits (c :: s) = (readUnits s).map fun (units, rest) ↦ (c.toNat :: units, rest) := by
  rw [readUnits, if_neg hcode]
  · exact hquote
  · exact fun _ _ _ _ _ hc _ ↦ hback hc
  · exact fun _ _ hc _ ↦ hback hc

/-- An escaped character is read as its number. -/
theorem read_units_escape (c : Char) (s : List Char) :
    readUnits (escape c ++ s) =
      (readUnits s).map fun (units, rest) ↦ (c.toNat :: units, rest) := by
  rcases escape_cases c with ⟨mark, hescape, hdigits, hmark⟩ | ⟨hcode, hescape⟩ | hplain
  · rw [hescape]
    exact read_units_short hdigits hmark s
  · obtain ⟨hi, lo, hdigits, hunit⟩ := code_unit_hex_digits hcode
    simp only [hescape, hdigits, List.cons_append, List.nil_append, readUnits, hunit]
    rfl
  · obtain ⟨hquote, hback, hcode, hescape⟩ := hplain
    rw [hescape]
    exact read_units_plain hquote hback hcode s

/-- A written string is read as the numbers of its characters. -/
theorem read_units_escaped (s rest : List Char) :
    readUnits (s.flatMap escape ++ '"' :: rest) = some (s.map Char.toNat, rest) := by
  induction s with
  | nil => rfl
  | cons c s ih =>
      rw [List.flatMap_cons, List.append_assoc, read_units_escape, ih]
      rfl

/-- The numbers of characters are those of no surrogates. -/
theorem of_units_to_nat (s : List Char) : ofUnits? (s.map Char.toNat) = some s := by
  induction s with
  | nil => rfl
  | cons c s ih =>
      have hvalid : c.toNat.isValidChar := c.valid
      rw [List.map_cons, ofUnits?.eq_def]
      simp only [if_pos hvalid, ih, Char.ofNat_toNat]
      rfl

/-- A written string is read back. -/
theorem read_text_escaped (s : String) (rest : List Char) :
    readText (s.toList.flatMap escape ++ '"' :: rest) = some (s, rest) := by
  rw [readText, read_units_escaped]
  simp [of_units_to_nat]

/-- A text starts with a character that is neither a blank nor a closing bracket. -/
def Opens (s : List Char) : Prop :=
  ∃ c rest, s = c :: rest ∧ isSpace c = false ∧ c ≠ ']' ∧ c ≠ '\x7d'

/-- What follows does not change how a text starts. -/
theorem Opens.append {s : List Char} (h : Opens s) (rest : List Char) : Opens (s ++ rest) := by
  obtain ⟨c, tail, rfl, hc⟩ := h
  exact ⟨c, tail ++ rest, rfl, hc⟩

/-- A string starts with its quotation mark. -/
theorem opens_quote (s : String) : Opens (quote s) :=
  ⟨'"', _, rfl, by decide⟩

/-- A written value starts with the mark of its kind. -/
theorem opens_compact (v : Json) : Opens v.compact := by
  cases v with
  | text value => exact opens_quote value
  | list items => exact ⟨'[', _, rfl, by decide⟩
  | object members => exact ⟨'\x7b', _, rfl, by decide⟩

/-- A single text is separated from nothing. -/
theorem separated_singleton (separator text : List Char) : separated separator [text] = text :=
  List.intercalate_singleton

/-- Texts are separated pair by pair. -/
theorem separated_cons (separator first second : List Char) (texts : List (List Char)) :
    separated separator (first :: second :: texts) =
      first ++ (separator ++ separated separator (second :: texts)) := by
  rw [separated, List.intercalate_cons_of_ne_nil (List.cons_ne_nil second texts),
    List.append_assoc, separated]

/-- Separated texts start like the first of them. -/
theorem Opens.separated {text : List Char} (h : Opens text) (separator : List Char)
    (texts : List (List Char)) : Opens (separated separator (text :: texts)) := by
  cases texts with
  | nil => rwa [separated_singleton]
  | cons second texts =>
      rw [separated_cons]
      exact h.append _

/-- Items are read behind a bracket that is not closed at once. -/
theorem read_value_list {s : List Char} (h : Opens s) (fuel : Nat) :
    readValue (fuel + 1) ('[' :: s) =
      (readItems fuel s).map fun (items, rest) ↦ (.list items, rest) := by
  obtain ⟨c, rest, rfl, hspace, hbracket, _⟩ := h
  rw [readValue, skip_cons rfl]
  simp only [skip_cons hspace]
  split
  next heq => exact absurd (List.cons.inj heq).1 hbracket
  next => cases readItems fuel (c :: rest) <;> rfl

/-- Members are read behind a brace that is not closed at once. -/
theorem read_value_object {s : List Char} (h : Opens s) (fuel : Nat) :
    readValue (fuel + 1) ('\x7b' :: s) =
      (readMembers fuel s).map fun (members, rest) ↦ (.object members, rest) := by
  obtain ⟨c, rest, rfl, hspace, _, hbrace⟩ := h
  rw [readValue, skip_cons rfl]
  simp only [skip_cons hspace]
  split
  next heq => exact absurd (List.cons.inj heq).1 hbrace
  next => cases readMembers fuel (c :: rest) <;> rfl

/-- The last item is read with the bracket behind it. -/
theorem read_items_last {s rest : List Char} {fuel : Nat} {item : Json}
    (h : readValue fuel s = some (item, ']' :: rest)) :
    readItems (fuel + 1) s = some ([item], rest) := by
  rw [readItems, h]
  rfl

/-- An item that a comma follows is read in front of the other items. -/
theorem read_items_next {s tail rest : List Char} {fuel : Nat} {item : Json} {items : List Json}
    (h : readValue fuel s = some (item, ',' :: tail))
    (htail : readItems fuel tail = some (items, rest)) :
    readItems (fuel + 1) s = some (item :: items, rest) := by
  rw [readItems, h]
  simp only [Option.bind_eq_bind, Option.bind_some, skip_cons (show isSpace ',' = false from rfl),
    htail]
  rfl

/-- The last member is read with the brace behind it. -/
theorem read_members_last (name : String) {tail rest : List Char} {fuel : Nat} {value : Json}
    (h : readValue fuel tail = some (value, '\x7d' :: rest)) :
    readMembers (fuel + 1) (quote name ++ ':' :: tail) = some ([(name, value)], rest) := by
  rw [readMembers, quote, List.append_assoc, List.cons_append, skip_cons rfl]
  simp only [List.singleton_append, read_text_escaped, Option.bind_eq_bind, Option.bind_some,
    skip_cons (show isSpace ':' = false from rfl), h]
  rfl

/-- A member that a comma follows is read in front of the other members. -/
theorem read_members_next (name : String) {tail other rest : List Char} {fuel : Nat} {value : Json}
    {members : List (String × Json)} (h : readValue fuel tail = some (value, ',' :: other))
    (hother : readMembers fuel other = some (members, rest)) :
    readMembers (fuel + 1) (quote name ++ ':' :: tail) = some ((name, value) :: members, rest) := by
  rw [readMembers, quote, List.append_assoc, List.cons_append, skip_cons rfl]
  simp only [List.singleton_append, read_text_escaped, Option.bind_eq_bind, Option.bind_some,
    skip_cons (show isSpace ':' = false from rfl), h, skip_cons (show isSpace ',' = false from rfl),
    hother]
  rfl

-- The length of a text is enough fuel for it, since every call of a reader that calls another one
-- has a character of the text to itself: a bracket or a comma.
mutual

/-- A value is read back from its compact text, whatever follows. -/
theorem read_value_compact (v : Json) (rest : List Char) {fuel : Nat}
    (h : v.compact.length ≤ fuel) : readValue fuel (v.compact ++ rest) = some (v, rest) := by
  match v, fuel, h with
  | .text value, 0, h => simp [compact, quote] at h
  | .text value, fuel + 1, h =>
      rw [compact, quote, List.append_assoc, List.cons_append, readValue, skip_cons rfl]
      simp only [List.singleton_append, read_text_escaped]
      rfl
  | .list items, 0, h => simp [compact] at h
  | .list [], fuel + 1, h => rfl
  | .list (item :: items), fuel + 1, h =>
      simp only [compact, List.cons_append, List.length_cons, List.length_append] at h ⊢
      have hopens : Opens (separated [','] (compactItems (item :: items))) :=
        (opens_compact item).separated _ _
      rw [List.append_assoc, List.singleton_append, read_value_list (hopens.append _),
        read_items_compact item items rest (by simp at h; omega)]
      rfl
  | .object members, 0, h => simp [compact] at h
  | .object [], fuel + 1, h => rfl
  | .object ((name, value) :: members), fuel + 1, h =>
      simp only [compact, List.cons_append, List.length_cons, List.length_append] at h ⊢
      have hopens : Opens (separated [','] (compactMembers ((name, value) :: members))) :=
        ((opens_quote name).append _).separated _ _
      rw [List.append_assoc, List.singleton_append, read_value_object (hopens.append _),
        read_members_compact name value members rest (by simp at h; omega)]
      rfl

/-- Items are read back up to the bracket behind them. -/
theorem read_items_compact (item : Json) (items : List Json) (rest : List Char) {fuel : Nat}
    (h : (separated [','] (compactItems (item :: items))).length < fuel) :
    readItems fuel (separated [','] (compactItems (item :: items)) ++ ']' :: rest) =
      some (item :: items, rest) := by
  match items, fuel, h with
  | [], fuel + 1, h =>
      simp only [compactItems, separated_singleton] at h ⊢
      exact read_items_last (read_value_compact item _ (by omega))
  | next :: items, fuel + 1, h =>
      simp only [compactItems, separated_cons, List.length_append, List.append_assoc] at h ⊢
      refine read_items_next (read_value_compact item _ (by omega)) ?_
      exact read_items_compact next items rest (by simp [compactItems] at h ⊢; omega)

/-- Members are read back up to the brace behind them. -/
theorem read_members_compact (name : String) (value : Json) (members : List (String × Json))
    (rest : List Char) {fuel : Nat}
    (h : (separated [','] (compactMembers ((name, value) :: members))).length < fuel) :
    readMembers fuel
        (separated [','] (compactMembers ((name, value) :: members)) ++ '\x7d' :: rest) =
      some ((name, value) :: members, rest) := by
  match members, fuel, h with
  | [], fuel + 1, h =>
      simp only [compactMembers, separated_singleton, List.append_assoc, List.cons_append] at h ⊢
      exact read_members_last name (read_value_compact value _ (by simp at h; omega))
  | (other, value') :: members, fuel + 1, h =>
      simp only [compactMembers, separated_cons, List.length_append, List.append_assoc,
        List.cons_append] at h ⊢
      refine read_members_next name (read_value_compact value _ (by simp at h; omega)) ?_
      exact read_members_compact other value' members rest (by simp [compactMembers] at h ⊢; omega)

end

/-- The compact text of a value is read as the value. -/
theorem parse_compact (v : Json) : parse? v.compact = some v := by
  have hread := read_value_compact v [] (Nat.le_succ v.compact.length)
  rw [List.append_nil] at hread
  rw [parse?, hread]
  rfl

/-- An escaped pair of surrogates is one character, and blanks may stand between the parts. -/
example : (parse? " [ \"\\ud83d\\ude00\" ]\n".toList).map compact = some "[\"😀\"]".toList := by
  decide +kernel

/-! ### Layouts -/

mutual

/-- Deletes the blanks outside strings. -/
def strip : List Char → List Char
  | [] => []
  | c :: rest =>
      if c = '"' then c :: stripText rest
      else if Text.isBlank c then strip rest
      else c :: strip rest

/-- Keeps all up to the closing quotation mark of a string, and deletes the blanks outside strings
behind it. -/
def stripText : List Char → List Char
  | [] => []
  | '"' :: rest => '"' :: strip rest
  | '\\' :: c :: rest => '\\' :: c :: stripText rest
  | c :: rest => c :: stripText rest

end

/-- Inside a string, characters other than the two marks are kept. -/
theorem strip_text_append {s : List Char} (h : ∀ c ∈ s, c ≠ '"' ∧ c ≠ '\\') (rest : List Char) :
    stripText (s ++ rest) = s ++ stripText rest := by
  induction s with
  | nil => rfl
  | cons c s ih =>
      obtain ⟨hquote, hback⟩ := h c List.mem_cons_self
      rw [List.cons_append, stripText, ih fun c hc ↦ h c (List.mem_cons_of_mem _ hc)]
      · rfl
      · exact hquote
      · exact fun _ _ hc _ ↦ hback hc

/-- The digits of a control character are neither of the two marks. -/
theorem hex_digits_plain {c : Char} (h : c.toNat < 32) :
    ∀ d ∈ hexDigits c, d ≠ '"' ∧ d ≠ '\\' := by
  have hall : ∀ n < 32, (hexDigits (Char.ofNat n)).all fun d ↦ d ≠ '"' ∧ d ≠ '\\' := by decide
  have hdigits := hall c.toNat h
  rw [Char.ofNat_toNat, List.all_eq_true] at hdigits
  exact fun d hd ↦ of_decide_eq_true (hdigits d hd)

/-- An escaped character is kept inside a string. -/
theorem strip_text_escape (c : Char) (rest : List Char) :
    stripText (escape c ++ rest) = escape c ++ stripText rest := by
  rcases escape_cases c with ⟨mark, hescape, _, _⟩ | ⟨hcode, hescape⟩ | hplain
  · rw [hescape]
    rfl
  · rw [hescape, List.cons_append, List.cons_append, stripText,
      strip_text_append (hex_digits_plain hcode)]
    rfl
  · obtain ⟨hquote, hback, _, hescape⟩ := hplain
    rw [hescape]
    exact strip_text_append (List.forall_mem_singleton.2 ⟨hquote, hback⟩) rest

/-- A text comes to another one when the blanks outside strings are deleted, whatever follows. Such
a text ends outside strings. -/
def Strips (s t : List Char) : Prop :=
  ∀ rest, strip (s ++ rest) = t ++ strip rest

/-- Texts can be stripped one after the other. -/
theorem Strips.append {s s' t t' : List Char} (h : Strips s t) (h' : Strips s' t') :
    Strips (s ++ s') (t ++ t') := by
  intro rest
  rw [List.append_assoc, h, h', List.append_assoc]

/-- Blanks vanish. -/
theorem strips_blanks {s : List Char} (h : ∀ c ∈ s, c ≠ '"' ∧ Text.isBlank c) : Strips s [] := by
  intro rest
  induction s with
  | nil => rfl
  | cons c s ih =>
      obtain ⟨hquote, hblank⟩ := h c List.mem_cons_self
      rw [List.cons_append, strip, if_neg hquote, if_pos hblank]
      exact ih fun c hc ↦ h c (List.mem_cons_of_mem _ hc)

/-- A line break and its indentation vanish. -/
theorem strips_new_line (level : Nat) : Strips (newLine level) [] := by
  apply strips_blanks
  intro c hc
  rcases List.mem_cons.1 hc with rfl | hc
  · decide
  · rw [List.eq_of_mem_replicate hc]
    decide

/-- A mark between values stays. -/
theorem strips_mark {c : Char} (h : c ≠ '"' ∧ ¬ Text.isBlank c) : Strips [c] [c] := by
  intro rest
  rw [List.singleton_append, strip, if_neg h.1, if_neg h.2]
  rfl

/-- A string stays as it is. -/
theorem strips_quote (s : String) : Strips (quote s) (quote s) := by
  intro rest
  have htext (t : List Char) :
      stripText (t.flatMap escape ++ '"' :: rest) = t.flatMap escape ++ '"' :: strip rest := by
    induction t with
    | nil => rfl
    | cons c t ih =>
        rw [List.flatMap_cons, List.append_assoc, strip_text_escape, ih, List.append_assoc]
  rw [quote, List.append_assoc, List.cons_append, strip, if_pos rfl, List.singleton_append, htext]
  simp

/-- Separated texts are stripped one by one. -/
theorem Strips.separated {separator separator' : List Char} (h : Strips separator separator')
    {texts texts' : List (List Char)} (htexts : List.Forall₂ Strips texts texts') :
    Strips (separated separator texts) (separated separator' texts') := by
  induction htexts with
  | nil => exact fun rest ↦ rfl
  | cons hfirst hrest ih =>
      cases hrest with
      | nil => rwa [separated_singleton, separated_singleton]
      | cons hsecond hrest =>
          rw [separated_cons, separated_cons]
          exact hfirst.append (h.append ih)

/-- Bracketed lines come to their items with a comma between any two. -/
theorem strips_bracketed {opening closing : Char} (hopening : Strips [opening] [opening])
    (hclosing : Strips [closing] [closing]) {texts texts' : List (List Char)}
    (h : List.Forall₂ Strips texts texts') (level : Nat) :
    Strips (bracketed level opening closing texts)
      (opening :: separated [','] texts' ++ [closing]) := by
  cases h with
  | nil => exact hopening.append hclosing
  | cons hfirst hrest =>
      have hcomma : Strips (',' :: newLine (level + 1)) [','] :=
        (strips_mark (by decide)).append (strips_new_line _)
      rw [bracketed, if_neg (by simp)]
      have hlines := ((hopening.append (strips_new_line (level + 1))).append
        (hcomma.separated (.cons hfirst hrest))).append (strips_new_line level)
      simp only [List.append_nil] at hlines
      exact hlines.append hclosing

mutual

/-- The indented text of a value comes to its compact text. -/
theorem strips_pretty (level : Nat) (v : Json) : Strips (v.pretty level) v.compact := by
  match v with
  | .text value => exact strips_quote value
  | .list items =>
      exact strips_bracketed (strips_mark (by decide)) (strips_mark (by decide))
        (strips_pretty_items (level + 1) items) level
  | .object members =>
      exact strips_bracketed (strips_mark (by decide)) (strips_mark (by decide))
        (strips_pretty_members (level + 1) members) level

/-- The indented texts of items come to their compact texts. -/
theorem strips_pretty_items (level : Nat) (items : List Json) :
    List.Forall₂ Strips (prettyItems level items) (compactItems items) := by
  match items with
  | [] => exact .nil
  | item :: items => exact .cons (strips_pretty level item) (strips_pretty_items level items)

/-- The indented texts of members come to their compact texts. -/
theorem strips_pretty_members (level : Nat) (members : List (String × Json)) :
    List.Forall₂ Strips (prettyMembers level members) (compactMembers members) := by
  match members with
  | [] => exact .nil
  | (name, value) :: members =>
      have hcolon : Strips [':', ' '] [':'] :=
        (strips_mark (by decide)).append
          (strips_blanks (List.forall_mem_singleton.2 (by decide)))
      exact .cons ((strips_quote name).append (hcolon.append (strips_pretty level value)))
        (strips_pretty_members level members)

end

/-- Without the blanks outside strings, the indented text of a value is its compact text. -/
theorem strip_pretty (level : Nat) (v : Json) : strip (v.pretty level) = v.compact := by
  have hstrips := strips_pretty level v []
  rwa [List.append_nil, strip, List.append_nil] at hstrips

/-- An escaped quotation mark does not end a string, so the blanks behind it stay. -/
example : strip "[ \"a \\\" b\", \"\" ]".toList = "[\"a \\\" b\",\"\"]".toList := by decide

end MemberReach.Json
