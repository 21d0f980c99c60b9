import Mathlib

/-!
# JSON text

Values, the compact printer and a parser of the whole grammar.  A number keeps
its spelling, so that each reader decides what it makes of it; an object keeps
its members in order, repeated names included.  The parser counts how deep
arrays and objects nest, as readers with a recursion limit do.

A string may stand for no text, because of half a surrogate pair or of bytes
that are not UTF-8.  Readers skip such strings in what they ignore, so they are
values too (`Value.garbled`), which nothing is made of.
-/

namespace Samkhya
namespace Json

/-- JSON values; numbers as they are spelled, strings unescaped. -/
inductive Value
  | null
  | bool (b : Bool)
  | num (text : List Char)
  | str (text : List Char)
  | arr (items : List Value)
  | obj (members : List (List Char × Value))
  -- a string, or an object with a name, that stands for no text
  | garbled

section Strings

/-- Stands for a byte outside UTF-8; no text may have a NUL in it. -/
def badByte : Char :=
  Char.ofNat 0

/-- A hexadecimal digit in lower case. -/
def hexDigit (n : Nat) : Char :=
  Nat.digitChar n

/-- The value of a hexadecimal digit of either case. -/
def hexValue (c : Char) : Option Nat :=
  if '0' ≤ c ∧ c ≤ '9' then
    some (c.toNat - 48)
  else if 'a' ≤ c ∧ c ≤ 'f' then
    some (c.toNat - 87)
  else if 'A' ≤ c ∧ c ≤ 'F' then
    some (c.toNat - 55)
  else
    none

/-- The short escapes: the letter after the backslash. -/
def shortEscape (c : Char) : Option Char :=
  if c = '"' then some '"'
  else if c = '\\' then some '\\'
  else if c.toNat = 8 then some 'b'
  else if c.toNat = 12 then some 'f'
  else if c = '\n' then some 'n'
  else if c = '\r' then some 'r'
  else if c = '\t' then some 't'
  else none

/-- The character a short escape stands for. -/
def unescape (c : Char) : Option Char :=
  if c = '"' then some '"'
  else if c = '\\' then some '\\'
  else if c = '/' then some '/'
  else if c = 'b' then some (Char.ofNat 8)
  else if c = 'f' then some (Char.ofNat 12)
  else if c = 'n' then some '\n'
  else if c = 'r' then some '\r'
  else if c = 't' then some '\t'
  else none

/-- One character of a string as it is printed. -/
def escapeChar (c : Char) : List Char :=
  match shortEscape c with
  | some e => ['\\', e]
  | none =>
      if c.toNat < 32 then
        ['\\', 'u', '0', '0', hexDigit (c.toNat / 16),
          hexDigit (c.toNat % 16)]
      else
        [c]

def printString (text : List Char) : List Char :=
  '"' :: (text.flatMap escapeChar ++ ['"'])

/-- Four hexadecimal digits. -/
def hex4 (a b c d : Char) : Option Nat :=
  match hexValue a, hexValue b, hexValue c, hexValue d with
  | some a, some b, some c, some d =>
      some (((a * 16 + b) * 16 + c) * 16 + d)
  | _, _, _, _ => none

/-- Put a character in front of what the rest of a string gives. -/
def consChar
    (c : Char)
    (r : Option (List Char × List Char)) :
    Option (List Char × List Char) :=
  r.map fun p => (c :: p.1, p.2)

/--
The characters up to the closing quote, with what comes after it.  Control
characters and surrogates without their other half are refused.
-/
def parseChars : List Char → Option (List Char × List Char)
  | [] => none
  | '\\' :: 'u' :: a :: b :: c :: d :: rest =>
      match hex4 a b c d with
      | none => none
      | some u =>
          if u < 0xD800 ∨ 0xE000 ≤ u then
            consChar (Char.ofNat u) (parseChars rest)
          else if 0xDC00 ≤ u then
            none
          else
            match rest with
            | '\\' :: 'u' :: a :: b :: c :: d :: rest =>
                match hex4 a b c d with
                | none => none
                | some v =>
                    if 0xDC00 ≤ v ∧ v < 0xE000 then
                      consChar
                        (Char.ofNat
                          (0x10000 + (u - 0xD800) * 0x400 +
                            (v - 0xDC00)))
                        (parseChars rest)
                    else
                      none
            | _ => none
  | '\\' :: e :: rest =>
      match unescape e with
      | some c => consChar c (parseChars rest)
      | none => none
  | c :: rest =>
      if c = '"' then
        some ([], rest)
      else if c = '\\' ∨ c.toNat < 32 then
        none
      else
        consChar c (parseChars rest)

/-- What comes after a string, whatever it stands for. -/
def skipChars : List Char → Option (List Char)
  | [] => none
  | '\\' :: 'u' :: a :: b :: c :: d :: rest =>
      match hex4 a b c d with
      | none => none
      | some _ => skipChars rest
  | '\\' :: e :: rest =>
      match unescape e with
      | some _ => skipChars rest
      | none => none
  | c :: rest =>
      if c = '"' then
        some rest
      else if c = '\\' ∨ c.toNat < 32 ∧ c ≠ badByte then
        none
      else
        skipChars rest

/-- A string behind its opening quote, with its text if it stands for one. -/
def parseString (s : List Char) :
    Option (Option (List Char) × List Char) :=
  match parseChars s with
  | some (text, rest) => some (some text, rest)
  | none => (skipChars s).map fun rest => (none, rest)

theorem parseChars_short
    {e c : Char}
    (he : e ≠ 'u')
    (hc : unescape e = some c)
    (rest : List Char) :
    parseChars ('\\' :: e :: rest) = consChar c (parseChars rest) := by
  rw [parseChars.eq_def]
  simp [he, hc]

theorem parseChars_plain
    {c : Char}
    (hquote : c ≠ '"')
    (hslash : c ≠ '\\')
    (hcontrol : 32 ≤ c.toNat)
    (rest : List Char) :
    parseChars (c :: rest) = consChar c (parseChars rest) := by
  rw [parseChars.eq_def]
  simp [hquote, hslash, Nat.not_lt.mpr hcontrol]

theorem hexValue_hexDigit :
    ∀ n < 16, hexValue (hexDigit n) = some n := by
  decide

theorem shortEscape_spec
    {c e : Char}
    (h : shortEscape c = some e) :
    e ≠ 'u' ∧ unescape e = some c := by
  unfold shortEscape at h
  split_ifs at h with h₁ h₂ h₃ h₄ h₅ h₆ h₇ <;>
    obtain rfl := Option.some.inj h
  · simp [h₁, unescape]
  · simp [h₂, unescape]
  · have hc : c = Char.ofNat 8 := by rw [← h₃, Char.ofNat_toNat]
    subst hc
    decide
  · have hc : c = Char.ofNat 12 := by rw [← h₄, Char.ofNat_toNat]
    subst hc
    decide
  · simp [h₅, unescape]
  · simp [h₆, unescape]
  · simp [h₇, unescape]

/-- A printed character is read back as itself. -/
theorem parseChars_escapeChar
    (c : Char)
    (rest : List Char) :
    parseChars (escapeChar c ++ rest) =
      consChar c (parseChars rest) := by
  unfold escapeChar
  cases hshort : shortEscape c with
  | some e =>
      obtain ⟨he, hc⟩ := shortEscape_spec hshort
      exact parseChars_short he hc rest
  | none =>
      split_ifs with hcontrol
      · have hhigh := hexValue_hexDigit (c.toNat / 16) (by omega)
        have hlow := hexValue_hexDigit (c.toNat % 16) (by omega)
        have hzero : hexValue '0' = some 0 := by decide
        have hvalue :
            ((0 * 16 + 0) * 16 + c.toNat / 16) * 16 + c.toNat % 16 =
              c.toNat := by omega
        have hsmall : c.toNat < 0xD800 := by omega
        simp only [List.cons_append, List.nil_append]
        rw [parseChars.eq_def]
        simp only [hex4, hhigh, hlow, hzero, hvalue, hsmall, true_or,
          if_true, Char.ofNat_toNat]
      · have hquote : c ≠ '"' := by
          rintro rfl
          exact absurd hshort (by decide)
        have hslash : c ≠ '\\' := by
          rintro rfl
          exact absurd hshort (by decide)
        exact parseChars_plain hquote hslash (by omega) rest

/-- A printed string is read back up to its closing quote. -/
theorem parseChars_escaped
    (text rest : List Char) :
    parseChars (text.flatMap escapeChar ++ '"' :: rest) =
      some (text, rest) := by
  induction text with
  | nil =>
      rw [List.flatMap_nil, List.nil_append, parseChars.eq_def]
      simp
  | cons c text ih =>
      rw [List.flatMap_cons, List.append_assoc, parseChars_escapeChar, ih]
      rfl

theorem parseString_escaped
    (text rest : List Char) :
    parseString (text.flatMap escapeChar ++ '"' :: rest) =
      some (some text, rest) := by
  rw [parseString, parseChars_escaped]

end Strings

section Numbers

def isNumberChar (c : Char) : Bool :=
  c.isDigit || c == '-' || c == '+' || c == '.' || c == 'e' || c == 'E'

/-- An exponent, or nothing. -/
def isExponent : List Char → Bool
  | [] => true
  | e :: rest =>
      (e == 'e' || e == 'E') &&
        (match rest with
          | '+' :: digits => !digits.isEmpty && digits.all Char.isDigit
          | '-' :: digits => !digits.isEmpty && digits.all Char.isDigit
          | digits => !digits.isEmpty && digits.all Char.isDigit)

/-- A fraction or nothing, then an exponent or nothing. -/
def isFraction : List Char → Bool
  | '.' :: c :: rest =>
      c.isDigit && isExponent (rest.dropWhile Char.isDigit)
  | rest => isExponent rest

/-- A number without its sign: no leading zeros. -/
def isUnsigned : List Char → Bool
  | [] => false
  | '0' :: rest => isFraction rest
  | c :: rest => c.isDigit && isFraction (rest.dropWhile Char.isDigit)

/-- The spellings of numbers that the grammar has. -/
def isNumber : List Char → Bool
  | '-' :: rest => isUnsigned rest
  | text => isUnsigned text

/-- A spelling that is read as one number. -/
structure NumberText (text : List Char) : Prop where
  chars : ∀ c ∈ text, isNumberChar c
  number : isNumber text

/-- The longest run of characters of numbers, if it spells one. -/
def parseNumber (s : List Char) : Option (List Char × List Char) :=
  let text := s.takeWhile isNumberChar
  if isNumber text then
    some (text, s.dropWhile isNumberChar)
  else
    none

/-- What follows a number: no character of numbers. -/
def Follows (rest : List Char) : Prop :=
  ∀ c ∈ rest.head?, ¬ isNumberChar c

theorem parseNumber_append
    {text rest : List Char}
    (htext : NumberText text)
    (hrest : Follows rest) :
    parseNumber (text ++ rest) = some (text, rest) := by
  have htake : (text ++ rest).takeWhile isNumberChar = text := by
    rw [List.takeWhile_append_of_pos htext.chars]
    cases rest with
    | nil => simp
    | cons c rest =>
        rw [List.takeWhile_cons_of_neg (hrest c rfl), List.append_nil]
  have hdrop : (text ++ rest).dropWhile isNumberChar = rest := by
    rw [List.dropWhile_append_of_pos htext.chars]
    cases rest with
    | nil => rfl
    | cons c rest => rw [List.dropWhile_cons_of_neg (hrest c rfl)]
  rw [parseNumber, htake, hdrop, if_pos htext.number]

/-- The decimal spelling of an integer. -/
def intText (i : Int) : List Char :=
  if i < 0 then
    '-' :: Nat.toDigits 10 i.natAbs
  else
    Nat.toDigits 10 i.natAbs

/-- A spelling without fraction and exponent, as an integer. -/
def asInt : List Char → Option Int
  | '-' :: digits =>
      if !digits.isEmpty && digits.all Char.isDigit then
        some (-(Nat.ofDigitChars 10 digits 0 : Int))
      else
        none
  | digits =>
      if !digits.isEmpty && digits.all Char.isDigit then
        some (Nat.ofDigitChars 10 digits 0 : Int)
      else
        none

theorem isDigit_of_mem_natText
    {n : Nat}
    {c : Char}
    (h : c ∈ Nat.toDigits 10 n) :
    c.isDigit :=
  Nat.isDigit_of_mem_toDigits (by decide) (by decide) h

/-- Only zero is spelled with a zero in front. -/
theorem natText_cases
    (n : Nat) :
    Nat.toDigits 10 n = ['0'] ∨
      ∃ c rest, Nat.toDigits 10 n = c :: rest ∧ c ≠ '0' ∧ c.isDigit := by
  induction n using Nat.strong_induction_on with
  | _ n ih =>
      by_cases hsmall : n < 10
      · rw [Nat.toDigits_of_lt_base hsmall]
        rcases Nat.eq_zero_or_pos n with rfl | hpos
        · exact Or.inl rfl
        · right
          have hdigit :
              ∀ n < 10, 0 < n →
                n.digitChar ≠ '0' ∧ n.digitChar.isDigit := by
            decide
          exact ⟨_, [], rfl, hdigit n hsmall hpos⟩
      · rw [Nat.toDigits_of_base_le (by decide) (Nat.not_lt.mp hsmall)]
        right
        rcases ih (n / 10) (by omega) with hzero | ⟨c, rest, heq, hc⟩
        · have h := Nat.ofDigitChars_ten_toDigits (n := n / 10)
          rw [hzero] at h
          have hnone : n / 10 = 0 := h.symm
          omega
        · exact ⟨c, _, by rw [heq]; rfl, hc⟩

theorem isUnsigned_natText
    (n : Nat) :
    isUnsigned (Nat.toDigits 10 n) = true := by
  rcases natText_cases n with hzero | ⟨c, rest, heq, hc, hdigit⟩
  · rw [hzero]
    rfl
  · have hall : ∀ d ∈ rest, d.isDigit := by
      intro d hd
      apply isDigit_of_mem_natText (n := n)
      rw [heq]
      exact List.mem_cons_of_mem c hd
    have hdrop : rest.dropWhile Char.isDigit = [] :=
      List.dropWhile_eq_nil_iff.mpr hall
    rw [heq]
    unfold isUnsigned
    simp [hdigit, hdrop, isFraction, isExponent]

theorem numberText_intText
    (i : Int) :
    NumberText (intText i) := by
  have hdigits : ∀ c ∈ Nat.toDigits 10 i.natAbs, isNumberChar c := by
    intro c hc
    simp [isNumberChar, isDigit_of_mem_natText hc]
  unfold intText
  split_ifs with hneg
  · refine ⟨?_, isUnsigned_natText _⟩
    simpa [isNumberChar] using hdigits
  · refine ⟨hdigits, ?_⟩
    rcases natText_cases i.natAbs with hzero | ⟨c, rest, heq, hc, hdigit⟩
    · rw [hzero]
      rfl
    · have hne : c ≠ '-' := by
        rintro rfl
        exact absurd hdigit (by decide)
      have h := isUnsigned_natText i.natAbs
      rw [heq] at h ⊢
      rw [isNumber]
      · exact h
      · rintro rest' h'
        exact hne (List.cons.inj h').1

theorem asInt_intText
    (i : Int) :
    asInt (intText i) = some i := by
  have hne : Nat.toDigits 10 i.natAbs ≠ [] := Nat.toDigits_ne_nil
  have hall : (Nat.toDigits 10 i.natAbs).all Char.isDigit = true := by
    rw [List.all_eq_true]
    exact fun c hc => isDigit_of_mem_natText hc
  unfold intText
  split_ifs with hneg
  · rw [asInt]
    simp only [List.isEmpty_eq_false_iff.mpr hne, hall, Bool.not_false,
      Bool.and_self, if_true, Nat.ofDigitChars_ten_toDigits]
    congr 1
    omega
  · cases htext : Nat.toDigits 10 i.natAbs with
    | nil => exact absurd htext hne
    | cons c rest =>
        have hdigit : c.isDigit :=
          isDigit_of_mem_natText (by rw [htext]; exact List.mem_cons_self)
        have hminus : c ≠ '-' := by
          rintro rfl
          exact absurd hdigit (by decide)
        rw [asInt]
        · rw [← htext]
          simp only [List.isEmpty_eq_false_iff.mpr hne, hall,
            Bool.not_false, Bool.and_self, if_true,
            Nat.ofDigitChars_ten_toDigits]
          congr 1
          omega
        · rintro rest' h'
          exact hminus (List.cons.inj h').1

end Numbers

section Documents

mutual

/-- The compact text of a value. -/
def print : Value → List Char
  | .null => ['n', 'u', 'l', 'l']
  | .bool true => ['t', 'r', 'u', 'e']
  | .bool false => ['f', 'a', 'l', 's', 'e']
  | .num text => text
  | .str text => printString text
  | .arr items => '[' :: ([','].intercalate (printItems items) ++ [']'])
  | .obj members =>
      '{' :: ([','].intercalate (printMembers members) ++ ['}'])
  | .garbled => []

def printItems : List Value → List (List Char)
  | [] => []
  | value :: items => print value :: printItems items

def printMembers : List (List Char × Value) → List (List Char)
  | [] => []
  | (name, value) :: members =>
      (printString name ++ ':' :: print value) :: printMembers members

end

def isWhitespace (c : Char) : Bool :=
  c == ' ' || c == '\t' || c == '\n' || c == '\r'

def skipWhitespace (s : List Char) : List Char :=
  s.dropWhile isWhitespace

/-- A parser: what it read, and what is left. -/
abbrev Parser (α : Type) :=
  List Char → Option (α × List Char)

/-- A member of an object: its name, a colon and its value. -/
def parseMember
    (value : Parser Value) : Parser (Option (List Char) × Value) :=
  fun s =>
    match skipWhitespace s with
    | '"' :: s =>
        match parseString s with
        | none => none
        | some (name, s) =>
            match skipWhitespace s with
            | ':' :: s =>
                match value s with
                | none => none
                | some (v, s) => some ((name, v), s)
            | _ => none
    | _ => none

/-- Items between commas up to a closing character; `n` bounds them. -/
def parseUntil
    {α : Type}
    (close : Char)
    (item : Parser α) : Nat → Parser (List α)
  | 0, _ => none
  | n + 1, s =>
      match item s with
      | none => none
      | some (a, s) =>
          match skipWhitespace s with
          | [] => none
          | c :: s =>
              if c = close then
                some ([a], s)
              else if c = ',' then
                match parseUntil close item n s with
                | none => none
                | some (items, s) => some (a :: items, s)
              else
                none

/-- The inside of brackets, which may be empty. -/
def parseBody
    {α : Type}
    (close : Char)
    (item : Parser α) : Parser (List α) := fun s =>
  match skipWhitespace s with
  | [] => none
  | c :: rest =>
      if c = close then
        some ([], rest)
      else
        parseUntil close item s.length s

/-- A literal name. -/
def parseWord (word : List Char) (value : Value) : Parser Value :=
  fun s =>
    if word.isPrefixOf s then
      some (value, s.drop word.length)
    else
      none

/-- The value of a string. -/
def stringOf : Option (List Char) → Value
  | some text => .str text
  | none => .garbled

/-- The value of an object. -/
def objectOf (members : List (Option (List Char) × Value)) : Value :=
  match members.mapM fun m => m.1.map fun name => (name, m.2) with
  | some members => .obj members
  | none => .garbled

/-- A value within so many levels of arrays and objects. -/
def parseValue (depth : Nat) : Parser Value := fun s =>
  match skipWhitespace s with
  | [] => none
  | c :: rest =>
      if c = 'n' then
        parseWord ['u', 'l', 'l'] .null rest
      else if c = 't' then
        parseWord ['r', 'u', 'e'] (.bool true) rest
      else if c = 'f' then
        parseWord ['a', 'l', 's', 'e'] (.bool false) rest
      else if c = '"' then
        (parseString rest).map fun p => (stringOf p.1, p.2)
      else if c = '[' then
        match depth with
        | 0 => none
        | depth + 1 =>
            (parseBody ']' (parseValue depth) rest).map
              fun p => (.arr p.1, p.2)
      else if c = '{' then
        match depth with
        | 0 => none
        | depth + 1 =>
            (parseBody '}' (parseMember (parseValue depth)) rest).map
              fun p => (objectOf p.1, p.2)
      else
        (parseNumber (c :: rest)).map fun p => (.num p.1, p.2)

/-- One value with nothing but white space around it. -/
def parse (depth : Nat) (text : List Char) : Option Value :=
  match parseValue depth text with
  | none => none
  | some (value, rest) =>
      if skipWhitespace rest = [] then some value else none

/-- Numbers are spelled as numbers and nesting stays within a depth. -/
def Fits : Nat → Value → Prop
  | _, .garbled => False
  | _, .num text => NumberText text
  | 0, .arr _ => False
  | 0, .obj _ => False
  | depth + 1, .arr items => ∀ v ∈ items, Fits depth v
  | depth + 1, .obj members => ∀ m ∈ members, Fits depth m.2
  | _, _ => True

end Documents

section RoundTrip

theorem printItems_eq
    (items : List Value) :
    printItems items = items.map print := by
  induction items with
  | nil => rfl
  | cons v items ih => simp [printItems, ih]

theorem printMembers_eq
    (members : List (List Char × Value)) :
    printMembers members =
      members.map fun m => printString m.1 ++ ':' :: print m.2 := by
  induction members with
  | nil => rfl
  | cons m members ih => simp [printMembers, ih]

/-- A text that opens with something other than space and a closing. -/
def Opens (s : List Char) : Prop :=
  ∃ c rest, s = c :: rest ∧ isWhitespace c = false ∧ c ≠ ']' ∧ c ≠ '}'

theorem Opens.append
    {s : List Char}
    (h : Opens s)
    (more : List Char) :
    Opens (s ++ more) := by
  obtain ⟨c, rest, rfl, hc⟩ := h
  exact ⟨c, rest ++ more, rfl, hc⟩

theorem Opens.skipWhitespace_eq
    {s : List Char}
    (h : Opens s) :
    skipWhitespace s = s := by
  obtain ⟨c, rest, rfl, hc, _⟩ := h
  simp [skipWhitespace, hc]

theorem skipWhitespace_cons
    {c : Char}
    (h : isWhitespace c = false)
    (rest : List Char) :
    skipWhitespace (c :: rest) = c :: rest := by
  simp [skipWhitespace, h]

/-- A character that closes an array or an object. -/
def Closing (c : Char) : Prop :=
  c = ']' ∨ c = '}'

theorem Closing.spec
    {c : Char}
    (h : Closing c) :
    isWhitespace c = false ∧ isNumberChar c = false ∧ c ≠ ',' := by
  rcases h with rfl | rfl <;> decide

/-- The first character of a number is a digit or a minus sign. -/
theorem NumberText.head
    {text : List Char}
    (h : NumberText text) :
    ∃ c rest, text = c :: rest ∧ (c.isDigit ∨ c = '-') := by
  have hnumber := h.number
  cases text with
  | nil => exact absurd hnumber (by decide)
  | cons c rest =>
      refine ⟨c, rest, rfl, ?_⟩
      by_cases hminus : c = '-'
      · exact Or.inr hminus
      left
      by_cases hzero : c = '0'
      · rw [hzero]
        decide
      rw [isNumber] at hnumber
      · rw [isUnsigned] at hnumber
        · exact (Bool.and_eq_true _ _ ▸ hnumber).1
        · exact hzero
      · rintro rest' h'
        exact hminus (List.cons.inj h').1

/-- What a digit or a minus sign is not. -/
theorem ne_of_digit_or_minus
    {c d : Char}
    (h : c.isDigit ∨ c = '-')
    (hd : d.isDigit = false ∧ d ≠ '-') :
    c ≠ d := by
  rintro rfl
  rcases h with hdigit | rfl
  · rw [hd.1] at hdigit
    cases hdigit
  · exact hd.2 rfl

theorem opens_print
    {depth : Nat}
    {v : Value}
    (h : Fits depth v) :
    Opens (print v) := by
  cases v with
  | null => exact ⟨_, _, rfl, by decide⟩
  | bool b => cases b <;> exact ⟨_, _, rfl, by decide⟩
  | str text => exact ⟨_, _, rfl, by decide⟩
  | arr items => exact ⟨_, _, rfl, by decide⟩
  | obj members => exact ⟨_, _, rfl, by decide⟩
  | garbled => cases depth <;> exact h.elim
  | num text =>
      have htext : NumberText text := by
        cases depth <;> exact h
      obtain ⟨c, rest, heq, hc⟩ := htext.head
      refine ⟨c, rest, heq, ?_, ne_of_digit_or_minus hc (by decide),
        ne_of_digit_or_minus hc (by decide)⟩
      simp [isWhitespace, ne_of_digit_or_minus hc (d := ' ') (by decide),
        ne_of_digit_or_minus hc (d := '\t') (by decide),
        ne_of_digit_or_minus hc (d := '\n') (by decide),
        ne_of_digit_or_minus hc (d := '\r') (by decide)]

section Sequences

variable {α : Type} {item : Parser α} {close : Char}

/-- A text is read as a value whatever may follow it. -/
def Reads (item : Parser α) (a : α) (text : List Char) : Prop :=
  ∀ rest, Follows rest → item (text ++ rest) = some (a, rest)

theorem follows_cons
    {c : Char}
    (h : isNumberChar c = false)
    (rest : List Char) :
    Follows (c :: rest) := by
  intro d hd
  obtain rfl := Option.some.inj hd
  simp [h]

/-- Items between commas are read up to the closing character. -/
theorem parseUntil_intercalate
    (hclose : Closing close)
    {items : List (α × List Char)}
    (hne : items ≠ [])
    (hreads : ∀ p ∈ items, Reads item p.1 p.2)
    {n : Nat}
    (hn : items.length ≤ n)
    (rest : List Char) :
    parseUntil close item n
        ([','].intercalate (items.map Prod.snd) ++ close :: rest) =
      some (items.map Prod.fst, rest) := by
  obtain ⟨hspace, hnumber, hcomma⟩ := hclose.spec
  induction items generalizing n with
  | nil => exact absurd rfl hne
  | cons p items ih =>
      obtain ⟨n, rfl⟩ : ∃ m, n = m + 1 :=
        ⟨n - 1, by simp at hn; omega⟩
      have hp := hreads p List.mem_cons_self
      cases items with
      | nil =>
          have hread := hp (close :: rest) (follows_cons hnumber rest)
          simp [parseUntil, hread, skipWhitespace_cons hspace]
      | cons q items =>
          have htail :=
            ih (by simp)
              (fun r hr => hreads r (List.mem_cons_of_mem p hr))
              (n := n) (by simpa using hn)
          have htext :
              [','].intercalate ((p :: q :: items).map Prod.snd) ++
                  close :: rest =
                p.2 ++ ',' ::
                  ([','].intercalate ((q :: items).map Prod.snd) ++
                    close :: rest) := by
            simp [List.intercalate_cons_cons]
          have hread :=
            hp (',' ::
                ([','].intercalate ((q :: items).map Prod.snd) ++
                  close :: rest))
              (follows_cons (by decide) _)
          have hspaceComma : isWhitespace ',' = false := by decide
          rw [htext, parseUntil, hread]
          simp only [skipWhitespace_cons hspaceComma,
            if_neg hcomma.symm, if_true]
          rw [htail]
          rfl

/-- Commas alone make a text almost as long as its list. -/
theorem length_le_intercalate
    (texts : List (List Char)) :
    texts.length ≤ ([','].intercalate texts).length + 1 := by
  induction texts with
  | nil => simp
  | cons t texts ih =>
      cases texts with
      | nil => simp
      | cons u texts =>
          rw [List.intercalate_cons_cons]
          simp only [List.length_cons, List.length_append] at ih ⊢
          omega

/-- The inside of brackets, empty or not. -/
theorem parseBody_intercalate
    (hclose : Closing close)
    {items : List (α × List Char)}
    (hopens : ∀ p ∈ items, Opens p.2)
    (hreads : ∀ p ∈ items, Reads item p.1 p.2)
    (rest : List Char) :
    parseBody close item
        ([','].intercalate (items.map Prod.snd) ++ close :: rest) =
      some (items.map Prod.fst, rest) := by
  obtain ⟨hspace, hnumber, hcomma⟩ := hclose.spec
  cases items with
  | nil => simp [parseBody, skipWhitespace_cons hspace]
  | cons p items =>
      have hp := hopens p List.mem_cons_self
      have hopen :
          Opens
            ([','].intercalate ((p :: items).map Prod.snd) ++
              close :: rest) := by
        cases items with
        | nil => simpa using hp.append (close :: rest)
        | cons q items =>
            simpa [List.intercalate_cons_cons] using hp.append _
      have hlength :
          (p :: items).length ≤
            ([','].intercalate ((p :: items).map Prod.snd) ++
              close :: rest).length := by
        have h := length_le_intercalate ((p :: items).map Prod.snd)
        rw [List.length_map] at h
        simp only [List.length_append, List.length_cons] at h ⊢
        omega
      have huntil :=
        parseUntil_intercalate hclose (List.cons_ne_nil p items) hreads
          hlength rest
      rw [parseBody, hopen.skipWhitespace_eq]
      obtain ⟨c, tail, htext, _, hbracket, hbrace⟩ := hopen
      rw [htext] at huntil ⊢
      have hc : c ≠ close := by
        rcases hclose with rfl | rfl
        · exact hbracket
        · exact hbrace
      simp only [if_neg hc, huntil]

end Sequences

/-- A member is read back with its name. -/
theorem reads_member
    {value : Parser Value}
    {v : Value}
    {text : List Char}
    (h : Reads value v text)
    (name : List Char) :
    Reads (parseMember value) (some name, v)
      (printString name ++ ':' :: text) := by
  intro rest hrest
  have hquote : isWhitespace '"' = false := by decide
  have hcolon : isWhitespace ':' = false := by decide
  have hname := parseString_escaped name (':' :: (text ++ rest))
  have hvalue := h rest hrest
  simp only [printString, List.cons_append, List.append_assoc,
    List.nil_append] at hname ⊢
  simp only [parseMember, skipWhitespace_cons hquote, hname,
    skipWhitespace_cons hcolon, hvalue]

theorem parseWord_append
    (word : List Char)
    (v : Value)
    (rest : List Char) :
    parseWord word v (word ++ rest) = some (v, rest) := by
  simp [parseWord]

/-- A number is read back by its first character. -/
theorem reads_number
    (depth : Nat)
    {text : List Char}
    (h : NumberText text) :
    Reads (parseValue depth) (.num text) text := by
  intro rest hrest
  have hfits : Fits depth (.num text) := by
    cases depth <;> exact h
  have hopen : Opens text := opens_print hfits
  have hspace := (hopen.append rest).skipWhitespace_eq
  have hnumber := parseNumber_append h hrest
  obtain ⟨c, tail, rfl, hc⟩ := h.head
  rw [List.cons_append] at hspace hnumber ⊢
  rw [parseValue.eq_def]
  simp only [hspace,
    if_neg (ne_of_digit_or_minus hc (d := 'n') (by decide)),
    if_neg (ne_of_digit_or_minus hc (d := 't') (by decide)),
    if_neg (ne_of_digit_or_minus hc (d := 'f') (by decide)),
    if_neg (ne_of_digit_or_minus hc (d := '"') (by decide)),
    if_neg (ne_of_digit_or_minus hc (d := '[') (by decide)),
    if_neg (ne_of_digit_or_minus hc (d := '{') (by decide))]
  rw [hnumber]
  rfl

/-- A value without items is read back at every depth. -/
theorem reads_literal
    (depth : Nat)
    (word : List Char)
    {c : Char}
    {v : Value}
    (hc : c = 'n' ∧ v = .null ∧ word = ['u', 'l', 'l'] ∨
      c = 't' ∧ v = .bool true ∧ word = ['r', 'u', 'e'] ∨
      c = 'f' ∧ v = .bool false ∧ word = ['a', 'l', 's', 'e']) :
    Reads (parseValue depth) v (c :: word) := by
  intro rest _
  have hword := parseWord_append word v rest
  rcases hc with ⟨rfl, rfl, rfl⟩ | ⟨rfl, rfl, rfl⟩ | ⟨rfl, rfl, rfl⟩ <;>
    · rw [parseValue.eq_def, List.cons_append,
        skipWhitespace_cons (by decide)]
      simpa using hword

theorem reads_string
    (depth : Nat)
    (text : List Char) :
    Reads (parseValue depth) (.str text) (printString text) := by
  intro rest _
  have hchars := parseString_escaped text rest
  rw [parseValue.eq_def, printString, List.cons_append,
    skipWhitespace_cons (by decide), List.append_assoc]
  simp [hchars, stringOf]

theorem objectOf_map_some
    (members : List (List Char × Value)) :
    objectOf (members.map fun m => (some m.1, m.2)) = .obj members := by
  have hmap :
      (members.map fun m => (some m.1, m.2)).mapM
          (fun m : Option (List Char) × Value =>
            m.1.map fun name => (name, m.2)) =
        some members := by
    induction members with
    | nil => rfl
    | cons m members ih =>
        rw [List.map_cons, List.mapM_cons, ih]
        rfl
  rw [objectOf, hmap]

/-- Whatever fits a depth is read back from its text. -/
theorem reads_print
    {depth : Nat}
    {v : Value}
    (h : Fits depth v) :
    Reads (parseValue depth) v (print v) := by
  induction depth generalizing v with
  | zero =>
      cases v with
      | null => exact reads_literal 0 ['u', 'l', 'l'] (by simp)
      | bool b => cases b <;> exact reads_literal 0 _ (by simp)
      | num text => exact reads_number 0 h
      | str text => exact reads_string 0 text
      | arr items => exact h.elim
      | obj members => exact h.elim
      | garbled => exact h.elim
  | succ depth ih =>
      cases v with
      | null => exact reads_literal (depth + 1) ['u', 'l', 'l'] (by simp)
      | bool b => cases b <;> exact reads_literal (depth + 1) _ (by simp)
      | num text => exact reads_number (depth + 1) h
      | str text => exact reads_string (depth + 1) text
      | garbled => exact h.elim
      | arr items =>
          intro rest _
          have hopens :
              ∀ p ∈ items.map fun v => (v, print v), Opens p.2 := by
            intro p hp
            obtain ⟨v, hv, rfl⟩ := List.mem_map.mp hp
            exact opens_print (h v hv)
          have hreads :
              ∀ p ∈ items.map fun v => (v, print v),
                Reads (parseValue depth) p.1 p.2 := by
            intro p hp
            obtain ⟨v, hv, rfl⟩ := List.mem_map.mp hp
            exact ih (h v hv)
          have hbody :=
            parseBody_intercalate (Or.inl rfl) hopens hreads rest
          rw [parseValue.eq_def, print, List.cons_append,
            skipWhitespace_cons (by decide), printItems_eq]
          simpa [Function.comp_def] using hbody
      | obj members =>
          intro rest _
          let text := fun m : List Char × Value =>
            printString m.1 ++ ':' :: print m.2
          have hopens :
              ∀ p ∈ members.map fun m => ((some m.1, m.2), text m),
                Opens p.2 := by
            intro p hp
            obtain ⟨m, _, rfl⟩ := List.mem_map.mp hp
            exact ⟨_, _, rfl, by decide⟩
          have hreads :
              ∀ p ∈ members.map fun m => ((some m.1, m.2), text m),
                Reads (parseMember (parseValue depth)) p.1 p.2 := by
            intro p hp
            obtain ⟨m, hm, rfl⟩ := List.mem_map.mp hp
            exact reads_member (ih (h m hm)) m.1
          have hbody :=
            parseBody_intercalate (Or.inr rfl) hopens hreads rest
          rw [parseValue.eq_def, print, List.cons_append,
            skipWhitespace_cons (by decide), printMembers_eq]
          simp only [List.map_map, Function.comp_def, text] at hbody
          simp [hbody, objectOf_map_some]

/-- The text of a value parses to the value. -/
theorem parse_print
    {depth : Nat}
    {v : Value}
    (h : Fits depth v) :
    parse depth (print v) = some v := by
  have hread := reads_print h [] (by simp [Follows])
  rw [List.append_nil] at hread
  simp [parse, hread, skipWhitespace]

/-- A deeper limit lets more values through. -/
theorem Fits.mono
    {depth limit : Nat}
    {v : Value}
    (h : Fits depth v)
    (hle : depth ≤ limit) :
    Fits limit v := by
  induction depth generalizing v limit with
  | zero =>
      cases v with
      | arr items => exact h.elim
      | obj members => exact h.elim
      | garbled => exact h.elim
      | num text => cases limit <;> exact h
      | null => cases limit <;> trivial
      | bool b => cases limit <;> trivial
      | str text => cases limit <;> trivial
  | succ depth ih =>
      obtain ⟨limit, rfl⟩ : ∃ n, limit = n + 1 :=
        ⟨limit - 1, by omega⟩
      cases v with
      | arr items => exact fun v hv => ih (h v hv) (by omega)
      | obj members => exact fun m hm => ih (h m hm) (by omega)
      | garbled => exact h.elim
      | num text => exact h
      | null => trivial
      | bool b => trivial
      | str text => trivial

theorem length_le_intercalate_of_mem
    {texts : List (List Char)}
    {text : List Char}
    (h : text ∈ texts) :
    text.length ≤ ([','].intercalate texts).length := by
  induction texts with
  | nil => cases h
  | cons t texts ih =>
      cases texts with
      | nil => simp_all
      | cons u texts =>
          rw [List.intercalate_cons_cons]
          simp only [List.length_append]
          rcases List.mem_cons.mp h with rfl | hrest
          · omega
          · have := ih hrest
            omega

/-- A value nests no deeper than its text is long. -/
theorem Fits.length
    {depth : Nat}
    {v : Value}
    (h : Fits depth v) :
    Fits (print v).length v := by
  induction depth generalizing v with
  | zero =>
      exact h.mono (Nat.zero_le _)
  | succ depth ih =>
      have hinner :
          ∀ texts : List (List Char),
            ∃ n, (([','].intercalate texts).length + 2 = n + 1) ∧
              ∀ text ∈ texts, text.length ≤ n := by
        intro texts
        refine ⟨([','].intercalate texts).length + 1, rfl, ?_⟩
        intro text htext
        have := length_le_intercalate_of_mem htext
        omega
      cases v with
      | null => trivial
      | bool b => cases b <;> trivial
      | str text => trivial
      | garbled => exact h.elim
      | num text =>
          generalize (print (.num text)).length = limit
          cases limit <;> exact h
      | arr items =>
          obtain ⟨n, hn, hle⟩ := hinner (items.map print)
          have hlength : (print (.arr items)).length = n + 1 := by
            rw [← hn, print, printItems_eq]
            simp
          rw [hlength]
          intro v hv
          exact (ih (h v hv)).mono (hle _ (List.mem_map_of_mem hv))
      | obj members =>
          obtain ⟨n, hn, hle⟩ :=
            hinner
              (members.map fun m => printString m.1 ++ ':' :: print m.2)
          have hlength : (print (.obj members)).length = n + 1 := by
            rw [← hn, print, printMembers_eq]
            simp
          rw [hlength]
          intro m hm
          have hmember :=
            hle (printString m.1 ++ ':' :: print m.2)
              (List.mem_map.mpr ⟨m, hm, rfl⟩)
          rw [List.length_append, List.length_cons] at hmember
          exact (ih (h m hm)).mono (by omega)

/-- What holds of a comma and in every text holds in between, too. -/
theorem forall_mem_intercalate
    {P : Char → Prop}
    (hcomma : P ',')
    {texts : List (List Char)}
    (h : ∀ text ∈ texts, ∀ c ∈ text, P c) :
    ∀ c ∈ [','].intercalate texts, P c := by
  induction texts with
  | nil => simp [List.intercalate]
  | cons text texts ih =>
      rw [List.forall_mem_cons] at h
      cases texts with
      | nil => simpa using h.1
      | cons text' texts =>
          intro c hc
          rw [List.intercalate_cons_cons] at hc
          simp only [List.mem_append, List.mem_singleton] at hc
          rcases hc with (hc | rfl) | hc
          · exact h.1 c hc
          · exact hcomma
          · exact ih h.2 c hc

theorem hexDigit_ge :
    ∀ n < 16, 32 ≤ (hexDigit n).toNat := by
  decide

theorem escapeChar_ge
    (c : Char) :
    ∀ d ∈ escapeChar c, 32 ≤ d.toNat := by
  unfold escapeChar
  cases hshort : shortEscape c with
  | some e =>
      have he : 32 ≤ e.toNat := by
        unfold shortEscape at hshort
        split_ifs at hshort <;>
          obtain rfl := Option.some.inj hshort <;>
          decide
      simpa using he
  | none =>
      split_ifs with hcontrol
      · have hhigh := hexDigit_ge (c.toNat / 16) (by omega)
        have hlow := hexDigit_ge (c.toNat % 16) (by omega)
        simp [hhigh, hlow]
      · simpa using hcontrol

theorem printString_ge
    (text : List Char) :
    ∀ c ∈ printString text, 32 ≤ c.toNat := by
  intro c hc
  simp only [printString, List.mem_cons, List.mem_append,
    List.mem_flatMap, List.not_mem_nil, or_false] at hc
  rcases hc with rfl | ⟨d, _, hc⟩ | rfl
  · decide
  · exact escapeChar_ge d c hc
  · decide

theorem isNumberChar_ge
    {c : Char}
    (h : isNumberChar c = true) :
    32 ≤ c.toNat := by
  simp only [isNumberChar, Bool.or_eq_true, beq_iff_eq] at h
  rcases h with ((((h | rfl) | rfl) | rfl) | rfl) | rfl
  · have hdigit : 48 ≤ c.toNat ∧ c.toNat ≤ 57 :=
      Char.isDigit_iff_toNat.mp h
    omega
  all_goals decide

theorem literal_ge
    {v : Value}
    (h : v = .null ∨ ∃ b, v = .bool b) :
    ∀ c ∈ print v, 32 ≤ c.toNat := by
  rcases h with rfl | ⟨b, rfl⟩
  · simp [print]
  · cases b <;> simp [print]

/-- Nothing that is printed is a control character. -/
theorem print_ge
    {depth : Nat}
    {v : Value}
    (h : Fits depth v) :
    ∀ c ∈ print v, 32 ≤ c.toNat := by
  induction depth generalizing v with
  | zero =>
      cases v with
      | null => exact literal_ge (.inl rfl)
      | bool b => exact literal_ge (.inr ⟨b, rfl⟩)
      | num text => exact fun c hc => isNumberChar_ge (h.chars c hc)
      | str text => exact printString_ge text
      | arr items => exact h.elim
      | obj members => exact h.elim
      | garbled => exact h.elim
  | succ depth ih =>
      cases v with
      | null => exact literal_ge (.inl rfl)
      | bool b => exact literal_ge (.inr ⟨b, rfl⟩)
      | num text => exact fun c hc => isNumberChar_ge (h.chars c hc)
      | str text => exact printString_ge text
      | garbled => exact h.elim
      | arr items =>
          have hitems :=
            @forall_mem_intercalate (fun c => 32 ≤ c.toNat) (by decide)
              (items.map print) fun text htext => by
                obtain ⟨v, hv, rfl⟩ := List.mem_map.mp htext
                exact ih (h v hv)
          simp only [print, printItems_eq, List.mem_cons,
            List.mem_append, List.not_mem_nil, or_false]
          rintro c (rfl | hc | rfl)
          · decide
          · exact hitems c hc
          · decide
      | obj members =>
          have hmembers :=
            @forall_mem_intercalate (fun c => 32 ≤ c.toNat) (by decide)
              (members.map fun m => printString m.1 ++ ':' :: print m.2)
              fun text htext => by
                obtain ⟨m, hm, rfl⟩ := List.mem_map.mp htext
                simp only [List.mem_append, List.mem_cons]
                rintro c (hc | rfl | hc)
                · exact printString_ge m.1 c hc
                · decide
                · exact ih (h m hm) c hc
          simp only [print, printMembers_eq, List.mem_cons,
            List.mem_append, List.not_mem_nil, or_false]
          rintro c (rfl | hc | rfl)
          · decide
          · exact hmembers c hc
          · decide

end RoundTrip

section Bytes

/-- The UTF-8 bytes of a text. -/
def toBytes (text : List Char) : List UInt8 :=
  text.flatMap String.utf8EncodeChar

/-- The text of valid UTF-8. -/
def ofBytes (bytes : List UInt8) : Option (List Char) :=
  (ByteArray.utf8Decode? ⟨bytes.toArray⟩).map Array.toList

theorem ofBytes_toBytes
    (text : List Char) :
    ofBytes (toBytes text) = some text := by
  have hbytes : (⟨(toBytes text).toArray⟩ : ByteArray) = text.utf8Encode := by
    rw [ByteArray.ext_iff, List.utf8Encode, List.data_toByteArray]
    rfl
  rw [ofBytes, hbytes, List.utf8Decode?_utf8Encode]
  rfl

/-- At most so many characters of a text that need not be valid UTF-8. -/
def scalars : Nat → List UInt8 → List Char
  | 0, _ => []
  | _, [] => []
  | n + 1, byte :: bytes =>
      match ByteArray.utf8DecodeChar? ⟨(byte :: bytes).toArray⟩ 0 with
      | none => badByte :: scalars n bytes
      | some c =>
          -- a NUL that is there remains a control character
          (if c = badByte then Char.ofNat 1 else c) ::
            scalars n ((byte :: bytes).drop c.utf8Size)

theorem scalars_toBytes
    {text : List Char}
    (h : ∀ c ∈ text, 32 ≤ c.toNat)
    {n : Nat}
    (hn : (toBytes text).length ≤ n) :
    scalars n (toBytes text) = text := by
  induction text generalizing n with
  | nil => cases n <;> rfl
  | cons c text ih =>
      rw [List.forall_mem_cons] at h
      have hcons :
          toBytes (c :: text) = String.utf8EncodeChar c ++ toBytes text :=
        rfl
      have hsize : (String.utf8EncodeChar c).length = c.utf8Size :=
        String.length_utf8EncodeChar c
      have hpos := c.utf8Size_pos
      have hdecode :
          ByteArray.utf8DecodeChar?
              ⟨(String.utf8EncodeChar c ++ toBytes text).toArray⟩ 0 =
            some c := by
        have happend :
            (⟨(String.utf8EncodeChar c ++ toBytes text).toArray⟩ :
                ByteArray) =
              (String.utf8EncodeChar c).toByteArray ++
                (toBytes text).toByteArray := by
          rw [← List.toByteArray_append, ByteArray.ext_iff,
            List.data_toByteArray]
        rw [happend, ByteArray.utf8DecodeChar?_utf8EncodeChar_append]
      have hbad : c ≠ badByte := by
        rintro rfl
        exact absurd h.1 (by decide)
      have hdrop :
          (String.utf8EncodeChar c ++ toBytes text).drop c.utf8Size =
            toBytes text := by
        rw [← hsize, List.drop_left]
      rw [hcons, List.length_append, hsize] at hn
      rw [hcons]
      obtain ⟨n, rfl⟩ : ∃ m, n = m + 1 := ⟨n - 1, by omega⟩
      cases hbytes : String.utf8EncodeChar c ++ toBytes text with
      | nil =>
          have hlength := congrArg List.length hbytes
          rw [List.length_append, hsize, List.length_nil] at hlength
          omega
      | cons byte bytes =>
          rw [hbytes] at hdecode hdrop
          simp only [scalars, hdecode, if_neg hbad, hdrop]
          rw [ih h.2 (by omega)]

/-- No character takes less than a byte. -/
theorem length_le_toBytes
    (text : List Char) :
    text.length ≤ (toBytes text).length := by
  induction text with
  | nil => exact Nat.le_refl 0
  | cons c text ih =>
      have hc : 0 < (String.utf8EncodeChar c).length := by
        rw [String.length_utf8EncodeChar]
        exact c.utf8Size_pos
      simp only [toBytes, List.flatMap_cons, List.length_append,
        List.length_cons] at ih ⊢
      omega

/-- Compact JSON in UTF-8. -/
def encode (value : Value) : List UInt8 :=
  toBytes (print value)

/-- A document that nests at most so deep. -/
def decode (depth : Nat) (bytes : List UInt8) : Option Value :=
  parse depth (scalars bytes.length bytes)

/-- Encoded values are decoded to themselves. -/
theorem decode_encode
    {depth : Nat}
    {value : Value}
    (h : Fits depth value) :
    decode depth (encode value) = some value := by
  rw [decode, encode, scalars_toBytes (print_ge h) le_rfl]
  exact parse_print h

/-- A limit as long as the document never binds. -/
theorem decode_encode_length
    {depth : Nat}
    {value : Value}
    (h : Fits depth value) :
    decode (encode value).length (encode value) = some value :=
  decode_encode (h.length.mono (length_le_toBytes (print value)))

end Bytes

section Comparison

mutual

/-- Whether two values are the same. -/
def same : Value → Value → Bool
  | .null, .null => true
  | .bool a, .bool b => a == b
  | .num a, .num b => a == b
  | .str a, .str b => a == b
  | .arr a, .arr b => sameItems a b
  | .obj a, .obj b => sameMembers a b
  | .garbled, .garbled => true
  | _, _ => false

def sameItems : List Value → List Value → Bool
  | [], [] => true
  | v :: a, w :: b => same v w && sameItems a b
  | _, _ => false

def sameMembers :
    List (List Char × Value) → List (List Char × Value) → Bool
  | [], [] => true
  | (name, v) :: a, (name', w) :: b =>
      name == name' && same v w && sameMembers a b
  | _, _ => false

end

mutual

theorem eq_of_same
    (a b : Value)
    (h : same a b = true) :
    a = b := by
  cases a with
  | arr items =>
      cases b with
      | arr items' => rw [eq_of_sameItems items items' h]
      | _ => simp [same] at h
  | obj members =>
      cases b with
      | obj members' => rw [eq_of_sameMembers members members' h]
      | _ => simp [same] at h
  | _ => cases b <;> simp_all [same]

theorem eq_of_sameItems
    (a b : List Value)
    (h : sameItems a b = true) :
    a = b := by
  cases a with
  | nil => cases b <;> simp_all [sameItems]
  | cons v a =>
      cases b with
      | nil => simp [sameItems] at h
      | cons w b =>
          simp only [sameItems, Bool.and_eq_true] at h
          rw [eq_of_same v w h.1, eq_of_sameItems a b h.2]

theorem eq_of_sameMembers
    (a b : List (List Char × Value))
    (h : sameMembers a b = true) :
    a = b := by
  cases a with
  | nil => cases b <;> simp_all [sameMembers]
  | cons m a =>
      obtain ⟨name, v⟩ := m
      cases b with
      | nil => simp [sameMembers] at h
      | cons m' b =>
          obtain ⟨name', w⟩ := m'
          simp only [sameMembers, Bool.and_eq_true, beq_iff_eq] at h
          rw [h.1.1, eq_of_same v w h.1.2, eq_of_sameMembers a b h.2]

end

end Comparison

end Json
end Samkhya
