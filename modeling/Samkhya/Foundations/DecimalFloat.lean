import Mathlib
import Samkhya.Foundations.Binary64

/-!
# Doubles from text

`f64::from_str` of Rust: an optional sign, then a decimal number with an
optional exponent, or an infinity, or a NaN.  A number gives the nearest double,
ties to even, and an infinity beyond the largest one.

A text of digits never gives a NaN (`spellsNaN_of_parse`), so that a column
without the word has none.
-/

namespace Samkhya
namespace Binary64

/-- The nearest whole number to a quotient, ties to even. -/
def roundQuotient (n d : Nat) : Nat :=
  let q := n / d
  let r := n % d
  if d < 2 * r ∨ 2 * r = d ∧ q % 2 = 1 then q + 1 else q

/-- The bits of the positive infinity. -/
def infinityBits : Nat :=
  2047 * 2 ^ 52

namespace F64

/-- The bits of the nearest double to a quotient. -/
def nearestBits (n d : Nat) : Nat :=
  let scaled := n * unitsPerOne
  let shift := (scaled / d).log2 - 52
  -- a carry out of the significand goes on into the exponent
  Nat.min (shift * 2 ^ 52 + roundQuotient scaled (d * units shift))
    infinityBits

/-- A double of a sign and the bits of a magnitude. -/
def signed (negative : Bool) (bits : Nat) : F64 where
  bits := UInt64.ofNat (if negative then 2 ^ 63 + bits else bits)

/-- A NaN has more than the bits of an infinity. -/
theorem isNaN_signed
    {negative : Bool}
    {bits : Nat}
    (h : bits ≤ infinityBits) :
    (signed negative bits).isNaN = false := by
  unfold infinityBits at h
  have hbits :
      (signed negative bits).bits.toNat =
        if negative then 2 ^ 63 + bits else bits := by
    rw [signed, UInt64.toNat_ofNat_of_lt']
    cases negative <;> simp [UInt64.size] <;> omega
  have hfraction :
      (signed negative bits).exponentField = 2047 →
        (signed negative bits).fractionField = 0 := by
    rw [exponentField, fractionField, hbits]
    cases negative <;> simp only [if_true, if_false,
      Bool.false_eq_true] <;> omega
  simpa [isNaN] using hfraction

namespace Text

/-- The value of a run of digits. -/
def digitsValue (run : List Char) : Nat :=
  run.foldl (fun n c => 10 * n + (c.toNat - '0'.toNat)) 0

/-- An optional sign, and whether it is a minus. -/
def splitSign : List Char → Bool × List Char
  | '-' :: rest => (true, rest)
  | '+' :: rest => (false, rest)
  | text => (false, text)

/-- An exponent to its end. -/
def readExponent (text : List Char) : Option Int :=
  let (negative, run) := splitSign text
  if run = [] ∨ ¬ run.all Char.isDigit then
    none
  else
    some
      (if negative then -(digitsValue run : Int) else digitsValue run)

/-- Digits, of which some follow a point, and an exponent. -/
def readNumber (text : List Char) : Option (Nat × Int) :=
  let whole := text.takeWhile Char.isDigit
  let (decimals, rest) :=
    match text.dropWhile Char.isDigit with
    | '.' :: rest =>
        (rest.takeWhile Char.isDigit, rest.dropWhile Char.isDigit)
    | rest => ([], rest)
  let value := digitsValue (whole ++ decimals)
  if whole = [] ∧ decimals = [] then
    none
  else
    match rest with
    | [] => some (value, -decimals.length)
    | c :: rest =>
        if c = 'e' ∨ c = 'E' then
          (readExponent rest).map fun e => (value, e - decimals.length)
        else
          none

/-- The bits of a number with its power of ten. -/
def numberBits (number : Nat × Int) : Nat :=
  match number.2 with
  | .ofNat e => nearestBits (number.1 * 10 ^ e) 1
  | .negSucc e => nearestBits number.1 (10 ^ (e + 1))

/-- The words, in any case. -/
def readWord (text : List Char) : Option Nat :=
  let word := text.map Char.toLower
  if word = "inf".toList ∨ word = "infinity".toList then
    some infinityBits
  else if word = "nan".toList then
    some 0x7ff8000000000000
  else
    none

end Text

/-- `str::parse::<f64>`. -/
def parse (text : String) : Except String F64 :=
  match text.toList with
  | [] => .error "cannot parse float from empty string"
  | text =>
      let (negative, body) := Text.splitSign text
      match Text.readNumber body with
      | some number => .ok (signed negative (Text.numberBits number))
      | none =>
          match Text.readWord body with
          | some bits => .ok (signed negative bits)
          | none => .error "invalid float literal"

/-- The text is the word for a NaN, up to its sign and case. -/
def SpellsNaN (text : String) : Prop :=
  (Text.splitSign text.toList).2.map Char.toLower = "nan".toList

instance (text : String) : Decidable (SpellsNaN text) :=
  inferInstanceAs (Decidable (_ = _))

theorem Text.numberBits_le
    (number : Nat × Int) :
    Text.numberBits number ≤ infinityBits := by
  unfold Text.numberBits
  cases number.2 with
  | ofNat e => exact Nat.min_le_right _ _
  | negSucc e => exact Nat.min_le_right _ _

/-- Only the word gives a NaN. -/
theorem spellsNaN_of_parse
    {text : String}
    {x : F64}
    (h : parse text = .ok x)
    (hnan : x.isNaN = true) :
    SpellsNaN text := by
  unfold parse at h
  split at h
  · cases h
  · cases hnumber :
        Text.readNumber (Text.splitSign text.toList).2 with
    | some number =>
        simp only [hnumber] at h
        obtain rfl := Except.ok.inj h
        rw [isNaN_signed (Text.numberBits_le number)] at hnan
        cases hnan
    | none =>
        simp only [hnumber, Text.readWord] at h
        split_ifs at h with hinfinity hword
        · obtain rfl := Except.ok.inj h
          rw [isNaN_signed le_rfl] at hnan
          cases hnan
        · exact hword

-- signs, rounding, subnormals, overflow and what is no number
example :
    ["0.1", "-1.5e3", ".5", "5.", "4.9e-324", "1e400", "-iNf", "1e", "."].map
        (fun text => (parse text).toOption.map F64.bits) =
      [some 0x3fb999999999999a, some 0xc097700000000000,
        some 0x3fe0000000000000, some 0x4014000000000000, some 1,
        some 0x7ff0000000000000, some 0xfff0000000000000, none, none] := by
  decide +kernel

end F64

end Binary64
end Samkhya
