import Mathlib
import Samkhya.Foundations.DigitRuns

/-!
# The replies that the two inference servers parse

Both servers take the first run of digits of a model's reply.  A digit is any
decimal digit of Unicode to the Python server and an ASCII digit to the
TypeScript one, and Python refuses to convert more than 4300 digits.
-/

namespace Samkhya
namespace Gpudb

open DigitRuns

/-- `U64_MAX` of both servers. -/
def u64Max : Int :=
  2 ^ 64 - 1

/-- The decimal digits of a version of Unicode, with their values. -/
structure DecimalDigits where
  value : Char → Option Nat
  ascii :
    ∀ c, c.toNat < 128 →
      value c = if c.isDigit then some (c.toNat - 48) else none

namespace DecimalDigits

variable (t : DecimalDigits)

/-- What `\d` matches in a `str`. -/
def isDecimal (c : Char) : Bool :=
  (t.value c).isSome

def digit (c : Char) : Nat :=
  (t.value c).getD 0

theorem value_of_isDigit
    {c : Char}
    (h : c.isDigit) :
    t.value c = some (c.toNat - 48) := by
  have hc : c.toNat < 128 := by
    have hle := (Char.isDigit_iff_toNat.mp h).2
    change c.toNat ≤ 57 at hle
    omega
  rw [t.ascii c hc, if_pos h]

theorem isDecimal_of_isDigit
    {c : Char}
    (h : c.isDigit) :
    t.isDecimal c := by
  simp [isDecimal, t.value_of_isDigit h]

theorem digit_of_isDigit
    {c : Char}
    (h : c.isDigit) :
    t.digit c = c.toNat - 48 := by
  simp [digit, t.value_of_isDigit h]

end DecimalDigits

section Python

/-- Digits that `int` converts at most. -/
def maxStrDigits : Nat :=
  4300

/-- `int` of a string of digits; `none` is its `ValueError`. -/
def int (t : DecimalDigits) (m : List Char) : Option Int :=
  if maxStrDigits < m.length then
    none
  else if m.all t.isDecimal then
    some (readDigits t.digit m)
  else
    none

/-- `_parse_first_integer` of the Python server. -/
def parseFirstIntegerPy
    (t : DecimalDigits)
    (text : List Char) : Option Int :=
  if text = [] then
    none
  else
    let cleaned := text.filter fun c => !(c == ',')
    match search t.isDecimal cleaned with
    | none => none
    | some m =>
        match int t m with
        | none => none
        | some v =>
            if v < 0 then
              none
            else if v > u64Max then
              some u64Max
            else
              some v

end Python

section TypeScript

/-- The code units of a character in a string of JavaScript. -/
def utf16 (c : Char) : List UInt16 :=
  if c.toNat < 0x10000 then
    [UInt16.ofNat c.toNat]
  else
    let v := c.toNat - 0x10000
    [UInt16.ofNat (0xD800 + v / 0x400), UInt16.ofNat (0xDC00 + v % 0x400)]

/-- What `\d` matches in JavaScript. -/
def isDigitUnit (u : UInt16) : Bool :=
  48 ≤ u.toNat && u.toNat ≤ 57

/-- `BigInt` of a string of digits; `none` is its `SyntaxError`. -/
def bigInt (m : List UInt16) : Option Int :=
  if m.all isDigitUnit then
    some (readDigits (fun u => u.toNat - 48) m)
  else
    none

/-- `parseFirstInteger` of the TypeScript server. -/
def parseFirstIntegerTs (text : List UInt16) : Option Int :=
  if text = [] then
    none
  else
    let cleaned := text.filter fun u => !(u == 44)
    match search isDigitUnit cleaned with
    | none => none
    | some m =>
        match bigInt m with
        | none => none
        | some v =>
            if v < 0 then
              none
            else if v > u64Max then
              some u64Max
            else
              some v

end TypeScript

section Encoding

theorem toNat_lt_of_char
    (c : Char) :
    c.toNat < 0x110000 := by
  rcases c.valid with h | h
  · exact h.trans (by decide)
  · exact h.2

theorem utf16_of_lt
    {c : Char}
    (h : c.toNat < 0x10000) :
    ∃ u : UInt16, utf16 c = [u] ∧ u.toNat = c.toNat := by
  refine ⟨UInt16.ofNat c.toNat, if_pos h, ?_⟩
  exact UInt16.toNat_ofNat_of_lt' h

/-- The units of a surrogate pair are above every character of ASCII. -/
theorem le_of_mem_utf16
    {c : Char}
    (h : ¬ c.toNat < 0x10000)
    {u : UInt16}
    (hu : u ∈ utf16 c) :
    0xD800 ≤ u.toNat := by
  have hc := toNat_lt_of_char c
  rw [utf16, if_neg h] at hu
  simp only [List.mem_cons, List.not_mem_nil, or_false] at hu
  rcases hu with rfl | rfl
  · rw [UInt16.toNat_ofNat_of_lt' (by simp only [UInt16.size]; omega)]
    omega
  · rw [UInt16.toNat_ofNat_of_lt' (by simp only [UInt16.size]; omega)]
    omega

theorem utf16_ne_nil
    (c : Char) :
    utf16 c ≠ [] := by
  unfold utf16
  split <;> simp

/-- A class of ASCII characters is kept, whatever it is. -/
theorem keeps_utf16
    {p : Char → Bool}
    {r : UInt16 → Bool}
    (hsame : ∀ c (u : UInt16), u.toNat = c.toNat → p c = r u)
    (hascii : ∀ c, p c → c.toNat < 128)
    (hunit : ∀ u, r u → u.toNat < 128) :
    Keeps utf16 p r where
  pos c hc := by
    have hlt := hascii c hc
    obtain ⟨u, hu, htoNat⟩ := utf16_of_lt (c := c) (by omega)
    exact ⟨u, hu, (hsame c u htoNat) ▸ hc⟩
  neg c hc := by
    refine ⟨utf16_ne_nil c, fun u hu hr => ?_⟩
    by_cases hlt : c.toNat < 0x10000
    · obtain ⟨w, hw, htoNat⟩ := utf16_of_lt hlt
      rw [hw, List.mem_singleton] at hu
      rw [hu, ← hsame c w htoNat] at hr
      exact hc hr
    · have hle := le_of_mem_utf16 hlt hu
      have hunit := hunit u hr
      omega

theorem keeps_digit : Keeps utf16 Char.isDigit isDigitUnit := by
  have hdigit (c : Char) :
      c.isDigit = (decide (48 ≤ c.toNat) && decide (c.toNat ≤ 57)) := by
    rw [Bool.eq_iff_iff, Char.isDigit_iff_toNat]
    simp
  refine keeps_utf16 ?_ ?_ ?_
  · intro c u hu
    rw [hdigit, isDigitUnit, hu]
  · intro c hc
    simp only [hdigit, Bool.and_eq_true, decide_eq_true_eq] at hc
    omega
  · intro u hu
    simp only [isDigitUnit, Bool.and_eq_true, decide_eq_true_eq] at hu
    omega

theorem keeps_comma : Keeps utf16 (· == ',') (· == 44) := by
  refine keeps_utf16 ?_ ?_ ?_
  · intro c u hu
    rw [Bool.eq_iff_iff, beq_iff_eq, beq_iff_eq, ← Char.toNat_inj,
      ← UInt16.toNat_inj, hu]
    rfl
  · intro c hc
    rw [beq_iff_eq.mp hc]
    decide
  · intro u hu
    rw [beq_iff_eq.mp hu]
    decide

/-- A run of digits keeps its values in UTF-16. -/
theorem map_value_utf16
    (t : DecimalDigits)
    {run : List Char}
    (h : ∀ c ∈ run, c.isDigit) :
    (run.flatMap utf16).map (fun u => u.toNat - 48) = run.map t.digit := by
  induction run with
  | nil =>
      rfl
  | cons c run ih =>
      have hc := h c List.mem_cons_self
      have hlt : c.toNat < 0x10000 := by
        have hle := (Char.isDigit_iff_toNat.mp hc).2
        change c.toNat ≤ 57 at hle
        omega
      obtain ⟨u, hu, htoNat⟩ := utf16_of_lt hlt
      rw [List.flatMap_cons, List.map_append, List.map_cons,
        ih fun d hd => h d (List.mem_cons_of_mem c hd), hu,
        t.digit_of_isDigit hc, ← htoNat]
      rfl

end Encoding

section Agreement

def withoutCommas (text : List Char) : List Char :=
  text.filter fun c => !(c == ',')

/-- The run that the Python server converts. -/
def decimalRun (t : DecimalDigits) (text : List Char) : List Char :=
  firstRun t.isDecimal (withoutCommas text)

/-- The run that the TypeScript server converts. -/
def asciiRun (text : List Char) : List Char :=
  firstRun Char.isDigit (withoutCommas text)

/-- Both none, or the same integer in the range of a `u64`. -/
def SameEstimate (a b : Option Int) : Prop :=
  a = none ∧ b = none ∨
    ∃ v, a = some v ∧ b = some v ∧ 0 ≤ v ∧ v ≤ u64Max

/-- The replies that both servers parse alike. -/
inductive Alike (t : DecimalDigits) (text : List Char) : Prop
  /-- No decimal digit of any script. -/
  | noDigit (noDecimal : ∀ c ∈ text, ¬ t.isDecimal c)
  /-- The first run is of ASCII digits, and not too long. -/
  | ascii
      (digits : ∀ c ∈ decimalRun t text, c.isDigit)
      (short : (decimalRun t text).length ≤ maxStrDigits)
  /-- The first run is too long, and there is no ASCII digit at all. -/
  | tooLong
      (long : maxStrDigits < (decimalRun t text).length)
      (noAscii : ∀ c ∈ text, ¬ c.isDigit)
  /-- Another run of ASCII digits spells the number of the first run. -/
  | sameNumber
      (short : (decimalRun t text).length ≤ maxStrDigits)
      (hasAscii : ∃ c ∈ text, c.isDigit)
      (equal :
        spelled t.digit (decimalRun t text) =
            spelled t.digit (asciiRun text) ∨
          u64Max ≤ spelled t.digit (decimalRun t text) ∧
            u64Max ≤ spelled t.digit (asciiRun text))

variable (t : DecimalDigits)

theorem firstRun_withoutCommas_eq_nil_iff
    {p : Char → Bool}
    (hcomma : ¬ p ',')
    (text : List Char) :
    firstRun p (withoutCommas text) = [] ↔ ∀ c ∈ text, ¬ p c := by
  rw [firstRun_eq_nil_iff]
  constructor
  · intro h c hc hp
    have hne : c ≠ ',' := fun heq => hcomma (heq ▸ hp)
    exact h c (List.mem_filter.mpr ⟨hc, by simpa using hne⟩) hp
  · intro h c hc
    exact h c (List.mem_filter.mp hc).1

theorem decimalRun_eq_nil_iff
    (text : List Char) :
    decimalRun t text = [] ↔ ∀ c ∈ text, ¬ t.isDecimal c := by
  refine firstRun_withoutCommas_eq_nil_iff ?_ text
  simp [DecimalDigits.isDecimal, t.ascii ',' (by decide)]

theorem asciiRun_eq_nil_iff
    (text : List Char) :
    asciiRun text = [] ↔ ∀ c ∈ text, ¬ c.isDigit :=
  firstRun_withoutCommas_eq_nil_iff (by decide) text

/-- The range check of both servers. -/
theorem clamp_eq
    (n : Nat) :
    (if (n : Int) < 0 then
        none
      else if (n : Int) > u64Max then
        some u64Max
      else
        some (n : Int)) =
      some (min (n : Int) u64Max) := by
  rw [if_neg (by omega)]
  split
  · rw [min_eq_right (by omega)]
  · rw [min_eq_left (by omega)]

/-- What the Python server takes from a reply. -/
theorem parseFirstIntegerPy_eq
    (text : List Char) :
    parseFirstIntegerPy t text =
      if decimalRun t text = [] ∨
          maxStrDigits < (decimalRun t text).length then
        none
      else
        some (min (spelled t.digit (decimalRun t text) : Int) u64Max) := by
  by_cases htext : text = []
  · subst htext
    rfl
  · simp only [parseFirstIntegerPy, if_neg htext]
    change (match search t.isDecimal (withoutCommas text) with
      | none => none
      | some m => _) = _
    unfold search
    change (match if decimalRun t text = [] then none else
        some (decimalRun t text) with
      | none => none
      | some m => _) = _
    by_cases hrun : decimalRun t text = []
    · simp [hrun]
    · by_cases hlong : maxStrDigits < (decimalRun t text).length
      · simp [hrun, hlong, int]
      · have hall : (decimalRun t text).all t.isDecimal := by
          rw [List.all_eq_true]
          exact fun c hc => of_mem_firstRun hc
        simp only [int, hall, if_true, hrun, hlong, or_self, if_false,
          readDigits_eq_spelled]
        exact clamp_eq _

/-- What the TypeScript server takes from a reply. -/
theorem parseFirstIntegerTs_eq
    (text : List Char) :
    parseFirstIntegerTs (text.flatMap utf16) =
      if asciiRun text = [] then
        none
      else
        some (min (spelled t.digit (asciiRun text) : Int) u64Max) := by
  by_cases htext : text = []
  · subst htext
    rfl
  · have hne := (keeps_digit.flatMap_eq_nil_iff (s := text)).not.mpr htext
    have hrun :
        firstRun isDigitUnit
            ((text.flatMap utf16).filter fun u => !(u == 44)) =
          (asciiRun text).flatMap utf16 := by
      rw [keeps_comma.filter_flatMap, keeps_digit.firstRun_flatMap]
      rfl
    have hnil := keeps_digit.flatMap_eq_nil_iff (s := asciiRun text)
    simp only [parseFirstIntegerTs, if_neg hne, search, hrun, hnil]
    by_cases hascii : asciiRun text = []
    · simp [hascii]
    · have hall : ((asciiRun text).flatMap utf16).all isDigitUnit := by
        rw [← hrun, List.all_eq_true]
        exact fun u hu => of_mem_firstRun hu
      have hvalue :
          readDigits (fun u => u.toNat - 48)
              ((asciiRun text).flatMap utf16) =
            spelled t.digit (asciiRun text) := by
        rw [← readDigits_eq_spelled]
        refine readDigits_congr (map_value_utf16 t ?_)
        exact fun c hc => of_mem_firstRun hc
      simp only [if_neg hascii, bigInt, hall, if_true, hvalue]
      exact clamp_eq _

theorem not_sameEstimate_none_left
    (v : Int) :
    ¬ SameEstimate none (some v) := by
  simp [SameEstimate]

theorem not_sameEstimate_none_right
    (v : Int) :
    ¬ SameEstimate (some v) none := by
  simp [SameEstimate]

/-- Clamped numbers are the same when equal or both out of range. -/
theorem sameEstimate_clamped_iff
    (m n : Nat) :
    SameEstimate
        (some (min (m : Int) u64Max))
        (some (min (n : Int) u64Max)) ↔
      m = n ∨ u64Max ≤ m ∧ u64Max ≤ n := by
  have hmax : 0 ≤ u64Max := by decide
  constructor
  · rintro (⟨h, _⟩ | ⟨v, hm, hn, _⟩)
    · cases h
    · have heq : min (m : Int) u64Max = min (n : Int) u64Max := by
        rw [Option.some.inj hm, Option.some.inj hn]
      omega
  · intro h
    refine Or.inr ⟨_, rfl, ?_, ?_, ?_⟩
    · rw [Option.some.injEq]
      omega
    · omega
    · omega

/-- The first run of ASCII digits, when the first run has no others. -/
theorem asciiRun_eq_decimalRun
    {text : List Char}
    (h : ∀ c ∈ decimalRun t text, c.isDigit) :
    asciiRun text = decimalRun t text :=
  firstRun_eq_of_forall (fun _ hc => t.isDecimal_of_isDigit hc) h

theorem decimalRun_ne_nil
    {text : List Char}
    (h : ∃ c ∈ text, c.isDigit) :
    decimalRun t text ≠ [] := by
  intro hnil
  obtain ⟨c, hc, hdigit⟩ := h
  exact (decimalRun_eq_nil_iff t text).mp hnil c hc
    (t.isDecimal_of_isDigit hdigit)

/-- The exact replies that the two servers parse alike. -/
theorem sameEstimate_iff
    (t : DecimalDigits)
    (text : List Char) :
    SameEstimate
        (parseFirstIntegerPy t text)
        (parseFirstIntegerTs (text.flatMap utf16)) ↔
      Alike t text := by
  rw [parseFirstIntegerPy_eq, parseFirstIntegerTs_eq t]
  constructor
  · intro h
    by_cases hrun : decimalRun t text = []
    · exact .noDigit ((decimalRun_eq_nil_iff t text).mp hrun)
    · by_cases hlong : maxStrDigits < (decimalRun t text).length
      · rw [if_pos (Or.inr hlong)] at h
        by_cases hascii : asciiRun text = []
        · exact .tooLong hlong ((asciiRun_eq_nil_iff text).mp hascii)
        · rw [if_neg hascii] at h
          exact absurd h (not_sameEstimate_none_left _)
      · rw [if_neg (by simp [hrun, hlong])] at h
        by_cases hascii : asciiRun text = []
        · rw [if_pos hascii] at h
          exact absurd h (not_sameEstimate_none_right _)
        · rw [if_neg hascii, sameEstimate_clamped_iff] at h
          have hsome := (asciiRun_eq_nil_iff text).not.mp hascii
          push Not at hsome
          exact .sameNumber (not_lt.mp hlong) hsome h
  · intro h
    cases h with
    | noDigit hnone =>
        have hrun := (decimalRun_eq_nil_iff t text).mpr hnone
        have hascii : asciiRun text = [] :=
          (asciiRun_eq_nil_iff text).mpr fun c hc hdigit =>
            hnone c hc (t.isDecimal_of_isDigit hdigit)
        rw [if_pos (Or.inl hrun), if_pos hascii]
        exact Or.inl ⟨rfl, rfl⟩
    | ascii hdigits hshort =>
        rw [asciiRun_eq_decimalRun t hdigits]
        by_cases hrun : decimalRun t text = []
        · rw [if_pos (Or.inl hrun), if_pos hrun]
          exact Or.inl ⟨rfl, rfl⟩
        · rw [if_neg (by simp [hrun, hshort]), if_neg hrun,
            sameEstimate_clamped_iff]
          exact Or.inl rfl
    | tooLong hlong hnone =>
        rw [if_pos (Or.inr hlong),
          if_pos ((asciiRun_eq_nil_iff text).mpr hnone)]
        exact Or.inl ⟨rfl, rfl⟩
    | sameNumber hshort hsome hequal =>
        have hrun := decimalRun_ne_nil t hsome
        have hascii : asciiRun text ≠ [] := by
          rw [Ne, asciiRun_eq_nil_iff]
          push Not
          exact hsome
        rw [if_neg (by simp [hrun, hshort]), if_neg hascii,
          sameEstimate_clamped_iff]
        exact hequal

end Agreement

section Unicode

/-- The zeros of the scripts, each followed by its nine other digits. -/
def decimalZeros : List Nat :=
  [0x30, 0x660, 0x6f0, 0x7c0, 0x966, 0x9e6, 0xa66, 0xae6, 0xb66, 0xbe6,
    0xc66, 0xce6, 0xd66, 0xde6, 0xe50, 0xed0, 0xf20, 0x1040, 0x1090,
    0x17e0, 0x1810, 0x1946, 0x19d0, 0x1a80, 0x1a90, 0x1b50, 0x1bb0,
    0x1c40, 0x1c50, 0xa620, 0xa8d0, 0xa900, 0xa9d0, 0xa9f0, 0xaa50,
    0xabf0, 0xff10, 0x104a0, 0x10d30, 0x11066, 0x110f0, 0x11136, 0x111d0,
    0x112f0, 0x11450, 0x114d0, 0x11650, 0x116c0, 0x11730, 0x118e0,
    0x11950, 0x11c50, 0x11d50, 0x11da0, 0x16a60, 0x16ac0, 0x16b50,
    0x1d7ce, 0x1d7d8, 0x1d7e2, 0x1d7ec, 0x1d7f6, 0x1e140, 0x1e2f0,
    0x1e950, 0x1fbf0]

/-- The decimal digits of Unicode 14. -/
def unicodeDigits : DecimalDigits where
  value c :=
    (decimalZeros.find? fun z => z ≤ c.toNat && c.toNat < z + 10).map
      fun z => c.toNat - z
  ascii := by
    intro c hc
    have hdigit :
        c.isDigit = (decide (48 ≤ c.toNat) && decide (c.toNat < 58)) := by
      rw [Bool.eq_iff_iff, Char.isDigit_iff_toNat]
      simp [Nat.lt_succ_iff]
    have hrest :
        decimalZeros.tail.find?
            (fun z => z ≤ c.toNat && c.toNat < z + 10) =
          none := by
      rw [List.find?_eq_none]
      intro z hz hle
      have hlarge : ∀ z ∈ decimalZeros.tail, 128 ≤ z := by decide
      have := hlarge z hz
      simp only [Bool.and_eq_true, decide_eq_true_eq] at hle
      omega
    change ((48 :: decimalZeros.tail).find? _).map _ = _
    rw [List.find?_cons, hrest, hdigit]
    by_cases h : (decide (48 ≤ c.toNat) && decide (c.toNat < 58)) = true
    · simp [h]
    · simp [h]

/-- An Arabic-Indic three is a number to one server only. -/
theorem arabicThree_not_sameEstimate :
    parseFirstIntegerPy unicodeDigits ['٣'] = some 3 ∧
      parseFirstIntegerTs (['٣'].flatMap utf16) = none ∧
      ¬ SameEstimate
        (parseFirstIntegerPy unicodeDigits ['٣'])
        (parseFirstIntegerTs (['٣'].flatMap utf16)) := by
  have hpy : parseFirstIntegerPy unicodeDigits ['٣'] = some 3 := by
    decide +kernel
  have hts : parseFirstIntegerTs (['٣'].flatMap utf16) = none := by
    decide +kernel
  rw [hpy, hts]
  exact ⟨rfl, rfl, not_sameEstimate_none_right 3⟩

end Unicode

end Gpudb
end Samkhya
