import Mathlib
import Samkhya.Core.HttpCorrector
import Samkhya.Gpudb.ReplyParser

/-!
# The inference servers

What both LLM servers do with a request: the declared length, the body chunk by
chunk under a cap, the checks of the document, and the answer made of the
backend's reply.  They differ in how they read the declared length, the baseline
and the reply.  The TypeScript server takes the baseline from the raw text, by a
regular expression that must match exactly once; on the body of a Rust client it
matches at the one place (`matchAll_request`).

What a language's JSON reader and number conversions do is a parameter, and so
is the prompt template.  The Python server does not catch what a template
raises, nor what a reply that is no text raises; it answers both with a 500.
-/

namespace Samkhya
namespace Gpudb

open Json FooterText HttpCorrector

/-- `BODY_MAX_BYTES`. -/
def bodyMaxBytes : Nat := 8 * 1024 * 1024

/-- `MAX_INFER_BATCHES`. -/
def maxInferBatches : Nat := 1024

/-- A status with its body. -/
structure Response where
  status : Nat
  body : List UInt8

/-- An error with its detail. -/
def refusal (status : Nat) (detail : String) : Response where
  status := status
  body := encode (.obj [("detail".toList, .str detail.toList)])

/-- What becomes of an exception that nobody catches. -/
def internalError : Response where
  status := 500
  body := toBytes "Internal Server Error".toList

/-- The JSON reader and the number conversions of a language. -/
structure Runtime where
  -- the text of the bytes, `toString('utf8')`
  text : List UInt8 → List Char
  -- the document, or the name of the exception
  loads : List UInt8 → Except String Value
  -- whether the number of a spelling is finite
  finite : List Char → Bool
  -- whether the number of a spelling is an integer
  integer : List Char → Bool
  -- the finite number of a header
  number : List Char → Option ℚ

/-- A member by its name; the last of equal names counts. -/
def lookup
    (name : List Char)
    (members : List (List Char × Value)) : Option Value :=
  ((members.filter fun member => member.1 == name).getLast?).map Prod.snd

/-- What the two servers do differently; both keep to the range of a `u64`. -/
structure Server where
  runtime : Runtime
  declared : List Char → Option Response
  baseline :
    List UInt8 → List (List Char × Value) → Option Nat
  -- the prompt of the features and the baseline, or an exception
  render : List Value → Nat → Option (List Char)
  parse : List Char → Option Int
  -- whether the exception of a reply that is no text is caught
  catches : Bool
  baseline_le :
    ∀ body members n, baseline body members = some n → n ≤ u64Max
  parse_range :
    ∀ text i, parse text = some i → 0 ≤ i ∧ i ≤ u64Max
  declared_error :
    ∀ header r, declared header = some r → 400 ≤ r.status

/-- What both parsers make of a run of digits. -/
theorem clamped_range
    {v i : Int}
    (h :
      (if v < 0 then none
        else if v > u64Max then some u64Max
        else some v) =
        some i) :
    0 ≤ i ∧ i ≤ u64Max := by
  have hmax : 0 ≤ u64Max := by decide
  split_ifs at h with hneg hbig
  · obtain rfl := Option.some.inj h
    exact ⟨hmax, le_rfl⟩
  · obtain rfl := Option.some.inj h
    omega

section Python

variable (rt : Runtime)

/-- The check of `content-length`: the refusal, if there is one. -/
def declaredPy (header : List Char) : Option Response :=
  match rt.number header with
  | none => some (refusal 400 "invalid Content-Length")
  | some declared =>
      if declared > bodyMaxBytes then
        some
          (refusal 413
            ("request body " ++ toString declared ++ " exceeds " ++
              toString bodyMaxBytes))
      else
        none

/-- `type(baseline) is int` and in the range of a `u64`. -/
def baselinePy
    (_body : List UInt8)
    (members : List (List Char × Value)) : Option Nat :=
  match lookup "baseline_estimate".toList members with
  | some (.num text) =>
      match asInt text with
      | some i => if 0 ≤ i ∧ i ≤ u64Max then some i.toNat else none
      | none => none
  | _ => none

/-- `llm_infer_server.py`, with what `template.format` does. -/
def pythonServer
    (t : DecimalDigits)
    (format : List Value → Nat → Option (List Char)) : Server where
  runtime := rt
  declared := declaredPy rt
  baseline := baselinePy
  render := format
  parse := parseFirstIntegerPy t
  catches := false
  baseline_le := by
    intro body members n h
    unfold baselinePy at h
    split at h
    · split at h
      · split_ifs at h with hrange
        obtain rfl := Option.some.inj h
        omega
      · cases h
    · cases h
  parse_range := by
    intro text i h
    unfold parseFirstIntegerPy at h
    split at h
    · cases h
    · simp only at h
      split at h
      · cases h
      · split at h
        · cases h
        · exact clamped_range h
  declared_error := by
    intro header r h
    unfold declaredPy at h
    split at h
    · cases h
      decide
    · split_ifs at h
      cases h
      simp [refusal]

end Python

section TypeScript

variable (rt : Runtime)

/-- The refusal of `readBody`; what is not a number is let through. -/
def declaredTs (header : List Char) : Option Response :=
  match rt.number header with
  | none => none
  | some declared =>
      if declared > bodyMaxBytes then
        some
          (refusal 413
            ("request body exceeds " ++ toString bodyMaxBytes))
      else
        none

/-- What `\s` matches in JavaScript. -/
def isSpaceJs (c : Char) : Bool :=
  [0x9, 0xa, 0xb, 0xc, 0xd, 0x20, 0xa0, 0x1680, 0x2028, 0x2029, 0x202f,
      0x205f, 0x3000, 0xfeff].contains c.toNat ||
    0x2000 ≤ c.toNat && c.toNat ≤ 0x200a

/-- The key, with its quotes. -/
def baselineKey : List Char :=
  printString "baseline_estimate".toList

/-- `\s*:\s*(0|[1-9]\d*)(?![\d.eE])`, from right behind the key. -/
def matchToken (s : List Char) : Option (List Char × List Char) :=
  match s.dropWhile isSpaceJs with
  | ':' :: s =>
      let s := s.dropWhile isSpaceJs
      let digits := s.takeWhile Char.isDigit
      let rest := s.dropWhile Char.isDigit
      -- a shorter run of digits would have a digit behind it
      if digits = [] ∨ digits.head? = some '0' ∧ digits ≠ ['0'] then
        none
      else if rest.head? ∈ [some '.', some 'e', some 'E'] then
        none
      else
        some (digits, rest)
  | _ => none

/-- A match at the beginning of a text: its digits, and what is left. -/
def matchHere (s : List Char) : Option (List Char × List Char) :=
  if baselineKey.isPrefixOf s then
    matchToken (s.drop baselineKey.length)
  else
    none

/-- The matches from left to right, at most so many characters on. -/
def scan : Nat → List Char → List (List Char)
  | 0, _ => []
  | _, [] => []
  | n + 1, c :: s =>
      match matchHere (c :: s) with
      | some (digits, rest) => digits :: scan n rest
      | none => scan n s

/-- `matchAll`: the digits of every match. -/
def matchAll (s : List Char) : List (List Char) :=
  scan s.length s

/-- `parseU64Baseline`. -/
def parseU64Baseline
    (body : List UInt8)
    (members : List (List Char × Value)) : Option Nat :=
  match lookup "baseline_estimate".toList members with
  | some (.num text) =>
      if rt.integer text then
        match matchAll (rt.text body) with
        | [digits] =>
            let value := Nat.ofDigitChars 10 digits 0
            if (value : Int) ≤ u64Max then some value else none
        | _ => none
      else
        none
  | _ => none

/-- `llm_infer_server.ts`; replacing in its template cannot fail. -/
def typescriptServer
    (replace : List Value → Nat → List Char) : Server where
  runtime := rt
  declared := declaredTs rt
  baseline := parseU64Baseline rt
  render features baseline := some (replace features baseline)
  parse text := parseFirstIntegerTs (text.flatMap utf16)
  catches := true
  baseline_le := by
    intro body members n h
    unfold parseU64Baseline at h
    split at h
    · split_ifs at h
      split at h
      · simp only at h
        split_ifs at h with hle
        obtain rfl := Option.some.inj h
        exact hle
      · cases h
    · cases h
  parse_range := by
    intro text i h
    unfold parseFirstIntegerTs at h
    split at h
    · cases h
    · simp only at h
      split at h
      · cases h
      · split at h
        · cases h
        · exact clamped_range h
  declared_error := by
    intro header r h
    unfold declaredTs at h
    split at h
    · cases h
    · split_ifs at h
      cases h
      simp [refusal]

end TypeScript

section Handling

variable (server : Server)

/-- Another chunk of the body, unless it goes over the cap. -/
def readChunk (buffer chunk : List UInt8) : Except Response (List UInt8) :=
  if bodyMaxBytes < buffer.length + chunk.length then
    .error
      (refusal 413 ("request body exceeds " ++ toString bodyMaxBytes))
  else
    .ok (buffer ++ chunk)

def isFiniteNumber (rt : Runtime) : Value → Bool
  | .num text => rt.finite text
  | _ => false

/-- The checks of `infer`: the features and the baseline of a good body. -/
def checkBody (body : List UInt8) : Except Response (List Value × Nat) :=
  match server.runtime.loads body with
  | .error name => .error (refusal 400 ("invalid json: " ++ name))
  | .ok (.obj members) =>
      match lookup "features".toList members with
      | some (.arr (feature :: features)) =>
          let count := (feature :: features).length
          if !(feature :: features).all
              (isFiniteNumber server.runtime) then
            .error
              (refusal 400 "'features' must contain only finite numbers")
          else
            match server.baseline body members with
            | none =>
                .error
                  (refusal 400
                    "missing or non-u64 'baseline_estimate'")
            | some baseline =>
                if count % featureLen ≠ 0 then
                  .error
                    (refusal 400
                      ("features length " ++ toString count ++
                        " not a multiple of " ++ toString featureLen))
                else if maxInferBatches < count / featureLen then
                  .error
                    (refusal 413
                      ("features batch count " ++
                        toString (count / featureLen) ++ " exceeds " ++
                        toString maxInferBatches))
                else
                  .ok (feature :: features, baseline)
      | _ => .error (refusal 400 "missing or empty 'features'")
  | .ok _ => .error (refusal 400 "json body must be an object")

/-- The dummy backend, or one that asks a model. -/
inductive Backend
  | dummy
  | remote
deriving DecidableEq

/-- What a model says. -/
inductive Reply
  -- the call to it raised an exception, which the backends catch
  | failed
  | text (text : List Char)
  -- another JSON value, and whether it counts as false
  | other (falsy : Bool)
deriving DecidableEq

/--
What a backend makes of the reply, or the answer to an exception; the baseline
stands in for an estimate.
-/
def backendEstimate
    (backend : Backend)
    (baseline : Nat)
    (reply : Reply) : Except Response (Option Int) :=
  match backend with
  | .dummy => .ok (some baseline)
  | .remote =>
      match reply with
      | .failed => .ok (some baseline)
      | .text text => .ok (some ((server.parse text).getD baseline))
      | .other falsy =>
          -- `if not text` comes before the text is looked into
          if falsy || server.catches then
            .ok (some baseline)
          else
            .error internalError

/-- The answer to a request. -/
def answer
    (estimate : Option Int)
    (baseline : Nat)
    (latency : List Char) : Response where
  status := 200
  body :=
    encode
      (match estimate with
      | none =>
          .obj
            [("estimate".toList, intValue baseline),
              ("_status".toList, .str "parse_err".toList)]
      | some estimate =>
          let estimate := max 0 estimate
          let estimate := if u64Max < estimate then u64Max else estimate
          .obj
            [("estimate".toList, intValue estimate),
              ("_latency_ms".toList, .num latency)])

end Handling

section Contained

variable
  {server : Server}
  {body : List UInt8}
  {features : List Value}
  {baseline : Nat}

/-- A body that the backend is asked about. -/
structure Admitted
    (server : Server)
    (body : List UInt8)
    (features : List Value)
    (baseline : Nat) : Prop where
  document :
    ∃ members,
      server.runtime.loads body = .ok (.obj members) ∧
        lookup "features".toList members = some (.arr features)
  finite : ∀ v ∈ features, isFiniteNumber server.runtime v
  batches :
    0 < features.length ∧
      featureLen ∣ features.length ∧
      features.length ≤ maxInferBatches * featureLen
  baseline_le : baseline ≤ u64Max

theorem admitted_of_checkBody
    (h : checkBody server body = .ok (features, baseline)) :
    Admitted server body features baseline := by
  unfold checkBody at h
  split at h
  · cases h
  · rename_i members hloads
    split at h
    · rename_i feature others hfeatures
      simp only at h
      split at h
      · cases h
      · rename_i hfinite
        split at h
        · cases h
        · rename_i n hbaseline
          split_ifs at h with hmod hcap
          obtain ⟨rfl, rfl⟩ := Prod.mk.inj (Except.ok.inj h)
          refine
            ⟨⟨members, hloads, hfeatures⟩, by simpa using hfinite,
              ⟨by simp, Nat.dvd_of_mod_eq_zero (not_not.mp hmod), ?_⟩,
              server.baseline_le body members n hbaseline⟩
          · rw [not_lt, Nat.div_le_iff_le_mul_add_pred (by decide)] at hcap
            rw [not_not] at hmod
            simp only [featureLen] at hmod hcap ⊢
            omega
    · cases h
  · cases h

theorem error_of_checkBody
    {r : Response}
    (h : checkBody server body = .error r) :
    400 ≤ r.status := by
  unfold checkBody at h
  split at h
  · cases h
    simp [refusal]
  · split at h
    · simp only at h
      split at h
      · cases h
        simp [refusal]
      · split at h
        · cases h
          simp [refusal]
        · split_ifs at h
          · cases h
            simp [refusal]
          · cases h
            simp [refusal]
    · cases h
      simp [refusal]
  · cases h
    simp [refusal]

theorem length_of_readChunk
    {buffer chunk more : List UInt8}
    (h : readChunk buffer chunk = .ok more) :
    more = buffer ++ chunk ∧ more.length ≤ bodyMaxBytes := by
  unfold readChunk at h
  split_ifs at h with hcap
  obtain rfl := Except.ok.inj h
  simp only [List.length_append, true_and]
  omega

theorem error_of_readChunk
    {buffer chunk : List UInt8}
    {r : Response}
    (h : readChunk buffer chunk = .error r) :
    400 ≤ r.status := by
  unfold readChunk at h
  split_ifs at h
  cases h
  simp [refusal]

/-- A backend has an estimate, and it is a `u64`, or the answer is a 500. -/
theorem backendEstimate_range
    (server : Server)
    (backend : Backend)
    (h : baseline ≤ u64Max)
    (reply : Reply) :
    backendEstimate server backend baseline reply =
        .error internalError ∨
      ∃ e : Int,
        backendEstimate server backend baseline reply = .ok (some e) ∧
          0 ≤ e ∧ e ≤ u64Max := by
  have hbaseline :
      ∃ e : Int, some (baseline : Int) = some e ∧ 0 ≤ e ∧ e ≤ u64Max :=
    ⟨baseline, rfl, Int.natCast_nonneg _, h⟩
  cases backend with
  | dummy => simpa [backendEstimate] using hbaseline
  | remote =>
      cases reply with
      | failed => simpa [backendEstimate] using hbaseline
      | text text =>
          right
          cases hparse : server.parse text with
          | none => simpa [backendEstimate, hparse] using hbaseline
          | some i =>
              have hrange := server.parse_range text i hparse
              exact ⟨i, by simp [backendEstimate, hparse], hrange⟩
      | other falsy =>
          simp only [backendEstimate]
          split_ifs
          · right
            simpa using hbaseline
          · exact .inl rfl

/-- What a client reads in the answer. -/
theorem readResponse_answer
    {e : Int}
    (hzero : 0 ≤ e)
    (hmax : e ≤ u64Max)
    {latency : List Char}
    (hlatency : NumberText latency) :
    readResponse (answer (some e) baseline latency).body =
      some (UInt64.ofNat e.toNat) := by
  have hvalue : ((UInt64.ofNat e.toNat).toNat : Int) = e := by
    rw [UInt64.toNat_ofNat_of_lt', Int.toNat_of_nonneg hzero]
    rw [u64Max] at hmax
    change e.toNat < 2 ^ 64
    omega
  have hname : "_latency_ms".toList ≠ "estimate".toList := by decide
  have hread :=
    @readResponse_encode _ (.num latency) hname hlatency
      (UInt64.ofNat e.toNat)
  rw [hvalue] at hread
  simp only [answer, max_eq_right hzero, if_neg (not_lt.mpr hmax)]
  exact hread

end Contained

section Matching

theorem baselineKey_eq :
    baselineKey =
      ['"', 'b', 'a', 's', 'e', 'l', 'i', 'n', 'e', '_', 'e', 's', 't',
        'i', 'm', 'a', 't', 'e', '"'] := by
  decide

/-- A character that begins no match is skipped. -/
theorem matchAll_cons
    {c : Char}
    {s : List Char}
    (h : baselineKey.isPrefixOf (c :: s) = false) :
    matchAll (c :: s) = matchAll s := by
  simp [matchAll, scan, matchHere, h]

/-- Text without quotes is skipped. -/
theorem matchAll_append
    {skipped : List Char}
    (h : ∀ c ∈ skipped, c ≠ '"')
    (s : List Char) :
    matchAll (skipped ++ s) = matchAll s := by
  induction skipped with
  | nil => rfl
  | cons c skipped ih =>
      have hc := h c (by simp)
      have hprefix :
          baselineKey.isPrefixOf (c :: (skipped ++ s)) = false := by
        rw [baselineKey_eq, List.isPrefixOf_cons_cons]
        simp [Ne.symm hc]
      rw [List.cons_append, matchAll_cons hprefix,
        ih fun c hmem => h c (by simp [hmem])]

/-- The token of a natural number before the end of an object. -/
theorem matchToken_natText
    (n : Nat) :
    matchToken (':' :: (Nat.toDigits 10 n ++ ['}'])) =
      some (Nat.toDigits 10 n, ['}']) := by
  have hdigits :
      ∀ c ∈ Nat.toDigits 10 n, c.isDigit = true :=
    fun c hc => isDigit_of_mem_natText hc
  have hspace :
      (Nat.toDigits 10 n ++ ['}']).dropWhile isSpaceJs =
        Nat.toDigits 10 n ++ ['}'] := by
    rcases natText_cases n with hzero | ⟨c, rest, heq, _, hdigit⟩
    · rw [hzero]
      decide
    · have hc : isSpaceJs c = false := by
        have hrange : 48 ≤ c.toNat ∧ c.toNat ≤ 57 :=
          Char.isDigit_iff_toNat.mp hdigit
        rw [Bool.eq_false_iff]
        intro hspace
        simp [isSpaceJs] at hspace
        omega
      rw [heq, List.cons_append, List.dropWhile_cons_of_neg (by simp [hc])]
  have htake :
      (Nat.toDigits 10 n ++ ['}']).takeWhile Char.isDigit =
        Nat.toDigits 10 n := by
    rw [List.takeWhile_append_of_pos hdigits]
    simp
  have hdrop :
      (Nat.toDigits 10 n ++ ['}']).dropWhile Char.isDigit = ['}'] := by
    rw [List.dropWhile_append_of_pos hdigits]
    simp
  have hstart :
      ¬ (Nat.toDigits 10 n = [] ∨
        (Nat.toDigits 10 n).head? = some '0' ∧
          Nat.toDigits 10 n ≠ ['0']) := by
    rcases natText_cases n with hzero | ⟨c, rest, heq, hc, _⟩
    · simp [hzero]
    · simp [heq, hc]
  simp only [matchToken]
  rw [List.dropWhile_cons_of_neg (by decide)]
  simp only [hspace, htake, hdrop, if_neg hstart]
  simp

/-- The token after the key is the only match. -/
theorem matchAll_key
    (value : Nat) :
    matchAll (baselineKey ++ ':' :: (Nat.toDigits 10 value ++ ['}'])) =
      [Nat.toDigits 10 value] := by
  have hmatch :
      matchHere (baselineKey ++ ':' :: (Nat.toDigits 10 value ++ ['}'])) =
        some (Nat.toDigits 10 value, ['}']) := by
    have hprefix :
        baselineKey.isPrefixOf
            (baselineKey ++ ':' :: (Nat.toDigits 10 value ++ ['}'])) =
          true := by
      simp
    rw [matchHere, if_pos hprefix, List.drop_left]
    exact matchToken_natText value
  have hend : ∀ n, scan n ['}'] = [] := by
    intro n
    cases n with
    | zero => rfl
    | succ n =>
        rw [scan, matchHere, if_neg (by rw [baselineKey_eq]; decide)]
        cases n <;> rfl
  rw [matchAll]
  rw [baselineKey_eq] at hmatch ⊢
  simp only [List.cons_append, List.length_cons] at hmatch ⊢
  rw [scan, hmatch]
  simp only [hend]

/-- No number has a quote in it. -/
theorem ne_quote_of_mem_features
    (ryu : FloatText)
    (f : CorrectionFeatures)
    {c : Char}
    (hc :
      c ∈ [','].intercalate
        (f.toVec.map fun x => ryu.text x)) :
    c ≠ '"' := by
  refine
    @forall_mem_intercalate (fun c => c ≠ '"') (by decide) _ ?_ c hc
  intro text htext c hc
  obtain ⟨x, hx, rfl⟩ := List.mem_map.mp htext
  have hnumber :=
    (ryu.number x (CorrectionFeatures.isFinite_of_mem_toVec hx)).chars c hc
  rintro rfl
  exact absurd hnumber (by decide)

/-- The text of a request, cut at the quotes around the features. -/
theorem print_request
    (ryu : FloatText)
    (f : CorrectionFeatures) :
    print (requestValue ryu f) =
      '{' :: '"' ::
        (['f', 'e', 'a', 't', 'u', 'r', 'e', 's'] ++
          '"' ::
            ((':' :: '[' ::
                ([','].intercalate (f.toVec.map fun x => ryu.text x) ++
                  [']', ','])) ++
              (baselineKey ++
                ':' :: (Nat.toDigits 10 f.baselineEstimate.toNat ++
                  ['}'])))) := by
  have hname :
      printString "features".toList =
        ['"', 'f', 'e', 'a', 't', 'u', 'r', 'e', 's', '"'] := by
    decide
  have hvalue :
      print (intValue f.baselineEstimate.toNat) =
        Nat.toDigits 10 f.baselineEstimate.toNat := by
    simp [intValue, print, intText]
  rw [requestValue, print, printMembers_eq]
  simp only [requestMembers, List.map_cons, List.map_nil,
    List.intercalate_cons_cons, List.intercalate_singleton, hname, hvalue]
  rw [print, printItems_eq, List.map_map]
  simp [baselineKey, Function.comp_def, print]

/-- On a client's body the expression matches once, at the baseline. -/
theorem matchAll_request
    (ryu : FloatText)
    (f : CorrectionFeatures) :
    matchAll (print (requestValue ryu f)) =
      [Nat.toDigits 10 f.baselineEstimate.toNat] := by
  have hquote :
      ∀ c ∈ ':' :: '[' ::
          ([','].intercalate (f.toVec.map fun x => ryu.text x) ++
            [']', ',']),
        c ≠ '"' := by
    intro c hc
    simp only [List.mem_cons, List.mem_append, List.not_mem_nil,
      or_false] at hc
    rcases hc with rfl | rfl | hc | rfl | rfl
    · decide
    · decide
    · exact ne_quote_of_mem_features ryu f hc
    · decide
    · decide
  -- a brace, and two quotes before other letters
  rw [print_request, matchAll_cons (by rw [baselineKey_eq]; rfl),
    matchAll_cons (by rw [baselineKey_eq]; rfl),
    @matchAll_append ['f', 'e', 'a', 't', 'u', 'r', 'e', 's'] (by simp),
    matchAll_cons (by rw [baselineKey_eq]; rfl), matchAll_append hquote,
    matchAll_key]

end Matching

/--
What the documentation of a language says of its JSON reader and its numbers,
as far as the requests of a Rust client need it.
-/
structure Runtime.Standard (rt : Runtime) (ryu : FloatText) : Prop where
  text : ∀ s, rt.text (toBytes s) = s
  loads : ∀ f, rt.loads (requestBytes ryu f) = .ok (requestValue ryu f)
  finite : ∀ x, x.isFinite = true → rt.finite (ryu.text x) = true
  integer : ∀ n < 2 ^ 64, rt.integer (Nat.toDigits 10 n) = true
  number : ∀ n < 2 ^ 53, rt.number (Nat.toDigits 10 n) = some (n : ℚ)

/-- The features that a client sends. -/
def requestFeatures
    (ryu : FloatText)
    (f : CorrectionFeatures) : List Value :=
  f.toVec.map fun x => .num (ryu.text x)

/-- A server that takes every request of a client. -/
structure Server.Serves (server : Server) (ryu : FloatText) : Prop where
  declared :
    ∀ n ≤ bodyMaxBytes, server.declared (Nat.toDigits 10 n) = none
  checkBody :
    ∀ f, checkBody server (requestBytes ryu f) =
      .ok (requestFeatures ryu f, f.baselineEstimate.toNat)

section Serving

variable {rt : Runtime} {ryu : FloatText}

/-- A request is far below the cap. -/
theorem length_requestBytes_le
    (ryu : FloatText)
    (f : CorrectionFeatures) :
    (requestBytes ryu f).length ≤ bodyMaxBytes := by
  have hbytes :
      ∀ s : List Char, (toBytes s).length ≤ 4 * s.length := by
    intro s
    induction s with
    | nil => simp [toBytes]
    | cons c s ih =>
        have hc := Char.utf8Size_le_four c
        rw [← String.length_utf8EncodeChar] at hc
        simp only [toBytes, List.flatMap_cons, List.length_append,
          List.length_cons] at ih ⊢
        omega
  have hdigits :
      (Nat.toDigits 10 f.baselineEstimate.toNat).length ≤ 20 := by
    rw [Nat.length_toDigits_le_iff (by decide) (by decide)]
    exact f.baselineEstimate.toNat_lt.trans (by decide)
  have hfloat :
      ∀ n : UInt64, (ryu.text (Binary64.F64.ofU64 n)).length ≤ 24 :=
    fun n => ryu.short _ (Binary64.F64.scaled_ofU64 n).1
  have hfeatures :
      ([','].intercalate (f.toVec.map fun x => ryu.text x)).length ≤
        7 * 24 + 6 := by
    have h₁ := hfloat f.baselineEstimate
    have h₂ := hfloat (f.leftInputRows.getD 0)
    have h₃ := hfloat (f.rightInputRows.getD 0)
    have h₄ := hfloat (f.leftDistinct.getD 0)
    have h₅ := hfloat (f.rightDistinct.getD 0)
    have h₆ := hfloat f.predicateCount.toUInt64
    have h₇ := hfloat f.joinDepth.toUInt64
    simp only [CorrectionFeatures.toVec, List.map_cons, List.map_nil,
      List.intercalate_cons_cons, List.intercalate_singleton,
      List.length_append, List.length_singleton]
    omega
  refine (hbytes _).trans ?_
  rw [print_request, baselineKey_eq, bodyMaxBytes]
  simp only [List.length_cons, List.length_append, List.length_nil]
  omega

/-- The checks pass on a request whose baseline the server finds. -/
theorem checkBody_request
    {server : Server}
    {baseline : Nat}
    (h : server.runtime.Standard ryu)
    (f : CorrectionFeatures)
    (hbaseline :
      server.baseline (requestBytes ryu f) (requestMembers ryu f) =
        some baseline) :
    checkBody server (requestBytes ryu f) =
      .ok (requestFeatures ryu f, baseline) := by
  have hfeatures :
      lookup "features".toList (requestMembers ryu f) =
        some (.arr (f.toVec.map fun x => .num (ryu.text x))) :=
    rfl
  have hfinite :
      (f.toVec.map fun x => Value.num (ryu.text x)).all
          (isFiniteNumber server.runtime) =
        true := by
    rw [List.all_map, List.all_eq_true]
    intro x hx
    exact h.finite x (CorrectionFeatures.isFinite_of_mem_toVec hx)
  unfold checkBody
  rw [h.loads f, requestValue]
  simp only [hfeatures]
  simp only [CorrectionFeatures.toVec, List.map_cons, List.map_nil]
    at hfinite hbaseline ⊢
  simp only [hfinite, hbaseline]
  rw [if_neg (by decide), if_neg (by simp [featureLen]),
    if_neg (by simp [featureLen, maxInferBatches])]
  rfl

theorem lookup_baseline
    (ryu : FloatText)
    (f : CorrectionFeatures) :
    lookup "baseline_estimate".toList (requestMembers ryu f) =
      some (intValue f.baselineEstimate.toNat) :=
  rfl

theorem le_u64Max
    (n : UInt64) :
    (n.toNat : Int) ≤ u64Max := by
  have hlt := n.toNat_lt
  rw [u64Max]
  omega

/-- A declared length within the cap is no reason to refuse. -/
theorem not_over_cap
    {n : Nat}
    (hn : n ≤ bodyMaxBytes) :
    ¬ (n : ℚ) > (bodyMaxBytes : ℚ) := by
  rw [gt_iff_lt, Nat.cast_lt]
  omega

theorem serves_python
    (h : rt.Standard ryu)
    (t : DecimalDigits)
    (format : List Value → Nat → Option (List Char)) :
    (pythonServer rt t format).Serves ryu where
  declared := by
    intro n hn
    have hread := h.number n (hn.trans_lt (by decide))
    simp [pythonServer, declaredPy, hread, not_over_cap hn]
  checkBody := by
    intro f
    refine @checkBody_request ryu (pythonServer rt t format) _ h f ?_
    simp only [pythonServer, baselinePy, lookup_baseline, intValue,
      asInt_intText]
    rw [if_pos ⟨by omega, le_u64Max _⟩, Int.toNat_natCast]

theorem serves_typescript
    (h : rt.Standard ryu)
    (replace : List Value → Nat → List Char) :
    (typescriptServer rt replace).Serves ryu where
  declared := by
    intro n hn
    have hread := h.number n (hn.trans_lt (by decide))
    simp [typescriptServer, declaredTs, hread, not_over_cap hn]
  checkBody := by
    intro f
    refine @checkBody_request ryu (typescriptServer rt replace) _ h f ?_
    have htext : rt.text (requestBytes ryu f) = print (requestValue ryu f) :=
      h.text _
    have hspelled :
        intText f.baselineEstimate.toNat =
          Nat.toDigits 10 f.baselineEstimate.toNat := by
      simp [intText]
    simp only [typescriptServer, parseU64Baseline, lookup_baseline,
      intValue, hspelled,
      h.integer _ f.baselineEstimate.toNat_lt, if_true, htext,
      matchAll_request, Nat.ofDigitChars_ten_toDigits]
    rw [if_pos (le_u64Max _)]

/-- Which of the two servers runs, with its template. -/
inductive Language
  | python
      (t : DecimalDigits)
      (format : List Value → Nat → Option (List Char))
  | typescript (replace : List Value → Nat → List Char)

namespace Language

def server (rt : Runtime) : Language → Server
  | .python t format => pythonServer rt t format
  | .typescript replace => typescriptServer rt replace

/-- A backend is called without `await`, so that the event loop stands still. -/
def blocks : Language → Bool
  | .python _ _ => true
  | .typescript _ => false

theorem serves
    (h : rt.Standard ryu)
    (language : Language) :
    (language.server rt).Serves ryu := by
  cases language with
  | python t format => exact serves_python h t format
  | typescript replace => exact serves_typescript h replace

end Language

end Serving

end Gpudb
end Samkhya
