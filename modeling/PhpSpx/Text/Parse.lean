import PhpSpx.Text.CString

/-!
# Splitting lists and parsing bounded integers

`SPX_UTILS_TOKENIZE_STRING` of `spx_utils.h` and `spx_parse_long` of
`spx_security_validation.c`.
-/

namespace PhpSpx

/-! ## `SPX_UTILS_TOKENIZE_STRING` -/

/-- The loop of `SPX_UTILS_TOKENIZE_STRING`: `token` is the text in the token
buffer so far.  A character that does not fit the buffer is dropped. -/
def tokenizeLoop (delim : Char) (size : ℕ) (token : CStr) : CStr → List CStr
  | [] => [token]
  | c :: str =>
    if c = delim then token :: tokenizeLoop delim size [] str
    else if token.length < size - 1 then tokenizeLoop delim size (token ++ [c]) str
    else tokenizeLoop delim size token str

/-- The tokens `SPX_UTILS_TOKENIZE_STRING` runs its block on. -/
def tokenizeString (str : CStr) (delim : Char) (size : ℕ) : List CStr :=
  tokenizeLoop delim size [] str

/-! ## `spx_parse_long` -/

/-- The failures of `spx_parse_result_t`. -/
inductive ParseResult where
  | nullInput
  | emptyString
  | invalidFormat
  | overflow
  | underflow
  | outOfRange
  deriving DecidableEq, Repr

/-- The error codes `spx_parse_long` sets. -/
inductive ErrorCode where
  | invalidInput
  | outOfRange
  deriving DecidableEq, Repr

/-- A failed parse: the code returned and the `spx_error_t` filled in. -/
structure ParseFailure where
  result : ParseResult
  code : ErrorCode
  message : String
  deriving DecidableEq, Repr

/-- `spx_parse_long` with a non-NULL output pointer: the value stored there. -/
def parseLong (str : Option CStr) (minValue maxValue : ℤ) : Except ParseFailure ℤ :=
  match str with
  | none => .error ⟨.nullInput, .invalidInput, "NULL input string"⟩
  | some str =>
    if str = [] then .error ⟨.emptyString, .invalidInput, "Empty input string"⟩
    else
      let r := strtol str
      let text := String.ofList str
      if r.erange ∧ r.value = longMax then
        .error ⟨.overflow, .outOfRange, "Value overflow: " ++ text⟩
      else if r.erange ∧ r.value = longMin then
        .error ⟨.underflow, .outOfRange, "Value underflow: " ++ text⟩
      else if r.endptr ≠ [] then
        .error ⟨.invalidFormat, .invalidInput,
          "Invalid characters in input: '" ++ String.ofList r.endptr ++ "' at position " ++
            toString (str.length - r.endptr.length)⟩
      else if r.value < minValue ∨ maxValue < r.value then
        .error ⟨.outOfRange, .outOfRange,
          "Value " ++ toString r.value ++ " out of range [" ++ toString minValue ++ ", " ++
            toString maxValue ++ "]"⟩
      else .ok r.value

/-- A parsed value is within the bounds asked for. -/
theorem parseLong_bounds {str : Option CStr} {minValue maxValue v : ℤ}
    (h : parseLong str minValue maxValue = .ok v) : minValue ≤ v ∧ v ≤ maxValue := by
  cases str with
  | none => exact nomatch h
  | some str =>
    simp only [parseLong] at h
    split_ifs at h with h₁ h₂ h₃ h₄ h₅
    · cases h
      push Not at h₅
      exact h₅

end PhpSpx
