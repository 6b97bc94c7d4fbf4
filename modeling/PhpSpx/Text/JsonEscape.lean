import PhpSpx.Lib.JsonString
import PhpSpx.Lib.Outcome
import PhpSpx.Text.CString

/-!
# Escaping for JSON

`spx_utils_json_escape`: a C string is copied with a backslash before some of its
characters, into a buffer with a limit.

* `jsonEscaped` — the copy without a limit.
* `spxUtilsJsonEscape_eq` — what the limit makes of it.
* `json_escape_faithful_iff` — the strings that can be read back.
-/

namespace PhpSpx

open Lib

/-! ## The function -/

/-- The message the process ends with when the buffer is too small. -/
def limitReached : String :=
  "The provided buffer is too small to contain the escaped JSON string"

/-- The `switch` of `spx_utils_json_escape`; none is its `escaped_char == 0`. -/
def escapedChar (c : Char) : Option Char :=
  if c = '\\' ∨ c = '"' ∨ c = '/' then some c
  else if c = '\x08' then some 'b'
  else if c = '\x0c' then some 'f'
  else if c = '\n' then some 'n'
  else if c = '\r' then some 'r'
  else if c = '\t' then some 't'
  else none

/-- The loop of `spx_utils_json_escape` and the NUL after it; `dst` is what was written so
far, so `i` is its length. -/
def jsonEscapeLoop (limit : ℕ) : CStr → CStr → Except String CStr
  | [], dst => if limit ≤ dst.length then .error limitReached else .ok dst
  | c :: src, dst =>
    if limit ≤ dst.length then .error limitReached
    else
      match escapedChar c with
      | some e =>
        if limit ≤ (dst ++ ['\\']).length then .error limitReached
        else jsonEscapeLoop limit src (dst ++ ['\\'] ++ [e])
      | none => jsonEscapeLoop limit src (dst ++ [c])

/-- `spx_utils_json_escape`.  The string in `dst` when it returns; an error is the end of
the process. -/
def spxUtilsJsonEscape (src : NulTerminated) (limit : ℕ) : Except String CStr :=
  jsonEscapeLoop limit src.chars []

/-! ## The escaped string -/

/-- A character, escaped. -/
def jsonEscapeChar (c : Char) : CStr :=
  match escapedChar c with
  | some e => ['\\', e]
  | none => [c]

/-- The characters, escaped one by one. -/
def jsonEscaped (src : CStr) : CStr := src.flatMap jsonEscapeChar

theorem length_jsonEscapeChar (c : Char) :
    (jsonEscapeChar c).length = if (escapedChar c).isSome then 2 else 1 := by
  unfold jsonEscapeChar
  cases escapedChar c with
  | none => rfl
  | some e => rfl

/-- One more character for each that has a backslash before it. -/
theorem length_jsonEscaped (src : CStr) :
    (jsonEscaped src).length = src.length + src.countP fun c => (escapedChar c).isSome := by
  induction src with
  | nil => rfl
  | cons c src ih =>
    rw [jsonEscaped, List.flatMap_cons, ← jsonEscaped, List.length_append, ih, List.length_cons,
      List.countP_cons, length_jsonEscapeChar]
    split <;> omega

theorem jsonEscapeLoop_eq (limit : ℕ) (src dst : CStr) :
    jsonEscapeLoop limit src dst =
      if (dst ++ jsonEscaped src).length < limit then .ok (dst ++ jsonEscaped src)
      else .error limitReached := by
  induction src generalizing dst with
  | nil =>
    rw [jsonEscapeLoop, jsonEscaped, List.flatMap_nil, List.append_nil]
    split
    · rw [if_neg (by omega)]
    · rw [if_pos (by omega)]
  | cons c src ih =>
    have hescaped : jsonEscaped (c :: src) = jsonEscapeChar c ++ jsonEscaped src := rfl
    rw [jsonEscapeLoop, hescaped]
    by_cases hlimit : limit ≤ dst.length
    · rw [if_pos hlimit, if_neg]
      rw [List.length_append]
      omega
    · rw [if_neg hlimit, jsonEscapeChar]
      cases escapedChar c with
      | none =>
        dsimp only
        rw [ih, List.append_assoc]
      | some e =>
        dsimp only
        by_cases hescape : limit ≤ (dst ++ ['\\']).length
        · rw [if_pos hescape, if_neg]
          simp only [List.length_append, List.length_cons, List.length_nil] at hescape ⊢
          omega
        · rw [if_neg hescape, ih]
          simp

/-- The string is escaped when there is room for it and a NUL. -/
theorem spxUtilsJsonEscape_eq (src : NulTerminated) (limit : ℕ) :
    spxUtilsJsonEscape src limit =
      if (jsonEscaped src.chars).length < limit then .ok (jsonEscaped src.chars)
      else .error limitReached := by
  rw [spxUtilsJsonEscape, jsonEscapeLoop_eq, List.nil_append]

theorem succeeds_spxUtilsJsonEscape_iff {src : NulTerminated} {limit : ℕ} :
    Succeeds (spxUtilsJsonEscape src limit) ↔ (jsonEscaped src.chars).length < limit := by
  rw [spxUtilsJsonEscape_eq]
  split
  · rename_i h
    exact iff_of_true (succeeds_ok _) h
  · rename_i h
    exact iff_of_false (not_succeeds_error _) h

/-! ## Reading it back -/

/-- The control characters that `spx_utils_json_escape` escapes. -/
def EscapedControl (c : Char) : Prop :=
  c = '\x08' ∨ c = '\x0c' ∨ c = '\n' ∨ c = '\r' ∨ c = '\t'

instance : DecidablePred EscapedControl := fun c =>
  inferInstanceAs (Decidable (c = '\x08' ∨ c = '\x0c' ∨ c = '\n' ∨ c = '\r' ∨ c = '\t'))

theorem shortEscape_of_escapedChar {c e : Char} (h : escapedChar c = some e) :
    JsonString.shortEscape e = some c := by
  unfold escapedChar at h
  split_ifs at h with hself
  · obtain rfl := Option.some.inj h
    rcases hself with rfl | rfl | rfl <;> rfl
  all_goals
    obtain rfl := Option.some.inj h
    subst_vars
    rfl

theorem escapedChar_eq_none_iff {c : Char} :
    escapedChar c = none ↔ c ≠ '\\' ∧ c ≠ '"' ∧ c ≠ '/' ∧ ¬EscapedControl c := by
  unfold escapedChar EscapedControl
  grind

/-- A character that is not a control character, or is escaped, is read back. -/
theorem items_jsonEscapeChar {c : Char} (h : c.toNat < 0x20 → EscapedControl c) (s : CStr) :
    JsonString.items (jsonEscapeChar c ++ s) = (JsonString.items s).map (.byte c :: ·) := by
  unfold jsonEscapeChar
  cases he : escapedChar c with
  | none =>
    obtain ⟨hbackslash, hquote, -, hcontrol⟩ := escapedChar_eq_none_iff.mp he
    exact JsonString.items_plain (Nat.not_lt.mp (mt h hcontrol)) hquote hbackslash s
  | some e => exact JsonString.items_escape (shortEscape_of_escapedChar he) s

/-- The other control characters are not escaped. -/
theorem escapedChar_of_control {c : Char} (hlt : c.toNat < 0x20) (hcontrol : ¬EscapedControl c) :
    escapedChar c = none := by
  refine escapedChar_eq_none_iff.mpr ⟨?_, ?_, ?_, hcontrol⟩
  all_goals
    rintro rfl
    exact absurd hlt (by decide)

/-- They are copied, and no literal contains them. -/
theorem items_jsonEscapeChar_eq_none {c : Char} (h : ¬(c.toNat < 0x20 → EscapedControl c))
    (s : CStr) : JsonString.items (jsonEscapeChar c ++ s) = none := by
  rw [Classical.not_imp] at h
  obtain ⟨hlt, hcontrol⟩ := h
  rw [jsonEscapeChar, escapedChar_of_control hlt hcontrol]
  exact JsonString.items_control hlt s

theorem decode_jsonEscaped_iff (src : CStr) :
    JsonString.decode ('"' :: (jsonEscaped src ++ ['"'])) = some src ↔
      ∀ c ∈ src, c.toNat < 0x20 → EscapedControl c :=
  JsonString.decode_flatMap_iff (fun _ => items_jsonEscapeChar)
    (fun _ => items_jsonEscapeChar_eq_none) src

/-- **The escaped string as a literal**: when there is room for it, it is a JSON string
between quotes, with the text `src`, exactly when every control character in `src` is one of
those that are escaped. -/
theorem json_escape_faithful_iff {src : NulTerminated} {limit : ℕ}
    (h : (jsonEscaped src.chars).length < limit) :
    (∃ dst, spxUtilsJsonEscape src limit = .ok dst ∧
        JsonString.decode ('"' :: (dst ++ ['"'])) = some src.chars) ↔
      ∀ c ∈ src.chars, c.toNat < 0x20 → EscapedControl c := by
  rw [← decode_jsonEscaped_iff, spxUtilsJsonEscape_eq, if_pos h]
  constructor
  · rintro ⟨dst, hdst, hdecode⟩
    obtain rfl := Except.ok.inj hdst
    exact hdecode
  · intro hdecode
    exact ⟨_, rfl, hdecode⟩

/-- A quote and a newline. -/
theorem json_escape_faithful_newline :
    (jsonEscaped ['"', '\n']).length < 8 ∧
      ∃ dst, spxUtilsJsonEscape ⟨['"', '\n'], by decide⟩ 8 = .ok dst ∧
        JsonString.decode ('"' :: (dst ++ ['"'])) = some ['"', '\n'] := by
  have hlt : (jsonEscaped ['"', '\n']).length < 8 := by decide
  refine ⟨hlt, (@json_escape_faithful_iff ⟨['"', '\n'], by decide⟩ 8 hlt).mpr ?_⟩
  simp [EscapedControl]

/-- The character with code 1 is copied as it is, and the literal is none. -/
theorem control_char_not_escaped :
    ¬∀ (src : NulTerminated) (limit : ℕ), (jsonEscaped src.chars).length < limit →
      ∃ dst, spxUtilsJsonEscape src limit = .ok dst ∧
        JsonString.decode ('"' :: (dst ++ ['"'])) = some src.chars := by
  intro h
  have hlt : (jsonEscaped ['\x01']).length < 8 := by decide
  obtain ⟨dst, hdst, hdecode⟩ := h ⟨['\x01'], by decide⟩ 8 hlt
  rw [spxUtilsJsonEscape_eq, if_pos hlt] at hdst
  obtain rfl := Except.ok.inj hdst
  have hescaped := (decode_jsonEscaped_iff ['\x01']).mp hdecode '\x01' (by simp) (by decide)
  unfold EscapedControl at hescaped
  revert hescaped
  decide

end PhpSpx
