import Mathlib.Data.List.Basic
import Mathlib.Data.Nat.Notation

/-!
# JSON string literals

The literals of JSON strings and the texts they stand for.  A text is made of bytes, each
written as the character with that code; bytes above `0x7f` stand for themselves, and an
escaped code point for the bytes of its UTF-8 form.

* `items` — what stands between the quotes.
* `decode` — the text of a literal.
* `decode_flatMap_iff` — the texts that an escaping of single bytes keeps.
-/

namespace PhpSpx.Lib.JsonString

/-- A part of a literal: a byte, plain or escaped, or the code unit of a `\u` escape. -/
inductive Item where
  | byte (c : Char)
  | unit (n : ℕ)
  deriving DecidableEq, Repr

/-- What a backslash and a character other than `u` stand for. -/
def shortEscape (c : Char) : Option Char :=
  match c with
  | '"' => some '"'
  | '\\' => some '\\'
  | '/' => some '/'
  | 'b' => some (Char.ofNat 8)
  | 'f' => some (Char.ofNat 12)
  | 'n' => some '\n'
  | 'r' => some '\r'
  | 't' => some '\t'
  | _ => none

/-- The value of a hexadecimal digit. -/
def hexValue (c : Char) : Option ℕ :=
  if '0' ≤ c ∧ c ≤ '9' then some (c.toNat - '0'.toNat)
  else if 'a' ≤ c ∧ c ≤ 'f' then some (c.toNat - 'a'.toNat + 10)
  else if 'A' ≤ c ∧ c ≤ 'F' then some (c.toNat - 'A'.toNat + 10)
  else none

/-- The number four hexadecimal digits denote. -/
def codeUnit (a b c d : Char) : Option ℕ := do
  let a ← hexValue a
  let b ← hexValue b
  let c ← hexValue c
  let d ← hexValue d
  return ((a * 16 + b) * 16 + c) * 16 + d

/-- The items up to the closing quote, which ends the literal. -/
def items : List Char → Option (List Item)
  | [] => none
  | c :: s =>
    if c = '"' then if s = [] then some [] else none
    else if c = '\\' then
      match s with
      | [] => none
      | e :: s =>
        if e = 'u' then
          match s with
          | x :: y :: z :: w :: s => do
            let n ← codeUnit x y z w
            let rest ← items s
            return .unit n :: rest
          | _ => none
        else do
          let c ← shortEscape e
          let rest ← items s
          return .byte c :: rest
    else if c.toNat < 0x20 then none
    else (items s).map (.byte c :: ·)

/-- The bytes of a code point in UTF-8. -/
def utf8 (n : ℕ) : List Char :=
  (String.utf8EncodeChar (Char.ofNat n)).map fun b => Char.ofNat b.toNat

/-- The bytes of the items; two surrogates make one code point. -/
def text : List Item → Option (List Char)
  | [] => some []
  | .byte c :: l => (text l).map (c :: ·)
  | .unit n :: l =>
    if 0xd800 ≤ n ∧ n < 0xdc00 then
      match l with
      | .unit m :: l =>
        if 0xdc00 ≤ m ∧ m < 0xe000 then
          (text l).map (utf8 (0x10000 + (n - 0xd800) * 0x400 + (m - 0xdc00)) ++ ·)
        else none
      | _ => none
    else if 0xdc00 ≤ n ∧ n < 0xe000 then none
    else (text l).map (utf8 n ++ ·)

/-- The text of a literal, none when it is not one. -/
def decode : List Char → Option (List Char)
  | '"' :: s => (items s).bind text
  | _ => none

/-! ## Reading -/

@[simp] theorem items_quote : items ['"'] = some [] := rfl

theorem items_plain {c : Char} (hcontrol : 0x20 ≤ c.toNat) (hquote : c ≠ '"')
    (hbackslash : c ≠ '\\') (s : List Char) : items (c :: s) = (items s).map (.byte c :: ·) := by
  rw [items.eq_def]
  dsimp only
  rw [if_neg hquote, if_neg hbackslash, if_neg (Nat.not_lt.mpr hcontrol)]

theorem items_escape {e c : Char} (h : shortEscape e = some c) (s : List Char) :
    items ('\\' :: e :: s) = (items s).map (.byte c :: ·) := by
  have hu : e ≠ 'u' := by
    rintro rfl
    cases h
  have hquote : ('\\' : Char) ≠ '"' := by decide
  rw [items.eq_def]
  dsimp only
  rw [if_neg hquote, if_pos rfl, if_neg hu, h]
  cases items s with
  | none => rfl
  | some rest => rfl

theorem items_control {c : Char} (h : c.toNat < 0x20) (s : List Char) : items (c :: s) = none := by
  have hquote : c ≠ '"' := by
    rintro rfl
    exact absurd h (by decide)
  have hbackslash : c ≠ '\\' := by
    rintro rfl
    exact absurd h (by decide)
  rw [items.eq_def]
  dsimp only
  rw [if_neg hquote, if_neg hbackslash, if_pos h]

@[simp] theorem text_map_byte (cs : List Char) : text (cs.map .byte) = some cs := by
  induction cs with
  | nil => rfl
  | cons c cs ih => rw [List.map_cons, text, ih, Option.map_some]

/-! ## Escapings -/

section Escaping

variable {escape : Char → List Char} {P : Char → Prop}

/-- The items of escaped bytes are these bytes. -/
theorem items_flatMap
    (hread : ∀ c, P c → ∀ s, items (escape c ++ s) = (items s).map (.byte c :: ·))
    {cs : List Char} (h : ∀ c ∈ cs, P c) :
    items (cs.flatMap escape ++ ['"']) = some (cs.map .byte) := by
  induction cs with
  | nil => rfl
  | cons c cs ih =>
    rw [List.forall_mem_cons] at h
    rw [List.flatMap_cons, List.append_assoc, hread c h.1, ih h.2]
    rfl

/-- A byte that no literal has where it stands spoils the literal. -/
theorem items_flatMap_eq_none
    (hread : ∀ c, P c → ∀ s, items (escape c ++ s) = (items s).map (.byte c :: ·))
    (hspoilt : ∀ c, ¬P c → ∀ s, items (escape c ++ s) = none) {cs : List Char}
    (h : ¬∀ c ∈ cs, P c) : items (cs.flatMap escape ++ ['"']) = none := by
  induction cs with
  | nil => exact absurd (List.forall_mem_nil _) h
  | cons c cs ih =>
    rw [List.flatMap_cons, List.append_assoc]
    by_cases hc : P c
    · have hcs : ¬∀ c ∈ cs, P c := fun hcs => h (List.forall_mem_cons.mpr ⟨hc, hcs⟩)
      rw [hread c hc, ih hcs]
      rfl
    · exact hspoilt c hc _

/-- **What an escaping keeps**: when the bytes of `P` are read back and the others are not
read at all, the literal has the text exactly when all its bytes are in `P`. -/
theorem decode_flatMap_iff
    (hread : ∀ c, P c → ∀ s, items (escape c ++ s) = (items s).map (.byte c :: ·))
    (hspoilt : ∀ c, ¬P c → ∀ s, items (escape c ++ s) = none) (cs : List Char) :
    decode ('"' :: (cs.flatMap escape ++ ['"'])) = some cs ↔ ∀ c ∈ cs, P c := by
  rw [decode]
  constructor
  · intro h
    by_contra hcs
    rw [items_flatMap_eq_none hread hspoilt hcs] at h
    cases h
  · intro h
    rw [items_flatMap hread h, Option.bind_some, text_map_byte]

end Escaping

end PhpSpx.Lib.JsonString
