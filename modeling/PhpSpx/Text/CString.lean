import Mathlib

/-!
# C strings, the long type and `strtol`

A NUL-terminated string is the list of its characters before the NUL; a byte is
written as the character with that code.  The C type `long` is the integers
from `longMin` to `longMax`, with wrapping arithmetic.
-/

namespace PhpSpx

/-- A NUL-terminated string, without the NUL. -/
abbrev CStr := List Char

/-- The character `'\0'`. -/
def nul : Char := Char.ofNat 0

/-- What a `char *` points to: the characters before the NUL, none of which is one. -/
structure NulTerminated where
  chars : CStr
  nul_notMem : nul ∉ chars

namespace NulTerminated

/-- `strlen`. -/
def strlen (s : NulTerminated) : ℕ := s.chars.length

/-- The string in memory. -/
def bytes (s : NulTerminated) : List Char := s.chars ++ [nul]

@[simp] theorem length_bytes (s : NulTerminated) : s.bytes.length = s.strlen + 1 := by
  simp [bytes, strlen]

/-- The C string that characters with NULs among them are read as. -/
def ofChars (chars : List Char) : NulTerminated where
  chars := chars.takeWhile (· ≠ nul)
  nul_notMem h := by simpa using List.mem_takeWhile_imp h

theorem strlen_ofChars_le (chars : List Char) : (ofChars chars).strlen ≤ chars.length :=
  (List.takeWhile_prefix _).length_le

/-- Without a NUL, all the characters are kept. -/
theorem chars_ofChars_replicate {c : Char} (hc : c ≠ nul) (n : ℕ) :
    (ofChars (List.replicate n c)).chars = List.replicate n c := by
  apply List.takeWhile_eq_self_iff.mpr
  intro a ha
  rw [List.eq_of_mem_replicate ha]
  exact decide_eq_true hc

end NulTerminated

/-- `LONG_MAX` for a 64-bit `long`. -/
def longMax : ℤ := 2 ^ 63 - 1

/-- `LONG_MIN` for a 64-bit `long`. -/
def longMin : ℤ := -2 ^ 63

/-- The `long` an integer becomes modulo `2 ^ 64`. -/
def wrapLong (v : ℤ) : ℤ := v.bmod (2 ^ 64)

/-- `isspace` in the C locale. -/
def isSpace (c : Char) : Bool :=
  c = ' ' ∨ c = '\t' ∨ c = '\n' ∨ c = Char.ofNat 11 ∨ c = Char.ofNat 12 ∨ c = '\r'

/-- The value of a decimal digit. -/
def digitValue (c : Char) : ℕ := c.toNat - '0'.toNat

/-- The number a run of decimal digits denotes. -/
def digitsValue (ds : List Char) : ℕ := ds.foldl (fun v c => v * 10 + digitValue c) 0

@[simp] theorem digitsValue_nil : digitsValue [] = 0 := rfl

theorem digitsValue_append_singleton (ds : CStr) (c : Char) :
    digitsValue (ds ++ [c]) = digitsValue ds * 10 + digitValue c := by
  rw [digitsValue, List.foldl_append]
  rfl

theorem digitValue_le {c : Char} (h : c.isDigit = true) : digitValue c ≤ 9 := by
  have hc : c.toNat ≤ '9'.toNat := (Char.isDigit_iff_toNat.mp h).2
  exact Nat.sub_le_sub_right hc _

theorem digitsValue_lt {ds : CStr} (h : ∀ c ∈ ds, c.isDigit = true) :
    digitsValue ds < 10 ^ ds.length := by
  induction ds using List.reverseRecOn with
  | nil => exact Nat.one_pos
  | append_singleton ds c ih =>
    have hds := ih fun x hx => h x (List.mem_append_left _ hx)
    have hc := digitValue_le (h c (List.mem_append_right _ List.mem_cons_self))
    rw [digitsValue_append_singleton, List.length_append, List.length_singleton, pow_succ]
    omega

/-- What `strtol` reports: the value, the text `endptr` points to, whether any
digit was converted, and whether `errno` was set to `ERANGE`. -/
structure StrtolResult where
  value : ℤ
  endptr : CStr
  converted : Bool
  erange : Bool
  deriving DecidableEq, Repr

/-- Split an optional sign off: whether it was a minus, and what follows. -/
def splitSign : CStr → Bool × CStr
  | '-' :: s => (true, s)
  | '+' :: s => (false, s)
  | s => (false, s)

/-- `strtol(s, &endptr, 10)`. -/
def strtol (s : CStr) : StrtolResult :=
  let signed := splitSign (s.dropWhile isSpace)
  let digits := signed.2.takeWhile Char.isDigit
  let rest := signed.2.dropWhile Char.isDigit
  let v : ℤ := if signed.1 then -(digitsValue digits : ℤ) else digitsValue digits
  if digits = [] then ⟨0, s, false, false⟩
  else if v > longMax then ⟨longMax, rest, true, true⟩
  else if v < longMin then ⟨longMin, rest, true, true⟩
  else ⟨v, rest, true, false⟩

theorem isSpace_of_isDigit {c : Char} (h : c.isDigit = true) : isSpace c = false := by
  rw [Bool.eq_false_iff]
  intro hspace
  simp only [isSpace, Bool.decide_or, Bool.or_eq_true, decide_eq_true_eq] at hspace
  rcases hspace with rfl | rfl | rfl | rfl | rfl | rfl <;> exact absurd h (by decide)

theorem splitSign_of_isDigit {c : Char} (h : c.isDigit = true) (s : CStr) :
    splitSign (c :: s) = (false, c :: s) := by
  unfold splitSign
  split
  · rename_i heq
    obtain ⟨rfl, -⟩ := List.cons.inj heq
    exact absurd h (by decide)
  · rename_i heq
    obtain ⟨rfl, -⟩ := List.cons.inj heq
    exact absurd h (by decide)
  · rfl

/-- A run of digits is read as the number it denotes. -/
theorem strtol_digits {ds : CStr} (hne : ds ≠ []) (hd : ∀ c ∈ ds, c.isDigit = true)
    (hv : (digitsValue ds : ℤ) ≤ longMax) : strtol ds = ⟨digitsValue ds, [], true, false⟩ := by
  obtain ⟨c, s, rfl⟩ := List.exists_cons_of_ne_nil hne
  have hc : c.isDigit = true := hd c List.mem_cons_self
  have hspace : (c :: s).dropWhile isSpace = c :: s := by
    rw [List.dropWhile_cons_of_neg (by simp [isSpace_of_isDigit hc])]
  have htake : (c :: s).takeWhile Char.isDigit = c :: s := List.takeWhile_eq_self_iff.mpr hd
  have hdrop : (c :: s).dropWhile Char.isDigit = [] := List.dropWhile_eq_nil_iff.mpr hd
  have hlow : ¬(digitsValue (c :: s) : ℤ) < longMin := by
    rw [longMin]
    omega
  simp only [strtol, hspace, splitSign_of_isDigit hc, htake, hdrop, List.cons_ne_nil, if_false,
    Bool.false_eq_true, not_lt.mpr hv, hlow]

end PhpSpx
