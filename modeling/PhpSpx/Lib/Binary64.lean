import Mathlib.Algebra.Order.Field.Power
import Mathlib.Algebra.Order.Floor.Ring
import Mathlib.Algebra.Ring.Subring.Basic
import Mathlib.Data.Int.Log
import Mathlib.Data.Rat.Floor
import Mathlib.Tactic.Linarith
import Mathlib.Tactic.NormNum
import Mathlib.Tactic.Positivity
import Mathlib.Tactic.Ring

/-!
# Rounding to floating point numbers

The floating point number nearest to a rational number, ties to even: the number is
divided by the value of its last place, rounded to an integer and multiplied again.
Infinities are left out, so that a number beyond the largest one is rounded as if the
exponent had no upper bound.

* `roundFloat` — for a precision and a least exponent.
* `toBinary64` — for the double precision, with the sum and the difference of doubles.
* `roundFloat_of_abs_le` — whole numbers that fit in the precision are not rounded.
* `roundFloat_mem_wholeNumbers` — no whole number is rounded to a fraction.
-/

namespace PhpSpx.Lib

/-! ## The nearest integer -/

/-- A rational number to the nearest integer, ties to even. -/
def roundHalfEven (q : ℚ) : ℤ :=
  let rest := q - ⌊q⌋
  if rest < 1 / 2 then ⌊q⌋
  else if rest > 1 / 2 then ⌊q⌋ + 1
  else if ⌊q⌋ % 2 = 0 then ⌊q⌋ else ⌊q⌋ + 1

@[simp] theorem roundHalfEven_intCast (n : ℤ) : roundHalfEven (n : ℚ) = n := by
  simp [roundHalfEven]

theorem floor_le_roundHalfEven (q : ℚ) : ⌊q⌋ ≤ roundHalfEven q := by
  simp only [roundHalfEven]
  split_ifs <;> omega

theorem roundHalfEven_nonneg {q : ℚ} (hq : 0 ≤ q) : 0 ≤ roundHalfEven q :=
  (Int.floor_nonneg.mpr hq).trans (floor_le_roundHalfEven q)

/-! ## Whole numbers -/

/-- The rational numbers without a fraction. -/
def wholeNumbers : Subring ℚ := (Int.castRingHom ℚ).range

theorem mem_wholeNumbers {q : ℚ} : q ∈ wholeNumbers ↔ ∃ n : ℤ, (n : ℚ) = q := Iff.rfl

instance (q : ℚ) : Decidable (q ∈ wholeNumbers) :=
  decidable_of_iff (q.den = 1)
    ((Rat.den_eq_one_iff q).trans ⟨fun h => ⟨q.num, h⟩, by rintro ⟨n, rfl⟩; simp⟩)

theorem min_mem_wholeNumbers {a b : ℚ} (ha : a ∈ wholeNumbers) (hb : b ∈ wholeNumbers) :
    min a b ∈ wholeNumbers := by
  rcases min_choice a b with h | h
  · rwa [h]
  · rwa [h]

theorem max_mem_wholeNumbers {a b : ℚ} (ha : a ∈ wholeNumbers) (hb : b ∈ wholeNumbers) :
    max a b ∈ wholeNumbers := by
  rcases max_choice a b with h | h
  · rwa [h]
  · rwa [h]

/-! ## Rounding -/

section RoundFloat

variable (p : ℕ) (emin : ℤ)

/-- The exponent of the last place of a number, for a precision of `p` digits and the
least exponent `emin`. -/
def lastPlace (q : ℚ) : ℤ := max (Int.log 2 |q| - (p - 1)) emin

/-- The floating point number nearest to a rational number. -/
def roundFloat (q : ℚ) : ℚ :=
  roundHalfEven (q / 2 ^ lastPlace p emin q) * 2 ^ lastPlace p emin q

variable {p emin}

/-- A multiple of the value of its last place is not rounded. -/
theorem roundFloat_of_multiple {q : ℚ} (k : ℤ) (hk : q = k * 2 ^ lastPlace p emin q) :
    roundFloat p emin q = q := by
  have hpos : (2 : ℚ) ^ lastPlace p emin q ≠ 0 := by positivity
  have hquot : q / 2 ^ lastPlace p emin q = k := by
    rw [div_eq_iff hpos]
    exact hk
  rw [roundFloat, hquot, roundHalfEven_intCast]
  exact hk.symm

/-- A whole number is a multiple of any place behind the point. -/
theorem roundFloat_of_lastPlace_nonpos {q : ℚ} (hq : q ∈ wholeNumbers)
    (hplace : lastPlace p emin q ≤ 0) : roundFloat p emin q = q := by
  obtain ⟨n, hn⟩ := mem_wholeNumbers.mp hq
  obtain ⟨k, hk⟩ := Int.eq_ofNat_of_zero_le (neg_nonneg.mpr hplace)
  have hplace : lastPlace p emin q = -(k : ℤ) := by omega
  apply roundFloat_of_multiple (n * 2 ^ k)
  rw [hplace, zpow_neg, zpow_natCast, ← hn]
  push_cast
  rw [mul_assoc, mul_inv_cancel₀ (by positivity), mul_one]

theorem lastPlace_nonpos {q : ℚ} (hp : 1 ≤ p) (hemin : emin ≤ 0) (hq : |q| < 2 ^ p) :
    lastPlace p emin q ≤ 0 := by
  refine max_le ?_ hemin
  rcases eq_or_ne q 0 with rfl | hne
  · rw [abs_zero, Int.log_zero_right]
    omega
  · have hlog : Int.log 2 |q| < p :=
      (Int.lt_zpow_iff_log_lt one_lt_two (abs_pos.mpr hne)).mp (by exact_mod_cast hq)
    omega

theorem lastPlace_of_abs_eq {q : ℚ} (hemin : emin ≤ 0) (hq : |q| = 2 ^ p) :
    lastPlace p emin q = 1 := by
  have hlog : Int.log 2 |q| = p := by
    rw [hq]
    exact_mod_cast Int.log_zpow (R := ℚ) one_lt_two (p : ℤ)
  rw [lastPlace, hlog]
  omega

/-- **Whole numbers that fit in the precision are not rounded.** -/
theorem roundFloat_of_abs_le {q : ℚ} (hp : 1 ≤ p) (hemin : emin ≤ 0) (hwhole : q ∈ wholeNumbers)
    (hq : |q| ≤ 2 ^ p) : roundFloat p emin q = q := by
  rcases hq.lt_or_eq with hlt | heq
  · exact roundFloat_of_lastPlace_nonpos hwhole (lastPlace_nonpos hp hemin hlt)
  · -- the power of two next to the precision is even
    obtain ⟨k, rfl⟩ := Nat.exists_eq_add_of_le' hp
    have hplace := lastPlace_of_abs_eq hemin heq
    rcases abs_eq (by positivity) |>.mp heq with h | h
    · apply roundFloat_of_multiple (2 ^ k)
      rw [hplace, h]
      push_cast
      ring
    · apply roundFloat_of_multiple (-2 ^ k)
      rw [hplace, h]
      push_cast
      ring

/-- **No whole number is rounded to a fraction.** -/
theorem roundFloat_mem_wholeNumbers {q : ℚ} (hq : q ∈ wholeNumbers) :
    roundFloat p emin q ∈ wholeNumbers := by
  rcases le_total (lastPlace p emin q) 0 with hplace | hplace
  · rwa [roundFloat_of_lastPlace_nonpos hq hplace]
  · obtain ⟨k, hk⟩ := Int.eq_ofNat_of_zero_le hplace
    refine ⟨roundHalfEven (q / 2 ^ lastPlace p emin q) * 2 ^ k, ?_⟩
    rw [roundFloat, hk]
    simp

theorem roundFloat_nonneg {q : ℚ} (hq : 0 ≤ q) : 0 ≤ roundFloat p emin q := by
  have hround : 0 ≤ roundHalfEven (q / 2 ^ lastPlace p emin q) :=
    roundHalfEven_nonneg (by positivity)
  exact mul_nonneg (by exact_mod_cast hround) (by positivity)

end RoundFloat

/-! ## Doubles -/

/-- The double nearest to a rational number. -/
def toBinary64 (q : ℚ) : ℚ := roundFloat 53 (-1074) q

/-- The sum of two doubles. -/
def binary64Add (a b : ℚ) : ℚ := toBinary64 (a + b)

/-- The difference of two doubles. -/
def binary64Sub (a b : ℚ) : ℚ := toBinary64 (a - b)

theorem toBinary64_of_abs_le {q : ℚ} (hwhole : q ∈ wholeNumbers) (hq : |q| ≤ 2 ^ 53) :
    toBinary64 q = q := roundFloat_of_abs_le (by norm_num) (by norm_num) hwhole hq

theorem binary64Add_of_abs_le {a b : ℚ} (ha : a ∈ wholeNumbers) (hb : b ∈ wholeNumbers)
    (h : |a + b| ≤ 2 ^ 53) : binary64Add a b = a + b :=
  toBinary64_of_abs_le (add_mem ha hb) h

theorem binary64Sub_of_abs_le {a b : ℚ} (ha : a ∈ wholeNumbers) (hb : b ∈ wholeNumbers)
    (h : |a - b| ≤ 2 ^ 53) : binary64Sub a b = a - b :=
  toBinary64_of_abs_le (sub_mem ha hb) h

theorem binary64Add_mem_wholeNumbers {a b : ℚ} (ha : a ∈ wholeNumbers) (hb : b ∈ wholeNumbers) :
    binary64Add a b ∈ wholeNumbers := roundFloat_mem_wholeNumbers (add_mem ha hb)

theorem binary64Sub_mem_wholeNumbers {a b : ℚ} (ha : a ∈ wholeNumbers) (hb : b ∈ wholeNumbers) :
    binary64Sub a b ∈ wholeNumbers := roundFloat_mem_wholeNumbers (sub_mem ha hb)

theorem binary64Add_nonneg {a b : ℚ} (ha : 0 ≤ a) (hb : 0 ≤ b) : 0 ≤ binary64Add a b :=
  roundFloat_nonneg (add_nonneg ha hb)

theorem binary64Sub_nonneg {a b : ℚ} (h : b ≤ a) : 0 ≤ binary64Sub a b :=
  roundFloat_nonneg (sub_nonneg.mpr h)

/-- Past its precision the sum of two whole doubles is rounded, to the even neighbour. -/
example : binary64Add (2 ^ 53) 1 = 2 ^ 53 ∧ binary64Add (2 ^ 53) 3 = 2 ^ 53 + 4 := by
  decide +kernel

end PhpSpx.Lib
