import Mathlib.Algebra.BigOperators.Intervals
import Mathlib.Algebra.Order.BigOperators.Group.Finset
import Mathlib.Algebra.Order.Field.Basic
import Mathlib.Tactic.Linarith
import Mathlib.Tactic.Ring

/-!
# Sums along a polyline

A polyline has a vertex for every natural number.  What its pieces add up to on the way from
vertex 0 to a point of piece `k`, a fraction `d` of it behind the point, is the sum of the
pieces passed and the fraction of the last one.

* `upTo` — the sum up to a point.
* `upTo_telescope` — for the differences of the vertices it is the value at the point.
* `upTo_mono` — it does not decrease on the way when no piece is negative.
-/

namespace PhpSpx.Lib

variable {α : Type} [Field α]

/-- What `g` adds up to up to the fraction `d` of piece `k`. -/
def upTo (g : ℕ → α) (k : ℕ) (d : α) : α := ∑ i ∈ Finset.range k, g i + d * g k

/-- The end of a piece is the beginning of the next one. -/
theorem upTo_succ_zero (g : ℕ → α) (k : ℕ) : upTo g (k + 1) 0 = upTo g k 1 := by
  rw [upTo, upTo, Finset.sum_range_succ, zero_mul, add_zero, one_mul]

/-- On one piece. -/
theorem upTo_sub_upTo (g : ℕ → α) (k : ℕ) (d e : α) : upTo g k e - upTo g k d = (e - d) * g k := by
  rw [upTo, upTo]
  ring

theorem upTo_telescope (f : ℕ → α) (k : ℕ) (d : α) :
    upTo (fun i => f (i + 1) - f i) k d = f k + d * (f (k + 1) - f k) - f 0 := by
  rw [upTo, Finset.sum_range_sub]
  ring

theorem upTo_sub (g h : ℕ → α) (k : ℕ) (d : α) :
    upTo (fun i => g i - h i) k d = upTo g k d - upTo h k d := by
  rw [upTo, upTo, upTo, Finset.sum_sub_distrib]
  ring

theorem upTo_neg (g : ℕ → α) (k : ℕ) (d : α) : upTo (fun i => -g i) k d = -upTo g k d := by
  rw [upTo, upTo, Finset.sum_neg_distrib]
  ring

variable [LinearOrder α] [IsStrictOrderedRing α]

/-- A point comes before another one, or is the same. -/
def Before (k : ℕ) (d : α) (l : ℕ) (e : α) : Prop := k < l ∨ k = l ∧ d ≤ e

/-- **Pieces that are not negative** add up to more and more. -/
theorem upTo_mono {g : ℕ → α} (hg : ∀ i, 0 ≤ g i) {k l : ℕ} {d e : α} (hd : d ≤ 1) (he : 0 ≤ e)
    (h : Before k d l e) : upTo g k d ≤ upTo g l e := by
  rcases h with hlt | ⟨rfl, hle⟩
  · have hend : d * g k ≤ g k := mul_le_of_le_one_left (hg k) hd
    have hsum : ∑ i ∈ Finset.range (k + 1), g i ≤ ∑ i ∈ Finset.range l, g i :=
      Finset.sum_le_sum_of_subset_of_nonneg (Finset.range_mono hlt) fun i _ _ => hg i
    have hrest : 0 ≤ e * g l := mul_nonneg he (hg l)
    rw [Finset.sum_range_succ] at hsum
    rw [upTo, upTo]
    linarith
  · have hpiece : 0 ≤ (e - d) * g k := mul_nonneg (sub_nonneg.mpr hle) (hg k)
    rw [← upTo_sub_upTo] at hpiece
    exact sub_nonneg.mp hpiece

end PhpSpx.Lib
