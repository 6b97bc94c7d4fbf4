import Mathlib.Data.List.Basic
import Mathlib.Logic.Function.Basic

/-!
# Cells of memory

Cells numbered from 0, texts that stand in them and writes of a text over them.

* `Holds` — a text stands at a place.
* `overwrite` — a text is written over the cells from a place on.
* `Holds.overwrite` — a write elsewhere leaves a text alone.
* `swapEnds` — a text is turned round in place, `holds_swapEnds`.
-/

namespace PhpSpx.Lib

universe u

variable {α : Type u} {f : ℕ → α} {base start : ℕ} {xs ys : List α}

/-- The text stands in the cells from `base` on. -/
def Holds (f : ℕ → α) (base : ℕ) (xs : List α) : Prop :=
  ∀ i x, xs[i]? = some x → f (base + i) = x

/-- The text is written over the cells from `base` on. -/
def overwrite (f : ℕ → α) (base : ℕ) (xs : List α) : ℕ → α :=
  fun a => if base ≤ a then (xs[a - base]?).getD (f a) else f a

@[simp] theorem holds_nil : Holds f base [] := by
  intro i x hx
  simp at hx

@[simp] theorem holds_singleton {x : α} : Holds f base [x] ↔ f base = x := by
  constructor
  · intro h
    exact h 0 x rfl
  · intro h i y hy
    cases i with
    | zero =>
      rw [Nat.add_zero, h]
      exact Option.some.inj hy
    | succ i => simp at hy

theorem holds_append :
    Holds f base (xs ++ ys) ↔ Holds f base xs ∧ Holds f (base + xs.length) ys := by
  constructor
  · intro h
    constructor
    · intro i x hx
      have hi : i < xs.length := (List.getElem?_eq_some_iff.mp hx).1
      exact h i x (by rw [List.getElem?_append_left hi, hx])
    · intro i y hy
      have hshift : (xs ++ ys)[xs.length + i]? = some y := by
        rw [List.getElem?_append_right (Nat.le_add_right _ _), Nat.add_sub_cancel_left, hy]
      rw [Nat.add_assoc]
      exact h _ y hshift
  · rintro ⟨hxs, hys⟩ i x hx
    by_cases hi : i < xs.length
    · rw [List.getElem?_append_left hi] at hx
      exact hxs i x hx
    · obtain ⟨j, rfl⟩ := Nat.exists_eq_add_of_le (Nat.not_lt.mp hi)
      rw [List.getElem?_append_right (Nat.le_add_right _ _), Nat.add_sub_cancel_left] at hx
      rw [← Nat.add_assoc]
      exact hys j x hx

theorem overwrite_of_lt {a : ℕ} (h : a < base) : overwrite f base xs a = f a :=
  if_neg (Nat.not_le.mpr h)

theorem overwrite_of_ge {a : ℕ} (h : base + xs.length ≤ a) : overwrite f base xs a = f a := by
  have hbase : base ≤ a := Nat.le_trans (Nat.le_add_right _ _) h
  have hlen : xs.length ≤ a - base := by omega
  rw [overwrite, if_pos hbase, List.getElem?_eq_none hlen]
  rfl

/-- What was written stands there. -/
theorem holds_overwrite (f : ℕ → α) (base : ℕ) (xs : List α) :
    Holds (overwrite f base xs) base xs := by
  intro i x hx
  rw [overwrite, if_pos (Nat.le_add_right _ _), Nat.add_sub_cancel_left, hx]
  rfl

/-- A text stands where it stood after a write before it or behind it. -/
theorem Holds.overwrite (h : Holds f start ys)
    (hapart : start + ys.length ≤ base ∨ base + xs.length ≤ start) :
    Holds (overwrite f base xs) start ys := by
  intro i y hy
  have hi : i < ys.length := (List.getElem?_eq_some_iff.mp hy).1
  rcases hapart with hbefore | hbehind
  · rw [overwrite_of_lt (by omega)]
    exact h i y hy
  · rw [overwrite_of_ge (by omega)]
    exact h i y hy

/-- A text grows by a write to the cell behind it. -/
theorem Holds.snoc (h : Holds f base xs) (x : α) :
    Holds (Function.update f (base + xs.length) x) base (xs ++ [x]) := by
  rw [holds_append]
  constructor
  · intro i y hy
    have hi : i < xs.length := (List.getElem?_eq_some_iff.mp hy).1
    rw [Function.update_of_ne (by omega)]
    exact h i y hy
  · rw [holds_singleton, Function.update_self]

/-! ## Turning a text round -/

/-- Two cells change places. -/
def swapCells (f : ℕ → α) (i j : ℕ) : ℕ → α :=
  Function.update (Function.update f i (f j)) j (f i)

/-- From the `i`-th on, cells of a text change places with those as far from its end. -/
def swapEnds (base len : ℕ) : ℕ → ℕ → (ℕ → α) → ℕ → α
  | 0, _, f => f
  | turns + 1, i, f =>
      swapEnds base len turns (i + 1) (swapCells f (base + i) (base + (len - i - 1)))

/-- The cells of a text less than `i` away from an end hold what the other end held. -/
def mirror (base len i : ℕ) (f : ℕ → α) : ℕ → α :=
  fun k =>
    if base ≤ k ∧ k < base + len ∧ (k < base + i ∨ base + len ≤ k + i) then
      f (2 * base + len - 1 - k)
    else f k

@[simp] theorem mirror_zero (base len : ℕ) (f : ℕ → α) : mirror base len 0 f = f := by
  funext k
  exact if_neg (by omega)

/-- One turn. -/
theorem swapCells_mirror {len i : ℕ} (hi : 2 * i + 1 < len) (f : ℕ → α) :
    swapCells (mirror base len i f) (base + i) (base + (len - i - 1)) =
      mirror base len (i + 1) f := by
  have hleft : mirror base len i f (base + i) = f (base + i) := if_neg (by omega)
  have hright : mirror base len i f (base + (len - i - 1)) = f (base + (len - i - 1)) :=
    if_neg (by omega)
  funext k
  unfold swapCells
  rw [hleft, hright]
  by_cases hk : k = base + (len - i - 1)
  · subst hk
    rw [Function.update_self, mirror, if_pos (by omega)]
    congr 1
    omega
  · rw [Function.update_of_ne hk]
    by_cases hk' : k = base + i
    · subst hk'
      rw [Function.update_self, mirror, if_pos (by omega)]
      congr 1
      omega
    · rw [Function.update_of_ne hk']
      unfold mirror
      exact if_congr (by omega) rfl rfl

/-- The loop turns what is left round. -/
theorem swapEnds_mirror {len turns i : ℕ} (h : i + turns = len / 2) (f : ℕ → α) :
    swapEnds base len turns i (mirror base len i f) = mirror base len (len / 2) f := by
  induction turns generalizing i with
  | zero =>
    rw [← h]
    rfl
  | succ turns ih =>
    rw [swapEnds, swapCells_mirror (by omega)]
    exact ih (by omega)

/-- **A text is turned round** by half as many turns as it has characters. -/
theorem holds_swapEnds (h : Holds f base xs) :
    Holds (swapEnds base xs.length (xs.length / 2) 0 f) base xs.reverse := by
  have hloop : swapEnds base xs.length (xs.length / 2) 0 (mirror base xs.length 0 f) = _ :=
    swapEnds_mirror (Nat.zero_add _) f
  rw [mirror_zero] at hloop
  rw [hloop]
  intro j x hx
  have hj : j < xs.length := by simpa using (List.getElem?_eq_some_iff.mp hx).1
  rw [List.getElem?_reverse hj] at hx
  have hcell := h (xs.length - 1 - j) x hx
  unfold mirror
  split
  · rw [← hcell]
    congr 1
    omega
  · rw [← hcell]
    congr 1
    omega

/-- The cells before and behind a text are not touched. -/
theorem swapEnds_of_outside {len k : ℕ} (hk : k < base ∨ base + len ≤ k) (f : ℕ → α) :
    swapEnds base len (len / 2) 0 f k = f k := by
  have hloop : swapEnds base len (len / 2) 0 (mirror base len 0 f) = _ :=
    swapEnds_mirror (Nat.zero_add _) f
  rw [mirror_zero] at hloop
  rw [hloop]
  exact if_neg (by omega)

end PhpSpx.Lib
