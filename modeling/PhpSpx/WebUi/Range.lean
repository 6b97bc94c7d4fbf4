import Mathlib.Algebra.Order.Field.Basic
import Mathlib.Data.Rat.Lemmas
import Mathlib.Tactic.FieldSimp
import Mathlib.Tactic.Linarith
import Mathlib.Tactic.Ring

/-!
# Ranges

`Range` and the interpolation of `math.js`, on exact numbers.  A range is closed and its
constructor throws when it would end before it begins.

* `Range.subRange_left`, `Range.subRange_right` — the halves of a range.
* `Range.contains_sub` — a range without another one.
* `lerp_eq` — interpolation between the two ends.
-/

namespace PhpSpx.WebUi

/-! ## Interpolation -/

/-- `x || d` for a number or `undefined`. -/
def orDefault (x : Option ℚ) (d : ℚ) : ℚ :=
  match x with
  | none => d
  | some v => if v = 0 then d else v

/-- `bound`. -/
def bound (a : ℚ) (low up : Option ℚ) : ℚ := max (orDefault low 0) (min a (orDefault up 1))

/-- `lerp`. -/
def lerp (a b dist : ℚ) : ℚ :=
  let dist := bound dist none none
  a * (1 - dist) + b * dist

/-- Without bounds of its own `bound` keeps between 0 and 1. -/
theorem bound_eq_self {a : ℚ} (h0 : 0 ≤ a) (h1 : a ≤ 1) : bound a none none = a := by
  rw [bound, orDefault, orDefault, min_eq_left h1, max_eq_right h0]

theorem lerp_eq {a b dist : ℚ} (h0 : 0 ≤ dist) (h1 : dist ≤ 1) :
    lerp a b dist = a + dist * (b - a) := by
  rw [lerp, bound_eq_self h0 h1]
  ring

/-! ## Ranges -/

/-- `Range`; `last` is its `end`. -/
@[ext] structure Range where
  begin : ℚ
  last : ℚ
  ordered : begin ≤ last
  deriving DecidableEq

namespace Range

/-- The constructor of `Range`. -/
def new (begin last : ℚ) : Option Range := if h : begin ≤ last then some ⟨begin, last, h⟩ else none

/-- `Range.length`. -/
def length (range : Range) : ℚ := range.last - range.begin

/-- `Range.center`. -/
def center (range : Range) : ℚ := (range.begin + range.last) / 2

/-- `Range.subRange`. -/
def subRange (range : Range) (ratio num : ℚ) : Option Range :=
  let width := ratio * range.length
  new (max range.begin (range.begin + width * num))
    (min range.last (range.begin + width * (num + 1)))

/-- `Range.containsValue`. -/
def ContainsValue (range : Range) (val : ℚ) : Prop := range.begin ≤ val ∧ val ≤ range.last

/-- `Range.contains`. -/
def Contains (range other : Range) : Prop := range.begin ≤ other.begin ∧ other.last ≤ range.last

/-- `Range.overlaps`. -/
def Overlaps (range other : Range) : Prop :=
  ¬(range.last < other.begin ∨ other.last < range.begin)

instance (range : Range) (val : ℚ) : Decidable (range.ContainsValue val) :=
  inferInstanceAs (Decidable (_ ∧ _))

instance (range other : Range) : Decidable (range.Contains other) :=
  inferInstanceAs (Decidable (_ ∧ _))

instance (range other : Range) : Decidable (range.Overlaps other) :=
  inferInstanceAs (Decidable (¬_))

/-- `Range.intersect`. -/
def intersect (range other : Range) : Option Range :=
  if range.Overlaps other then new (max range.begin other.begin) (min range.last other.last)
  else none

/-- The shortening of `Range.sub` by a range inside. -/
def shorten (range other : Range) : Range :=
  if h : range.Contains other then
    ⟨range.begin, range.last - other.length, by
      have hother := other.ordered
      rw [length]
      linarith [h.1, h.2]⟩
  else range

/-- `Range.sub`. -/
def sub (range other : Range) : Range :=
  if other.Contains range then ⟨range.begin, range.begin, le_rfl⟩
  else
    let range := range.shorten other
    if range.Overlaps other then
      if h : range.ContainsValue other.begin then ⟨range.begin, other.begin, h.1⟩
      else if h : range.ContainsValue other.last then ⟨other.last, range.last, h.2⟩
      else range
    else range

/-! ## Facts about ranges -/

theorem new_of_le {begin last : ℚ} (h : begin ≤ last) : new begin last = some ⟨begin, last, h⟩ :=
  dif_pos h

theorem new_eq_some {begin last : ℚ} {range : Range} (h : new begin last = some range) :
    range.begin = begin ∧ range.last = last := by
  rw [new] at h
  split at h
  · cases h
    exact ⟨rfl, rfl⟩
  · exact nomatch h

theorem length_nonneg (range : Range) : 0 ≤ range.length := sub_nonneg.mpr range.ordered

theorem overlaps_iff {range other : Range} :
    range.Overlaps other ↔ other.begin ≤ range.last ∧ range.begin ≤ other.last := by
  rw [Overlaps, not_or, not_lt, not_lt]

theorem Contains.refl (range : Range) : range.Contains range := ⟨le_rfl, le_rfl⟩

theorem Contains.trans {a b c : Range} (h : a.Contains b) (h' : b.Contains c) : a.Contains c :=
  ⟨h.1.trans h'.1, h'.2.trans h.2⟩

theorem Contains.length_le {a b : Range} (h : a.Contains b) : b.length ≤ a.length :=
  sub_le_sub h.2 h.1

theorem Contains.overlaps {a b : Range} (h : a.Contains b) : a.Overlaps b :=
  overlaps_iff.mpr ⟨b.ordered.trans h.2, h.1.trans b.ordered⟩

/-- What overlaps a part overlaps the whole. -/
theorem Overlaps.of_contains {a b c : Range} (h : a.Contains b) (hb : b.Overlaps c) :
    a.Overlaps c := by
  obtain ⟨h₁, h₂⟩ := overlaps_iff.mp hb
  exact overlaps_iff.mpr ⟨h₁.trans h.2, h.1.trans h₂⟩

theorem Overlaps.symm {a b : Range} (h : a.Overlaps b) : b.Overlaps a := by
  obtain ⟨h₁, h₂⟩ := overlaps_iff.mp h
  exact overlaps_iff.mpr ⟨h₂, h₁⟩

/-- The intersection of ranges that overlap. -/
theorem exists_intersect {range other : Range} (h : range.Overlaps other) :
    ∃ meet : Range, range.intersect other = some meet ∧ meet.begin = max range.begin other.begin ∧
      meet.last = min range.last other.last := by
  obtain ⟨h₁, h₂⟩ := overlaps_iff.mp h
  have hle : max range.begin other.begin ≤ min range.last other.last :=
    max_le (le_min range.ordered h₂) (le_min h₁ other.ordered)
  exact ⟨_, (if_pos h).trans (new_of_le hle), rfl, rfl⟩

theorem contains_shorten (range other : Range) : range.Contains (range.shorten other) := by
  rw [shorten]
  split
  · exact ⟨le_rfl, sub_le_self _ other.length_nonneg⟩
  · exact .refl range

/-- What is left of a range is a part of it. -/
theorem contains_sub (range other : Range) : range.Contains (range.sub other) := by
  rw [sub]
  split
  · exact ⟨le_rfl, range.ordered⟩
  · apply (range.contains_shorten other).trans
    dsimp only
    split_ifs with hoverlaps hbegin hlast
    · exact ⟨le_rfl, hbegin.2⟩
    · exact ⟨hlast.1, le_rfl⟩
    · exact .refl _
    · exact .refl _

theorem begin_le_center (range : Range) : range.begin ≤ range.center := by
  have h := range.ordered
  rw [center]
  linarith

theorem center_le_last (range : Range) : range.center ≤ range.last := by
  have h := range.ordered
  rw [center]
  linarith

/-- The first half. -/
def left (range : Range) : Range := ⟨range.begin, range.center, range.begin_le_center⟩

/-- The second half. -/
def right (range : Range) : Range := ⟨range.center, range.last, range.center_le_last⟩

theorem subRange_left (range : Range) : range.subRange (1 / 2) 0 = some range.left := by
  have hlen := range.length_nonneg
  have hbegin : max range.begin (range.begin + 1 / 2 * range.length * 0) = range.begin := by
    rw [mul_zero, add_zero, max_self]
  have hcenter : range.begin + 1 / 2 * range.length * (0 + 1) = range.center := by
    rw [length, center]
    ring
  rw [subRange, hbegin, hcenter, min_eq_right range.center_le_last]
  exact new_of_le range.begin_le_center

theorem subRange_right (range : Range) : range.subRange (1 / 2) 1 = some range.right := by
  have hcenter : range.begin + 1 / 2 * range.length * 1 = range.center := by
    rw [length, center]
    ring
  have hlast : range.begin + 1 / 2 * range.length * (1 + 1) = range.last := by
    rw [length]
    ring
  rw [subRange, hcenter, hlast, min_self, max_eq_right range.begin_le_center]
  exact new_of_le range.center_le_last

theorem contains_left (range : Range) : range.Contains range.left :=
  ⟨le_rfl, range.center_le_last⟩

theorem contains_right (range : Range) : range.Contains range.right :=
  ⟨range.begin_le_center, le_rfl⟩

theorem length_left (range : Range) : range.left.length = range.length / 2 := by
  change range.center - range.begin = range.length / 2
  rw [length, center]
  ring

theorem length_right (range : Range) : range.right.length = range.length / 2 := by
  change range.last - range.center = range.length / 2
  rw [length, center]
  ring

/-- Every time is in one of the halves. -/
theorem contains_left_or_right {range : Range} {t : ℚ} (h : range.ContainsValue t) :
    range.left.ContainsValue t ∨ range.right.ContainsValue t := by
  rcases le_total t range.center with ht | ht
  · exact .inl ⟨h.1, ht⟩
  · exact .inr ⟨ht, h.2⟩

end Range

end PhpSpx.WebUi
