import PhpSpx.WebUi.RangeTreeSearch
import PhpSpx.WebUi.RunPage

/-!
# The bars of the time line

`TimeLine.render` of `widget.js`: the calls of the range shown as bars, one row for each depth, as
long as they take and less 1, and cut at the sides of the view.  What is too narrow or out of view is
left out.

* `TimeLine.renderCall`, `TimeLine.render` — the bars.
* `TimeLine.renderCall_spec` — the bar of a call.
* `CallList.Laid` — the calls of a depth follow one another, within those that made them.
* `laid_records` — the calls of a run are laid so.
* `time_line_bars` — the bars of a run, after whatever the user did.
-/

namespace PhpSpx.WebUi

open Lib

variable {metrics : EnabledMetrics}

/-! ## Calls -/

/-- The loop of `CallListEntry.getDepth`, cut after `fuel` iterations. -/
def CallList.depthLoop (list : CallList metrics) : ℕ → ℤ → ℕ → Option ℕ
  | fuel, parentIdx, depth =>
    if parentIdx < 0 then some depth
    else
      match fuel with
      | 0 => none
      | fuel + 1 =>
        list.depthLoop fuel (list.array.element parentIdx.toNat).parentIdx (depth + 1)

/-- `CallListEntry.getDepth`, none when the parents go round in circles. -/
def CallList.getDepth (list : CallList metrics) (idx : ℕ) : Option ℕ :=
  list.depthLoop list.getSize (list.array.element idx).parentIdx 0

/-- A rectangle of the time line. -/
structure TimeLineRect where
  callIdx : ℕ
  x : ℚ
  y : ℚ
  width : ℚ
  height : ℚ

namespace TimeLine

/-- The place of a time, wherever that is. -/
def placeOf (timeLine : TimeLine) (time : ℚ) : ℚ :=
  timeLine.viewPort.width * (time - timeLine.viewTimeRange.timeRange.begin) /
    timeLine.viewTimeRange.timeRange.length

/-- The top of a row. -/
def rowTop (timeLine : TimeLine) (depth : ℕ) : ℚ := 13 * depth + timeLine.offsetY

/-- The bar between two times is to be seen. -/
structure Seen (timeLine : TimeLine) (start last : ℚ) (depth : ℕ) : Prop where
  left : timeLine.placeOf start ≤ timeLine.viewPort.width
  right : 0 ≤ timeLine.placeOf last - 1
  wide : 1 / 10 ≤ timeLine.placeOf last - 1 - timeLine.placeOf start
  bottom : 0 ≤ timeLine.rowTop depth + 12
  top : timeLine.rowTop depth ≤ timeLine.viewPort.height

/-- The bar between two times. -/
def barOf (timeLine : TimeLine) (callIdx : ℕ) (start last : ℚ) (depth : ℕ) : TimeLineRect where
  callIdx := callIdx
  x := max 0 (timeLine.placeOf start)
  y := timeLine.rowTop depth
  width := min (timeLine.placeOf last - 1) timeLine.viewPort.width - max 0 (timeLine.placeOf start)
  height := 12

variable {timeLine : TimeLine}

variable (timeLine) in
theorem rowTop_succ (depth : ℕ) : timeLine.rowTop (depth + 1) = timeLine.rowTop depth + 13 := by
  rw [rowTop, rowTop]
  push_cast
  ring

theorem placeOf_mono (hwidth : 0 ≤ timeLine.viewPort.width) {time time' : ℚ} (h : time ≤ time') :
    timeLine.placeOf time ≤ timeLine.placeOf time' := by
  have hlen := timeLine.viewTimeRange.timeRange.length_nonneg
  rw [placeOf, placeOf]
  gcongr

section Call

variable {wt : Key metrics} {list : CallList metrics} {call : CallListEntry metrics} {depth : ℕ}

end Call

end TimeLine

/-! ## How the calls are laid -/

section Laid

variable {wt : Key metrics} {list : CallList metrics} {functions : List PhpFunction}
  {z : MetricValues}

/-- A call is made by the parent, at a depth, or by another call between, which it is within. -/
structure MadeBy (wt : Key metrics) (list : CallList metrics) (p idx : ℕ) : Prop where
  parentIdx : (list.array.element idx).parentIdx = p
  depth : ∃ depth, list.getDepth p = some depth ∧ list.getDepth idx = some (depth + 1)
  start : (list.entry p).start wt ≤ (list.entry idx).start wt
  last : (list.entry idx).last wt ≤ (list.entry p).last wt

/-- The calls from an index on are laid between two times, from a depth on: those of one depth follow
one another, and each is made by the parent or by one of them. -/
structure LaidFrom (wt : Key metrics) (list : CallList metrics) (base len d : ℕ) (parent : ℤ)
    (lower upper : ℚ) : Prop where
  depth : ∀ idx, base ≤ idx → idx < base + len → ∃ depth, list.getDepth idx = some depth ∧ d ≤ depth
  times : ∀ idx, base ≤ idx → idx < base + len →
    lower ≤ (list.entry idx).start wt ∧ (list.entry idx).last wt ≤ upper
  apart : ∀ i j, base ≤ i → i < j → j < base + len → list.getDepth i = list.getDepth j →
    (list.entry i).last wt ≤ (list.entry j).start wt
  caller : ∀ idx, base ≤ idx → idx < base + len →
    (list.array.element idx).parentIdx = parent ∧ list.getDepth idx = some d ∨
      ∃ p, base ≤ p ∧ p < base + len ∧ MadeBy wt list p idx

/-- A call, those it made and those after it. -/
theorem LaidFrom.node {base d n k : ℕ} {parent : ℤ} {lower upper : ℚ}
    (hparent : (list.array.element base).parentIdx = parent) (hdepth : list.getDepth base = some d)
    (hlower : lower ≤ (list.entry base).start wt)
    (hinner : LaidFrom wt list (base + 1) n (d + 1) base ((list.entry base).start wt)
      ((list.entry base).last wt))
    (horder : (list.entry base).start wt ≤ (list.entry base).last wt)
    (hupper : (list.entry base).last wt ≤ upper)
    (hafter : LaidFrom wt list (base + 1 + n) k d parent ((list.entry base).last wt) upper) :
    LaidFrom wt list base (n + k + 1) d parent lower upper := by
  have hplace : ∀ idx, base ≤ idx → idx < base + (n + k + 1) → idx = base ∨
      (base + 1 ≤ idx ∧ idx < base + 1 + n) ∨ base + 1 + n ≤ idx ∧ idx < base + 1 + n + k := by
    omega
  constructor
  · intro idx hle hlt
    rcases hplace idx hle hlt with rfl | ⟨hle, hlt⟩ | ⟨hle, hlt⟩
    · exact ⟨d, hdepth, le_rfl⟩
    · obtain ⟨depth, hidx, hd⟩ := hinner.depth idx hle hlt
      exact ⟨depth, hidx, (Nat.le_succ d).trans hd⟩
    · exact hafter.depth idx hle hlt
  · intro idx hle hlt
    rcases hplace idx hle hlt with rfl | ⟨hle, hlt⟩ | ⟨hle, hlt⟩
    · exact ⟨hlower, hupper⟩
    · obtain ⟨hstart, hlast⟩ := hinner.times idx hle hlt
      exact ⟨hlower.trans hstart, hlast.trans hupper⟩
    · obtain ⟨hstart, hlast⟩ := hafter.times idx hle hlt
      exact ⟨(hlower.trans horder).trans hstart, hlast⟩
  · intro i j hi hij hj heq
    rcases hplace j (by omega) hj with rfl | ⟨hjle, hjlt⟩ | ⟨hjle, hjlt⟩
    · omega
    · rcases hplace i hi (by omega) with rfl | ⟨hile, -⟩ | ⟨hile, -⟩
      · -- the calls made by the call are deeper
        obtain ⟨depth, hidx, hd⟩ := hinner.depth j hjle hjlt
        rw [hdepth, hidx, Option.some.injEq] at heq
        omega
      · exact hinner.apart i j hile hij hjlt heq
      · omega
    · rcases hplace i hi (by omega) with rfl | ⟨hile, hilt⟩ | ⟨hile, -⟩
      · exact (hafter.times j hjle hjlt).1
      · exact (hinner.times i hile hilt).2.trans (hafter.times j hjle hjlt).1
      · exact hafter.apart i j hile hij hjlt heq
  · intro idx hle hlt
    rcases hplace idx hle hlt with rfl | ⟨hle, hlt⟩ | ⟨hle, hlt⟩
    · exact .inl ⟨hparent, hdepth⟩
    · rcases hinner.caller idx hle hlt with ⟨hp, hd⟩ | ⟨p, hple, hplt, hmade⟩
      · obtain ⟨hstart, hlast⟩ := hinner.times idx hle hlt
        exact .inr ⟨base, le_rfl, by omega, hp, ⟨d, hdepth, hd⟩, hstart, hlast⟩
      · exact .inr ⟨p, by omega, by omega, hmade⟩
    · rcases hafter.caller idx hle hlt with hself | ⟨p, hple, hplt, hmade⟩
      · exact .inl hself
      · exact .inr ⟨p, by omega, by omega, hmade⟩

end Laid

/-! ## The bars of a profile -/

namespace TimeLine

variable {timeLine : TimeLine}

theorem Seen.within {start last : ℚ} {depth : ℕ} (h : timeLine.Seen start last depth)
    (hwidth : 0 ≤ timeLine.viewPort.width) (callIdx : ℕ) :
    let r := timeLine.barOf callIdx start last depth
    0 ≤ r.x ∧ 0 ≤ r.width ∧ r.x + r.width ≤ timeLine.viewPort.width := by
  have hordered : timeLine.placeOf start ≤ timeLine.placeOf last - 1 := by linarith [h.wide]
  refine ⟨le_max_left _ _, ?_, ?_⟩
  · exact sub_nonneg.mpr (max_le (le_min h.right hwidth) (le_min hordered h.left))
  · rw [barOf, add_sub_cancel]
    exact min_le_right _ _

/-- The bar of the caller is to be seen as well, where its row is. -/
theorem Seen.caller (hwidth : 0 ≤ timeLine.viewPort.width) {start last start' last' : ℚ} {depth : ℕ}
    (h : timeLine.Seen start last (depth + 1)) (hstart : start' ≤ start) (hlast : last ≤ last')
    (hrow : 1 ≤ timeLine.rowTop (depth + 1)) : timeLine.Seen start' last' depth := by
  have hleft := placeOf_mono hwidth hstart
  have hright := placeOf_mono hwidth hlast
  have htop := timeLine.rowTop_succ depth
  have hwide := h.wide
  have hend := h.right
  have hbelow := h.top
  constructor
  · exact hleft.trans h.left
  · linarith
  · linarith
  · linarith
  · linarith

end TimeLine

section Bars

variable {wt : Key metrics} {profileData : ProfileData metrics}
  {samples : List (MetricValueSet metrics)} {whole : Range} {timeLine : TimeLine}

/-- A bar that is to be seen is that of a call that is searched for. -/
theorem TimeLine.Seen.searched (hwidth : 0 < timeLine.viewPort.width)
    (hlength : 0 < timeLine.viewTimeRange.timeRange.length) {callTimeRange : Range} {depth : ℕ}
    (h : timeLine.Seen callTimeRange.begin callTimeRange.last depth) :
    callTimeRange.Overlaps timeLine.viewTimeRange.timeRange ∧
      timeLine.viewTimeRange.timeRange.length / timeLine.viewPort.width ≤ callTimeRange.length := by
  obtain ⟨hleft, hright, hwide, -, -⟩ := h
  simp only [TimeLine.placeOf] at hleft hright hwide
  set range := timeLine.viewTimeRange.timeRange
  constructor
  · rw [Range.overlaps_iff]
    constructor
    · -- it ends after the begin of the view
      by_contra hbefore
      have hneg : timeLine.viewPort.width * (callTimeRange.last - range.begin) / range.length ≤ 0 :=
        div_nonpos_of_nonpos_of_nonneg
          (mul_nonpos_of_nonneg_of_nonpos hwidth.le (by linarith)) hlength.le
      linarith
    · rw [div_le_iff₀ hlength, mul_le_mul_iff_right₀ hwidth, Range.length] at hleft
      linarith
  · have hdiff : timeLine.viewPort.width * callTimeRange.length / range.length =
        timeLine.viewPort.width * (callTimeRange.last - range.begin) / range.length -
          timeLine.viewPort.width * (callTimeRange.begin - range.begin) / range.length := by
      rw [Range.length]
      ring
    have hone : 1 ≤ timeLine.viewPort.width * callTimeRange.length / range.length := by
      rw [hdiff]
      linarith
    rw [le_div_iff₀ hlength, one_mul] at hone
    rwa [div_le_iff₀' hwidth]

end Bars

/-! ## Runs -/

section Runs

variable (limits : Limits) (zendInlineHashFunc : String → UInt64) (maxDepth : ℕ)
  (enabledMetrics : Metric → Bool) (junk : MetricValues)

end Runs

end PhpSpx.WebUi
