import PhpSpx.WebUi.Range

/-!
# The time range of a view

`ViewTimeRange` of `widget.js`: the time range that a widget shows, how it is drawn over the width
of the view, and how dragging and zooming move it.

* `ViewTimeRange.fix` — the range is kept within the wall time and longer than a minimum.
* `Range.Kept` — what a range is after that.
* `ViewTimeRange.timeAt` — the time drawn at a place of the view.
* `ViewTimeRange.shiftScaledViewRange_of_fits`, `ViewTimeRange.zoomScaledViewRange_of_fits` — where
  a place goes that is dragged, or zoomed at.
-/

namespace PhpSpx.WebUi

/-! ## Moving a range -/

theorem bound_le_bound {a b : ℚ} (h : a ≤ b) (low up : Option ℚ) : bound a low up ≤ bound b low up :=
  max_le_max le_rfl (min_le_min h le_rfl)

namespace Range

/-- `Range.scale`, by a factor that is not negative. -/
def scale (range : Range) (factor : ℚ) (hfactor : 0 ≤ factor) : Range :=
  ⟨range.begin * factor, range.last * factor, mul_le_mul_of_nonneg_right range.ordered hfactor⟩

/-- `Range.shift`. -/
def shift (range : Range) (dist : ℚ) : Range :=
  ⟨range.begin + dist, range.last + dist, add_le_add range.ordered le_rfl⟩

/-- `Range.shiftBegin`. -/
def shiftBegin (range : Range) (dist : ℚ) : Range :=
  ⟨min (range.begin + dist) range.last, range.last, min_le_right _ _⟩

/-- `Range.shiftEnd`. -/
def shiftEnd (range : Range) (dist : ℚ) : Range :=
  ⟨range.begin, max (range.last + dist) range.begin, le_max_right _ _⟩

/-- `Range.bound`.  The ends stay in order, so the last branch of the source is never taken. -/
def bound (range : Range) (low up : Option ℚ) : Range :=
  let low := orDefault low 0
  let up := orDefault up 1
  ⟨WebUi.bound range.begin (some low) (some up), WebUi.bound range.last (some low) (some up),
    bound_le_bound range.ordered _ _⟩

theorem length_shift (range : Range) (dist : ℚ) : (range.shift dist).length = range.length := by
  simp only [length, shift]
  ring

/-- A range from 0 on keeps its ends between 0 and the bound. -/
theorem bound_eq {up : ℚ} (hup : 0 < up) (range : Range) :
    (range.bound (some 0) (some up)).begin = max 0 (min range.begin up) ∧
      (range.bound (some 0) (some up)).last = max 0 (min range.last up) := by
  simp [bound, WebUi.bound, orDefault, hup.ne']

/-- What a range is that has been kept within the wall time: it is at least 3 long, and where the
wall time is shorter than that, it begins before 0. -/
structure Kept (wallTime : ℚ) (range : Range) : Prop where
  long : 3 ≤ range.length
  last_le : range.last ≤ wallTime
  le_begin : min 0 (wallTime - 3) ≤ range.begin

/-- A range that needs no fixing. -/
structure Fits (wallTime : ℚ) (range : Range) : Prop where
  long : 3 ≤ range.length
  last_le : range.last ≤ wallTime
  le_begin : 0 ≤ range.begin

end Range

/-! ## The view -/

/-- `ViewTimeRange`, in a profile that takes time and a view that can be seen. -/
structure ViewTimeRange where
  timeRange : Range
  wallTime : ℚ
  viewWidth : ℚ
  wallTime_pos : 0 < wallTime
  viewWidth_pos : 0 < viewWidth

namespace ViewTimeRange

/-- `ViewTimeRange.setTimeRange`. -/
def setTimeRange (view : ViewTimeRange) (timeRange : Range) : ViewTimeRange :=
  { view with timeRange := timeRange }

/-- `ViewTimeRange.setViewWidth`. -/
def setViewWidth (view : ViewTimeRange) (viewWidth : ℚ) (h : 0 < viewWidth) : ViewTimeRange :=
  { view with viewWidth := viewWidth, viewWidth_pos := h }

/-- `minLength`. -/
def minLength : ℚ := 3

theorem le_add_minLength (a : ℚ) : a ≤ a + minLength := le_add_of_nonneg_right zero_le_three

/-- `ViewTimeRange.fix`. -/
def fix (view : ViewTimeRange) : ViewTimeRange :=
  let timeRange := view.timeRange.bound (some 0) (some view.wallTime)
  if timeRange.length ≥ minLength then view.setTimeRange timeRange
  else
    let timeRange : Range := ⟨timeRange.begin, timeRange.begin + minLength, le_add_minLength _⟩
    if timeRange.last > view.wallTime then
      view.setTimeRange (timeRange.shift (view.wallTime - timeRange.last))
    else view.setTimeRange timeRange

/-- `ViewTimeRange.getScale`. -/
def getScale (view : ViewTimeRange) : ℚ := view.wallTime / view.timeRange.length

/-- `ViewTimeRange._viewRangeToTimeRange`. -/
def viewRangeToTimeRange (view : ViewTimeRange) (range : Range) : Range :=
  range.scale (view.wallTime / view.viewWidth) (div_pos view.wallTime_pos view.viewWidth_pos).le

/-- `ViewTimeRange._timeRangeToViewRange`. -/
def timeRangeToViewRange (view : ViewTimeRange) (range : Range) : Range :=
  range.scale (view.viewWidth / view.wallTime) (div_pos view.viewWidth_pos view.wallTime_pos).le

/-- `ViewTimeRange.getViewRange`. -/
def getViewRange (view : ViewTimeRange) : Range := view.timeRangeToViewRange view.timeRange

/-- `ViewTimeRange.shiftViewRange`. -/
def shiftViewRange (view : ViewTimeRange) (dist : ℚ) : ViewTimeRange :=
  (view.setTimeRange (view.viewRangeToTimeRange (view.getViewRange.shift dist))).fix

/-- `ViewTimeRange.shiftViewRangeBegin`. -/
def shiftViewRangeBegin (view : ViewTimeRange) (dist : ℚ) : ViewTimeRange :=
  (view.setTimeRange (view.viewRangeToTimeRange (view.getViewRange.shiftBegin dist))).fix

/-- `ViewTimeRange.shiftViewRangeEnd`. -/
def shiftViewRangeEnd (view : ViewTimeRange) (dist : ℚ) : ViewTimeRange :=
  (view.setTimeRange (view.viewRangeToTimeRange (view.getViewRange.shiftEnd dist))).fix

/-- `ViewTimeRange.shiftScaledViewRange`. -/
def shiftScaledViewRange (view : ViewTimeRange) (dist : ℚ) : ViewTimeRange :=
  view.shiftViewRange (dist / view.getScale)

/-- `ViewTimeRange.zoomScaledViewRange`, by a factor above 0. -/
def zoomScaledViewRange (view : ViewTimeRange) (factor center : ℚ) (hfactor : 0 < factor) :
    ViewTimeRange :=
  let center := center / view.getScale
  let center := center + view.getViewRange.begin
  let center := center / view.viewWidth
  let center := center * view.wallTime
  let timeRange := view.timeRange.shift (-center)
  let timeRange := timeRange.scale (1 / factor) (one_div_pos.mpr hfactor).le
  (view.setTimeRange (timeRange.shift center)).fix

/-! ## Fixing a range -/

theorem fix_cases (view : ViewTimeRange) :
    ∃ range : Range, view.fix = view.setTimeRange range ∧ range.Kept view.wallTime := by
  obtain ⟨hbegin, hlast⟩ := Range.bound_eq view.wallTime_pos view.timeRange
  have hpos := view.wallTime_pos
  have hbegin_nonneg : 0 ≤ (view.timeRange.bound (some 0) (some view.wallTime)).begin :=
    hbegin ▸ le_max_left _ _
  have hlast_le : (view.timeRange.bound (some 0) (some view.wallTime)).last ≤ view.wallTime :=
    hlast ▸ max_le hpos.le (min_le_right _ _)
  rw [fix]
  split
  · rename_i hlong
    exact ⟨_, rfl, hlong, hlast_le, (min_le_left _ _).trans hbegin_nonneg⟩
  dsimp only
  split
  · -- moved back to the end of the profile
    refine ⟨_, rfl, ?_, ?_, ?_⟩
    · rw [Range.length_shift]
      simp [Range.length, minLength]
    · simp [Range.shift]
    · refine (min_le_right _ _).trans_eq ?_
      simp only [Range.shift, minLength]
      ring
  · rename_i hend
    refine ⟨_, rfl, ?_, not_lt.mp hend, (min_le_left _ _).trans hbegin_nonneg⟩
    simp [Range.length, minLength]

/-- What moving the range of a view does: the range is kept within the wall time. -/
structure Moved (view view' : ViewTimeRange) : Prop where
  wallTime : view'.wallTime = view.wallTime
  viewWidth : view'.viewWidth = view.viewWidth
  kept : view'.timeRange.Kept view.wallTime

theorem moved_fix (view : ViewTimeRange) (timeRange : Range) :
    view.Moved (view.setTimeRange timeRange).fix := by
  obtain ⟨range, hfix, hkept⟩ := (view.setTimeRange timeRange).fix_cases
  rw [hfix]
  exact ⟨rfl, rfl, hkept⟩

theorem moved_shiftViewRange (view : ViewTimeRange) (dist : ℚ) :
    view.Moved (view.shiftViewRange dist) := moved_fix view _

theorem moved_shiftViewRangeBegin (view : ViewTimeRange) (dist : ℚ) :
    view.Moved (view.shiftViewRangeBegin dist) := moved_fix view _

theorem moved_shiftViewRangeEnd (view : ViewTimeRange) (dist : ℚ) :
    view.Moved (view.shiftViewRangeEnd dist) := moved_fix view _

theorem moved_shiftScaledViewRange (view : ViewTimeRange) (dist : ℚ) :
    view.Moved (view.shiftScaledViewRange dist) := view.moved_shiftViewRange _

theorem moved_zoomScaledViewRange (view : ViewTimeRange) (factor center : ℚ)
    (hfactor : 0 < factor) : view.Moved (view.zoomScaledViewRange factor center hfactor) :=
  moved_fix view _

/-- A range that fits is left as it is. -/
theorem fix_of_fits {view : ViewTimeRange} (h : view.timeRange.Fits view.wallTime) :
    view.fix = view := by
  obtain ⟨hbegin, hlast⟩ := Range.bound_eq view.wallTime_pos view.timeRange
  have hordered := view.timeRange.ordered
  have hbound : view.timeRange.bound (some 0) (some view.wallTime) = view.timeRange := by
    ext
    · rw [hbegin, min_eq_left (hordered.trans h.last_le), max_eq_right h.le_begin]
    · rw [hlast, min_eq_left h.last_le, max_eq_right (h.le_begin.trans hordered)]
  have hlong : (view.timeRange.bound (some 0) (some view.wallTime)).length ≥ minLength := by
    rw [hbound]
    exact h.long
  rw [fix]
  exact (if_pos hlong).trans (congrArg view.setTimeRange hbound)

/-! ## Places and times -/

/-- The time drawn at a place of the view. -/
def timeAt (view : ViewTimeRange) (x : ℚ) : ℚ :=
  view.timeRange.begin + x * (view.timeRange.length / view.viewWidth)

/-- The range of some length that has a time at a place. -/
def rangeAround (view : ViewTimeRange) (time x length : ℚ) (h : 0 ≤ length) : Range :=
  ⟨time - x * (length / view.viewWidth), time - x * (length / view.viewWidth) + length,
    le_add_of_nonneg_right h⟩

theorem length_rangeAround (view : ViewTimeRange) (time x length : ℚ) (h : 0 ≤ length) :
    (view.rangeAround time x length h).length = length := by
  simp [rangeAround, Range.length]

theorem timeAt_rangeAround (view : ViewTimeRange) (time x length : ℚ) (h : 0 ≤ length) :
    (view.setTimeRange (view.rangeAround time x length h)).timeAt x = time := by
  simp [timeAt, rangeAround, setTimeRange, Range.length]

/-- Dragging the view from a place to another one takes the time of the place along. -/
theorem shiftScaledViewRange_of_fits (view : ViewTimeRange) (x delta : ℚ)
    (h : (view.rangeAround (view.timeAt x) (x + delta) view.timeRange.length
      view.timeRange.length_nonneg).Fits view.wallTime) :
    view.shiftScaledViewRange (-delta) =
      view.setTimeRange (view.rangeAround (view.timeAt x) (x + delta) view.timeRange.length
        view.timeRange.length_nonneg) := by
  have hwall := view.wallTime_pos.ne'
  have hwidth := view.viewWidth_pos.ne'
  have hrange : view.viewRangeToTimeRange (view.getViewRange.shift (-delta / view.getScale)) =
      view.rangeAround (view.timeAt x) (x + delta) view.timeRange.length
        view.timeRange.length_nonneg := by
    ext
    · simp only [viewRangeToTimeRange, getViewRange, timeRangeToViewRange, Range.scale,
        Range.shift, getScale, rangeAround, timeAt, div_div_eq_mul_div]
      field_simp
      ring
    · simp only [viewRangeToTimeRange, getViewRange, timeRangeToViewRange, Range.scale,
        Range.shift, getScale, rangeAround, timeAt, div_div_eq_mul_div, Range.length]
      field_simp
      ring
  rw [shiftScaledViewRange, shiftViewRange, hrange]
  exact fix_of_fits h

/-- Zooming at a place keeps the time there. -/
theorem zoomScaledViewRange_of_fits (view : ViewTimeRange) {factor : ℚ} (hfactor : 0 < factor)
    (x : ℚ) (h : (view.rangeAround (view.timeAt x) x (view.timeRange.length / factor)
      (div_nonneg view.timeRange.length_nonneg hfactor.le)).Fits view.wallTime) :
    view.zoomScaledViewRange factor x hfactor =
      view.setTimeRange (view.rangeAround (view.timeAt x) x (view.timeRange.length / factor)
        (div_nonneg view.timeRange.length_nonneg hfactor.le)) := by
  have hwall := view.wallTime_pos.ne'
  have hwidth := view.viewWidth_pos.ne'
  have hcenter : (x / view.getScale + view.getViewRange.begin) / view.viewWidth * view.wallTime =
      view.timeAt x := by
    simp only [getScale, getViewRange, timeRangeToViewRange, Range.scale, timeAt,
      div_div_eq_mul_div]
    field_simp
    ring
  have hrange : ((view.timeRange.shift (-view.timeAt x)).scale (1 / factor)
      (one_div_pos.mpr hfactor).le).shift (view.timeAt x) =
      view.rangeAround (view.timeAt x) x (view.timeRange.length / factor)
        (div_nonneg view.timeRange.length_nonneg hfactor.le) := by
    ext
    · simp only [Range.scale, Range.shift, rangeAround, timeAt]
      field_simp
      ring
    · simp only [Range.scale, Range.shift, rangeAround, timeAt, Range.length]
      field_simp
      ring
  rw [zoomScaledViewRange]
  simp only [hcenter, hrange]
  exact fix_of_fits h

end ViewTimeRange

end PhpSpx.WebUi
