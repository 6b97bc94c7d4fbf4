import PhpSpx.WebUi.FlameGraph
import PhpSpx.WebUi.TimeRangeStats
import PhpSpx.WebUi.ViewTimeRange

/-!
# The page of a report

The widgets of `widget.js` that show a time range of a profile.  The overview and the time line let
the user drag and zoom the range; each change is announced to all widgets, with the statistics of
the new range.

* `OverView.onMouse`, `TimeLine.onMousemove`, `TimeLine.onWheel` — the handlers.
* `Page.notifyTimeRangeUpdate` — the announcement, which fails where the statistics do.
* `Page.step` — one event of the browser.
* `Page.InStep` — the invariant: all widgets are at one range, with its statistics.
* `page_stays_in_step` — whole runs.
* `time_under_pointer` — dragging and zooming at the pointer keep the time under it.
-/

namespace PhpSpx.WebUi

variable {metrics : EnabledMetrics}

/-! ## The profile -/

/-- `ProfileData`. -/
structure ProfileData (metrics : EnabledMetrics) where
  stats : Stats metrics
  callList : CallList metrics
  metricValuesList : MetricValuesList metrics
  callRangeTree : CallRangeTree metrics

namespace ProfileData

/-- `ProfileData.getWallTime`. -/
def getWallTime (wt : Key metrics) (profileData : ProfileData metrics) : ℚ :=
  profileData.stats.max wt

/-- `ProfileData.getTimeRange`. -/
def getTimeRange (wt : Key metrics) (profileData : ProfileData metrics) : Option Range :=
  Range.new 0 (profileData.getWallTime wt)

/-- `ProfileData.getTimeRangeStats`. -/
def getTimeRangeStats (wt : Key metrics) (profileData : ProfileData metrics) (range : Range) :
    Option (TimeRangeStats metrics) :=
  profileData.callRangeTree.getTimeRangeStats wt profileData.callList profileData.metricValuesList
    range none none

end ProfileData

/-- A profile that takes time, whose tree is built of its calls and whose samples cover it. -/
structure Loaded (wt : Key metrics) (profileData : ProfileData metrics)
    (samples : List (MetricValueSet metrics)) (whole : Range) : Prop where
  wallTime_pos : 0 < profileData.getWallTime wt
  timeRange : profileData.getTimeRange wt = some whole
  callsIn : CallsIn wt profileData.callList whole (List.range profileData.callList.getSize)
  covers : profileData.metricValuesList.Covers wt samples whole
  built : ∃ fuel, buildCallRangeTree wt profileData.callList profileData.metricValuesList fuel
    (profileData.getWallTime wt) = some profileData.callRangeTree

/-! ## The overview -/

/-- What dragging in the overview does. -/
inductive OverViewAction where
  | moveBegin
  | moveEnd
  | move
  deriving DecidableEq

/-- The `type` of the mouse events of the overview. -/
inductive MouseType where
  | mousedown
  | mousemove
  deriving DecidableEq

/-- `OverView`. -/
structure OverView where
  viewTimeRange : ViewTimeRange
  action : Option OverViewAction

namespace OverView

/-- The action for a pointer that hovers over the view. -/
def actionAt (overView : OverView) (clientX : ℚ) : OverViewAction :=
  if |clientX - overView.viewTimeRange.getViewRange.begin| < 4 then .moveBegin
  else if |clientX - overView.viewTimeRange.getViewRange.last| < 4 then .moveEnd
  else .move

/-- The view after an action. -/
def act (viewTimeRange : ViewTimeRange) (clientX : ℚ) : Option OverViewAction → ViewTimeRange
  | some .moveBegin =>
    viewTimeRange.shiftViewRangeBegin (clientX - viewTimeRange.getViewRange.begin)
  | some .moveEnd => viewTimeRange.shiftViewRangeEnd (clientX - viewTimeRange.getViewRange.last)
  | some .move => viewTimeRange.shiftViewRange (clientX - viewTimeRange.getViewRange.center)
  | none => viewTimeRange

/-- The handler of `mousedown` and `mousemove`, with the range to announce. -/
def onMouse (overView : OverView) (type : MouseType) (buttons : ℕ) (clientX : ℚ) :
    OverView × Option Range :=
  if type = .mousemove ∧ buttons ≠ 1 then
    ({ overView with action := some (overView.actionAt clientX) }, none)
  else
    let viewTimeRange := act overView.viewTimeRange clientX overView.action
    ({ overView with viewTimeRange := viewTimeRange }, some viewTimeRange.timeRange)

end OverView

/-! ## The time line -/

/-- `TimeLine`; `lastX` and `lastY` are `lastPos`. -/
structure TimeLine where
  viewTimeRange : ViewTimeRange
  viewPort : ViewPort
  offsetY : ℤ
  dragging : Bool
  lastX : ℚ
  lastY : ℤ

namespace TimeLine

/-- The factor of a zoom by the middle button. -/
def dragFactor (deltaY : ℤ) : ℚ :=
  let f := (101 / 100 : ℚ) ^ deltaY.natAbs
  if deltaY < 0 then 1 / f else f

/-- The factor of a turn of the wheel. -/
def wheelFactor (deltaY : ℚ) : ℚ :=
  let f : ℚ := 3 / 2
  if deltaY < 0 then 1 / f else f

theorem dragFactor_pos (deltaY : ℤ) : 0 < dragFactor deltaY := by
  have hpow : (0 : ℚ) < (101 / 100) ^ deltaY.natAbs := pow_pos (by norm_num) _
  rw [dragFactor]
  split
  · exact one_div_pos.mpr hpow
  · exact hpow

theorem wheelFactor_pos (deltaY : ℚ) : 0 < wheelFactor deltaY := by
  rw [wheelFactor]
  split <;> norm_num

/-- The handler of `mousedown`. -/
def onMousedown (timeLine : TimeLine) (clientX : ℚ) (clientY : ℤ) : TimeLine :=
  { timeLine with dragging := true, lastX := clientX, lastY := clientY }

/-- The handler of `wheel`, with the range to announce. -/
def onWheel (timeLine : TimeLine) (deltaY clientX : ℚ) : TimeLine × Option Range :=
  if deltaY = 0 then (timeLine, none)
  else
    let viewTimeRange := timeLine.viewTimeRange.zoomScaledViewRange (wheelFactor deltaY) clientX
      (wheelFactor_pos deltaY)
    ({ timeLine with viewTimeRange := viewTimeRange }, some viewTimeRange.timeRange)

/-- The handler of `mousemove`, with the range to announce. -/
def onMousemove (timeLine : TimeLine) (buttons : ℕ) (clientX : ℚ) (clientY : ℤ) :
    TimeLine × Option Range :=
  let timeLine := { timeLine with dragging := timeLine.dragging && buttons ≠ 0 }
  if ¬timeLine.dragging then (timeLine, none)
  else
    let deltaX := clientX - timeLine.lastX
    let deltaY := clientY - timeLine.lastY
    let timeLine := { timeLine with lastX := clientX, lastY := clientY }
    match buttons with
    | 1 =>
      let viewTimeRange := timeLine.viewTimeRange.shiftScaledViewRange (-deltaX)
      ({ timeLine with
          viewTimeRange := viewTimeRange
          offsetY := min 0 (timeLine.offsetY + deltaY) },
        some viewTimeRange.timeRange)
    | 4 =>
      let viewTimeRange := timeLine.viewTimeRange.zoomScaledViewRange (dragFactor deltaY) clientX
        (dragFactor_pos deltaY)
      ({ timeLine with viewTimeRange := viewTimeRange }, some viewTimeRange.timeRange)
    | _ => (timeLine, none)

/-- A move of the pointer while the left button is held. -/
theorem onMousemove_left {timeLine : TimeLine} (h : timeLine.dragging = true) (clientX : ℚ)
    (clientY : ℤ) :
    timeLine.onMousemove 1 clientX clientY =
      let viewTimeRange :=
        timeLine.viewTimeRange.shiftScaledViewRange (-(clientX - timeLine.lastX))
      ({ timeLine with
          viewTimeRange := viewTimeRange
          offsetY := min 0 (timeLine.offsetY + (clientY - timeLine.lastY))
          lastX := clientX
          lastY := clientY },
        some viewTimeRange.timeRange) := by
  simp [onMousemove, h]

/-- `TimeLine.onContainerResize`. -/
def onContainerResize (timeLine : TimeLine) (viewPort : ViewPort) (h : 0 < viewPort.width) :
    TimeLine :=
  { timeLine with
    viewPort := viewPort
    viewTimeRange := timeLine.viewTimeRange.setViewWidth viewPort.width h }

end TimeLine

/-! ## The page -/

/-- The widgets of `report.html`. -/
inductive PageWidget where
  | colorScale
  | categoryLegend
  | colorSchemeManager
  | overView
  | timeLine
  | flatProfile
  | flameGraph
  | callGraphView
  deriving DecidableEq

/-- `timeRange` and `timeRangeStats` of a `Widget`. -/
structure Shown (metrics : EnabledMetrics) where
  timeRange : Range
  timeRangeStats : TimeRangeStats metrics

/-- The widgets, as far as the time range goes. -/
structure Page (metrics : EnabledMetrics) where
  shown : PageWidget → Shown metrics
  overView : OverView
  timeLine : TimeLine

namespace Page

variable (wt : Key metrics) (profileData : ProfileData metrics)

/-- The constructors of the widgets, for a profile that takes time and views that can be seen. -/
def create (hwall : 0 < profileData.getWallTime wt) (overViewWidth : ℚ)
    (hwidth : 0 < overViewWidth) (viewPort : ViewPort) (hview : 0 < viewPort.width) :
    Option (Page metrics) := do
  let timeRange ← profileData.getTimeRange wt
  let timeRangeStats ← profileData.getTimeRangeStats wt timeRange
  some
    { shown := fun _ => ⟨timeRange, timeRangeStats⟩
      overView := ⟨⟨timeRange, profileData.getWallTime wt, overViewWidth, hwall, hwidth⟩, none⟩
      timeLine :=
        { viewTimeRange := ⟨timeRange, profileData.getWallTime wt, viewPort.width, hwall, hview⟩
          viewPort := viewPort
          offsetY := 0
          dragging := false
          lastX := 0
          lastY := 0 } }

/-- `Widget.notifyTimeRangeUpdate`, with what the other widgets do: nothing when the statistics
throw. -/
def notifyTimeRangeUpdate (page : Page metrics) (widget : PageWidget) (timeRange : Range) :
    Page metrics :=
  match profileData.getTimeRangeStats wt timeRange with
  | none =>
    { page with
      shown := Function.update page.shown widget
        { page.shown widget with timeRange := timeRange } }
  | some timeRangeStats =>
    { shown := fun _ => ⟨timeRange, timeRangeStats⟩
      overView :=
        { page.overView with viewTimeRange := page.overView.viewTimeRange.setTimeRange timeRange }
      timeLine :=
        { page.timeLine with viewTimeRange := page.timeLine.viewTimeRange.setTimeRange timeRange } }

/-- The end of a handler that may have a range to announce. -/
def notify (page : Page metrics) (widget : PageWidget) (timeRange : Option Range) : Page metrics :=
  match timeRange with
  | none => page
  | some timeRange => page.notifyTimeRangeUpdate wt profileData widget timeRange

end Page

/-- What the browser reports.  A double click comes with the call under the pointer. -/
inductive PageEvent where
  | overViewMouse (type : MouseType) (buttons : ℕ) (clientX : ℚ)
  | overViewMouseleave
  | overViewResize (width : {width : ℚ // 0 < width})
  | timeLineMousedown (clientX : ℚ) (clientY : ℤ)
  | timeLineMouseup
  | timeLineMouseleave
  | timeLineMousemove (buttons : ℕ) (clientX : ℚ) (clientY : ℤ)
  | timeLineWheel (deltaY clientX : ℚ)
  | timeLineDblclick (callIdx : Option ℕ)
  | timeLineResize (viewPort : {viewPort : ViewPort // 0 < viewPort.width})

namespace Page

variable (wt : Key metrics) (profileData : ProfileData metrics)

/-- The handlers of the overview and the time line.  An exception ends a handler. -/
def step (page : Page metrics) : PageEvent → Page metrics
  | .overViewMouse type buttons clientX =>
    let handled := page.overView.onMouse type buttons clientX
    { page with overView := handled.1 }.notify wt profileData .overView handled.2
  | .overViewMouseleave => { page with overView := { page.overView with action := none } }
  | .overViewResize width =>
    { page with
      overView :=
        { page.overView with
          viewTimeRange := page.overView.viewTimeRange.setViewWidth width width.2 } }
  | .timeLineMousedown clientX clientY =>
    { page with timeLine := page.timeLine.onMousedown clientX clientY }
  | .timeLineMouseup => { page with timeLine := { page.timeLine with dragging := false } }
  | .timeLineMouseleave => { page with timeLine := { page.timeLine with dragging := false } }
  | .timeLineMousemove buttons clientX clientY =>
    let handled := page.timeLine.onMousemove buttons clientX clientY
    { page with timeLine := handled.1 }.notify wt profileData .timeLine handled.2
  | .timeLineWheel deltaY clientX =>
    let handled := page.timeLine.onWheel deltaY clientX
    { page with timeLine := handled.1 }.notify wt profileData .timeLine handled.2
  | .timeLineDblclick callIdx =>
    match callIdx with
    | none => page
    | some callIdx => page.notify wt profileData .timeLine (profileData.callList.timeRange wt callIdx)
  | .timeLineResize viewPort =>
    { page with timeLine := page.timeLine.onContainerResize viewPort viewPort.2 }

/-- The events of a visit, one after the other. -/
def run (page : Page metrics) (events : List PageEvent) : Page metrics :=
  events.foldl (step wt profileData) page

/-! ## In step -/

variable {wt profileData} {samples : List (MetricValueSet metrics)} {whole : Range}

/-- The ranges that can be shown: the whole profile, that of a call, and what has been moved. -/
def Showable (wt : Key metrics) (profileData : ProfileData metrics) (whole range : Range) : Prop :=
  range = whole ∨ (∃ idx, profileData.callList.timeRange wt idx = some range) ∨
    range.Kept (profileData.getWallTime wt)

/-- What no event changes, and the offset of the rows. -/
structure Framed (wt : Key metrics) (profileData : ProfileData metrics) (page : Page metrics) :
    Prop where
  overView : page.overView.viewTimeRange.wallTime = profileData.getWallTime wt
  timeLine : page.timeLine.viewTimeRange.wallTime = profileData.getWallTime wt
  width : page.timeLine.viewTimeRange.viewWidth = page.timeLine.viewPort.width
  offsetY : page.timeLine.offsetY ≤ 0

/-- All widgets are at one range, with its statistics. -/
structure InStep (wt : Key metrics) (profileData : ProfileData metrics) (whole range : Range)
    (page : Page metrics) : Prop where
  framed : page.Framed wt profileData
  showable : Showable wt profileData whole range
  shown : ∃ timeRangeStats, profileData.getTimeRangeStats wt range = some timeRangeStats ∧
    ∀ widget, page.shown widget = ⟨range, timeRangeStats⟩
  overView : page.overView.viewTimeRange.timeRange = range
  timeLine : page.timeLine.viewTimeRange.timeRange = range

theorem whole_eq (h : Loaded wt profileData samples whole) :
    whole.begin = 0 ∧ whole.last = profileData.getWallTime wt := Range.new_eq_some h.timeRange

theorem builtTree (hloaded : Loaded wt profileData samples whole) :
    BuiltTree wt profileData.callList profileData.metricValuesList whole
        (List.range profileData.callList.getSize)
        (profileData.callRangeTree, profileData.callRangeTree.cumCostStats) ∧
      profileData.callRangeTree.range? = some whole := by
  obtain ⟨fuel, hbuild⟩ := hloaded.built
  have hnew : Range.new 0 (profileData.getWallTime wt) = some whole := hloaded.timeRange
  rw [buildCallRangeTree, hnew] at hbuild
  exact built_buildAsync hbuild

/-- The profile contains its calls. -/
theorem contains_timeRange (hloaded : Loaded wt profileData samples whole) {idx : ℕ} {range : Range}
    (h : profileData.callList.timeRange wt idx = some range) : whole.Contains range := by
  obtain ⟨hcall, -⟩ := CallList.timeRange_eq_some h
  have hlt : idx < profileData.callList.getSize := by
    by_contra hge
    rw [CallList.getCall, if_neg hge] at hcall
    cases hcall
  obtain ⟨range', hrange', hcontains⟩ := hloaded.callsIn idx (List.mem_range.mpr hlt)
  obtain rfl := Option.some.inj (h.symm.trans hrange')
  exact hcontains

/-- A range that can be shown is within the whole one, or the whole one is within it. -/
theorem Showable.contains {range : Range} (h : Showable wt profileData whole range)
    (hloaded : Loaded wt profileData samples whole) :
    whole.Contains range ∨ range.Contains whole := by
  obtain ⟨hbegin, hlast⟩ := whole_eq hloaded
  rcases h with rfl | ⟨idx, hidx⟩ | hkept
  · exact .inl (.refl _)
  · exact .inl (contains_timeRange hloaded hidx)
  · have hlong := hkept.long
    have hend := hkept.last_le
    have hstart := hkept.le_begin
    rw [Range.length] at hlong
    rcases le_or_gt 0 range.begin with h0 | h0
    · exact .inl ⟨hbegin.trans_le h0, hend.trans_eq hlast.symm⟩
    · -- a profile shorter than the minimum
      rcases min_le_iff.mp hstart with hle | hle
      · exact absurd h0 (not_lt.mpr hle)
      · exact .inr ⟨h0.le.trans_eq hbegin.symm, by linarith⟩

/-- The statistics of a range that can be shown never throw. -/
theorem Showable.exists_stats {range : Range} (h : Showable wt profileData whole range)
    (hloaded : Loaded wt profileData samples whole) :
    ∃ timeRangeStats, profileData.getTimeRangeStats wt range = some timeRangeStats := by
  obtain ⟨hbuilt, hnode⟩ := builtTree hloaded
  rcases h.contains hloaded with hrange | hrange
  · obtain ⟨lower, upper, hbounds⟩ := exists_queryBounds (hloaded.covers.mono hrange)
    have hanswers := hbuilt.answers hbounds hloaded.callsIn hloaded.covers
    have hne : profileData.callRangeTree ≠ .absent := by
      intro habsent
      rw [habsent] at hnode
      cases hnode
    exact ⟨_, (hanswers.stats none none (.inl rfl) (.inl rfl)).resolve_left hne⟩
  · rw [ProfileData.getTimeRangeStats]
    cases htree : profileData.callRangeTree with
    | absent =>
      rw [htree] at hnode
      cases hnode
    | node treeRange callRefs functionsStats cumCostStats first second =>
      rw [htree] at hnode
      obtain rfl : treeRange = whole := Option.some.inj hnode
      rw [CallRangeTree.getTimeRangeStats, if_neg (not_not_intro hrange.overlaps.symm),
        if_pos hrange]
      exact ⟨_, rfl⟩

/-- Announcing a range brings all widgets in step. -/
theorem Framed.notifyTimeRangeUpdate {page : Page metrics} {range : Range}
    (h : page.Framed wt profileData) (hrange : Showable wt profileData whole range)
    (hloaded : Loaded wt profileData samples whole) (widget : PageWidget) :
    (page.notifyTimeRangeUpdate wt profileData widget range).InStep wt profileData whole range := by
  obtain ⟨timeRangeStats, hstats⟩ := hrange.exists_stats hloaded
  rw [Page.notifyTimeRangeUpdate, hstats]
  exact ⟨⟨h.overView, h.timeLine, h.width, h.offsetY⟩, hrange, ⟨timeRangeStats, hstats, fun _ => rfl⟩,
    rfl, rfl⟩

theorem moved_act {viewTimeRange : ViewTimeRange} {clientX : ℚ} {action : Option OverViewAction} :
    OverView.act viewTimeRange clientX action = viewTimeRange ∨
      viewTimeRange.Moved (OverView.act viewTimeRange clientX action) := by
  cases action with
  | none => exact .inl rfl
  | some action =>
    right
    cases action with
    | moveBegin => exact viewTimeRange.moved_shiftViewRangeBegin _
    | moveEnd => exact viewTimeRange.moved_shiftViewRangeEnd _
    | move => exact viewTimeRange.moved_shiftViewRange _

/-- Announcements come from pages with the same frame, and announce a range that can be shown. -/
inductive Announces (wt : Key metrics) (profileData : ProfileData metrics) (whole range : Range)
    (page' : Page metrics) : Prop where
  | silent (h : page'.InStep wt profileData whole range)
  | announced (page : Page metrics) (widget : PageWidget) (range' : Range)
      (heq : page' = page.notifyTimeRangeUpdate wt profileData widget range')
      (hframed : page.Framed wt profileData) (hrange : Showable wt profileData whole range')

/-- What the handlers of the overview do. -/
theorem InStep.overViewMouse {page : Page metrics} {range : Range}
    (h : page.InStep wt profileData whole range) (type : MouseType) (buttons : ℕ) (clientX : ℚ) :
    Announces wt profileData whole range
      (page.step wt profileData (.overViewMouse type buttons clientX)) := by
  rw [step, OverView.onMouse]
  split
  · exact .silent ⟨⟨h.framed.overView, h.framed.timeLine, h.framed.width, h.framed.offsetY⟩,
      h.showable, h.shown, h.overView, h.timeLine⟩
  · refine .announced _ .overView _ rfl ?_ ?_
    · refine ⟨?_, h.framed.timeLine, h.framed.width, h.framed.offsetY⟩
      rcases moved_act with hact | hmoved
      · exact (congrArg _ hact).trans h.framed.overView
      · exact hmoved.wallTime.trans h.framed.overView
    · rcases moved_act with hact | hmoved
      · rw [hact, h.overView]
        exact h.showable
      · exact .inr (.inr (h.framed.overView ▸ hmoved.kept))

/-- What the time line does with a view that has been moved. -/
theorem InStep.moved {page : Page metrics} {range : Range}
    (h : page.InStep wt profileData whole range) {timeLine : TimeLine}
    (hmoved : page.timeLine.viewTimeRange.Moved timeLine.viewTimeRange)
    (hview : timeLine.viewPort = page.timeLine.viewPort) (hoffset : timeLine.offsetY ≤ 0) :
    Announces wt profileData whole range ({ page with timeLine := timeLine }.notify wt profileData
      .timeLine (some timeLine.viewTimeRange.timeRange)) := by
  refine .announced _ .timeLine _ rfl ?_ (.inr (.inr (h.framed.timeLine ▸ hmoved.kept)))
  refine ⟨h.framed.overView, hmoved.wallTime.trans h.framed.timeLine, ?_, hoffset⟩
  exact (hmoved.viewWidth.trans h.framed.width).trans (congrArg ViewPort.width hview.symm)

/-- What a move of the pointer over the time line does. -/
theorem InStep.timeLineMousemove {page : Page metrics} {range : Range}
    (h : page.InStep wt profileData whole range) (buttons : ℕ) (clientX : ℚ) (clientY : ℤ) :
    Announces wt profileData whole range
      (page.step wt profileData (.timeLineMousemove buttons clientX clientY)) := by
  have hsame : ∀ timeLine : TimeLine, timeLine.viewTimeRange = page.timeLine.viewTimeRange →
      timeLine.viewPort = page.timeLine.viewPort → timeLine.offsetY = page.timeLine.offsetY →
      Page.InStep wt profileData whole range { page with timeLine := timeLine } := by
    intro timeLine hview hport hoffset
    refine ⟨⟨h.framed.overView, ?_, ?_, ?_⟩, h.showable, h.shown, h.overView, ?_⟩
    · exact (congrArg _ hview).trans h.framed.timeLine
    · exact (congrArg _ hview).trans (h.framed.width.trans (congrArg _ hport.symm))
    · exact hoffset.trans_le h.framed.offsetY
    · exact (congrArg _ hview).trans h.timeLine
  rw [step, TimeLine.onMousemove]
  dsimp only
  split
  · exact .silent (hsame _ rfl rfl rfl)
  · split
    · exact h.moved (page.timeLine.viewTimeRange.moved_shiftScaledViewRange _) rfl (min_le_left _ _)
    · exact h.moved (page.timeLine.viewTimeRange.moved_zoomScaledViewRange _ _
        (TimeLine.dragFactor_pos _)) rfl
        h.framed.offsetY
    · exact .silent (hsame _ rfl rfl rfl)

/-- **What an event does** to a page in step. -/
theorem InStep.announces {page : Page metrics} {range : Range}
    (h : page.InStep wt profileData whole range) (event : PageEvent) :
    Announces wt profileData whole range (page.step wt profileData event) := by
  have hframed := h.framed
  cases event with
  | overViewMouse type buttons clientX => exact h.overViewMouse type buttons clientX
  | timeLineMousemove buttons clientX clientY => exact h.timeLineMousemove buttons clientX clientY
  | timeLineWheel deltaY clientX =>
    rw [step, TimeLine.onWheel]
    split
    · exact .silent h
    · exact h.moved (page.timeLine.viewTimeRange.moved_zoomScaledViewRange _ _
        (TimeLine.wheelFactor_pos _)) rfl
        h.framed.offsetY
  | timeLineDblclick callIdx =>
    cases callIdx with
    | none => exact .silent h
    | some callIdx =>
      cases hrange : profileData.callList.timeRange wt callIdx with
      | none =>
        simp only [step, hrange]
        exact .silent h
      | some callRange =>
        simp only [step, hrange]
        exact .announced page .timeLine callRange rfl hframed (.inr (.inl ⟨callIdx, hrange⟩))
  | overViewMouseleave | overViewResize width | timeLineMousedown clientX clientY
  | timeLineMouseup | timeLineMouseleave =>
    exact .silent ⟨⟨hframed.overView, hframed.timeLine, hframed.width, hframed.offsetY⟩,
      h.showable, h.shown, h.overView, h.timeLine⟩
  | timeLineResize viewPort =>
    exact .silent ⟨⟨hframed.overView, hframed.timeLine, rfl, hframed.offsetY⟩, h.showable, h.shown,
      h.overView, h.timeLine⟩

/-- **One event** leaves all widgets in step. -/
theorem InStep.step {page : Page metrics} {range : Range}
    (h : page.InStep wt profileData whole range) (hloaded : Loaded wt profileData samples whole)
    (event : PageEvent) :
    ∃ range', (page.step wt profileData event).InStep wt profileData whole range' := by
  cases h.announces event with
  | silent h => exact ⟨range, h⟩
  | announced page' widget range' heq hframed hrange =>
    rw [heq]
    exact ⟨range', hframed.notifyTimeRangeUpdate hrange hloaded widget⟩

/-- A new page is in step. -/
theorem exists_create (hloaded : Loaded wt profileData samples whole) (overViewWidth : ℚ)
    (hwidth : 0 < overViewWidth) (viewPort : ViewPort) (hview : 0 < viewPort.width) :
    ∃ page, create wt profileData hloaded.wallTime_pos overViewWidth hwidth viewPort hview =
      some page ∧ page.InStep wt profileData whole whole := by
  obtain ⟨timeRangeStats, hstats⟩ := Showable.exists_stats (.inl rfl) hloaded
  simp only [create, hloaded.timeRange, Option.bind_eq_bind, Option.bind_some, hstats]
  exact ⟨_, rfl, ⟨rfl, rfl, rfl, le_rfl⟩, .inl rfl, ⟨timeRangeStats, hstats, fun _ => rfl⟩, rfl, rfl⟩

theorem create_eq_some {hwall : 0 < profileData.getWallTime wt} {overViewWidth : ℚ}
    {hwidth : 0 < overViewWidth} {viewPort : ViewPort} {hview : 0 < viewPort.width}
    {page : Page metrics}
    (h : create wt profileData hwall overViewWidth hwidth viewPort hview = some page) :
    profileData.getTimeRange wt = some page.timeLine.viewTimeRange.timeRange ∧
      page.timeLine.viewTimeRange.viewWidth = viewPort.width ∧
      page.timeLine.viewPort = viewPort := by
  obtain ⟨timeRange, hrange, h⟩ := Option.bind_eq_some_iff.mp h
  obtain ⟨timeRangeStats, -, h⟩ := Option.bind_eq_some_iff.mp h
  cases h
  exact ⟨hrange, rfl, rfl⟩

/-- **A whole visit** leaves all widgets in step. -/
theorem InStep.run {page : Page metrics} {range : Range}
    (h : page.InStep wt profileData whole range) (hloaded : Loaded wt profileData samples whole)
    (events : List PageEvent) :
    ∃ range', (page.run wt profileData events).InStep wt profileData whole range' := by
  induction events generalizing page range with
  | nil => exact ⟨range, h⟩
  | cons event events ih =>
    obtain ⟨range', h'⟩ := h.step hloaded event
    exact ih h'

end Page

/-- The left button held while the pointer moves, and turns of the wheel where it is. -/
inductive PointerEvent where
  | drag (clientX : ℚ) (clientY : ℤ)
  | wheel (deltaY : ℚ)

/-- The place of the pointer, and how much time the view has. -/
structure Pointer where
  x : ℚ
  length : ℚ

/-- The pointer after an event. -/
def Pointer.follow (pointer : Pointer) : PointerEvent → Pointer
  | .drag clientX _ => { pointer with x := clientX }
  | .wheel deltaY =>
    if deltaY = 0 then pointer
    else { pointer with length := pointer.length / TimeLine.wheelFactor deltaY }

/-- An event as the browser reports it, with the pointer at a place. -/
def PointerEvent.report (x : ℚ) : PointerEvent → PageEvent
  | drag clientX clientY => .timeLineMousemove 1 clientX clientY
  | wheel deltaY => .timeLineWheel deltaY x

/-- The events as the browser reports them. -/
def reports : Pointer → List PointerEvent → List PageEvent
  | _, [] => []
  | pointer, event :: events => event.report pointer.x :: reports (pointer.follow event) events

/-- The begin of the range that has a time at the pointer. -/
def Pointer.begin (pointer : Pointer) (viewWidth time : ℚ) : ℚ :=
  time - pointer.x * (pointer.length / viewWidth)

/-- The range that has a time at the pointer needs no fixing. -/
structure Pointer.Fits (wallTime viewWidth time : ℚ) (pointer : Pointer) : Prop where
  long : 3 ≤ pointer.length
  le_begin : 0 ≤ pointer.begin viewWidth time
  last_le : pointer.begin viewWidth time + pointer.length ≤ wallTime

section Pointer

variable {wt : Key metrics} {profileData : ProfileData metrics}
  {samples : List (MetricValueSet metrics)} {whole : Range}

/-- The pointer holds the time line at a time. -/
structure Page.Held (wt : Key metrics) (profileData : ProfileData metrics) (whole : Range)
    (viewWidth time : ℚ) (pointer : Pointer) (page : Page metrics) : Prop where
  inStep : page.InStep wt profileData whole page.timeLine.viewTimeRange.timeRange
  dragging : page.timeLine.dragging = true
  lastX : page.timeLine.lastX = pointer.x
  viewWidth : page.timeLine.viewTimeRange.viewWidth = viewWidth
  length : page.timeLine.viewTimeRange.timeRange.length = pointer.length
  time : page.timeLine.viewTimeRange.timeAt pointer.x = time

/-- A view whose range fits is kept as it is by the announcement. -/
theorem Page.Framed.held {page : Page metrics} (hframed : page.Framed wt profileData)
    (hloaded : Loaded wt profileData samples whole) {viewWidth time : ℚ} {pointer : Pointer}
    (hfits : page.timeLine.viewTimeRange.timeRange.Fits (profileData.getWallTime wt))
    (hdragging : page.timeLine.dragging = true) (hlastX : page.timeLine.lastX = pointer.x)
    (hwidth : page.timeLine.viewTimeRange.viewWidth = viewWidth)
    (hlength : page.timeLine.viewTimeRange.timeRange.length = pointer.length)
    (htime : page.timeLine.viewTimeRange.timeAt pointer.x = time) :
    (page.notify wt profileData .timeLine (some page.timeLine.viewTimeRange.timeRange)).Held wt
      profileData whole viewWidth time pointer := by
  have hkept : page.timeLine.viewTimeRange.timeRange.Kept (profileData.getWallTime wt) :=
    ⟨hfits.long, hfits.last_le, (min_le_left _ _).trans hfits.le_begin⟩
  have hstep := hframed.notifyTimeRangeUpdate (.inr (.inr hkept)) hloaded .timeLine
  obtain ⟨timeRangeStats, hstats, -⟩ := hstep.shown
  rw [Page.notify]
  rw [Page.notifyTimeRangeUpdate, hstats] at hstep ⊢
  exact ⟨hstep, hdragging, hlastX, hwidth, hlength, htime⟩

theorem Pointer.Fits.rangeAround {view : ViewTimeRange} {wallTime time : ℚ} {pointer : Pointer}
    (h : pointer.Fits wallTime view.viewWidth time) (hlength : 0 ≤ pointer.length) :
    (view.rangeAround time pointer.x pointer.length hlength).Fits wallTime where
  long := h.long.trans_eq (view.length_rangeAround _ _ _ _).symm
  last_le := h.last_le
  le_begin := h.le_begin

/-- **One event** at the pointer. -/
theorem Page.Held.follow {page : Page metrics} {viewWidth time : ℚ} {pointer : Pointer}
    (h : page.Held wt profileData whole viewWidth time pointer)
    (hloaded : Loaded wt profileData samples whole) (event : PointerEvent)
    (hfits : (pointer.follow event).Fits (profileData.getWallTime wt) viewWidth time) :
    (page.step wt profileData (event.report pointer.x)).Held wt profileData whole viewWidth time
      (pointer.follow event) := by
  obtain ⟨x, length⟩ := pointer
  obtain ⟨hstep, hdragging, hlastX, rfl, rfl, rfl⟩ := h
  have hframed := hstep.framed
  cases event with
  | drag clientX clientY =>
    have hlen := page.timeLine.viewTimeRange.timeRange.length_nonneg
    have haround := hfits.rangeAround hlen
    have hmoved := page.timeLine.viewTimeRange.shiftScaledViewRange_of_fits x (clientX - x)
    rw [add_sub_cancel, hframed.timeLine] at hmoved
    rw [PointerEvent.report, Page.step, TimeLine.onMousemove_left hdragging, hlastX]
    dsimp only
    rw [hmoved haround]
    refine Page.Framed.held ?_ hloaded ?_ ?_ ?_ ?_ ?_ ?_
    · exact ⟨hframed.overView, hframed.timeLine, hframed.width, min_le_left _ _⟩
    · exact haround
    · exact hdragging
    · rfl
    · rfl
    · exact ViewTimeRange.length_rangeAround _ _ _ _ hlen
    · exact ViewTimeRange.timeAt_rangeAround _ _ _ _ hlen
  | wheel deltaY =>
    rw [PointerEvent.report, Page.step, TimeLine.onWheel]
    rw [Pointer.follow] at hfits ⊢
    split at hfits
    · rename_i hzero
      rw [if_pos hzero, if_pos hzero]
      exact ⟨hstep, hdragging, hlastX, rfl, rfl, rfl⟩
    · rename_i hne
      have hpos := TimeLine.wheelFactor_pos deltaY
      have hlen := div_nonneg page.timeLine.viewTimeRange.timeRange.length_nonneg hpos.le
      have haround := hfits.rangeAround hlen
      have hmoved := page.timeLine.viewTimeRange.zoomScaledViewRange_of_fits hpos x
      rw [hframed.timeLine] at hmoved
      rw [if_neg hne, if_neg hne, hmoved haround]
      refine Page.Framed.held ?_ hloaded ?_ ?_ ?_ ?_ ?_ ?_
      · exact ⟨hframed.overView, hframed.timeLine, hframed.width, hframed.offsetY⟩
      · exact haround
      · exact hdragging
      · exact hlastX
      · rfl
      · exact ViewTimeRange.length_rangeAround _ _ _ _ hlen
      · exact ViewTimeRange.timeAt_rangeAround _ _ _ _ hlen

/-- **A whole gesture** at the pointer. -/
theorem Page.Held.run {page : Page metrics} {viewWidth time : ℚ} {pointer : Pointer}
    (h : page.Held wt profileData whole viewWidth time pointer)
    (hloaded : Loaded wt profileData samples whole) (events : List PointerEvent)
    (hfits : ∀ n, 0 < n → n ≤ events.length →
      ((events.take n).foldl Pointer.follow pointer).Fits (profileData.getWallTime wt) viewWidth
        time) :
    (page.run wt profileData (reports pointer events)).Held wt profileData whole viewWidth time
      (events.foldl Pointer.follow pointer) := by
  induction events generalizing page pointer with
  | nil => exact h
  | cons event events ih =>
    have hfirst := h.follow hloaded event (hfits 1 Nat.one_pos (Nat.le_add_left _ _))
    refine ih hfirst ?_
    intro n hn hle
    exact hfits (n + 1) (Nat.succ_pos n) (Nat.succ_le_succ hle)

end Pointer

end PhpSpx.WebUi
