import PhpSpx.WebUi.RangeTreeDepth

/-!
# The statistics of a time range

`CallRangeTree.getTimeRangeStats` of `profileData.js`: the statistics of the calls of a time
range, each truncated to it.  The nodes inside the range answer with the statistics computed when
the tree was built, the nodes elsewhere with none.

* `CallRangeTree.getTimeRangeStats` — the statistics but for the call tree, none when something
  throws.
* `BuiltTree.answers` — what a built tree answers.
* `time_range_stats_eq_naive` — it is what the calls add up to one by one.
-/

namespace PhpSpx.WebUi

variable {metrics : EnabledMetrics}

/-! ## The query -/

/-- `TimeRangeStats`, without its call tree. -/
structure TimeRangeStats (metrics : EnabledMetrics) where
  timeRange : Range
  functionsStats : FunctionsStats metrics
  cumCostStats : CumCostStats metrics

/-- `TimeRangeStats.merge`. -/
def TimeRangeStats.merge (stats other : TimeRangeStats metrics) : TimeRangeStats metrics where
  timeRange := stats.timeRange
  functionsStats := stats.functionsStats.merge other.functionsStats
  cumCostStats := stats.cumCostStats.merge other.cumCostStats

/-- The loop of `getTimeRangeStats` over the calls of a node. -/
def truncatedCalls (wt : Key metrics) (list : CallList metrics) (range : Range)
    (lowerBound upperBound : Option (MetricValueSet metrics)) :
    List ℕ → Option (List (CallListEntry metrics))
  | [] => some []
  | callRef :: callRefs => do
    let callTimeRange ← list.timeRange wt callRef
    let calls ← truncatedCalls wt list range lowerBound upperBound callRefs
    if ¬callTimeRange.Overlaps range then some calls
    else some ((list.entry callRef).truncate wt lowerBound upperBound :: calls)

/-- A bound of the truncation: the one passed, or the values at a time if they are needed. -/
def boundValues (wt : Key metrics) (metricValuesList : MetricValuesList metrics)
    (bound : Option (MetricValueSet metrics)) (needed : Prop) [Decidable needed] (time : ℚ) :
    Option (Option (MetricValueSet metrics)) :=
  if bound.isNone ∧ needed then (metricValuesList.getMetricValues wt time).map some
  else some bound

/-- The loop body of `getTimeRangeStats` for a child with its statistics, on `timeRangeStats`
and `remainingRange`. -/
def mergeChild (child : CallRangeTree metrics) (childStats : Option (TimeRangeStats metrics))
    (state : TimeRangeStats metrics × Range) : Option (TimeRangeStats metrics × Range) :=
  match child.range? with
  | none => some state
  | some childRange => childStats.map fun stats => (state.1.merge stats, state.2.sub childRange)

/-- `CallRangeTree.getTimeRangeStats`, but for its call tree, which is
`CallRangeTree.queryCallTree`: where that is none, `new CallTreeStats` throws. -/
def CallRangeTree.getTimeRangeStats (wt : Key metrics) (list : CallList metrics)
    (metricValuesList : MetricValuesList metrics) (range : Range) :
    CallRangeTree metrics → Option (MetricValueSet metrics) → Option (MetricValueSet metrics) →
      Option (TimeRangeStats metrics)
  | absent, _, _ => none
  | node treeRange callRefs functionsStats cumCostStats first second, lowerBound, upperBound =>
    if ¬treeRange.Overlaps range then some ⟨range, fun _ => none, .new⟩
    else if range.Contains treeRange then some ⟨range, functionsStats, cumCostStats⟩
    else do
      let lowerBound ← boundValues wt metricValuesList lowerBound (treeRange.begin < range.begin)
        range.begin
      let upperBound ← boundValues wt metricValuesList upperBound (treeRange.last > range.last)
        range.last
      let calls ← truncatedCalls wt list range lowerBound upperBound callRefs
      let functionsStats ← FunctionsStats.ofEntries list calls
      let remainingRange ← treeRange.intersect range
      let state ← mergeChild first
        (getTimeRangeStats wt list metricValuesList range first lowerBound upperBound)
        (⟨range, functionsStats, .new⟩, remainingRange)
      let state ← mergeChild second
        (getTimeRangeStats wt list metricValuesList range second lowerBound upperBound) state
      let cumCostStats ← metricValuesList.getCumCostStats wt state.2
      some { state.1 with cumCostStats := state.1.cumCostStats.merge cumCostStats }

/-! ## What it computes -/

/-- The part of a range that is left without a child. -/
def CallRangeTree.remove (child : CallRangeTree metrics) (remaining : Range) : Range :=
  match child.range? with
  | none => remaining
  | some childRange => remaining.sub childRange

/-- The part of the query in a node that no child covers. -/
def remainingRange (treeRange range : Range) (first second : CallRangeTree metrics) : Range :=
  second.remove (first.remove ((treeRange.intersect range).getD treeRange))

/-- The cumulative costs of a query, `costs` being those of a range. -/
def CallRangeTree.queryCosts (costs : Range → CumCostStats metrics) (range : Range) :
    CallRangeTree metrics → CumCostStats metrics
  | absent => 0
  | node treeRange _ _ cumCostStats first second =>
    if ¬treeRange.Overlaps range then 0
    else if range.Contains treeRange then cumCostStats
    else first.queryCosts costs range + second.queryCosts costs range +
      costs (remainingRange treeRange range first second)

/-- The calls that overlap a range. -/
def CallList.overlapping (wt : Key metrics) (list : CallList metrics) (range : Range) (idx : ℕ) :
    Bool :=
  (list.timeRange wt idx).any fun callTimeRange => callTimeRange.Overlaps range

/-- What the calls of a range add to the totals, each truncated. -/
def queryTotals (wt : Key metrics) (list : CallList metrics) (range : Range)
    (lower upper : MetricValueSet metrics) (callRefs : List ℕ) : Totals metrics :=
  ((callRefs.filter (list.overlapping wt range)).map fun idx =>
    callTotals list ((list.entry idx).truncate wt (some lower) (some upper))).sum

section Query

variable {wt : Key metrics} {list : CallList metrics} {metricValuesList : MetricValuesList metrics}
  {range treeRange : Range} {lower upper : MetricValueSet metrics}

theorem queryTotals_append (callRefs callRefs' : List ℕ) :
    queryTotals wt list range lower upper (callRefs ++ callRefs') =
      queryTotals wt list range lower upper callRefs +
        queryTotals wt list range lower upper callRefs' := by
  rw [queryTotals, List.filter_append, List.map_append, List.sum_append]
  rfl

theorem queryTotals_perm {callRefs callRefs' : List ℕ} (h : callRefs.Perm callRefs') :
    queryTotals wt list range lower upper callRefs =
      queryTotals wt list range lower upper callRefs' :=
  ((h.filter _).map _).sum_eq

theorem CallList.overlapping_of_some {callRef : ℕ} {callTimeRange : Range}
    (h : list.timeRange wt callRef = some callTimeRange) :
    list.overlapping wt range callRef = decide (callTimeRange.Overlaps range) := by
  rw [CallList.overlapping, h, Option.any_some]

/-- A node elsewhere has no calls of the range. -/
theorem queryTotals_of_not_overlaps {callRefs : List ℕ} (hin : CallsIn wt list treeRange callRefs)
    (h : ¬treeRange.Overlaps range) : queryTotals wt list range lower upper callRefs = 0 := by
  have hnone : callRefs.filter (list.overlapping wt range) = [] := by
    rw [List.filter_eq_nil_iff]
    intro callRef hmem hoverlapping
    obtain ⟨callTimeRange, hrange, hcontains⟩ := hin callRef hmem
    rw [CallList.overlapping_of_some hrange] at hoverlapping
    exact h ((of_decide_eq_true hoverlapping).of_contains hcontains)
  rw [queryTotals, hnone]
  rfl

/-! ## Truncation -/

/-- A bound that is not above the start of a call does not cut it. -/
theorem CallListEntry.lowerCut_eq_none {call : CallListEntry metrics}
    (h : lower wt ≤ call.start wt) : call.lowerCut wt (some lower) = none := by
  rw [CallListEntry.lowerCut, Option.filter_some_eq_none, decide_eq_true_eq]
  exact not_lt.mpr h

theorem CallListEntry.upperCut_eq_none {call : CallListEntry metrics}
    (h : call.last wt ≤ upper wt) : call.upperCut wt (some upper) = none := by
  rw [CallListEntry.upperCut, Option.filter_some_eq_none, decide_eq_true_eq]
  exact not_lt.mpr h

/-- A call inside the range is not truncated. -/
theorem CallListEntry.truncate_eq_self {call : CallListEntry metrics}
    (hlower : lower wt ≤ call.start wt) (hupper : call.last wt ≤ upper wt) :
    call.truncate wt (some lower) (some upper) = call := by
  rw [CallListEntry.truncate, CallListEntry.lowerCut_eq_none hlower,
    CallListEntry.upperCut_eq_none hupper]
  rfl

/-- A bound is passed only with its values. -/
def Passed (bound : Option (MetricValueSet metrics)) (values : MetricValueSet metrics) : Prop :=
  bound = none ∨ bound = some values

theorem boundValues_eq (needed : Prop) [Decidable needed]
    {bound : Option (MetricValueSet metrics)} {values : MetricValueSet metrics} {time : ℚ}
    (hpassed : Passed bound values)
    (hvalues : metricValuesList.getMetricValues wt time = some values) :
    ∃ bound', boundValues wt metricValuesList bound needed time = some bound' ∧
      Passed bound' values ∧ (needed → bound' = some values) := by
  rw [boundValues]
  rcases hpassed with rfl | rfl
  · by_cases hneeded : needed
    · rw [if_pos ⟨rfl, hneeded⟩, hvalues]
      exact ⟨_, rfl, .inr rfl, fun _ => rfl⟩
    · rw [if_neg fun h => hneeded h.2]
      exact ⟨_, rfl, .inl rfl, fun h => absurd h hneeded⟩
  · rw [if_neg fun h => Bool.false_ne_true h.1]
    exact ⟨_, rfl, .inr rfl, fun _ => rfl⟩

/-- The bounds reach the calls of a node they cut. -/
theorem CallListEntry.truncate_passed {call : CallListEntry metrics}
    {lowerBound upperBound : Option (MetricValueSet metrics)} (hlower : Passed lowerBound lower)
    (hupper : Passed upperBound upper)
    (hlowerCut : call.start wt < lower wt → lowerBound = some lower)
    (hupperCut : upper wt < call.last wt → upperBound = some upper) :
    call.truncate wt lowerBound upperBound = call.truncate wt (some lower) (some upper) := by
  have hl : call.lowerCut wt lowerBound = call.lowerCut wt (some lower) := by
    rcases hlower with rfl | rfl
    · rw [CallListEntry.lowerCut_eq_none (not_lt.mp fun h => nomatch hlowerCut h)]
      rfl
    · rfl
  have hu : call.upperCut wt upperBound = call.upperCut wt (some upper) := by
    rcases hupper with rfl | rfl
    · rw [CallListEntry.upperCut_eq_none (not_lt.mp fun h => nomatch hupperCut h)]
      rfl
    · rfl
  rw [CallListEntry.truncate, CallListEntry.truncate, hl, hu]

/-- **The calls of a node**, with the bounds that reach it. -/
theorem truncatedCalls_eq (range : Range) {lowerBound upperBound : Option (MetricValueSet metrics)}
    (hlower : Passed lowerBound lower) (hupper : Passed upperBound upper)
    (hlowerCut : treeRange.begin < lower wt → lowerBound = some lower)
    (hupperCut : upper wt < treeRange.last → upperBound = some upper) {callRefs : List ℕ}
    (hin : CallsIn wt list treeRange callRefs) :
    truncatedCalls wt list range lowerBound upperBound callRefs =
      some ((callRefs.filter (list.overlapping wt range)).map fun idx =>
        (list.entry idx).truncate wt (some lower) (some upper)) := by
  induction callRefs with
  | nil => rfl
  | cons callRef callRefs ih =>
    obtain ⟨⟨callTimeRange, hrange, hcontains⟩, hrest⟩ := List.forall_mem_cons.mp hin
    obtain ⟨-, hbegin, hlast⟩ := CallList.timeRange_eq_some hrange
    simp only [truncatedCalls, hrange, ih hrest, Option.bind_eq_bind, Option.bind_some,
      List.filter_cons, CallList.overlapping_of_some hrange]
    by_cases hoverlaps : callTimeRange.Overlaps range
    · have hcut : (list.entry callRef).truncate wt lowerBound upperBound =
          (list.entry callRef).truncate wt (some lower) (some upper) := by
        apply CallListEntry.truncate_passed hlower hupper
        · exact fun h => hlowerCut ((hbegin ▸ hcontains.1).trans_lt h)
        · exact fun h => hupperCut (h.trans_le (hlast ▸ hcontains.2))
      rw [if_neg (not_not_intro hoverlaps), if_pos (decide_eq_true hoverlaps), List.map_cons, hcut]
    · rw [if_pos hoverlaps, if_neg fun h => hoverlaps (of_decide_eq_true h)]

/-! ## The answer of a tree -/

/-- The values at the begin and at the end of the range. -/
structure QueryBounds (wt : Key metrics) (metricValuesList : MetricValuesList metrics)
    (range : Range) (lower upper : MetricValueSet metrics) : Prop where
  lower_eq : metricValuesList.getMetricValues wt range.begin = some lower
  upper_eq : metricValuesList.getMetricValues wt range.last = some upper
  lower_wt : lower wt = range.begin
  upper_wt : upper wt = range.last

variable {samples : List (MetricValueSet metrics)}

/-- The bounds of a query in the time of the samples. -/
theorem exists_queryBounds (h : metricValuesList.Covers wt samples range) :
    ∃ lower upper, QueryBounds wt metricValuesList range lower upper := by
  have hbegin : range.ContainsValue range.begin := ⟨le_rfl, range.ordered⟩
  have hlast : range.ContainsValue range.last := ⟨range.ordered, le_rfl⟩
  exact ⟨_, _, h.getMetricValues hbegin, h.getMetricValues hlast,
    MetricValuesList.valuesAt_wt (h.nearest hbegin).2,
    MetricValuesList.valuesAt_wt (h.nearest hlast).2⟩

/-- A tree answers the query with what its calls add up to and the costs of its nodes. -/
structure Answers (wt : Key metrics) (list : CallList metrics)
    (metricValuesList : MetricValuesList metrics) (samples : List (MetricValueSet metrics))
    (range : Range) (lower upper : MetricValueSet metrics) (tree : CallRangeTree metrics) :
    Prop where
  stats : ∀ lowerBound upperBound, Passed lowerBound lower → Passed upperBound upper →
    tree = .absent ∨ tree.getTimeRangeStats wt list metricValuesList range lowerBound upperBound =
      some ⟨range, named list (queryTotals wt list range lower upper tree.calls),
        tree.queryCosts (metricValuesList.costsIn wt samples) range⟩
  signed : (tree.queryCosts (metricValuesList.costsIn wt samples) range).Signed

theorem answers_absent : Answers wt list metricValuesList samples range lower upper .absent where
  stats _ _ _ _ := .inl rfl
  signed := CumCostStats.signed_zero

/-- Merging the answer of a child. -/
theorem Answers.mergeChild_eq {child : CallRangeTree metrics}
    (h : Answers wt list metricValuesList samples range lower upper child)
    {lowerBound upperBound : Option (MetricValueSet metrics)} (hlower : Passed lowerBound lower)
    (hupper : Passed upperBound upper) (totals : Totals metrics) (costs : CumCostStats metrics)
    (remaining : Range) :
    mergeChild child
        (child.getTimeRangeStats wt list metricValuesList range lowerBound upperBound)
        (⟨range, named list totals, costs⟩, remaining) =
      some (⟨range, named list (totals + queryTotals wt list range lower upper child.calls),
        costs + child.queryCosts (metricValuesList.costsIn wt samples) range⟩,
        child.remove remaining) := by
  rcases h.stats lowerBound upperBound hlower hupper with rfl | hstats
  · have hzero : totals + queryTotals wt list range lower upper [] = totals := add_zero totals
    rw [CallRangeTree.calls, CallRangeTree.queryCosts, add_zero, hzero]
    rfl
  · rw [hstats]
    cases child with
    | absent => cases hstats
    | node childRange childRefs stats cum first second =>
      rw [mergeChild, CallRangeTree.range?, CallRangeTree.remove]
      simp only [Option.map_some, TimeRangeStats.merge, merge_named,
        CumCostStats.merge_eq _ h.signed]
      rfl

/-- A node inside the range has all its calls whole. -/
theorem queryTotals_of_contains (hbounds : QueryBounds wt metricValuesList range lower upper)
    {callRefs : List ℕ} (hin : CallsIn wt list treeRange callRefs)
    (h : range.Contains treeRange) :
    queryTotals wt list range lower upper callRefs = listTotals list callRefs := by
  have hall : callRefs.filter (list.overlapping wt range) = callRefs := by
    rw [List.filter_eq_self]
    intro callRef hmem
    obtain ⟨callTimeRange, hrange, hcontains⟩ := hin callRef hmem
    rw [CallList.overlapping_of_some hrange]
    exact decide_eq_true (h.trans hcontains).overlaps.symm
  rw [queryTotals, hall, listTotals]
  congr 1
  apply List.map_congr_left
  intro callRef hmem
  obtain ⟨callTimeRange, hrange, hcontains⟩ := hin callRef hmem
  obtain ⟨-, hbegin, hlast⟩ := CallList.timeRange_eq_some hrange
  obtain ⟨hle, hle'⟩ := h.trans hcontains
  rw [CallListEntry.truncate_eq_self]
  · rwa [hbounds.lower_wt, ← hbegin]
  · rwa [hbounds.upper_wt, ← hlast]

theorem contains_remove (child : CallRangeTree metrics) (remaining : Range) :
    remaining.Contains (child.remove remaining) := by
  cases child with
  | absent => exact .refl remaining
  | node childRange _ _ _ _ _ => exact remaining.contains_sub childRange

/-- The part of the query that no child covers is in the node. -/
theorem contains_remainingRange (h : treeRange.Overlaps range)
    (first second : CallRangeTree metrics) :
    treeRange.Contains (remainingRange treeRange range first second) := by
  obtain ⟨meet, hmeet, hbegin, hlast⟩ := Range.exists_intersect h
  have hcontains : treeRange.Contains meet := by
    rw [Range.Contains, hbegin, hlast]
    exact ⟨le_max_left _ _, min_le_left _ _⟩
  rw [remainingRange, hmeet, Option.getD_some]
  exact (hcontains.trans (contains_remove first meet)).trans (contains_remove second _)

/-- **A node answers the query** when its children do. -/
theorem answers_node (hbounds : QueryBounds wt metricValuesList range lower upper)
    (hcovers : metricValuesList.Covers wt samples treeRange) {callRefs : List ℕ}
    {cumCostStats : CumCostStats metrics} {first second : CallRangeTree metrics}
    (hin : CallsIn wt list treeRange (callRefs ++ (first.calls ++ second.calls)))
    (hdepth : ∀ idx ∈ callRefs, (list.getCycleDepth idx).isSome = true)
    (hcosts : cumCostStats.Signed)
    (hfirst : Answers wt list metricValuesList samples range lower upper first)
    (hsecond : Answers wt list metricValuesList samples range lower upper second) :
    Answers wt list metricValuesList samples range lower upper
      (.node treeRange callRefs
        (named list (listTotals list (callRefs ++ (first.calls ++ second.calls)))) cumCostStats
        first second) := by
  have hown : CallsIn wt list treeRange callRefs :=
    fun idx hidx => hin idx (List.mem_append_left _ hidx)
  constructor
  · intro lowerBound upperBound hlower hupper
    right
    rw [CallRangeTree.getTimeRangeStats, CallRangeTree.queryCosts, CallRangeTree.calls]
    by_cases hoverlaps : treeRange.Overlaps range
    · rw [if_neg (not_not_intro hoverlaps), if_neg (not_not_intro hoverlaps)]
      by_cases hinside : range.Contains treeRange
      · rw [if_pos hinside, if_pos hinside, queryTotals_of_contains hbounds hin hinside]
      · obtain ⟨lb, hlb, hlbPassed, hlbNeeded⟩ :=
          boundValues_eq (treeRange.begin < range.begin) hlower
            hbounds.lower_eq
        obtain ⟨ub, hub, hubPassed, hubNeeded⟩ :=
          boundValues_eq (treeRange.last > range.last) hupper
            hbounds.upper_eq
        rw [← hbounds.lower_wt] at hlbNeeded
        rw [← hbounds.upper_wt] at hubNeeded
        have hcalls := truncatedCalls_eq range hlbPassed hubPassed hlbNeeded hubNeeded hown
        have hentries : ∀ call ∈ (callRefs.filter (list.overlapping wt range)).map fun idx =>
            (list.entry idx).truncate wt (some lower) (some upper),
            (list.getCycleDepth call.idx).isSome = true := by
          intro call hcall
          obtain ⟨idx, hidx, rfl⟩ := List.mem_map.mp hcall
          exact hdepth idx (List.mem_of_mem_filter hidx)
        have hstats := ofEntries_eq_named _ hentries
        rw [List.map_map] at hstats
        obtain ⟨meet, hmeet, -⟩ := Range.exists_intersect hoverlaps
        have hrest := hcovers.mono (contains_remainingRange hoverlaps first second)
        have hmerge := fun stats => CumCostStats.merge_eq stats hrest.signed
        have hrestCosts := hrest.getCumCostStats
        rw [if_neg hinside, if_neg hinside]
        rw [remainingRange, hmeet, Option.getD_some] at hrestCosts hmerge ⊢
        simp only [hlb, hub, hcalls, hstats, hfirst.mergeChild_eq hlbPassed hubPassed,
          hsecond.mergeChild_eq hlbPassed hubPassed, hrestCosts, hmerge, Option.bind_eq_bind,
          Option.bind_some, queryTotals_append, ← add_assoc, CumCostStats.new_eq_zero, zero_add]
        rfl
    · rw [if_pos hoverlaps, if_pos hoverlaps, queryTotals_of_not_overlaps hin hoverlaps]
      rfl
  · rw [CallRangeTree.queryCosts]
    split_ifs with hoverlaps hinside
    · exact hcosts
    · exact (hfirst.signed.add hsecond.signed).add
        (hcovers.mono (contains_remainingRange hoverlaps first second)).signed
    · exact CumCostStats.signed_zero

/-! ## Built trees -/

/-- **The cumulative costs of a built tree** are those of its range. -/
theorem BuiltTree.cumCostStats_eq {callRefs : List ℕ}
    {built : CallRangeTree metrics × CumCostStats metrics}
    (h : BuiltTree wt list metricValuesList treeRange callRefs built)
    (hcovers : metricValuesList.Covers wt samples treeRange) :
    built.2 = metricValuesList.costsIn wt samples treeRange := by
  induction h with
  | rest hcum => exact Option.some.inj (hcum.symm.trans hcovers.getCumCostStats)
  | @node treeRange callRefs placed keepLeft keepRight stats left right async hplaced hstats hl hr
      ihl ihr =>
    have hleft := hcovers.mono treeRange.contains_left
    have hright := hcovers.mono treeRange.contains_right
    rw [ihl hleft, ihr hright, CumCostStats.merge_eq _ hleft.signed,
      CumCostStats.merge_eq _ hright.signed, CumCostStats.new_eq_zero, zero_add]
    exact MetricValuesList.costsIn_add rfl rfl rfl

/-- **A built tree answers the query.** -/
theorem BuiltTree.answers (hbounds : QueryBounds wt metricValuesList range lower upper)
    {callRefs : List ℕ} {built : CallRangeTree metrics × CumCostStats metrics}
    (h : BuiltTree wt list metricValuesList treeRange callRefs built)
    (hin : CallsIn wt list treeRange callRefs)
    (hcovers : metricValuesList.Covers wt samples treeRange) :
    Answers wt list metricValuesList samples range lower upper built.1 := by
  induction h with
  | rest hcum => exact answers_absent
  | @node treeRange callRefs placed keepLeft keepRight stats left right async hplaced hstats hl hr
      ihl ihr =>
    have hsplit := split_keep hplaced hin keepLeft keepRight
    have hbuilt : BuiltTree wt list metricValuesList treeRange callRefs
        (joinHalves treeRange _ stats async left right, _) := .node hplaced hstats hl hr
    have hcalls := hin.perm (hbuilt.calls_perm hin)
    obtain ⟨-, hfunctions⟩ := new_eq_some_iff.mp hbuilt.functionsStats_eq.1
    obtain ⟨hdepth, -⟩ := new_eq_some_iff.mp hstats
    have hcosts := hbuilt.cumCostStats_eq hcovers
    have hsigned := hcovers.signed
    rw [← hcosts] at hsigned
    have hleft := ihl hsplit.left (hcovers.mono treeRange.contains_left)
    have hright := ihr hsplit.right (hcovers.mono treeRange.contains_right)
    rw [joinHalves, CallRangeTree.functionsStats] at hfunctions
    rw [joinHalves] at hcalls
    rw [joinHalves, hfunctions]
    cases async with
    | false => exact answers_node hbounds hcovers hcalls hdepth hsigned hright hleft
    | true => exact answers_node hbounds hcovers hcalls hdepth hsigned hleft hright

end Query

/-- **The statistics of a time range** are those computed over all calls that overlap it, each
truncated to it at the values at its ends. -/
theorem time_range_stats_eq_naive (wt : Key metrics) (list : CallList metrics)
    (metricValuesList : MetricValuesList metrics) {samples : List (MetricValueSet metrics)}
    {fuel : ℕ} {treeRange range : Range} {tree : CallRangeTree metrics}
    (hin : CallsIn wt list treeRange (List.range list.getSize))
    (hcovers : metricValuesList.Covers wt samples treeRange)
    (hbuild : buildAsync wt list metricValuesList fuel treeRange (List.range list.getSize) =
      some tree) (hrange : treeRange.Contains range) :
    ∃ stats lower upper,
      tree.getTimeRangeStats wt list metricValuesList range none none = some stats ∧
      metricValuesList.getMetricValues wt range.begin = some lower ∧
      metricValuesList.getMetricValues wt range.last = some upper ∧
      FunctionsStats.ofEntries list
        (((List.range list.getSize).filter (list.overlapping wt range)).map fun idx =>
          (list.entry idx).truncate wt (some lower) (some upper)) = some stats.functionsStats := by
  obtain ⟨hbuilt, hnode⟩ := built_buildAsync hbuild
  obtain ⟨lower, upper, hbounds⟩ := exists_queryBounds (hcovers.mono hrange)
  have hanswers := hbuilt.answers hbounds hin hcovers
  rcases hanswers.stats none none (.inl rfl) (.inl rfl) with rfl | hstats
  · exact nomatch hnode
  refine ⟨_, lower, upper, hstats, hbounds.lower_eq, hbounds.upper_eq, ?_⟩
  obtain ⟨hdepth, -⟩ := new_eq_some_iff.mp hbuilt.functionsStats_eq.1
  have hperm : tree.calls.Perm (List.range list.getSize) := hbuilt.calls_perm hin
  rw [ofEntries_eq_named, List.map_map, queryTotals_perm hperm]
  · rfl
  · intro call hcall
    obtain ⟨idx, hidx, rfl⟩ := List.mem_map.mp hcall
    exact hdepth idx (hperm.symm.subset (List.mem_of_mem_filter hidx))

theorem cutRange_ordered : (2 : ℚ) ≤ 5 := by norm_num

/-- A range that cuts both nodes and the calls in them. -/
def cutRange : Range := ⟨2, 5, cutRange_ordered⟩

theorem contains_cutRange : eightLong.Contains cutRange := by
  norm_num [Range.Contains, eightLong, cutRange]

/-- Calls of both nodes, cut. -/
theorem time_range_stats_eq_naive_cut :
    ∃ fuel tree stats, buildAsync wallTimeKey twoNodeList (.ofTimes [0, 8]) fuel eightLong
        (List.range twoNodeList.getSize) = some tree ∧
      (∃ node ∈ tree.nodes, node.range? = some eightLong.left) ∧
      tree.getTimeRangeStats wallTimeKey twoNodeList (.ofTimes [0, 8]) cutRange none none =
        some stats := by
  obtain ⟨fuel, tree, htree, hleft⟩ := exists_twoNodeTree
  obtain ⟨stats, _, _, hstats, -⟩ := time_range_stats_eq_naive wallTimeKey _ _
    callsIn_twoNodeList covers_twoNodeList htree contains_cutRange
  exact ⟨fuel, tree, stats, htree, hleft, hstats⟩

end PhpSpx.WebUi
