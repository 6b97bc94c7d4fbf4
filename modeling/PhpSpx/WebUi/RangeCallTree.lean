import PhpSpx.WebUi.CallTreeStats
import PhpSpx.WebUi.TimeRangeStats

/-!
# The call tree of a time range

The call trees that `CallRangeTree` of `profileData.js` keeps at its nodes, and the one
`getTimeRangeStats` makes of them.  A node prunes its tree of what lasts less than a 150th of its
range once those of its children are merged into it.

* `CallRangeTree.callTreeStats` — the tree of a node, none when its constructor throws.
* `CallRangeTree.queryCallTree` — the tree of a query.
* `Approximates` — a tree that may have lost short calls, but counts none twice.
* `BuiltTree.answersCallTree` — what a built tree answers.
* `time_range_call_tree` — it is the tree of the calls one by one, up to the short ones.
-/

namespace PhpSpx.WebUi

open Lib (Trie)

variable {metrics : EnabledMetrics}

/-! ## Trees at the nodes -/

/-- The tree of a child is merged, when there is a child. -/
def CallRangeTree.mergeTree (child : CallRangeTree metrics) (tree stats : CallTreeStats metrics) :
    CallTreeStats metrics :=
  match child.range? with
  | none => stats
  | some _ => stats.merge tree

/-- `callTreeStats`.  The first half is merged before the second one, wherever they are among the
children. -/
def CallRangeTree.callTreeStats (wt : Key metrics) (list : CallList metrics) :
    CallRangeTree metrics → Option (CallTreeStats metrics)
  | absent => some .empty
  | node range callRefs _ _ first second => do
    let own ← CallTreeStats.new wt list (callRefs.map list.entry)
    let firstTree ← first.callTreeStats wt list
    let secondTree ← second.callTreeStats wt list
    let merged :=
      if second.range? = some range.left then
        first.mergeTree firstTree (second.mergeTree secondTree own)
      else second.mergeTree secondTree (first.mergeTree firstTree own)
    some (merged.prune wt (range.length / 150))

/-- `CallRangeTree.getTimeRangeStats`, for its call tree. -/
def CallRangeTree.queryCallTree (wt : Key metrics) (list : CallList metrics)
    (metricValuesList : MetricValuesList metrics) (range : Range) :
    CallRangeTree metrics → Option (MetricValueSet metrics) → Option (MetricValueSet metrics) →
      Option (CallTreeStats metrics)
  | absent, _, _ => some .empty
  | node treeRange callRefs functionsStats cumCostStats first second, lowerBound, upperBound =>
    if ¬treeRange.Overlaps range then some .empty
    else if range.Contains treeRange then
      (node treeRange callRefs functionsStats cumCostStats first second).callTreeStats wt list
    else do
      let lowerBound ← boundValues wt metricValuesList lowerBound (treeRange.begin < range.begin)
        range.begin
      let upperBound ← boundValues wt metricValuesList upperBound (treeRange.last > range.last)
        range.last
      let calls ← truncatedCalls wt list range lowerBound upperBound callRefs
      let own ← CallTreeStats.new wt list calls
      let firstTree ← queryCallTree wt list metricValuesList range first lowerBound upperBound
      let secondTree ← queryCallTree wt list metricValuesList range second lowerBound upperBound
      some (second.mergeTree secondTree (first.mergeTree firstTree own))

/-! ## Trees that lost short calls -/

/-- Values of which the time is not negative. -/
def NonnegTime (wt : Key metrics) (node : WithZero (CallTreeTotals metrics)) : Prop :=
  ∀ totals : CallTreeTotals metrics, node = totals → 0 ≤ totals.inc wt

theorem nonnegTime_zero (wt : Key metrics) : NonnegTime wt 0 :=
  fun _ h => absurd h WithZero.zero_ne_coe

theorem NonnegTime.add {wt : Key metrics} {a b : WithZero (CallTreeTotals metrics)}
    (ha : NonnegTime wt a) (hb : NonnegTime wt b) : NonnegTime wt (a + b) := by
  cases a with
  | zero => rwa [zero_add]
  | coe s =>
    cases b with
    | zero => rwa [add_zero]
    | coe t =>
      intro totals h
      rw [← WithZero.coe_inj.mp ((WithZero.coe_add s t).trans h)]
      exact add_nonneg (ha s rfl) (hb t rfl)

/-- What some calls add up to under a path. -/
def callsNode (wt : Key metrics) (list : CallList metrics) (calls : List (CallListEntry metrics))
    (path : List String) : WithZero (CallTreeTotals metrics) :=
  (calls.map (callNodes wt list)).sum path

/-- A tree of some calls that may have lost calls, though none of a path on which all calls last
for the duration. -/
structure Approximates (wt : Key metrics) (list : CallList metrics) (minDuration : ℚ)
    (stats : CallTreeStats metrics) (calls : List (CallListEntry metrics)) : Prop where
  inc : stats.root.inc = rootInc list calls
  part : ∀ path, ∃ rest, NonnegTime wt rest ∧ callsNode wt list calls path = stats.node path + rest
  exact : ∀ path, (∀ call ∈ calls, list.names call.idx <+: path →
    minDuration ≤ list.duration wt call.idx) → stats.node path = callsNode wt list calls path

section Approximates

variable {wt : Key metrics} {list : CallList metrics} {minDuration : ℚ}
  {stats other : CallTreeStats metrics} {calls calls' : List (CallListEntry metrics)}

theorem callsNode_append (path : List String) :
    callsNode wt list (calls ++ calls') path =
      callsNode wt list calls path + callsNode wt list calls' path := by
  simp [callsNode]

theorem approximates_empty : Approximates wt list minDuration .empty [] where
  inc := rfl
  part _ := ⟨0, nonnegTime_zero wt, rfl⟩
  exact _ _ := rfl

/-- A tree that is built of the calls has lost none. -/
theorem approximates_new (h : CallTreeStats.new wt list calls = some stats) :
    Approximates wt list minDuration stats calls := by
  obtain ⟨hnode, -, -, hinc⟩ := CallTreeStats.new_spec h
  have hpath : ∀ path, stats.node path = callsNode wt list calls path := congrFun hnode
  exact ⟨hinc, fun path => ⟨0, nonnegTime_zero wt, by rw [hpath, add_zero]⟩, fun path _ => hpath path⟩

theorem Approximates.merge (h : Approximates wt list minDuration stats calls)
    (h' : Approximates wt list minDuration other calls') :
    Approximates wt list minDuration (stats.merge other) (calls ++ calls') where
  inc := by
    rw [CallTreeStats.rootInc_append, ← h.inc, ← h'.inc]
    rfl
  part path := by
    obtain ⟨rest, hrest, hpart⟩ := h.part path
    obtain ⟨rest', hrest', hpart'⟩ := h'.part path
    refine ⟨rest + rest', hrest.add hrest', ?_⟩
    rw [callsNode_append, hpart, hpart', CallTreeStats.node_merge, Pi.add_apply, add_add_add_comm]
  exact path hpath := by
    obtain ⟨hleft, hright⟩ := List.forall_mem_append.mp hpath
    rw [CallTreeStats.node_merge, Pi.add_apply, h.exact path hleft, h'.exact path hright,
      callsNode_append]

theorem Approximates.perm (h : Approximates wt list minDuration stats calls)
    (hperm : calls.Perm calls') : Approximates wt list minDuration stats calls' where
  inc := h.inc.trans (CallTreeStats.rootInc_perm hperm)
  part path := by
    obtain ⟨rest, hrest, hpart⟩ := h.part path
    exact ⟨rest, hrest, by rw [← hpart, callsNode, callsNode, (hperm.map _).sum_eq]⟩
  exact path hpath := by
    rw [h.exact path fun call hcall => hpath call (hperm.subset hcall), callsNode, callsNode,
      (hperm.map _).sum_eq]

end Approximates

/-! ## Pruning -/

section Prune

variable {wt : Key metrics} {list : CallList metrics} {minDuration : ℚ}

theorem callsNode_nil (calls : List (CallListEntry metrics)) : callsNode wt list calls [] = 0 := by
  induction calls with
  | nil => rfl
  | cons call calls ih =>
    rw [← List.singleton_append, callsNode_append, ih, add_zero]
    simp [callsNode, callNodes, Trie.single]

/-- The calls of one stack. -/
def sameStack (list : CallList metrics) (callRefs : List ℕ) (path : List String) : List ℕ :=
  callRefs.filter fun idx => list.names idx = path

/-- The node of some whole calls counts those of its stack, for as long as they last. -/
theorem callsNode_entries {callRefs : List ℕ} {path : List String}
    {totals : CallTreeTotals metrics}
    (h : callsNode wt list (callRefs.map list.entry) path = totals) :
    totals.called = (sameStack list callRefs path).length ∧
      totals.inc wt = ((sameStack list callRefs path).map (list.duration wt)).sum := by
  by_cases hpath : path = []
  · rw [hpath, callsNode_nil] at h
    exact absurd h WithZero.zero_ne_coe
  · rw [callsNode, sum_callNodes _ hpath] at h
    split at h
    · obtain ⟨hcalled, hinc, -⟩ := sum_ofCall
        ((callRefs.map list.entry).filter fun call => list.names call.idx = path)
      rw [WithZero.coe_inj.mp h, List.filter_map] at hcalled hinc
      constructor
      · rw [hcalled, List.length_map]
        rfl
      · rw [hinc, List.map_map, Pi.list_sum_apply, List.map_map]
        rfl
    · exact absurd h WithZero.zero_ne_coe

theorem nonnegTime_entries {callRefs : List ℕ} (h : ∀ idx ∈ callRefs, 0 ≤ list.duration wt idx)
    (path : List String) : NonnegTime wt (callsNode wt list (callRefs.map list.entry) path) := by
  intro totals htotals
  rw [(callsNode_entries htotals).2]
  apply List.sum_nonneg
  intro duration hduration
  obtain ⟨idx, hidx, rfl⟩ := List.mem_map.mp hduration
  exact h idx (List.mem_of_mem_filter hidx)

/-- A stack of which no call is short is kept. -/
theorem keeps_entries {callRefs : List ℕ} {path : List String} {totals : CallTreeTotals metrics}
    (hnonneg : ∀ idx ∈ callRefs, 0 ≤ list.duration wt idx)
    (hlong : ∀ idx ∈ sameStack list callRefs path, minDuration ≤ list.duration wt idx)
    (h : callsNode wt list (callRefs.map list.entry) path = totals) :
    totals.called = 0 ∨ minDuration ≤ totals.inc wt := by
  obtain ⟨hcalled, hinc⟩ := callsNode_entries h
  cases hsame : sameStack list callRefs path with
  | nil =>
    left
    rw [hcalled, hsame, List.length_nil]
  | cons idx rest =>
    right
    have hrest : 0 ≤ (rest.map (list.duration wt)).sum := by
      apply List.sum_nonneg
      intro duration hduration
      obtain ⟨idx', hidx', rfl⟩ := List.mem_map.mp hduration
      refine hnonneg idx' (List.mem_of_mem_filter (?_ : idx' ∈ sameStack list callRefs path))
      rw [hsame]
      exact List.mem_cons_of_mem _ hidx'
    have hfirst : minDuration ≤ list.duration wt idx := hlong idx (by simp [hsame])
    rw [hinc, hsame, List.map_cons, List.sum_cons]
    linarith

/-- **Pruning** the tree of whole calls. -/
theorem Approximates.prune {stats : CallTreeStats metrics} {callRefs : List ℕ}
    (h : Approximates wt list minDuration stats (callRefs.map list.entry))
    (hnonneg : ∀ idx ∈ callRefs, 0 ≤ list.duration wt idx) {threshold : ℚ}
    (hthreshold : threshold ≤ minDuration) :
    Approximates wt list minDuration (stats.prune wt threshold) (callRefs.map list.entry) where
  inc := h.inc
  part path := by
    cases hnode : (stats.prune wt threshold).node path with
    | zero => exact ⟨_, nonnegTime_entries hnonneg path, (zero_add _).symm⟩
    | coe totals =>
      obtain ⟨rest, hrest, hpart⟩ := h.part path
      rw [((CallTreeStats.node_prune wt threshold stats path totals).mp hnode).1] at hpart
      exact ⟨rest, hrest, hpart⟩
  exact path hlong := by
    have hexact : ∀ upTo, upTo <+: path →
        stats.node upTo = callsNode wt list (callRefs.map list.entry) upTo := fun upTo hprefix =>
      h.exact upTo fun call hcall hnames => hlong call hcall (hnames.trans hprefix)
    rw [← hexact path List.prefix_rfl]
    cases hnode : stats.node path with
    | zero =>
      cases hpruned : (stats.prune wt threshold).node path with
      | zero => rfl
      | coe totals =>
        have := ((CallTreeStats.node_prune wt threshold stats path totals).mp hpruned).1
        exact absurd (hnode.symm.trans this) WithZero.zero_ne_coe
    | coe totals =>
      refine (CallTreeStats.node_prune wt threshold stats path totals).mpr ⟨hnode, ?_⟩
      -- every node on the way is there, and none of its calls is short
      rintro upTo hupTo ⟨rest, rfl⟩
      have hne : stats.node upTo ≠ 0 := Trie.find_ne_zero_of_append hupTo (by
        rw [← CallTreeStats.node, hnode]
        exact WithZero.coe_ne_zero)
      obtain ⟨t, ht⟩ := WithZero.ne_zero_iff_exists.mp hne
      refine ⟨t, ht.symm, ?_⟩
      have hcalls := (hexact upTo (List.prefix_append _ _)).symm.trans ht.symm
      refine (keeps_entries hnonneg ?_ hcalls).imp_right hthreshold.trans
      intro idx hidx
      have hnames : list.names idx = upTo := of_decide_eq_true (List.mem_filter.mp hidx).2
      refine hlong (list.entry idx) (List.mem_map_of_mem (List.mem_of_mem_filter hidx)) ?_
      exact hnames.symm ▸ List.prefix_append _ _

end Prune

/-! ## Built trees -/

section Built

variable {wt : Key metrics} {list : CallList metrics} {metricValuesList : MetricValuesList metrics}
  {minDuration : ℚ}

/-- Merging the tree of a child, when there is one. -/
theorem Approximates.mergeTree {stats tree : CallTreeStats metrics}
    {calls calls' : List (CallListEntry metrics)} (h : Approximates wt list minDuration stats calls)
    {child : CallRangeTree metrics} (h' : Approximates wt list minDuration tree calls')
    (hempty : child = .absent → calls' = []) :
    Approximates wt list minDuration (child.mergeTree tree stats) (calls ++ calls') := by
  cases child with
  | absent =>
    rw [hempty rfl, List.append_nil]
    exact h
  | node range callRefs functionsStats cumCostStats first second => exact h.merge h'

theorem CallRangeTree.calls_absent {child : CallRangeTree metrics} (h : child = .absent) :
    child.calls.map list.entry = [] := by
  rw [h]
  rfl

variable (wt list) in
theorem exists_new (calls : List (CallListEntry metrics))
    (h : ∀ call ∈ calls, list.Nameable call.idx) :
    ∃ stats, CallTreeStats.new wt list calls = some stats :=
  Option.isSome_iff_exists.mp ((CallTreeStats.foldlM_addCall_isSome_iff wt list _ _).mpr h)

theorem CallsIn.duration_nonneg {range : Range} {callRefs : List ℕ}
    (h : CallsIn wt list range callRefs) : ∀ idx ∈ callRefs, 0 ≤ list.duration wt idx := by
  intro idx hidx
  obtain ⟨callTimeRange, hrange, -⟩ := h idx hidx
  rw [← CallList.length_timeRange hrange]
  exact callTimeRange.length_nonneg

/-- **The call tree of a node**, from those of its children. -/
theorem exists_callTreeStats_node {range : Range} {callRefs : List ℕ}
    (functionsStats : FunctionsStats metrics) (cumCostStats : CumCostStats metrics)
    {first second : CallRangeTree metrics} (hlength : range.length / 150 ≤ minDuration)
    (hnames : ∀ idx ∈ callRefs, list.Nameable idx)
    (hnonneg : ∀ idx ∈ callRefs ++ (first.calls ++ second.calls), 0 ≤ list.duration wt idx)
    (hfirst : ∃ stats, first.callTreeStats wt list = some stats ∧
      Approximates wt list minDuration stats (first.calls.map list.entry))
    (hsecond : ∃ stats, second.callTreeStats wt list = some stats ∧
      Approximates wt list minDuration stats (second.calls.map list.entry)) :
    ∃ stats, (CallRangeTree.node range callRefs functionsStats cumCostStats first
        second).callTreeStats wt list = some stats ∧
      Approximates wt list minDuration stats
        ((callRefs ++ (first.calls ++ second.calls)).map list.entry) := by
  obtain ⟨firstTree, hfirstTree, hfirst⟩ := hfirst
  obtain ⟨secondTree, hsecondTree, hsecond⟩ := hsecond
  obtain ⟨own, hown⟩ := exists_new wt list (callRefs.map list.entry)
    (List.forall_mem_map.mpr hnames)
  have happrox : Approximates wt list minDuration own (callRefs.map list.entry) :=
    approximates_new hown
  rw [CallRangeTree.callTreeStats, hown, hfirstTree, hsecondTree]
  refine ⟨_, rfl, Approximates.prune ?_ hnonneg hlength⟩
  rw [List.map_append, List.map_append]
  split
  · have hmerged := (happrox.mergeTree hsecond CallRangeTree.calls_absent).mergeTree hfirst
      CallRangeTree.calls_absent
    refine hmerged.perm ?_
    rw [List.append_assoc]
    exact List.perm_append_comm.append_left _
  · have hmerged := (happrox.mergeTree hfirst CallRangeTree.calls_absent).mergeTree hsecond
      CallRangeTree.calls_absent
    rwa [List.append_assoc] at hmerged

/-- **The call tree of a built tree** is that of its calls, up to the short ones. -/
theorem BuiltTree.exists_callTreeStats {range : Range} {callRefs : List ℕ}
    {built : CallRangeTree metrics × CumCostStats metrics}
    (h : BuiltTree wt list metricValuesList range callRefs built)
    (hin : CallsIn wt list range callRefs) (hnames : ∀ idx ∈ callRefs, list.Nameable idx)
    (hlength : range.length / 150 ≤ minDuration) :
    ∃ stats, built.1.callTreeStats wt list = some stats ∧
      Approximates wt list minDuration stats (built.1.calls.map list.entry) := by
  induction h with
  | rest hcum => exact ⟨_, rfl, approximates_empty⟩
  | @node range callRefs placed keepLeft keepRight stats left right async hplaced hstats hl hr
      ihl ihr =>
    have hsplit := split_keep hplaced hin keepLeft keepRight
    have hbuilt : BuiltTree wt list metricValuesList range callRefs
        (joinHalves range _ stats async left right, _) := .node hplaced hstats hl hr
    have hcalls := hin.perm (hbuilt.calls_perm hin)
    have hall : ∀ idx ∈ _, list.Nameable idx := fun idx hidx => hnames idx (hsplit.perm.subset hidx)
    rw [List.forall_mem_append, List.forall_mem_append] at hall
    obtain ⟨hown, hleftNames, hrightNames⟩ := hall
    have hnonneg := range.length_nonneg
    have hleft := ihl hsplit.left hleftNames (by rw [range.length_left]; linarith)
    have hright := ihr hsplit.right hrightNames (by rw [range.length_right]; linarith)
    cases async with
    | false =>
      exact exists_callTreeStats_node _ _ hlength hown hcalls.duration_nonneg hright hleft
    | true => exact exists_callTreeStats_node _ _ hlength hown hcalls.duration_nonneg hleft hright

/-! ## Queries -/

variable {range treeRange : Range} {lower upper : MetricValueSet metrics}

/-- The calls of a query, each truncated. -/
def queryCalls (wt : Key metrics) (list : CallList metrics) (range : Range)
    (lower upper : MetricValueSet metrics) (callRefs : List ℕ) : List (CallListEntry metrics) :=
  (callRefs.filter (list.overlapping wt range)).map fun idx =>
    (list.entry idx).truncate wt (some lower) (some upper)

theorem queryCalls_append (callRefs callRefs' : List ℕ) :
    queryCalls wt list range lower upper (callRefs ++ callRefs') =
      queryCalls wt list range lower upper callRefs ++
        queryCalls wt list range lower upper callRefs' := by
  simp [queryCalls]

theorem queryCalls_absent {child : CallRangeTree metrics} (h : child = .absent) :
    queryCalls wt list range lower upper child.calls = [] := by
  rw [h]
  rfl

/-- A node elsewhere has no calls of the query. -/
theorem queryCalls_of_not_overlaps {callRefs : List ℕ} (hin : CallsIn wt list treeRange callRefs)
    (h : ¬treeRange.Overlaps range) : queryCalls wt list range lower upper callRefs = [] := by
  rw [queryCalls, List.map_eq_nil_iff, List.filter_eq_nil_iff]
  intro callRef hmem hoverlapping
  obtain ⟨callTimeRange, hrange, hcontains⟩ := hin callRef hmem
  rw [CallList.overlapping_of_some hrange] at hoverlapping
  exact h ((of_decide_eq_true hoverlapping).of_contains hcontains)

/-- A node inside the query has all its calls whole. -/
theorem queryCalls_of_contains (hbounds : QueryBounds wt metricValuesList range lower upper)
    {callRefs : List ℕ} (hin : CallsIn wt list treeRange callRefs)
    (h : range.Contains treeRange) :
    queryCalls wt list range lower upper callRefs = callRefs.map list.entry := by
  have hall : callRefs.filter (list.overlapping wt range) = callRefs := by
    rw [List.filter_eq_self]
    intro callRef hmem
    obtain ⟨callTimeRange, hrange, hcontains⟩ := hin callRef hmem
    rw [CallList.overlapping_of_some hrange]
    exact decide_eq_true (h.trans hcontains).overlaps.symm
  rw [queryCalls, hall]
  apply List.map_congr_left
  intro callRef hmem
  obtain ⟨callTimeRange, hrange, hcontains⟩ := hin callRef hmem
  obtain ⟨-, hbegin, hlast⟩ := CallList.timeRange_eq_some hrange
  obtain ⟨hle, hle'⟩ := h.trans hcontains
  apply CallListEntry.truncate_eq_self
  · rwa [hbounds.lower_wt, ← hbegin]
  · rwa [hbounds.upper_wt, ← hlast]

/-- A tree answers the query with the call tree of its calls, up to the short ones. -/
def AnswersCallTree (wt : Key metrics) (list : CallList metrics)
    (metricValuesList : MetricValuesList metrics) (minDuration : ℚ) (range : Range)
    (lower upper : MetricValueSet metrics) (tree : CallRangeTree metrics) : Prop :=
  ∀ lowerBound upperBound, Passed lowerBound lower → Passed upperBound upper →
    ∃ stats, tree.queryCallTree wt list metricValuesList range lowerBound upperBound = some stats ∧
      Approximates wt list minDuration stats (queryCalls wt list range lower upper tree.calls)

/-- **A node answers the query** when its children do. -/
theorem answersCallTree_node (hbounds : QueryBounds wt metricValuesList range lower upper)
    {callRefs : List ℕ} {functionsStats : FunctionsStats metrics}
    {cumCostStats : CumCostStats metrics} {first second : CallRangeTree metrics}
    (hin : CallsIn wt list treeRange (callRefs ++ (first.calls ++ second.calls)))
    (hnames : ∀ idx ∈ callRefs, list.Nameable idx)
    (hwhole : ∃ stats, (CallRangeTree.node treeRange callRefs functionsStats cumCostStats first
        second).callTreeStats wt list = some stats ∧
      Approximates wt list minDuration stats
        ((callRefs ++ (first.calls ++ second.calls)).map list.entry))
    (hfirst : AnswersCallTree wt list metricValuesList minDuration range lower upper first)
    (hsecond : AnswersCallTree wt list metricValuesList minDuration range lower upper second) :
    AnswersCallTree wt list metricValuesList minDuration range lower upper
      (.node treeRange callRefs functionsStats cumCostStats first second) := by
  intro lowerBound upperBound hlower hupper
  rw [CallRangeTree.queryCallTree, CallRangeTree.calls]
  by_cases hoverlaps : treeRange.Overlaps range
  · rw [if_neg (not_not_intro hoverlaps)]
    by_cases hinside : range.Contains treeRange
    · rw [if_pos hinside, queryCalls_of_contains hbounds hin hinside]
      exact hwhole
    · have hown : CallsIn wt list treeRange callRefs :=
        fun idx hidx => hin idx (List.mem_append_left _ hidx)
      obtain ⟨lb, hlb, hlbPassed, hlbNeeded⟩ :=
        boundValues_eq (treeRange.begin < range.begin) hlower hbounds.lower_eq
      obtain ⟨ub, hub, hubPassed, hubNeeded⟩ :=
        boundValues_eq (treeRange.last > range.last) hupper hbounds.upper_eq
      rw [← hbounds.lower_wt] at hlbNeeded
      rw [← hbounds.upper_wt] at hubNeeded
      have hcalls : truncatedCalls wt list range lb ub callRefs =
          some (queryCalls wt list range lower upper callRefs) :=
        truncatedCalls_eq range hlbPassed hubPassed hlbNeeded hubNeeded hown
      have hentries : ∀ call ∈ queryCalls wt list range lower upper callRefs,
          list.Nameable call.idx := by
        intro call hcall
        obtain ⟨idx, hidx, rfl⟩ := List.mem_map.mp hcall
        exact hnames idx (List.mem_of_mem_filter hidx)
      obtain ⟨own, hnew⟩ := exists_new wt list _ hentries
      obtain ⟨firstTree, hfirstTree, hfirst⟩ := hfirst lb ub hlbPassed hubPassed
      obtain ⟨secondTree, hsecondTree, hsecond⟩ := hsecond lb ub hlbPassed hubPassed
      have happrox : Approximates wt list minDuration own _ := approximates_new hnew
      rw [if_neg hinside]
      simp only [hlb, hub, hcalls, hnew, hfirstTree, hsecondTree, Option.bind_eq_bind,
        Option.bind_some, queryCalls_append]
      refine ⟨_, rfl, ?_⟩
      rw [← List.append_assoc]
      exact (happrox.mergeTree hfirst queryCalls_absent).mergeTree hsecond queryCalls_absent
  · rw [if_pos hoverlaps, queryCalls_of_not_overlaps hin hoverlaps]
    exact ⟨_, rfl, approximates_empty⟩

/-- **A built tree answers the query.** -/
theorem BuiltTree.answersCallTree (hbounds : QueryBounds wt metricValuesList range lower upper)
    {callRefs : List ℕ} {built : CallRangeTree metrics × CumCostStats metrics}
    (h : BuiltTree wt list metricValuesList treeRange callRefs built)
    (hin : CallsIn wt list treeRange callRefs) (hnames : ∀ idx ∈ callRefs, list.Nameable idx)
    (hlength : treeRange.length / 150 ≤ minDuration) :
    AnswersCallTree wt list metricValuesList minDuration range lower upper built.1 := by
  induction h with
  | rest hcum => exact fun _ _ _ _ => ⟨_, rfl, approximates_empty⟩
  | @node treeRange callRefs placed keepLeft keepRight stats left right async hplaced hstats hl hr
      ihl ihr =>
    have hsplit := split_keep hplaced hin keepLeft keepRight
    have hbuilt : BuiltTree wt list metricValuesList treeRange callRefs
        (joinHalves treeRange _ stats async left right, _) := .node hplaced hstats hl hr
    have hcalls := hin.perm (hbuilt.calls_perm hin)
    have hwhole := hbuilt.exists_callTreeStats hin hnames hlength
    have hall : ∀ idx ∈ _, list.Nameable idx := fun idx hidx => hnames idx (hsplit.perm.subset hidx)
    rw [List.forall_mem_append, List.forall_mem_append] at hall
    obtain ⟨hown, hleftNames, hrightNames⟩ := hall
    have hnonneg := treeRange.length_nonneg
    have hleft := ihl hsplit.left hleftNames (by rw [treeRange.length_left]; linarith)
    have hright := ihr hsplit.right hrightNames (by rw [treeRange.length_right]; linarith)
    cases async with
    | false => exact answersCallTree_node hbounds hcalls hown hwhole hright hleft
    | true => exact answersCallTree_node hbounds hcalls hown hwhole hleft hright

end Built

/-- **The call tree of a time range** is that of the calls that overlap it, up to the short ones. -/
theorem exists_queryCallTree {wt : Key metrics} {list : CallList metrics}
    {metricValuesList : MetricValuesList metrics} {samples : List (MetricValueSet metrics)}
    {fuel : ℕ} {treeRange range : Range} {tree : CallRangeTree metrics}
    (hin : CallsIn wt list treeRange (List.range list.getSize))
    (hcovers : metricValuesList.Covers wt samples treeRange)
    (hbuild : buildAsync wt list metricValuesList fuel treeRange (List.range list.getSize) =
      some tree) (hrange : treeRange.Contains range)
    (hnames : ∀ idx < list.getSize, list.Nameable idx) :
    ∃ stats lower upper, QueryBounds wt metricValuesList range lower upper ∧
      tree.queryCallTree wt list metricValuesList range none none = some stats ∧
      Approximates wt list (treeRange.length / 150) stats
        (queryCalls wt list range lower upper (List.range list.getSize)) := by
  obtain ⟨hbuilt, -⟩ := built_buildAsync hbuild
  obtain ⟨lower, upper, hbounds⟩ := exists_queryBounds (hcovers.mono hrange)
  have hall : ∀ idx ∈ List.range list.getSize, list.Nameable idx :=
    fun idx hidx => hnames idx (List.mem_range.mp hidx)
  obtain ⟨stats, hstats, happrox⟩ := hbuilt.answersCallTree hbounds hin hall le_rfl none none
    (.inl rfl) (.inl rfl)
  have hperm : tree.calls.Perm (List.range list.getSize) := hbuilt.calls_perm hin
  exact ⟨stats, lower, upper, hbounds, hstats,
    happrox.perm ((hperm.filter (list.overlapping wt range)).map _)⟩

/-- The stacks of calls at top level. -/
theorem stackNames_topLevel (times : List (ℚ × ℚ)) (idx : ℕ) :
    (CallList.topLevel times : CallList metrics).stackNames idx = some ["f"] := by
  have hparent : ((CallList.topLevel times : CallList metrics).array.element idx).parentIdx < 0 :=
    neg_one_lt_zero
  rw [CallList.stackNames, CallList.getStack, CallList.getAncestors]
  unfold CallList.ancestorsLoop
  rw [if_pos hparent]
  rfl

theorem stackNames_twoNodeList (idx : ℕ) : twoNodeList.stackNames idx = some ["f"] := by
  rw [twoNodeList]
  exact stackNames_topLevel _ idx

theorem nameable_twoNodeList (idx : ℕ) : twoNodeList.Nameable idx :=
  ⟨["f"], stackNames_twoNodeList idx, by decide⟩

/-- No call of the list is short. -/
theorem duration_twoNodeList {idx : ℕ} (hidx : idx < twoNodeList.getSize) :
    eightLong.length / 150 ≤ twoNodeList.duration wallTimeKey idx := by
  obtain ⟨callTimeRange, hrange, hlong⟩ := forall_timeRange_twoNodeList
    (P := fun range => eightLong.length / 150 ≤ range.length)
    (by norm_num [Range.length, eightLong, earlyCall])
    (by norm_num [Range.length, eightLong, middleCall]) idx hidx
  rwa [← CallList.length_timeRange hrange]

end PhpSpx.WebUi
