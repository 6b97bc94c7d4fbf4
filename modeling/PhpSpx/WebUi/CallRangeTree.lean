import PhpSpx.WebUi.FunctionsStats

/-!
# The call range tree

`CallRangeTree` of `profileData.js`: the calls of a report in a tree of time ranges, each range
cut in halves while enough calls fit in one of them, with statistics kept at every node.

* `buildAsync` — the tree but for its call trees, none when something throws or the recursion
  does not end.
* `BuiltTree` — the same with any choice of the halves that get a node of their own.
* `BuiltTree.calls_perm`, `BuiltTree.functionsStats_eq` — what the nodes have.
* `call_range_tree_partitions` — every call is in one node, and the statistics of a node are
  those of the calls below it.
-/

namespace PhpSpx.WebUi

variable {metrics : EnabledMetrics}

/-! ## Time ranges of calls -/

/-- `getCall(idx).getTimeRange()`. -/
def CallList.timeRange (wt : Key metrics) (list : CallList metrics) (idx : ℕ) : Option Range :=
  (list.getCall idx).bind fun call => call.getTimeRange wt

/-- The length of the time range of a call. -/
def CallList.duration (wt : Key metrics) (list : CallList metrics) (idx : ℕ) : ℚ :=
  (list.entry idx).last wt - (list.entry idx).start wt

theorem CallList.timeRange_eq_some {wt : Key metrics} {list : CallList metrics} {idx : ℕ}
    {range : Range} (h : list.timeRange wt idx = some range) :
    list.getCall idx = some (list.entry idx) ∧ range.begin = (list.entry idx).start wt ∧
      range.last = (list.entry idx).last wt := by
  obtain ⟨call, hcall, hrange⟩ := Option.bind_eq_some_iff.mp h
  rw [CallList.getCall] at hcall
  split at hcall
  · rename_i hidx
    cases hcall
    exact ⟨if_pos hidx, Range.new_eq_some hrange⟩
  · exact nomatch hcall

theorem CallList.length_timeRange {wt : Key metrics} {list : CallList metrics} {idx : ℕ}
    {range : Range} (h : list.timeRange wt idx = some range) :
    range.length = list.duration wt idx := by
  obtain ⟨-, hbegin, hlast⟩ := CallList.timeRange_eq_some h
  rw [Range.length, hbegin, hlast, CallList.duration]

/-- The time range of a call lies in a range. -/
def CallList.liesIn (wt : Key metrics) (list : CallList metrics) (range : Range) (idx : ℕ) : Bool :=
  (list.timeRange wt idx).any fun callTimeRange => range.Contains callTimeRange

theorem CallList.liesIn_eq_true {wt : Key metrics} {list : CallList metrics}
    {range : Range} {idx : ℕ} :
    list.liesIn wt range idx = true ↔
      ∃ callTimeRange, list.timeRange wt idx = some callTimeRange ∧ range.Contains callTimeRange := by
  rw [CallList.liesIn, Option.any_eq_true]
  constructor
  · rintro ⟨callTimeRange, hrange, hcontains⟩
    exact ⟨callTimeRange, hrange, of_decide_eq_true hcontains⟩
  · rintro ⟨callTimeRange, hrange, hcontains⟩
    exact ⟨callTimeRange, hrange, decide_eq_true hcontains⟩

/-! ## Trees -/

/-- `CallRangeTree`.  A node has at most two children; `absent` stands for one it has not. -/
inductive CallRangeTree (metrics : EnabledMetrics) where
  | absent
  | node (range : Range) (callRefs : List ℕ) (functionsStats : FunctionsStats metrics)
      (cumCostStats : CumCostStats metrics) (first second : CallRangeTree metrics)

namespace CallRangeTree

/-- The range of a node. -/
def range? : CallRangeTree metrics → Option Range
  | absent => none
  | node range _ _ _ _ _ => some range

/-- `callRefs`. -/
def callRefs : CallRangeTree metrics → List ℕ
  | absent => []
  | node _ callRefs _ _ _ _ => callRefs

/-- `functionsStats`. -/
def functionsStats : CallRangeTree metrics → FunctionsStats metrics
  | absent => fun _ => none
  | node _ _ functionsStats _ _ _ => functionsStats

/-- `cumCostStats`. -/
def cumCostStats : CallRangeTree metrics → CumCostStats metrics
  | absent => .new
  | node _ _ _ cumCostStats _ _ => cumCostStats

/-- The nodes of a tree, as trees. -/
def nodes : CallRangeTree metrics → List (CallRangeTree metrics)
  | absent => []
  | node range callRefs functionsStats cumCostStats first second =>
    node range callRefs functionsStats cumCostStats first second :: (first.nodes ++ second.nodes)

/-- The calls stored in a tree. -/
def calls : CallRangeTree metrics → List ℕ
  | absent => []
  | node _ callRefs _ _ first second => callRefs ++ (first.calls ++ second.calls)

theorem calls_eq_flatMap (tree : CallRangeTree metrics) : tree.calls = tree.nodes.flatMap callRefs := by
  induction tree with
  | absent => rfl
  | node range refs stats cum first second ihf ihs =>
    rw [calls, nodes, List.flatMap_cons, List.flatMap_append, ihf, ihs]
    rfl

end CallRangeTree

/-! ## Building -/

/-- `tree.callRefs`, `lCallRefs` and `rCallRefs` of `buildAsync`. -/
structure PlacedCalls where
  own : List ℕ
  left : List ℕ
  right : List ℕ
  deriving DecidableEq

/-- The loop of `buildAsync` over the calls of a node. -/
def placeCalls (wt : Key metrics) (list : CallList metrics) (range lRange rRange : Range) :
    List ℕ → Option PlacedCalls
  | [] => some ⟨[], [], []⟩
  | callRef :: callRefs => do
    let callTimeRange ← list.timeRange wt callRef
    let placed ← placeCalls wt list range lRange rRange callRefs
    if ¬range.Contains callTimeRange then some placed
    else if lRange.Contains callTimeRange then
      some { placed with left := callRef :: placed.left }
    else if rRange.Contains callTimeRange then
      some { placed with right := callRef :: placed.right }
    else some { placed with own := callRef :: placed.own }

/-- The calls of a half stay in the node itself when the half gets no node of its own. -/
def PlacedCalls.keep (placed : PlacedCalls) (keepLeft keepRight : Bool) : PlacedCalls where
  own :=
    placed.own ++ (if keepLeft then placed.left else []) ++ (if keepRight then placed.right else [])
  left := if keepLeft then [] else placed.left
  right := if keepRight then [] else placed.right

/-- `minCallsPerNode`. -/
def minCallsPerNode : ℕ := 500

/-- The halves with few calls get no node of their own. -/
def PlacedCalls.keepSmall (placed : PlacedCalls) : PlacedCalls :=
  placed.keep (placed.left.length < minCallsPerNode) (placed.right.length < minCallsPerNode)

/-- The sort of the calls of a node, the longest first. -/
def sortCalls (wt : Key metrics) (list : CallList metrics) (callRefs : List ℕ) : List ℕ :=
  callRefs.mergeSort fun a b => list.duration wt b ≤ list.duration wt a

/-- The number of calls from which on `buildAsync` does its steps one by one later. -/
def asyncCallCount : ℕ := 5000

/-- A node whose halves have been built, each with the cumulative costs of its time.  The
children are pushed as they return: unless the steps are done later, the second half is built
within the first one's `done` callback and returns before it. -/
def joinHalves (range : Range) (callRefs : List ℕ) (stats : FunctionsStats metrics) (async : Bool)
    (left right : CallRangeTree metrics × CumCostStats metrics) : CallRangeTree metrics :=
  .node range callRefs ((stats.merge left.1.functionsStats).merge right.1.functionsStats)
    ((CumCostStats.new.merge left.2).merge right.2)
    (if async then left.1 else right.1) (if async then right.1 else left.1)

/-- The step of `buildAsync` for a half: its own node, when calls are left for it. -/
def buildHalf (wt : Key metrics) (metricValuesList : MetricValuesList metrics)
    (build : Range → List ℕ → Option (CallRangeTree metrics)) (half : Range)
    (callRefs : List ℕ) : Option (CallRangeTree metrics × CumCostStats metrics) :=
  if callRefs.length = 0 then
    (metricValuesList.getCumCostStats wt half).map fun cumCostStats => (.absent, cumCostStats)
  else (build half callRefs).map fun child => (child, child.cumCostStats)

/-- `CallRangeTree.buildAsync`, cut after `fuel` levels.  The call trees of the nodes are left to
`CallRangeTree.callTreeStats`: where that is none, `new CallTreeStats` throws and no tree is
built. -/
def buildAsync (wt : Key metrics) (list : CallList metrics)
    (metricValuesList : MetricValuesList metrics) :
    ℕ → Range → List ℕ → Option (CallRangeTree metrics)
  | 0, _, _ => none
  | fuel + 1, range, callRefs => do
    let lRange ← range.subRange (1 / 2) 0
    let rRange ← range.subRange (1 / 2) 1
    let placed ← placeCalls wt list range lRange rRange callRefs
    let placed := placed.keepSmall
    let sorted := sortCalls wt list placed.own
    let stats ← FunctionsStats.new list sorted
    let left ← buildHalf wt metricValuesList (buildAsync wt list metricValuesList fuel) lRange
      placed.left
    let right ← buildHalf wt metricValuesList (buildAsync wt list metricValuesList fuel) rRange
      placed.right
    some (joinHalves range sorted stats (asyncCallCount ≤ callRefs.length) left right)

/-- `buildCallRangeTree`: the tree of all calls over the time from 0 on. -/
def buildCallRangeTree (wt : Key metrics) (list : CallList metrics)
    (metricValuesList : MetricValuesList metrics) (fuel : ℕ) (wallTime : ℚ) :
    Option (CallRangeTree metrics) :=
  (Range.new 0 wallTime).bind fun range =>
    buildAsync wt list metricValuesList fuel range (List.range list.getSize)

/-! ## Built trees -/

/-- The tree of a range and its calls, with the cumulative costs of its time: a node whose
halves are built, or none where no calls are left.  Any half may have a node of its own. -/
inductive BuiltTree (wt : Key metrics) (list : CallList metrics)
    (metricValuesList : MetricValuesList metrics) :
    Range → List ℕ → CallRangeTree metrics × CumCostStats metrics → Prop
  | rest {half : Range} {cumCostStats : CumCostStats metrics}
      (hcum : metricValuesList.getCumCostStats wt half = some cumCostStats) :
      BuiltTree wt list metricValuesList half [] (.absent, cumCostStats)
  | node {range : Range} {callRefs : List ℕ} {placed : PlacedCalls} {keepLeft keepRight : Bool}
      {stats : FunctionsStats metrics} {left right : CallRangeTree metrics × CumCostStats metrics}
      {async : Bool}
      (hplaced : placeCalls wt list range range.left range.right callRefs = some placed)
      (hstats : FunctionsStats.new list
        (sortCalls wt list (placed.keep keepLeft keepRight).own) = some stats)
      (hleft : BuiltTree wt list metricValuesList range.left (placed.keep keepLeft keepRight).left left)
      (hright : BuiltTree wt list metricValuesList range.right (placed.keep keepLeft keepRight).right
        right) :
      BuiltTree wt list metricValuesList range callRefs
        (joinHalves range (sortCalls wt list (placed.keep keepLeft keepRight).own) stats async
            left right,
          (CumCostStats.new.merge left.2).merge right.2)

section Built

variable {wt : Key metrics} {list : CallList metrics} {metricValuesList : MetricValuesList metrics}

/-- **What `buildAsync` returns is built**, and is a node. -/
theorem built_buildAsync {fuel : ℕ} {range : Range} {callRefs : List ℕ}
    {tree : CallRangeTree metrics}
    (h : buildAsync wt list metricValuesList fuel range callRefs = some tree) :
    BuiltTree wt list metricValuesList range callRefs (tree, tree.cumCostStats) ∧
      tree.range? = some range := by
  induction fuel generalizing range callRefs tree with
  | zero => exact nomatch h
  | succ fuel ih =>
    simp only [buildAsync, Range.subRange_left, Range.subRange_right, Option.bind_eq_bind,
      Option.bind_some] at h
    obtain ⟨placed, hplaced, h⟩ := Option.bind_eq_some_iff.mp h
    obtain ⟨stats, hstats, h⟩ := Option.bind_eq_some_iff.mp h
    obtain ⟨left, hleft, h⟩ := Option.bind_eq_some_iff.mp h
    obtain ⟨right, hright, h⟩ := Option.bind_eq_some_iff.mp h
    cases h
    have hhalf : ∀ {half refs half'},
        buildHalf wt metricValuesList (buildAsync wt list metricValuesList fuel) half refs =
          some half' → BuiltTree wt list metricValuesList half refs half' := by
      intro half refs half' hhalf'
      rw [buildHalf] at hhalf'
      split at hhalf'
      · rename_i hempty
        obtain ⟨cum, hcum, rfl⟩ := Option.map_eq_some_iff.mp hhalf'
        rw [List.length_eq_zero_iff.mp hempty]
        exact .rest hcum
      · obtain ⟨child, hchild, rfl⟩ := Option.map_eq_some_iff.mp hhalf'
        exact (ih hchild).1
    exact ⟨.node hplaced hstats (hhalf hleft) (hhalf hright), rfl⟩

/-- The calls have time ranges within a range. -/
def CallsIn (wt : Key metrics) (list : CallList metrics) (range : Range) (callRefs : List ℕ) :
    Prop :=
  ∀ callRef ∈ callRefs, ∃ callTimeRange, list.timeRange wt callRef = some callTimeRange ∧
    range.Contains callTimeRange

theorem CallsIn.perm {range : Range} {refs refs' : List ℕ} (h : CallsIn wt list range refs)
    (hperm : refs'.Perm refs) : CallsIn wt list range refs' :=
  fun callRef hmem => h callRef (hperm.subset hmem)

/-- All calls of a node, wherever they are placed. -/
def PlacedCalls.all (placed : PlacedCalls) : List ℕ := placed.own ++ (placed.left ++ placed.right)

/-- **Placing the calls of a node** loses none of them. -/
theorem placeCalls_spec {range lRange rRange : Range} {callRefs : List ℕ} {placed : PlacedCalls}
    (h : placeCalls wt list range lRange rRange callRefs = some placed)
    (hin : CallsIn wt list range callRefs) :
    placed.all.Perm callRefs ∧ CallsIn wt list lRange placed.left ∧
      CallsIn wt list rRange placed.right := by
  induction callRefs generalizing placed with
  | nil =>
    cases h
    exact ⟨.nil, fun _ hmem => absurd hmem List.not_mem_nil,
      fun _ hmem => absurd hmem List.not_mem_nil⟩
  | cons callRef callRefs ih =>
    obtain ⟨⟨callTimeRange, hrange, hcontains⟩, hrest⟩ := List.forall_mem_cons.mp hin
    simp only [placeCalls, hrange, Option.bind_eq_bind, Option.bind_some] at h
    obtain ⟨placed', hplaced', h⟩ := Option.bind_eq_some_iff.mp h
    obtain ⟨hperm, hleft, hright⟩ := ih hplaced' hrest
    rw [if_neg (not_not_intro hcontains)] at h
    split_ifs at h with hl hr
    · cases h
      refine ⟨?_, List.forall_mem_cons.mpr ⟨⟨_, hrange, hl⟩, hleft⟩, hright⟩
      exact List.perm_middle.trans (hperm.cons callRef)
    · cases h
      refine ⟨?_, hleft, List.forall_mem_cons.mpr ⟨⟨_, hrange, hr⟩, hright⟩⟩
      have hout : (placed'.own ++ (placed'.left ++ callRef :: placed'.right)).Perm
          (callRef :: placed'.all) := by
        rw [← List.append_assoc, PlacedCalls.all, ← List.append_assoc]
        exact List.perm_middle
      exact hout.trans (hperm.cons callRef)
    · cases h
      exact ⟨hperm.cons callRef, hleft, hright⟩

/-- Calls out of the range are left out. -/
theorem placeCalls_filter {range lRange rRange : Range} {callRefs : List ℕ} {placed : PlacedCalls}
    (h : placeCalls wt list range lRange rRange callRefs = some placed) :
    placeCalls wt list range lRange rRange (callRefs.filter (list.liesIn wt range)) =
      some placed := by
  induction callRefs generalizing placed with
  | nil => exact h
  | cons callRef callRefs ih =>
    rw [placeCalls] at h
    obtain ⟨callTimeRange, hrange, h⟩ := Option.bind_eq_some_iff.mp h
    obtain ⟨placed', hplaced', h⟩ := Option.bind_eq_some_iff.mp h
    have hlies : list.liesIn wt range callRef = decide (range.Contains callTimeRange) := by
      rw [CallList.liesIn, hrange, Option.any_some]
    rw [List.filter_cons, hlies]
    by_cases hcontains : range.Contains callTimeRange
    · rw [decide_eq_true hcontains, if_pos rfl]
      simp only [placeCalls, hrange, ih hplaced', Option.bind_eq_bind, Option.bind_some]
      exact h
    · rw [if_pos hcontains] at h
      rw [decide_eq_false hcontains, if_neg Bool.false_ne_true, ih hplaced', ← h]

theorem callsIn_filter_liesIn (range : Range) (callRefs : List ℕ) :
    CallsIn wt list range (callRefs.filter (list.liesIn wt range)) :=
  fun _ hmem => CallList.liesIn_eq_true.mp (List.mem_filter.mp hmem).2

theorem PlacedCalls.all_keep_perm (placed : PlacedCalls) (keepLeft keepRight : Bool) :
    (placed.keep keepLeft keepRight).all.Perm placed.all := by
  cases keepLeft with
  | false =>
    cases keepRight with
    | false => simp [PlacedCalls.keep, PlacedCalls.all]
    | true =>
      simp only [PlacedCalls.keep, PlacedCalls.all, List.append_assoc, Bool.false_eq_true, if_false,
        if_true, List.append_nil]
      exact List.perm_append_comm.append_left _
  | true =>
    cases keepRight with
    | false => simp [PlacedCalls.keep, PlacedCalls.all]
    | true => simp [PlacedCalls.keep, PlacedCalls.all]

theorem sortCalls_perm (wt : Key metrics) (list : CallList metrics) (refs : List ℕ) :
    (sortCalls wt list refs).Perm refs :=
  List.mergeSort_perm _ _

/-- Where the calls of a node of a built tree go. -/
structure Split (wt : Key metrics) (list : CallList metrics) (range : Range)
    (callRefs own left right : List ℕ) : Prop where
  perm : (own ++ (left ++ right)).Perm callRefs
  own : CallsIn wt list range own
  left : CallsIn wt list range.left left
  right : CallsIn wt list range.right right

theorem split_keep {range : Range} {callRefs : List ℕ} {placed : PlacedCalls}
    (h : placeCalls wt list range range.left range.right callRefs = some placed)
    (hin : CallsIn wt list range callRefs) (keepLeft keepRight : Bool) :
    Split wt list range callRefs (sortCalls wt list (placed.keep keepLeft keepRight).own)
      (placed.keep keepLeft keepRight).left (placed.keep keepLeft keepRight).right := by
  obtain ⟨hperm, hleft, hright⟩ := placeCalls_spec h hin
  have hall := ((sortCalls_perm wt list
    (placed.keep keepLeft keepRight).own).append_right _).trans
      ((placed.all_keep_perm keepLeft keepRight).trans hperm)
  refine ⟨hall, ?_, ?_, ?_⟩
  · intro callRef hmem
    exact hin callRef (hall.subset (List.mem_append_left _ hmem))
  · cases keepLeft with
    | false => exact hleft
    | true => exact fun _ hmem => absurd hmem List.not_mem_nil
  · cases keepRight with
    | false => exact hright
    | true => exact fun _ hmem => absurd hmem List.not_mem_nil

/-- A tree is built of the calls in its range. -/
theorem BuiltTree.filter {range : Range} {callRefs : List ℕ}
    {built : CallRangeTree metrics × CumCostStats metrics}
    (h : BuiltTree wt list metricValuesList range callRefs built) :
    BuiltTree wt list metricValuesList range (callRefs.filter (list.liesIn wt range)) built := by
  cases h with
  | rest hcum => exact .rest hcum
  | node hplaced hstats hleft hright =>
    exact .node (placeCalls_filter hplaced) hstats hleft hright

/-- **A built tree stores the calls it was built of.** -/
theorem BuiltTree.calls_perm {range : Range} {callRefs : List ℕ}
    {built : CallRangeTree metrics × CumCostStats metrics}
    (h : BuiltTree wt list metricValuesList range callRefs built)
    (hin : CallsIn wt list range callRefs) : built.1.calls.Perm callRefs := by
  induction h with
  | rest hcum => exact .nil
  | @node range callRefs placed keepLeft keepRight stats left right async hplaced hstats _ _ ihl
      ihr =>
    have hsplit := split_keep hplaced hin keepLeft keepRight
    have hl := ihl hsplit.left
    have hr := ihr hsplit.right
    refine .trans (.append_left _ ?_) hsplit.perm
    cases async with
    | false => exact (hr.append hl).trans List.perm_append_comm
    | true => exact hl.append hr

/-- **The range of a node contains its calls.** -/
theorem BuiltTree.callsIn_nodes {range : Range} {callRefs : List ℕ}
    {built : CallRangeTree metrics × CumCostStats metrics}
    (h : BuiltTree wt list metricValuesList range callRefs built)
    (hin : CallsIn wt list range callRefs) :
    ∀ node ∈ built.1.nodes, ∃ nodeRange, node.range? = some nodeRange ∧
      CallsIn wt list nodeRange node.callRefs := by
  induction h with
  | rest hcum => exact fun _ hmem => absurd hmem List.not_mem_nil
  | @node range callRefs placed keepLeft keepRight stats left right async hplaced hstats _ _ ihl
      ihr =>
    have hsplit := split_keep hplaced hin keepLeft keepRight
    have hl := ihl hsplit.left
    have hr := ihr hsplit.right
    intro node hnode
    rcases List.mem_cons.mp hnode with rfl | hnode
    · exact ⟨range, rfl, hsplit.own⟩
    · cases async with
      | false => exact (List.mem_append.mp hnode).elim (hr node) (hl node)
      | true => exact (List.mem_append.mp hnode).elim (hl node) (hr node)

/-- What calls of a list add to the totals. -/
def listTotals (list : CallList metrics) (calls : List ℕ) : Totals metrics :=
  (calls.map fun idx => callTotals list (list.entry idx)).sum

theorem listTotals_append (calls calls' : List ℕ) :
    listTotals list (calls ++ calls') = listTotals list calls + listTotals list calls' := by
  rw [listTotals, List.map_append, List.sum_append]
  rfl

theorem listTotals_perm {calls calls' : List ℕ} (h : calls.Perm calls') :
    listTotals list calls = listTotals list calls' := (h.map _).sum_eq

/-- Statistics that are computed are those of the totals. -/
theorem new_eq_some_iff {calls : List ℕ} {stats : FunctionsStats metrics} :
    FunctionsStats.new list calls = some stats ↔
      (∀ idx ∈ calls, (list.getCycleDepth idx).isSome = true) ∧
        stats = named list (listTotals list calls) := by
  rw [FunctionsStats.new_eq_ofEntries]
  have hmap : (calls.map list.entry).map (callTotals list) =
      calls.map fun idx => callTotals list (list.entry idx) := List.map_map
  constructor
  · intro h
    have hdepth := getCycleDepth_of_foldlM h
    rw [ofEntries_eq_named _ hdepth, hmap] at h
    refine ⟨?_, (Option.some.inj h).symm⟩
    intro idx hidx
    exact hdepth (list.entry idx) (List.mem_map_of_mem hidx)
  · rintro ⟨hdepth, rfl⟩
    have hentries : ∀ call ∈ calls.map list.entry,
        (list.getCycleDepth call.idx).isSome = true := by
      intro call hcall
      obtain ⟨idx, hidx, rfl⟩ := List.mem_map.mp hcall
      exact hdepth idx hidx
    rw [ofEntries_eq_named _ hentries, hmap]
    rfl

/-- **The statistics of a built tree** are those of its calls. -/
theorem BuiltTree.functionsStats_eq {range : Range} {callRefs : List ℕ}
    {built : CallRangeTree metrics × CumCostStats metrics}
    (h : BuiltTree wt list metricValuesList range callRefs built) :
    FunctionsStats.new list built.1.calls = some built.1.functionsStats ∧
      ∀ node ∈ built.1.nodes, FunctionsStats.new list node.calls = some node.functionsStats := by
  induction h with
  | rest hcum => exact ⟨rfl, fun _ hmem => absurd hmem List.not_mem_nil⟩
  | @node range callRefs placed keepLeft keepRight stats left right async hplaced hstats _ _ ihl
      ihr =>
    obtain ⟨hleft, hleftNodes⟩ := ihl
    obtain ⟨hright, hrightNodes⟩ := ihr
    obtain ⟨hown, rfl⟩ := new_eq_some_iff.mp hstats
    obtain ⟨hl, hleftEq⟩ := new_eq_some_iff.mp hleft
    obtain ⟨hr, hrightEq⟩ := new_eq_some_iff.mp hright
    have hroot : FunctionsStats.new list
        (joinHalves range (sortCalls wt list (placed.keep keepLeft keepRight).own)
          (named list (listTotals list (sortCalls wt list (placed.keep keepLeft keepRight).own)))
          async left right).calls =
        some (joinHalves range (sortCalls wt list (placed.keep keepLeft keepRight).own)
          (named list (listTotals list (sortCalls wt list (placed.keep keepLeft keepRight).own)))
          async left right).functionsStats := by
      rw [new_eq_some_iff]
      constructor
      · intro idx hidx
        rcases List.mem_append.mp hidx with hidx | hidx
        · exact hown idx hidx
        · cases async with
          | false => exact (List.mem_append.mp hidx).elim (hr idx) (hl idx)
          | true => exact (List.mem_append.mp hidx).elim (hl idx) (hr idx)
      · rw [joinHalves, CallRangeTree.functionsStats, hleftEq, hrightEq, merge_named, merge_named,
          CallRangeTree.calls, listTotals_append, listTotals_append, add_assoc]
        cases async with
        | false => exact congrArg (fun t => named list (_ + t)) (add_comm _ _)
        | true => rfl
    refine ⟨hroot, ?_⟩
    intro node hnode
    rcases List.mem_cons.mp hnode with rfl | hnode
    · exact hroot
    · cases async with
      | false => exact (List.mem_append.mp hnode).elim (hrightNodes node) (hleftNodes node)
      | true => exact (List.mem_append.mp hnode).elim (hleftNodes node) (hrightNodes node)

end Built

/-! ## Lists of top level calls -/

/-- The calls of one function, each at top level, from a time to a time. -/
def CallList.topLevel (times : List (ℚ × ℚ)) : CallList metrics where
  functionNames := fun idx => if idx = 0 then some "f" else none
  array :=
    { size := times.length
      element := fun idx =>
        { functionIdx := 0
          parentIdx := -1
          start := fun _ => (times.getD idx 0).1
          last := fun _ => (times.getD idx 0).2
          exc := fun _ => (times.getD idx 0).2 - (times.getD idx 0).1 } }

/-- The calls at top level have no cycles. -/
theorem getCycleDepth_topLevel (times : List (ℚ × ℚ)) (idx : ℕ) :
    (CallList.topLevel times : CallList metrics).getCycleDepth idx = some 0 := by
  have hparent : ((CallList.topLevel times : CallList metrics).array.element idx).parentIdx < 0 :=
    neg_one_lt_zero
  rw [CallList.getCycleDepth]
  unfold CallList.cycleDepthLoop
  exact if_pos hparent

/-- The time range of a call of the list. -/
theorem timeRange_topLevel {wt : Key metrics} {times : List (ℚ × ℚ)} {idx : ℕ} {range : Range}
    (h : times[idx]? = some (range.begin, range.last)) :
    (CallList.topLevel times : CallList metrics).timeRange wt idx = some range := by
  obtain ⟨hlt, hget⟩ := List.getElem?_eq_some_iff.mp h
  have hsize : idx < (CallList.topLevel times : CallList metrics).getSize := hlt
  rw [CallList.timeRange, CallList.getCall, if_pos hsize, Option.bind_some,
    CallListEntry.getTimeRange]
  simp only [CallList.entry, CallList.topLevel, List.getD_eq_getElem _ _ hlt, hget]
  exact Range.new_of_le range.ordered

theorem callsIn_topLevel {wt : Key metrics} {times : List (ℚ × ℚ)} {range : Range}
    (h : ∀ time ∈ times, range.begin ≤ time.1 ∧ time.1 ≤ time.2 ∧ time.2 ≤ range.last) :
    CallsIn wt (CallList.topLevel times) range (List.range times.length) := by
  intro idx hidx
  have hlt : idx < times.length := List.mem_range.mp hidx
  obtain ⟨hbegin, hordered, hlast⟩ := h _ (List.getElem_mem hlt)
  exact ⟨⟨_, _, hordered⟩, timeRange_topLevel (List.getElem?_eq_getElem hlt), hbegin, hlast⟩

/-! ## The partition -/

/-- An element of a concatenation without repetition is in one part only. -/
theorem exists_split_of_nodup_flatMap {α β : Type} {f : α → List β} {parts : List α}
    (h : (parts.flatMap f).Nodup) {x : β} (hx : x ∈ parts.flatMap f) :
    ∃ before part after, parts = before ++ part :: after ∧ x ∈ f part ∧
      ∀ other ∈ before ++ after, x ∉ f other := by
  obtain ⟨part, hpart, hmem⟩ := List.mem_flatMap.mp hx
  obtain ⟨before, after, rfl⟩ := List.append_of_mem hpart
  refine ⟨before, part, after, rfl, hmem, ?_⟩
  rw [List.flatMap_append, List.flatMap_cons] at h
  obtain ⟨-, hrest, hbefore⟩ := List.nodup_append.mp h
  obtain ⟨-, -, hafter⟩ := List.nodup_append.mp hrest
  intro other hother hmem'
  rcases List.mem_append.mp hother with hother | hother
  · exact hbefore x (List.mem_flatMap.mpr ⟨other, hother, hmem'⟩) x
      (List.mem_append_left _ hmem) rfl
  · exact hafter x hmem x (List.mem_flatMap.mpr ⟨other, hother, hmem'⟩) rfl

/-- **The call range tree partitions the calls**: every call is stored in exactly one node, the
range of which contains it, and the statistics of every node are those computed over all the
calls stored in its subtree. -/
theorem call_range_tree_partitions (wt : Key metrics) (list : CallList metrics)
    (metricValuesList : MetricValuesList metrics) {fuel : ℕ} {range : Range}
    {tree : CallRangeTree metrics} (hin : CallsIn wt list range (List.range list.getSize))
    (hbuild : buildAsync wt list metricValuesList fuel range (List.range list.getSize) =
      some tree) :
    (∀ idx < list.getSize, ∃ before node after, tree.nodes = before ++ node :: after ∧
        idx ∈ node.callRefs ∧ (∀ other ∈ before ++ after, idx ∉ other.callRefs) ∧
        ∃ nodeRange callTimeRange, node.range? = some nodeRange ∧
          list.timeRange wt idx = some callTimeRange ∧ nodeRange.Contains callTimeRange) ∧
      (∀ node ∈ tree.nodes, FunctionsStats.new list node.calls = some node.functionsStats) ∧
      FunctionsStats.ofAllCalls list = some tree.functionsStats := by
  obtain ⟨hbuilt, -⟩ := built_buildAsync hbuild
  have hperm : tree.calls.Perm (List.range list.getSize) := hbuilt.calls_perm hin
  obtain ⟨hroot, hnodes⟩ := hbuilt.functionsStats_eq
  refine ⟨?_, hnodes, ?_⟩
  · intro idx hidx
    rw [tree.calls_eq_flatMap] at hperm
    have hmem : idx ∈ tree.nodes.flatMap CallRangeTree.callRefs :=
      hperm.symm.subset (List.mem_range.mpr hidx)
    have hnodup : (tree.nodes.flatMap CallRangeTree.callRefs).Nodup :=
      hperm.symm.nodup List.nodup_range
    obtain ⟨before, node, after, hsplit, hown, hothers⟩ :=
      exists_split_of_nodup_flatMap hnodup hmem
    have hnode : node ∈ tree.nodes := by
      rw [hsplit]
      exact List.mem_append_right _ List.mem_cons_self
    obtain ⟨nodeRange, hnodeRange, hcalls⟩ := hbuilt.callsIn_nodes hin node hnode
    obtain ⟨callTimeRange, hcall, hcontains⟩ := hcalls idx hown
    exact ⟨before, node, after, hsplit, hown, hothers, nodeRange, callTimeRange, hnodeRange, hcall,
      hcontains⟩
  · obtain ⟨hdepth, hstats⟩ := new_eq_some_iff.mp hroot
    rw [FunctionsStats.ofAllCalls, new_eq_some_iff]
    refine ⟨fun idx hidx => hdepth idx (hperm.symm.subset hidx), ?_⟩
    rw [hstats, listTotals_perm hperm]

end PhpSpx.WebUi
