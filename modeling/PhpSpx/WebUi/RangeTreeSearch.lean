import PhpSpx.WebUi.RangeTreeDepth

/-!
# Searching the call range tree

`CallRangeTree.getCallRefs` of `profileData.js`: the calls of a time range that are long
enough.  The search leaves out the nodes that are too short or lie elsewhere and stops the scan
of a node at the first call that is too short.

* `CallRangeTree.getCallRefs` — the search, none when it throws.
* `BuiltTree.getCallRefs_eq` — what it adds to the calls found so far.
* `pruned_search_complete` — it finds exactly the calls looked for, each once.
-/

namespace PhpSpx.WebUi

variable {metrics : EnabledMetrics}

/-- The loop of `getCallRefs` over the calls of a node, `found` being `callRefs`. -/
def scanCalls (wt : Key metrics) (list : CallList metrics) (range : Range) (minDuration : ℚ) :
    List ℕ → List ℕ → Option (List ℕ)
  | [], found => some found
  | callRef :: callRefs, found => do
    let callTimeRange ← list.timeRange wt callRef
    if callTimeRange.length < minDuration then some found
    else if ¬callTimeRange.Overlaps range then scanCalls wt list range minDuration callRefs found
    else scanCalls wt list range minDuration callRefs (found ++ [callRef])

/-- `CallRangeTree.getCallRefs`, with the calls found so far. -/
def CallRangeTree.getCallRefs (wt : Key metrics) (list : CallList metrics) (range : Range)
    (minDuration : ℚ) : CallRangeTree metrics → List ℕ → Option (List ℕ)
  | absent, found => some found
  | node treeRange callRefs _ _ first second, found =>
    if treeRange.length < minDuration then some found
    else if ¬treeRange.Overlaps range then some found
    else do
      let found ← scanCalls wt list range minDuration callRefs found
      let found ← getCallRefs wt list range minDuration first found
      getCallRefs wt list range minDuration second found

/-- The calls to be found. -/
def CallList.searched (wt : Key metrics) (list : CallList metrics) (range : Range)
    (minDuration : ℚ) (idx : ℕ) : Bool :=
  (list.timeRange wt idx).any fun callTimeRange =>
    minDuration ≤ callTimeRange.length ∧ callTimeRange.Overlaps range

section Search

variable {wt : Key metrics} {list : CallList metrics} {metricValuesList : MetricValuesList metrics}
  {range : Range} {minDuration : ℚ}

theorem CallList.searched_eq_true {idx : ℕ} :
    list.searched wt range minDuration idx = true ↔
      ∃ callTimeRange, list.timeRange wt idx = some callTimeRange ∧
        callTimeRange.Overlaps range ∧ minDuration ≤ callTimeRange.length := by
  rw [CallList.searched, Option.any_eq_true]
  constructor
  · rintro ⟨callTimeRange, hrange, h⟩
    obtain ⟨hlong, hoverlaps⟩ := of_decide_eq_true h
    exact ⟨callTimeRange, hrange, hoverlaps, hlong⟩
  · rintro ⟨callTimeRange, hrange, hoverlaps, hlong⟩
    exact ⟨callTimeRange, hrange, decide_eq_true ⟨hlong, hoverlaps⟩⟩

/-- The calls of a node, the longest first. -/
theorem pairwise_sortCalls (callRefs : List ℕ) :
    (sortCalls wt list callRefs).Pairwise fun a b => list.duration wt b ≤ list.duration wt a := by
  have hsorted := @List.pairwise_mergeSort _
    (fun a b => decide (list.duration wt b ≤ list.duration wt a))
    (fun a b c hab hbc =>
      decide_eq_true ((of_decide_eq_true hbc).trans (of_decide_eq_true hab)))
    (fun a b => by
      rw [Bool.or_eq_true, decide_eq_true_eq, decide_eq_true_eq]
      exact le_total _ _)
    callRefs
  exact hsorted.imp of_decide_eq_true

/-- **The scan of a node** finds the calls looked for, the longest standing first. -/
theorem scanCalls_eq (range : Range) (minDuration : ℚ) {treeRange : Range}
    {callRefs : List ℕ} (found : List ℕ)
    (hin : CallsIn wt list treeRange callRefs)
    (hsorted : callRefs.Pairwise fun a b => list.duration wt b ≤ list.duration wt a) :
    scanCalls wt list range minDuration callRefs found =
      some (found ++ callRefs.filter (list.searched wt range minDuration)) := by
  induction callRefs generalizing found with
  | nil => rw [scanCalls, List.filter_nil, List.append_nil]
  | cons callRef callRefs ih =>
    obtain ⟨⟨callTimeRange, hrange, -⟩, hrest⟩ := List.forall_mem_cons.mp hin
    obtain ⟨hfirst, hothers⟩ := List.pairwise_cons.mp hsorted
    have hsearched : list.searched wt range minDuration callRef =
        decide (minDuration ≤ callTimeRange.length ∧ callTimeRange.Overlaps range) := by
      rw [CallList.searched, hrange, Option.any_some]
    simp only [scanCalls, hrange, Option.bind_eq_bind, Option.bind_some]
    by_cases hshort : callTimeRange.length < minDuration
    · -- all calls left are as short as this one
      have hnone : ∀ idx ∈ callRef :: callRefs,
          ¬list.searched wt range minDuration idx = true := by
        intro idx hidx hlong
        obtain ⟨idxRange, hidxRange, -, hlen⟩ := CallList.searched_eq_true.mp hlong
        rw [CallList.length_timeRange hidxRange] at hlen
        rw [CallList.length_timeRange hrange] at hshort
        rcases List.mem_cons.mp hidx with rfl | hidx
        · exact absurd hlen (not_le.mpr hshort)
        · exact absurd (hlen.trans (hfirst idx hidx)) (not_le.mpr hshort)
      rw [if_pos hshort, List.filter_eq_nil_iff.mpr hnone, List.append_nil]
    · rw [if_neg hshort, List.filter_cons, hsearched]
      by_cases hoverlaps : callTimeRange.Overlaps range
      · rw [if_neg (not_not_intro hoverlaps), ih _ hrest hothers,
          if_pos (decide_eq_true ⟨not_lt.mp hshort, hoverlaps⟩), List.append_assoc]
        rfl
      · rw [if_pos hoverlaps, ih _ hrest hothers, if_neg]
        rw [decide_eq_true_eq]
        exact fun h => hoverlaps h.2

/-- A node that is too short or elsewhere has no call looked for. -/
theorem filter_searched_eq_nil {treeRange : Range} {callRefs : List ℕ}
    (hin : CallsIn wt list treeRange callRefs)
    (h : treeRange.length < minDuration ∨ ¬treeRange.Overlaps range) :
    callRefs.filter (list.searched wt range minDuration) = [] := by
  rw [List.filter_eq_nil_iff]
  intro idx hidx hsearched
  obtain ⟨callTimeRange, hrange, hoverlaps, hlong⟩ := CallList.searched_eq_true.mp hsearched
  obtain ⟨callTimeRange', hrange', hcontains⟩ := hin idx hidx
  obtain rfl : callTimeRange = callTimeRange' := Option.some.inj (hrange.symm.trans hrange')
  rcases h with hshort | helsewhere
  · exact absurd (hlong.trans hcontains.length_le) (not_le.mpr hshort)
  · exact helsewhere (hoverlaps.of_contains hcontains)

/-- **The search of a built tree** adds the calls looked for to those found so far. -/
theorem BuiltTree.getCallRefs_eq {treeRange : Range} {callRefs : List ℕ}
    {built : CallRangeTree metrics × CumCostStats metrics}
    (h : BuiltTree wt list metricValuesList treeRange callRefs built)
    (hin : CallsIn wt list treeRange callRefs) (found : List ℕ) :
    built.1.getCallRefs wt list range minDuration found =
      some (found ++ built.1.calls.filter (list.searched wt range minDuration)) := by
  induction h generalizing found with
  | rest hcum => exact congrArg some (List.append_nil _).symm
  | @node treeRange callRefs placed keepLeft keepRight stats left right async hplaced hstats hl hr
      ihl ihr =>
    have hsplit := split_keep hplaced hin keepLeft keepRight
    have hbuilt : BuiltTree wt list metricValuesList treeRange callRefs
        (joinHalves treeRange _ stats async left right, _) := .node hplaced hstats hl hr
    have hown := fun found => scanCalls_eq range minDuration found hsplit.own
      (pairwise_sortCalls _)
    rw [joinHalves, CallRangeTree.getCallRefs]
    by_cases hpruned : treeRange.length < minDuration ∨ ¬treeRange.Overlaps range
    · have hnil := filter_searched_eq_nil (hin.perm (hbuilt.calls_perm hin)) hpruned
      rw [joinHalves] at hnil
      rw [hnil, List.append_nil]
      rcases hpruned with hshort | helsewhere
      · rw [if_pos hshort]
      · rw [if_pos helsewhere, ite_self]
    · obtain ⟨hlong, hoverlaps⟩ := not_or.mp hpruned
      rw [if_neg hlong, if_neg hoverlaps, hown]
      cases async with
      | false =>
        simp only [Option.bind_eq_bind, Option.bind_some, ihl hsplit.left, ihr hsplit.right,
          CallRangeTree.calls, List.filter_append, List.append_assoc, Bool.false_eq_true, if_false]
      | true =>
        simp only [Option.bind_eq_bind, Option.bind_some, ihl hsplit.left, ihr hsplit.right,
          CallRangeTree.calls, List.filter_append, List.append_assoc, if_true]

end Search

/-- **The pruned search loses nothing**: it finds exactly the calls that overlap the range and
last long enough, each once. -/
theorem pruned_search_complete (wt : Key metrics) (list : CallList metrics)
    (metricValuesList : MetricValuesList metrics) {fuel : ℕ} {treeRange : Range}
    {tree : CallRangeTree metrics} (hin : CallsIn wt list treeRange (List.range list.getSize))
    (hbuild : buildAsync wt list metricValuesList fuel treeRange (List.range list.getSize) =
      some tree) (range : Range) (minDuration : ℚ) :
    ∃ callRefs, tree.getCallRefs wt list range minDuration [] = some callRefs ∧ callRefs.Nodup ∧
      ∀ idx, idx ∈ callRefs ↔ idx < list.getSize ∧
        ∃ callTimeRange, list.timeRange wt idx = some callTimeRange ∧
          callTimeRange.Overlaps range ∧ minDuration ≤ callTimeRange.length := by
  obtain ⟨hbuilt, -⟩ := built_buildAsync hbuild
  have hperm : tree.calls.Perm (List.range list.getSize) := hbuilt.calls_perm hin
  refine ⟨_, hbuilt.getCallRefs_eq hin [], ?_, ?_⟩
  · exact (hperm.symm.nodup List.nodup_range).filter _
  · intro idx
    rw [List.nil_append, List.mem_filter, CallList.searched_eq_true, hperm.mem_iff,
      List.mem_range]

/-- Of the calls in two nodes the long one is found. -/
theorem pruned_search_complete_long :
    ∃ fuel tree callRefs, buildAsync wallTimeKey twoNodeList (.ofTimes [0, 8]) fuel eightLong
        (List.range twoNodeList.getSize) = some tree ∧
      (∃ node ∈ tree.nodes, node.range? = some eightLong.left) ∧
      tree.getCallRefs wallTimeKey twoNodeList earlyCall 3 [] = some callRefs ∧
      ∀ idx, idx ∈ callRefs ↔ idx = minCallsPerNode := by
  obtain ⟨fuel, tree, htree, hleft⟩ := exists_twoNodeTree
  obtain ⟨callRefs, hfound, -, hmem⟩ :=
    pruned_search_complete wallTimeKey _ _ callsIn_twoNodeList htree earlyCall 3
  refine ⟨fuel, tree, callRefs, htree, hleft, hfound, ?_⟩
  intro idx
  rw [hmem, getSize_twoNodeList]
  constructor
  · rintro ⟨hidx, callTimeRange, hrange, -, hlong⟩
    refine (Nat.lt_succ_iff_lt_or_eq.mp hidx).resolve_left ?_
    intro hearly
    obtain rfl : earlyCall = callTimeRange :=
      Option.some.inj ((timeRange_twoNodeList hearly).symm.trans hrange)
    norm_num [Range.length, earlyCall] at hlong
  · rintro rfl
    refine ⟨Nat.lt_succ_self _, middleCall, timeRange_twoNodeList_last, ?_, ?_⟩
    · norm_num [Range.Overlaps, earlyCall, middleCall]
    · norm_num [Range.length, middleCall]

end PhpSpx.WebUi
