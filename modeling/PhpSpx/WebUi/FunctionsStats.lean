import PhpSpx.WebUi.MetricValuesList

/-!
# Merging the statistics of the functions

`FunctionsStats` of `profileData.js` over calls that may be truncated to a range, and the merge
of two of them.  They are sums: each call adds its totals to those of its function, so neither
the order of the calls matters nor how they are cut into parts that are merged.

* `CallListEntry.truncate` — the values of `TruncatedCallListEntry`.
* `callTotals` — what a call adds.
* `ofEntries_eq_named`, `merge_named` — the statistics as sums.
-/

namespace PhpSpx.WebUi

variable {metrics : EnabledMetrics}

/-! ## Calls with their values -/

/-- `CallListEntry` with the metric values it gives. -/
structure CallListEntry (metrics : EnabledMetrics) where
  idx : ℕ
  start : MetricValueSet metrics
  last : MetricValueSet metrics
  exc : MetricValueSet metrics

/-- The entry of the call at an index. -/
def CallList.entry (list : CallList metrics) (idx : ℕ) : CallListEntry metrics where
  idx := idx
  start := (list.array.element idx).start
  last := (list.array.element idx).last
  exc := (list.array.element idx).exc

/-- `CallList.getCall`, which throws when the index is out of bounds. -/
def CallList.getCall (list : CallList metrics) (idx : ℕ) : Option (CallListEntry metrics) :=
  if idx < list.getSize then some (list.entry idx) else none

namespace CallListEntry

/-- `CallListEntry.getTimeRange`. -/
def getTimeRange (wt : Key metrics) (call : CallListEntry metrics) : Option Range :=
  Range.new (call.start wt) (call.last wt)

/-- The lower bound of a `TruncatedCallListEntry`, when it is used. -/
def lowerCut (wt : Key metrics) (call : CallListEntry metrics)
    (lowerBound : Option (MetricValueSet metrics)) : Option (MetricValueSet metrics) :=
  lowerBound.filter fun bound => bound wt > call.start wt

/-- The upper bound of a `TruncatedCallListEntry`, when it is used. -/
def upperCut (wt : Key metrics) (call : CallListEntry metrics)
    (upperBound : Option (MetricValueSet metrics)) : Option (MetricValueSet metrics) :=
  upperBound.filter fun bound => bound wt < call.last wt

/-- `TruncatedCallListEntry`. -/
def truncate (wt : Key metrics) (call : CallListEntry metrics)
    (lowerBound upperBound : Option (MetricValueSet metrics)) : CallListEntry metrics where
  idx := call.idx
  start := (call.lowerCut wt lowerBound).getD call.start
  last := (call.upperCut wt upperBound).getD call.last
  exc :=
    if (call.lowerCut wt lowerBound).isSome ∨ (call.upperCut wt upperBound).isSome then
      .createFromMetricsAndValue 0
    else call.exc

end CallListEntry

namespace FunctionsStats

/-- The loop body of the constructor of `FunctionsStats`, for a call with its values. -/
def addEntry (list : CallList metrics) (functionsStats : FunctionsStats metrics)
    (call : CallListEntry metrics) : Option (FunctionsStats metrics) :=
  let stats :=
    (functionsStats (list.getFunctionIdx call.idx)).getD (.fresh (list.getFunctionName call.idx))
  (list.getCycleDepth call.idx).map fun cycleDepth =>
    Function.update functionsStats (list.getFunctionIdx call.idx)
      (some (stats.addCall cycleDepth (call.last.sub call.start) call.exc))

/-- The constructor of `FunctionsStats`, for calls with their values. -/
def ofEntries (list : CallList metrics) (calls : List (CallListEntry metrics)) :
    Option (FunctionsStats metrics) :=
  calls.foldlM (addEntry list) fun _ => none

/-- The loop body of `FunctionsStats.merge`. -/
def mergeStats (a b : FunctionStats metrics) : FunctionStats metrics where
  functionName := a.functionName
  maxCycleDepth := Max.max a.maxCycleDepth b.maxCycleDepth
  called := a.called + b.called
  inc := a.inc.add b.inc
  exc := a.exc.add b.exc

/-- `FunctionsStats.merge`. -/
def merge (stats other : FunctionsStats metrics) : FunctionsStats metrics := fun key =>
  match stats key, other key with
  | some a, some b => some (mergeStats a b)
  | none, some b => some b
  | a, none => a

theorem new_eq_ofEntries (list : CallList metrics) (calls : List ℕ) :
    new list calls = ofEntries list (calls.map list.entry) := by
  rw [ofEntries, List.foldlM_map]
  rfl

end FunctionsStats

/-! ## Totals -/

/-- What the calls of a function add up to. -/
@[ext] structure FunctionTotals (metrics : EnabledMetrics) where
  maxCycleDepth : ℕ
  called : ℕ
  inc : MetricValueSet metrics
  exc : MetricValueSet metrics

namespace FunctionTotals

instance : Add (FunctionTotals metrics) where
  add a b := ⟨max a.maxCycleDepth b.maxCycleDepth, a.called + b.called, a.inc + b.inc,
    a.exc + b.exc⟩

theorem add_def (a b : FunctionTotals metrics) :
    a + b = ⟨max a.maxCycleDepth b.maxCycleDepth, a.called + b.called, a.inc + b.inc,
      a.exc + b.exc⟩ := rfl

instance : AddCommSemigroup (FunctionTotals metrics) where
  add_assoc a b c := by
    simp only [add_def, max_assoc, add_assoc]
  add_comm a b := by
    simp only [add_def, max_comm, add_comm]

/-- The statistics with these totals. -/
def stats (functionName : Option String) (totals : FunctionTotals metrics) :
    FunctionStats metrics where
  functionName := functionName
  maxCycleDepth := totals.maxCycleDepth
  called := totals.called
  inc := totals.inc
  exc := totals.exc

end FunctionTotals

/-- The totals of the functions, by their indices; `0` without a call. -/
abbrev Totals (metrics : EnabledMetrics) := ℕ → WithZero (FunctionTotals metrics)

/-- The statistics with the totals of all functions. -/
def named (list : CallList metrics) (totals : Totals metrics) : FunctionsStats metrics :=
  fun key => WithZero.recZeroCoe none (fun t => some (t.stats (list.functionNames key))) (totals key)

/-- What a call adds to the totals of its function, at its cycle depth. -/
def entryTotals (call : CallListEntry metrics) (cycleDepth : ℕ) : FunctionTotals metrics where
  maxCycleDepth := cycleDepth
  called := 1
  inc := if cycleDepth > 0 then 0 else call.last - call.start
  exc := if cycleDepth > 0 then 0 else call.exc

/-- What a call adds to the totals. -/
def callTotals (list : CallList metrics) (call : CallListEntry metrics) : Totals metrics :=
  Function.update 0 (list.getFunctionIdx call.idx)
    (entryTotals call ((list.getCycleDepth call.idx).getD 0) : WithZero (FunctionTotals metrics))

section Named

variable {list : CallList metrics}

theorem named_apply (totals : Totals metrics) (key : ℕ) :
    named list totals key =
      WithZero.recZeroCoe none (fun t => some (t.stats (list.functionNames key))) (totals key) := rfl

/-- **Merging adds up.** -/
theorem merge_named (S T : Totals metrics) :
    FunctionsStats.merge (named list S) (named list T) = named list (S + T) := by
  funext key
  rw [FunctionsStats.merge, named_apply, named_apply, named_apply, Pi.add_apply]
  cases S key with
  | zero =>
    rw [zero_add]
    cases T key <;> rfl
  | coe a =>
    cases T key with
    | zero => rw [add_zero]; rfl
    | coe b => rfl

theorem addCall_fresh (functionName : Option String) (call : CallListEntry metrics)
    (cycleDepth : ℕ) :
    (FunctionStats.fresh functionName).addCall cycleDepth (call.last.sub call.start) call.exc =
      (entryTotals call cycleDepth).stats functionName := by
  have hinc : (0 : MetricValueSet metrics).add (call.last.sub call.start) =
      call.last - call.start := zero_add _
  have hexc : (0 : MetricValueSet metrics).add call.exc = call.exc := zero_add _
  rw [FunctionStats.addCall, FunctionTotals.stats, entryTotals, FunctionStats.mk.injEq]
  refine ⟨rfl, Nat.zero_max _, rfl, ?_, ?_⟩
  · exact congrArg (ite _ _) hinc
  · exact congrArg (ite _ _) hexc

theorem addCall_stats (functionName : Option String) (totals : FunctionTotals metrics)
    (call : CallListEntry metrics) (cycleDepth : ℕ) :
    (totals.stats functionName).addCall cycleDepth (call.last.sub call.start) call.exc =
      (totals + entryTotals call cycleDepth).stats functionName := by
  rw [FunctionStats.addCall, FunctionTotals.add_def, FunctionTotals.stats, FunctionTotals.stats,
    entryTotals, FunctionStats.mk.injEq]
  refine ⟨rfl, rfl, rfl, ?_, ?_⟩
  · dsimp only
    split
    · rw [add_zero]
    · rfl
  · dsimp only
    split
    · rw [add_zero]
    · rfl

/-- Counting one call. -/
theorem addEntry_named (totals : Totals metrics) {call : CallListEntry metrics} {cycleDepth : ℕ}
    (h : list.getCycleDepth call.idx = some cycleDepth) :
    FunctionsStats.addEntry list (named list totals) call =
      some (named list (totals + callTotals list call)) := by
  rw [FunctionsStats.addEntry, h, Option.map_some]
  congr 1
  funext key
  rw [callTotals, h, Option.getD_some]
  by_cases hkey : key = list.getFunctionIdx call.idx
  · subst hkey
    rw [Function.update_self, named_apply, named_apply, Pi.add_apply, Function.update_self,
      CallList.getFunctionName]
    cases totals (list.getFunctionIdx call.idx) with
    | zero =>
      rw [zero_add]
      exact congrArg some (addCall_fresh _ call cycleDepth)
    | coe t => exact congrArg some (addCall_stats _ t call cycleDepth)
  · rw [Function.update_of_ne hkey, named_apply, named_apply, Pi.add_apply,
      Function.update_of_ne hkey, Pi.zero_apply, add_zero]

theorem foldlM_addEntry (calls : List (CallListEntry metrics)) (totals : Totals metrics)
    (h : ∀ call ∈ calls, (list.getCycleDepth call.idx).isSome = true) :
    calls.foldlM (FunctionsStats.addEntry list) (named list totals) =
      some (named list (totals + (calls.map (callTotals list)).sum)) := by
  induction calls generalizing totals with
  | nil => rw [List.map_nil, List.sum_nil, add_zero]; rfl
  | cons call calls ih =>
    obtain ⟨cycleDepth, hdepth⟩ := Option.isSome_iff_exists.mp (h call List.mem_cons_self)
    rw [List.foldlM_cons, addEntry_named totals hdepth]
    have hrest := ih (totals + callTotals list call) fun c hc => h c (List.mem_cons_of_mem _ hc)
    rw [List.map_cons, List.sum_cons, ← add_assoc]
    exact hrest

/-- **The statistics are sums**, when the parents of no call go round in circles. -/
theorem ofEntries_eq_named (calls : List (CallListEntry metrics))
    (h : ∀ call ∈ calls, (list.getCycleDepth call.idx).isSome = true) :
    FunctionsStats.ofEntries list calls = some (named list (calls.map (callTotals list)).sum) := by
  have hsum := foldlM_addEntry calls 0 h
  rw [zero_add] at hsum
  exact hsum

/-- Statistics are computed only when the cycle depths of the calls are. -/
theorem getCycleDepth_of_foldlM {calls : List (CallListEntry metrics)}
    {stats stats' : FunctionsStats metrics}
    (h : calls.foldlM (FunctionsStats.addEntry list) stats = some stats') :
    ∀ call ∈ calls, (list.getCycleDepth call.idx).isSome = true := by
  induction calls generalizing stats with
  | nil => exact fun _ hcall => absurd hcall List.not_mem_nil
  | cons call calls ih =>
    rw [List.foldlM_cons] at h
    obtain ⟨next, hnext, hrest⟩ := Option.bind_eq_some_iff.mp h
    obtain ⟨cycleDepth, hdepth, -⟩ := Option.map_eq_some_iff.mp hnext
    rw [List.forall_mem_cons]
    exact ⟨by rw [hdepth]; rfl, ih hrest⟩

end Named

end PhpSpx.WebUi
