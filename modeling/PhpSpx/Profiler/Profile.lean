import PhpSpx.Profiler.CallTree

/-!
# The profile of a run

What the function table holds when a run of the tracing profiler has been
finalized.  Costs are added without rounding, as doubles are in the range of
`binary64Add_eq_metricValuesAdd`.

* `callForest` — the calls of a run, those left open closed by the
  finalization.
* `callTreeStats` — the statistics of a function in a call forest, read off its
  nodes one by one.
* `tracer_stats_eq_callTreeStats` — the table of a finalized profile holds
  exactly these.
-/

namespace PhpSpx

open Lib

/-- The calls of a run, the open ones closed with the inputs of a finalization. -/
def callForest (ops : List TracerOp) (inputs : ℕ → HookInput) : CallForest :=
  forestOf (ops ++ Live.closings ((height 0 ops).getD 0) inputs)

/-- The statistics of a function in a call forest: the number of its calls, the
largest number of its calls around one of them, the cost of those of its calls
that are not inside another, and the own cost of all of them. -/
def callTreeStats (T : CallForest) (f : PhpFunction) : FuncStats where
  called := (T.visits []).countP fun v => callFunction v.opening = f
  maxCycleDepth :=
    (((T.visits []).filter fun v => callFunction v.opening = f).map
      (Forest.Visit.cycleDepth callFunction f)).foldr max 0
  inc :=
    (((T.visits []).filter (Forest.Visit.outermost callFunction f)).map fun v =>
      callCost v.opening v.closing).sum
  exc :=
    (((T.visits []).filter fun v => callFunction v.opening = f).map
      (Forest.Visit.ownCost callCost)).sum

theorem callTreeStats_eq (T : CallForest) (f : PhpFunction) :
    callTreeStats T f = FuncStats.zero.addForest 0 f T := by
  ext1
  · exact (Forest.countP_visits callFunction f T []).trans (Nat.zero_add _).symm
  · exact (Forest.foldr_max_visits callFunction f T []).trans (Nat.zero_max _).symm
  · exact (Forest.sum_inc_visits callFunction callCost f T []).trans (zero_add _).symm
  · exact (Forest.sum_exc_visits callFunction callCost f T []).trans (zero_add _).symm

/-- The statistics the function table has for a function. -/
def Tracer.statsOf (p : Tracer) (f : PhpFunction) : Option FuncStats :=
  (p.funcTable.entries.find? fun entry => entry.function = f).map FuncTableEntry.stats

theorem find?_mapIdx (stats : PhpFunction → FuncStats) (f : PhpFunction) (fs : List PhpFunction)
    (entry : ℕ → PhpFunction → FuncTableEntry) (hfun : ∀ i g, (entry i g).function = g)
    (hstats : ∀ i g, (entry i g).stats = stats g) :
    ((fs.mapIdx entry).find? fun e => e.function = f).map FuncTableEntry.stats
      = if f ∈ fs then some (stats f) else none := by
  induction fs generalizing entry with
  | nil => rfl
  | cons g fs ih =>
    rw [List.mapIdx_cons, List.find?_cons]
    by_cases hg : g = f
    · subst hg
      simp [hfun, hstats]
    · have h := ih (fun i => entry (i + 1)) (fun i => hfun (i + 1)) fun i => hstats (i + 1)
      simp only [hfun, hg, decide_false, List.mem_cons, Ne.symm hg, false_or]
      exact h

theorem Refines.statsOf {p : Tracer} {L : Live} (h : Refines p L) (f : PhpFunction) :
    p.statsOf f = if f ∈ L.functions then some (L.stats f) else none := by
  rw [Tracer.statsOf, h.entries, Live.entries]
  exact find?_mapIdx L.stats f L.functions _ (fun _ _ => rfl) fun _ _ => rfl

section Profile

variable (limits : Limits) (zendInlineHashFunc : String → UInt64) (maxDepth : ℕ)
  (enabledMetrics : Metric → Bool) (junk : MetricValues)

/-- The values at the origin of a profile: those of its first call. -/
def originOf : CallForest → MetricValues
  | .nil => 0
  | .node a _ _ _ => a.input.reading

/-- **A finalized profile follows its call forest**, when the table has room
for the functions called within the depth limit. -/
theorem tracerProfile_follows {ops : List TracerOp} {n : ℕ} (hops : height 0 ops = some n)
    (inputs : ℕ → HookInput) :
    let p := spxProfilerTracerCreate limits zendInlineHashFunc maxDepth enabledMetrics junk
    let T := (callForest ops inputs).truncate p.maxDepth
    (T.labels.map callFunction).toFinset.card ≤ limits.maxFunctionTableSize →
    ∃ q L, tracerProfile p ops inputs = .ok q ∧ Refines q L.conclude
      ∧ Follows (originOf (callForest ops inputs))
          (Live.init limits.maxFunctionTableSize p.maxDepth enabledMetrics junk) L T := by
  intro p T hT
  obtain ⟨q, L, hq, hL, href, -, -⟩ := tracerProfile_refines limits zendInlineHashFunc maxDepth
    enabledMetrics junk hops inputs
  have hbalanced : WellNested (ops ++ Live.closings n inputs) := by
    rw [WellNested, height_append, hops]
    exact Live.height_closings_depth n inputs
  have hword : (callForest ops inputs).word = ops ++ Live.closings n inputs := by
    rw [callForest, hops]
    exact word_forestOf hbalanced
  obtain ⟨hcreate, -⟩ := refines_create limits zendInlineHashFunc maxDepth enabledMetrics junk
  obtain ⟨L', hL', hfollows⟩ := run_forest (S := (T.labels.map callFunction).toFinset)
    (z := originOf (callForest ops inputs)) (callForest ops inputs) (m := p.maxDepth) hcreate.ok rfl
    rfl (Nat.zero_add _) hT (fun g hg => absurd hg List.not_mem_nil)
    (fun f hf => List.mem_toFinset.2 hf) (fun h => absurd rfl h)
    (fun _ a b c s hF => by rw [hF]; rfl)
  rw [hword, hL] at hL'
  cases hL'
  exact ⟨q, L, hq, href, hfollows⟩

/-- **The statistics of the tracing profiler are those of the call tree.**  In
a run in which no call ends at depth `0`, finalized with any further readings,
the function table holds the statistics of exactly the functions called within
the depth limit, provided these are no more than its capacity. -/
theorem tracer_stats_eq_callTreeStats {ops : List TracerOp} {n : ℕ}
    (hops : height 0 ops = some n) (inputs : ℕ → HookInput) :
    let p := spxProfilerTracerCreate limits zendInlineHashFunc maxDepth enabledMetrics junk
    let T := (callForest ops inputs).truncate p.maxDepth
    (T.labels.map callFunction).toFinset.card ≤ limits.maxFunctionTableSize →
    ∃ q, tracerProfile p ops inputs = .ok q
      ∧ ∀ f, q.statsOf f
          = if f ∈ T.labels.map callFunction then some (callTreeStats T f) else none := by
  intro p T hT
  obtain ⟨q, L, hq, href, hfollows⟩ := tracerProfile_follows limits zendInlineHashFunc maxDepth
    enabledMetrics junk hops inputs hT
  refine ⟨q, hq, ?_⟩
  intro f
  have hmem : f ∈ L.conclude.functions ↔ f ∈ T.labels.map callFunction := by
    rw [show L.conclude.functions = L.functions from rfl, hfollows.mem_functions f]
    exact or_iff_right List.not_mem_nil
  have hstats : L.conclude.stats f = callTreeStats T f :=
    (hfollows.stats f).trans (callTreeStats_eq T f).symm
  rw [href.statsOf f, hstats]
  simp only [hmem]

end Profile

/-! ## A recursive run -/

/-- `f` from `0` to `10` calls `g`, which calls `f` from `3` to `6`: of the `10`
units in `f`, `4` are its own. -/
theorem tracer_stats_recursion :
    ∃ q, tracerProfile
        (spxProfilerTracerCreate (limitsInit fun _ => none) (fun _ => 0) 0 (fun _ => true) 0)
        [callAt "f" 0, callAt "g" 1, callAt "f" 3, .closing (endAt 6)] (fun _ => endAt 10) = .ok q
      ∧ q.statsOf ⟨"f", ""⟩ = some ⟨2, 1, fun _ => 10, fun _ => 4⟩ := by
  obtain ⟨q, hq, h⟩ := tracer_stats_eq_callTreeStats (limitsInit fun _ => none) (fun _ => 0) 0
    (fun _ => true) 0
    (show height 0 [callAt "f" 0, callAt "g" 1, callAt "f" 3, .closing (endAt 6)] = some 2
      from rfl) (fun _ => endAt 10) (by decide)
  refine ⟨q, hq, ?_⟩
  rw [h ⟨"f", ""⟩, if_pos (by decide)]
  refine congrArg some (FuncStats.ext' rfl rfl ?_ ?_)
  · funext m
    show (10 - 0 : ℚ) + 0 = 10
    norm_num
  · funext m
    show (10 - 0 - (10 - 1 + 0) : ℚ) + (6 - 3 - 0 + 0) = 4
    norm_num

end PhpSpx
