import PhpSpx.Profiler.CostBounds
import PhpSpx.Reporter.Fp

/-!
# The relative costs of the flat profile

In its relative mode the flat profile prints the costs of a function as parts of the greatest
reading.  Costs within bounds give parts between 0 and 1.  Costs are added without rounding, as
doubles are in the range of `binary64Add_eq_metricValuesAdd`.

* `FpReporter.metricCells_within` — the two cells of a metric.
* `costs_within_bounds` — the events of a profile and the rows of their reports.
-/

namespace PhpSpx

open Lib

namespace FpReporter

/-- Only entries of the table have rows. -/
theorem mem_of_mem_topEntries {reporter : FpReporter} {entries : List FuncTableEntry}
    {entry : FuncTableEntry} (h : entry ∈ reporter.topEntries entries) : entry ∈ entries := by
  have hwindow : ∀ (rest top : List FuncTableEntry),
      entry ∈ rest.foldl (fun top current => reporter.replaceFirst current top) top →
      entry ∈ rest ∨ entry ∈ top := by
    intro rest
    induction rest with
    | nil => exact fun top h => .inr h
    | cons current rest ih =>
      intro top h
      rcases ih _ h with h | h
      · exact .inl (List.mem_cons_of_mem _ h)
      · rcases mem_of_mem_replaceFirst h with rfl | h
        · exact .inl List.mem_cons_self
        · exact .inr h
  rcases hwindow _ _ ((List.perm_insertionSort _ _).mem_iff.mp h) with h | h
  · exact List.mem_of_mem_drop h
  · exact List.mem_of_mem_take h

/-- A cell that fits is the last one of its row. -/
theorem cells_addNcellf {row row' : FmtRow} {span : ℕ} {type : FmtValueType} {value : ℚ}
    {ansiFmt : Option CStr} (h : row.addNcellf span type value ansiFmt = .ok row') :
    row'.cells = row.cells ++ [⟨span, ansiFmt, .num type value⟩] := by
  unfold FmtRow.addNcellf FmtRow.addCell at h
  split at h
  · exact nomatch h
  · rw [← Except.ok.inj h]

/-- **The relative costs of a metric** are the numbers of its two cells; they are not negative,
and the inclusive one is the greater of the two and at most 1. -/
theorem metricCells_within {reporter : FpReporter} (hrel : reporter.rel = true) {event : Event}
    {m : Metric} (h : event.CostsWithinMax m) {entry : FuncTableEntry}
    (hentry : entry ∈ event.funcTable.entries) {row row' : FmtRow}
    (hrow : reporter.metricCells event.max entry row m = .ok row') :
    ∃ inc exc incFmt excFmt,
      row'.cells = row.cells ++
        [⟨1, incFmt, .num .percentage inc⟩, ⟨1, excFmt, .num .percentage exc⟩] ∧
      0 ≤ exc ∧ exc ≤ inc ∧ inc ≤ 1 := by
  obtain ⟨hexc, hle, hinc⟩ := h entry hentry
  obtain ⟨rowInc, hrowInc, hrow⟩ := bind_eq_ok_iff.mp hrow
  rw [if_pos hrel, if_pos hrel] at hrowInc hrow
  have hcells := cells_addNcellf hrow
  rw [cells_addNcellf hrowInc, List.append_assoc] at hcells
  refine ⟨_, _, _, _, hcells, ?_⟩
  -- a greatest reading of 0 leaves costs of 0
  by_cases hmax : event.max m = 0
  · rw [if_pos hmax, div_one, div_one]
    exact ⟨hexc, hle, hinc.trans (hmax.trans_le zero_le_one)⟩
  · have hpos : 0 < event.max m :=
      lt_of_le_of_ne (hexc.trans (hle.trans hinc)) (Ne.symm hmax)
    rw [if_neg hmax]
    exact ⟨div_nonneg hexc hpos.le, div_le_div_of_nonneg_right hle hpos.le,
      (div_le_one hpos).mpr hinc⟩

end FpReporter

/-- **Costs stay within bounds.**  In a profile with room in the function table, for a metric
with readings that are not negative and never decrease, every event shows for every function
costs with `0 ≤ exc ≤ inc ≤ max`, and the relative costs of the flat profile lie between 0 and
100%. -/
theorem costs_within_bounds (limits : Limits) (zendInlineHashFunc : String → UInt64)
    (maxDepth : ℕ) (enabledMetrics : Metric → Bool) (junk : MetricValues) {ops : List TracerOp}
    {n : ℕ} (hops : height 0 ops = some n) (inputs : ℕ → HookInput) (m : Metric) :
    let p := spxProfilerTracerCreate limits zendInlineHashFunc maxDepth enabledMetrics junk
    let hooks := ops ++ Live.closings n inputs
    (calledFunctions p.maxDepth 0 ops).toFinset.card ≤ limits.maxFunctionTableSize →
    (∀ op ∈ hooks, 0 ≤ op.reading m) →
    hooks.Pairwise (fun op op' => op.reading m ≤ op'.reading m) →
    ∃ q, tracerProfile p ops inputs = .ok q ∧ ∀ event ∈ q.notified,
      (∀ entry ∈ event.funcTable.entries,
        0 ≤ entry.stats.exc m ∧ entry.stats.exc m ≤ entry.stats.inc m ∧
          entry.stats.inc m ≤ event.max m) ∧
      ∀ reporter : FpReporter, reporter.rel = true →
        ∀ entry ∈ reporter.topEntries event.funcTable.entries, ∀ row row',
          reporter.metricCells event.max entry row m = .ok row' →
          ∃ inc exc incFmt excFmt,
            row'.cells = row.cells ++
              [⟨1, incFmt, .num .percentage inc⟩, ⟨1, excFmt, .num .percentage exc⟩] ∧
            0 ≤ exc ∧ exc ≤ inc ∧ inc ≤ 1 := by
  intro p hooks hroom hnonneg hmono
  obtain ⟨q, hq, hbounds⟩ := tracer_costs_within_max limits zendInlineHashFunc maxDepth
    enabledMetrics junk hops inputs hroom hnonneg hmono
  refine ⟨q, hq, ?_⟩
  intro event hevent
  refine ⟨hbounds event hevent, ?_⟩
  intro reporter hrel entry hentry row row' hrow
  exact FpReporter.metricCells_within hrel (hbounds event hevent)
    (FpReporter.mem_of_mem_topEntries hentry) hrow

/-- `f` calls `g`, which calls `f`, in a table of three functions. -/
theorem costs_within_bounds_recursion :
    let p := spxProfilerTracerCreate ⟨8, 3, 1, by decide, by decide, by decide⟩ (fun _ => 0) 0
      (fun _ => true) 0
    let ops := [callAt "f" 0, callAt "g" 1, callAt "f" 3, .closing (endAt 6)]
    ∃ q, tracerProfile p ops (fun _ => endAt 10) = .ok q ∧ ∀ event ∈ q.notified,
      (∀ entry ∈ event.funcTable.entries,
        0 ≤ entry.stats.exc .wallTime ∧ entry.stats.exc .wallTime ≤ entry.stats.inc .wallTime ∧
          entry.stats.inc .wallTime ≤ event.max .wallTime) ∧
      ∀ reporter : FpReporter, reporter.rel = true →
        ∀ entry ∈ reporter.topEntries event.funcTable.entries, ∀ row row',
          reporter.metricCells event.max entry row .wallTime = .ok row' →
          ∃ inc exc incFmt excFmt,
            row'.cells = row.cells ++
              [⟨1, incFmt, .num .percentage inc⟩, ⟨1, excFmt, .num .percentage exc⟩] ∧
            0 ≤ exc ∧ exc ≤ inc ∧ inc ≤ 1 := by
  apply costs_within_bounds ⟨8, 3, 1, by decide, by decide, by decide⟩ (fun _ => 0) 0
    (fun _ => true) 0
    (show height 0 [callAt "f" 0, callAt "g" 1, callAt "f" 3, .closing (endAt 6)] = some 2 from rfl)
    (fun _ => endAt 10) .wallTime
  · exact (List.toFinset_card_le _).trans (by decide)
  · simp [Live.closings, callAt, endAt, TracerOp.reading]
  · simp [Live.closings, callAt, endAt, TracerOp.reading]
    norm_num

end PhpSpx
