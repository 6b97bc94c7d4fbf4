import PhpSpx.Lib.Run
import PhpSpx.Metric.Collector

/-!
# Reported values

A collector takes accumulated noise off the raw values, at most what they
increased by, and takes off the CPU time what it increased more than the wall
time.  Each of the two corrections alone keeps the reported values from going
down, both together do not.  The collector computes with doubles, and past
their precision even one correction does not.

* `InRange` — the raw values and the noise are whole numbers in the range of
  the doubles without rounding, and the raw values do not go down.
* `Exact` — what the collector keeps under this condition: nothing is rounded.
* `Exact.collect_value_eq` — by how much a collection moves the reported value
  of a metric.
* `CpuTimeFits` — the condition on a collection under which the reported CPU
  time does not go down.
* `reported_values_mono_iff` — in every run in range, the reported values never
  go down exactly when each collection after the first meets the condition.
-/

namespace PhpSpx

open Lib

namespace MetricCollector

/-! ## Runs of a collector -/

/-- An operation on one collector, with the raw values it collects. -/
inductive Step where
  | collect (current : MetricValues)
  | noiseBarrier (current : MetricValues)
  | addFixedNoise (noise : MetricValues)

/-- The state after an operation. -/
def after (c : MetricCollector) : Step → MetricCollector
  | .collect current => (c.collect current 0).2
  | .noiseBarrier current => c.noiseBarrier current
  | .addFixedNoise noise => c.addFixedNoise noise

/-- The values reported by the collections among a sequence of operations. -/
def reported : List Step → MetricCollector → List MetricValues
  | [], _ => []
  | .collect current :: steps, c =>
      (c.collect current 0).1 :: reported steps (c.after (.collect current))
  | step :: steps, c => reported steps (c.after step)

/-- The raw values of a metric among a sequence of operations. -/
def rawValues (m : Metric) : List Step → List ℚ
  | [] => []
  | .collect current :: steps => current m :: rawValues m steps
  | .noiseBarrier current :: steps => current m :: rawValues m steps
  | .addFixedNoise _ :: steps => rawValues m steps

/-! ## The range without rounding -/

/-- The surplus of CPU time moves the reference value of the metric. -/
def Shifted (enabledMetrics : Metric → Bool) (m : Metric) : Prop :=
  (m = .cpuTime ∨ m = .idleTime)
    ∧ enabledMetrics .wallTime = true ∧ enabledMetrics .cpuTime = true

instance (enabledMetrics : Metric → Bool) (m : Metric) : Decidable (Shifted enabledMetrics m) :=
  inferInstanceAs (Decidable (_ ∧ _))

/-- The metrics whose raw values a reported value of the metric is made of. -/
def involved (enabledMetrics : Metric → Bool) (m : Metric) : List Metric :=
  if Shifted enabledMetrics m then [m, .cpuTime, .wallTime] else [m]

/-- The most the surpluses have moved the reference value of a metric by, at the raw
values `raw`. -/
def shift (enabledMetrics : Metric → Bool) (raw : MetricValues) (m : Metric) : ℚ :=
  if Shifted enabledMetrics m then raw .cpuTime else 0

/-- Raw values that a collector does not round: whole numbers of at most `2 ^ 53`, even when
all the CPU time is surplus. -/
structure RawFits (enabledMetrics : Metric → Bool) (raw : MetricValues) (m : Metric) : Prop where
  whole : ∀ i ∈ involved enabledMetrics m, raw i ∈ wholeNumbers
  nonneg : ∀ i ∈ involved enabledMetrics m, 0 ≤ raw i
  le : ∀ i ∈ involved enabledMetrics m, raw i ≤ 2 ^ 53
  add_shift_le : raw m + shift enabledMetrics raw m ≤ 2 ^ 53

/-- An operation whose raw values, or whose noise, a collector does not round.  No raw
value is less than the one collected last. -/
def InRange (m : Metric) (c : MetricCollector) : Step → Prop
  | .collect current =>
      RawFits c.enabledMetrics current m
        ∧ ∀ i ∈ involved c.enabledMetrics m, c.lastValues i ≤ current i
  | .noiseBarrier current => current m ∈ wholeNumbers ∧ c.lastValues m ≤ current m
  | .addFixedNoise noise => noise m ∈ wholeNumbers ∧ 0 ≤ noise m

instance (enabledMetrics : Metric → Bool) (raw : MetricValues) (m : Metric) :
    Decidable (RawFits enabledMetrics raw m) :=
  decidable_of_iff
    ((∀ i ∈ involved enabledMetrics m, raw i ∈ wholeNumbers ∧ 0 ≤ raw i ∧ raw i ≤ 2 ^ 53)
      ∧ raw m + shift enabledMetrics raw m ≤ 2 ^ 53)
    ⟨fun h => ⟨fun i hi => (h.1 i hi).1, fun i hi => (h.1 i hi).2.1, fun i hi => (h.1 i hi).2.2,
      h.2⟩, fun h => ⟨fun i hi => ⟨h.whole i hi, h.nonneg i hi, h.le i hi⟩, h.add_shift_le⟩⟩

instance (m : Metric) (c : MetricCollector) : (step : Step) → Decidable (InRange m c step)
  | .collect _ => inferInstanceAs (Decidable (_ ∧ _))
  | .noiseBarrier _ => inferInstanceAs (Decidable (_ ∧ _))
  | .addFixedNoise _ => inferInstanceAs (Decidable (_ ∧ _))

/-- A collector that has rounded nothing of a metric so far. -/
structure Exact (m : Metric) (c : MetricCollector) : Prop where
  last : RawFits c.enabledMetrics c.lastValues m
  ref_whole : c.refValues m ∈ wholeNumbers
  ref_ge : -shift c.enabledMetrics c.lastValues m ≤ c.refValues m
  ref_le : c.refValues m ≤ c.lastValues m + shift c.enabledMetrics c.lastValues m
  noise_whole : c.currentFixedNoise m ∈ wholeNumbers
  noise_nonneg : 0 ≤ c.currentFixedNoise m

section RawFits

variable {enabledMetrics : Metric → Bool} {raw raw' : MetricValues} {m : Metric}

theorem self_mem_involved : m ∈ involved enabledMetrics m := by
  unfold involved
  split <;> exact List.mem_cons_self

theorem Shifted.cpuTime_mem (h : Shifted enabledMetrics m) :
    .cpuTime ∈ involved enabledMetrics m := by simp [involved, h]

theorem Shifted.wallTime_mem (h : Shifted enabledMetrics m) :
    .wallTime ∈ involved enabledMetrics m := by simp [involved, h]

/-- All that is involved in an enabled metric is enabled. -/
theorem enabled_of_mem_involved (hm : enabledMetrics m = true) {i : Metric}
    (hi : i ∈ involved enabledMetrics m) : enabledMetrics i = true := by
  unfold involved at hi
  split at hi
  · rename_i hshifted
    rcases List.mem_cons.mp hi with rfl | hi
    · exact hm
    rcases List.mem_cons.mp hi with rfl | hi
    · exact hshifted.2.2
    · rw [List.mem_singleton.mp hi]
      exact hshifted.2.1
  · rwa [List.mem_singleton.mp hi]

theorem RawFits.shift_nonneg (h : RawFits enabledMetrics raw m) :
    0 ≤ shift enabledMetrics raw m := by
  unfold shift
  split
  · rename_i hshifted
    exact h.nonneg _ hshifted.cpuTime_mem
  · exact le_rfl

theorem shift_congr (heq : ∀ i ∈ involved enabledMetrics m, raw' i = raw i) :
    shift enabledMetrics raw' m = shift enabledMetrics raw m := by
  unfold shift
  split
  · rename_i hshifted
    exact heq _ hshifted.cpuTime_mem
  · rfl

/-- Only the values of the metrics involved count. -/
theorem RawFits.congr (h : RawFits enabledMetrics raw m)
    (heq : ∀ i ∈ involved enabledMetrics m, raw' i = raw i) : RawFits enabledMetrics raw' m where
  whole i hi := by
    rw [heq i hi]
    exact h.whole i hi
  nonneg i hi := by
    rw [heq i hi]
    exact h.nonneg i hi
  le i hi := by
    rw [heq i hi]
    exact h.le i hi
  add_shift_le := by
    rw [shift_congr heq, heq m self_mem_involved]
    exact h.add_shift_le

/-- The raw values of the CPU time in range, those of the wall time are too. -/
theorem RawFits.wallTime (h : RawFits enabledMetrics raw .cpuTime)
    (hcpu : enabledMetrics .cpuTime = true) (hwall : enabledMetrics .wallTime = true) :
    RawFits enabledMetrics raw .wallTime := by
  have hmem : ∀ i ∈ involved enabledMetrics .wallTime, i ∈ involved enabledMetrics .cpuTime := by
    intro i hi
    have hi : i = .wallTime := by simpa [involved, Shifted] using hi
    rw [hi]
    exact Shifted.wallTime_mem ⟨.inl rfl, hwall, hcpu⟩
  refine ⟨fun i hi => h.whole i (hmem i hi), fun i hi => h.nonneg i (hmem i hi),
    fun i hi => h.le i (hmem i hi), ?_⟩
  have hle := h.le .wallTime (hmem .wallTime self_mem_involved)
  simpa [shift, Shifted] using hle

end RawFits

/-! ## The conditions -/

/-- No negative noise is added to a metric. -/
def NoiseNonneg (m : Metric) (steps : List Step) : Prop :=
  ∀ noise, Step.addFixedNoise noise ∈ steps → 0 ≤ noise m

/-- With wall time and CPU time enabled, the CPU time increased no more than the
wall time did, or the noise to take off it is no more than that. -/
def CpuTimeFits (c : MetricCollector) (current : MetricValues) : Prop :=
  c.enabledMetrics .wallTime = true →
    current .cpuTime - c.lastValues .cpuTime ≤ current .wallTime - c.lastValues .wallTime
    ∨ c.currentFixedNoise .cpuTime ≤ current .wallTime - c.lastValues .wallTime

/-- Every collection meets the condition. -/
def CollectionsFit : List Step → MetricCollector → Prop
  | [], _ => True
  | .collect current :: steps, c =>
      c.CpuTimeFits current ∧ CollectionsFit steps (c.after (.collect current))
  | step :: steps, c => CollectionsFit steps (c.after step)

/-- Every collection after the first meets the condition. -/
def LaterCollectionsFit : List Step → MetricCollector → Prop
  | [], _ => True
  | .collect current :: steps, c => CollectionsFit steps (c.after (.collect current))
  | step :: steps, c => LaterCollectionsFit steps (c.after step)

/-! ## One collection -/

/-- The value last reported for a metric, `0` before the first collection. -/
def value (c : MetricCollector) (m : Metric) : ℚ := c.lastValues m - c.refValues m

/-- What the CPU time increased more than the wall time. -/
def surplus (c : MetricCollector) (current : MetricValues) : ℚ :=
  (current .cpuTime - c.lastValues .cpuTime) - (current .wallTime - c.lastValues .wallTime)

/-- The part of the surplus of CPU time taken off a metric: all of it off the CPU time, and
the idle time gets it. -/
def surplusTaken (c : MetricCollector) (current : MetricValues) (m : Metric) : ℚ :=
  if Shifted c.enabledMetrics m then
    if m = .cpuTime then max 0 (c.surplus current) else -max 0 (c.surplus current)
  else 0

/-- Only the CPU time has a surplus taken off. -/
theorem surplusTaken_nonpos (c : MetricCollector) (current : MetricValues) {m : Metric}
    (hm : m ≠ .cpuTime) : c.surplusTaken current m ≤ 0 := by
  unfold surplusTaken
  rw [if_neg hm]
  split
  · exact neg_nonpos.mpr (le_max_left _ _)
  · exact le_rfl

theorem surplusTaken_cpuTime {c : MetricCollector} (current : MetricValues)
    (hcpu : c.enabledMetrics .cpuTime = true) :
    c.surplusTaken current .cpuTime
      = if c.enabledMetrics .wallTime = true then max 0 (c.surplus current) else 0 := by
  simp [surplusTaken, Shifted, hcpu]

theorem surplusTaken_mem_wholeNumbers {c : MetricCollector} {current : MetricValues} {m : Metric}
    (h : Shifted c.enabledMetrics m → c.surplus current ∈ wholeNumbers) :
    c.surplusTaken current m ∈ wholeNumbers := by
  unfold surplusTaken
  split
  · rename_i hshifted
    have hmax := max_mem_wholeNumbers (zero_mem wholeNumbers) (h hshifted)
    split
    · exact hmax
    · exact neg_mem hmax
  · exact zero_mem wholeNumbers

/-- The surplus taken off is at most the increase of the CPU time. -/
theorem abs_surplusTaken_le {c : MetricCollector} {m : Metric} {current : MetricValues}
    (hin : c.InRange m (.collect current)) :
    |c.surplusTaken current m|
      ≤ shift c.enabledMetrics current m - shift c.enabledMetrics c.lastValues m := by
  by_cases hshifted : Shifted c.enabledMetrics m
  · have hcpu := hin.2 _ hshifted.cpuTime_mem
    have hwall := hin.2 _ hshifted.wallTime_mem
    have hmax : max 0 (c.surplus current) ≤ current .cpuTime - c.lastValues .cpuTime :=
      max_le (by linarith) (by unfold surplus; linarith)
    have habs : |c.surplusTaken current m| = max 0 (c.surplus current) := by
      unfold surplusTaken
      rw [if_pos hshifted]
      split
      · exact abs_of_nonneg (le_max_left _ _)
      · rw [abs_neg, abs_of_nonneg (le_max_left _ _)]
    rw [habs, shift, shift, if_pos hshifted, if_pos hshifted]
    exact hmax
  · simp [surplusTaken, shift, hshifted]

section Collect

variable {c : MetricCollector} {m : Metric} {current : MetricValues} (h : c.Exact m)
  (hin : c.InRange m (.collect current))

include h hin

/-- The increase of a raw value is not rounded. -/
theorem Exact.increase_eq {i : Metric} (hi : i ∈ involved c.enabledMetrics m) :
    binary64Sub (current i) (c.lastValues i) = current i - c.lastValues i := by
  have hlast := h.last.nonneg _ hi
  have hle := hin.2 i hi
  have hmax := hin.1.le i hi
  refine binary64Sub_of_abs_le (hin.1.whole _ hi) (h.last.whole _ hi) ?_
  rw [abs_of_nonneg (sub_nonneg.mpr hle)]
  linarith

theorem Exact.surplus_mem_wholeNumbers (hshifted : Shifted c.enabledMetrics m) :
    c.surplus current ∈ wholeNumbers :=
  sub_mem (sub_mem (hin.1.whole _ hshifted.cpuTime_mem) (h.last.whole _ hshifted.cpuTime_mem))
    (sub_mem (hin.1.whole _ hshifted.wallTime_mem) (h.last.whole _ hshifted.wallTime_mem))

theorem Exact.ctSurplus_eq (hshifted : Shifted c.enabledMetrics m) :
    c.ctSurplus current = c.surplus current := by
  have hcpu := h.last.nonneg _ hshifted.cpuTime_mem
  have hwall := h.last.nonneg _ hshifted.wallTime_mem
  have hcpu' := hin.2 _ hshifted.cpuTime_mem
  have hwall' := hin.2 _ hshifted.wallTime_mem
  have hmax := hin.1.le _ hshifted.cpuTime_mem
  have hmax' := hin.1.le _ hshifted.wallTime_mem
  rw [ctSurplus, h.increase_eq hin hshifted.cpuTime_mem, h.increase_eq hin hshifted.wallTime_mem]
  refine binary64Sub_of_abs_le ?_ ?_ ?_
  · exact sub_mem (hin.1.whole _ hshifted.cpuTime_mem) (h.last.whole _ hshifted.cpuTime_mem)
  · exact sub_mem (hin.1.whole _ hshifted.wallTime_mem) (h.last.whole _ hshifted.wallTime_mem)
  · rw [abs_le]
    constructor <;> linarith

theorem Exact.correctedRef_eq :
    c.correctedRef current m = c.refValues m + c.surplusTaken current m := by
  have hne : Metric.cpuTime ≠ .idleTime := by decide
  unfold correctedRef
  by_cases hshifted : Shifted c.enabledMetrics m
  · have hwhole := h.surplus_mem_wholeNumbers hin hshifted
    have hsum : |c.refValues m + c.surplusTaken current m| ≤ 2 ^ 53 := by
      have hraw := hin.1.add_shift_le
      have hlast := hin.2 m self_mem_involved
      have hnonneg := h.last.nonneg m self_mem_involved
      have htaken := abs_le.mp (abs_surplusTaken_le hin)
      have hge := h.ref_ge
      have hle := h.ref_le
      rw [abs_le]
      constructor <;> linarith
    rw [if_pos ⟨hshifted.2.1, hshifted.2.2⟩, h.ctSurplus_eq hin hshifted]
    by_cases hpos : c.surplus current > 0
    · rw [if_pos hpos]
      unfold surplusTaken at hsum ⊢
      rw [if_pos hshifted, max_eq_right hpos.le] at hsum ⊢
      rcases hshifted.1 with rfl | rfl
      · rw [if_pos rfl] at hsum ⊢
        rw [Function.update_of_ne hne, Function.update_self]
        exact binary64Add_of_abs_le h.ref_whole hwhole hsum
      · rw [if_neg hne.symm, ← sub_eq_add_neg] at hsum ⊢
        rw [Function.update_self]
        exact binary64Sub_of_abs_le h.ref_whole hwhole hsum
    · rw [if_neg hpos]
      simp [surplusTaken, max_eq_left (not_lt.mp hpos)]
  · have hother : c.surplusTaken current m = 0 := by simp [surplusTaken, hshifted]
    rw [hother, add_zero]
    split
    · rename_i henabled
      split
      · rw [Function.update_of_ne, Function.update_of_ne]
        · exact fun hcpu => hshifted ⟨.inl hcpu, henabled⟩
        · exact fun hidle => hshifted ⟨.inr hidle, henabled⟩
      · rfl
    · rfl

theorem Exact.clampedNoise_eq (hrel : m.releasable = false) :
    c.clampedNoise current m = min (c.currentFixedNoise m) (current m - c.lastValues m) := by
  unfold clampedNoise
  rw [if_neg (by simp [hrel]), h.increase_eq hin self_mem_involved]
  split
  · rename_i hlt
    exact (min_eq_right hlt.le).symm
  · rename_i hle
    exact (min_eq_left (not_lt.mp hle)).symm

/-- Where the reference value lies after the collection, when nothing is rounded. -/
theorem Exact.newRef_bounds :
    -shift c.enabledMetrics current m
        ≤ c.refValues m + c.surplusTaken current m
          + min (c.currentFixedNoise m) (current m - c.lastValues m)
      ∧ c.refValues m + c.surplusTaken current m
          + min (c.currentFixedNoise m) (current m - c.lastValues m)
        ≤ current m + shift c.enabledMetrics current m := by
  have htaken := abs_le.mp (abs_surplusTaken_le hin)
  have hnoise : 0 ≤ min (c.currentFixedNoise m) (current m - c.lastValues m) :=
    le_min h.noise_nonneg (sub_nonneg.mpr (hin.2 m self_mem_involved))
  have hincrease := min_le_right (c.currentFixedNoise m) (current m - c.lastValues m)
  have hge := h.ref_ge
  have hle := h.ref_le
  constructor <;> linarith

variable (hrel : m.releasable = false) (hm : c.enabledMetrics m = true)

include hrel hm

/-- The reference value after the collection. -/
theorem Exact.newRef_eq :
    (c.after (.collect current)).refValues m
      = c.refValues m + c.surplusTaken current m
        + min (c.currentFixedNoise m) (current m - c.lastValues m) := by
  obtain ⟨hlower, hupper⟩ := h.newRef_bounds hin
  have hmax := hin.1.add_shift_le
  have hnonneg := hin.1.nonneg m self_mem_involved
  have htaken : c.surplusTaken current m ∈ wholeNumbers :=
    surplusTaken_mem_wholeNumbers (h.surplus_mem_wholeNumbers hin)
  have hincrease : current m - c.lastValues m ∈ wholeNumbers :=
    sub_mem (hin.1.whole _ self_mem_involved) (h.last.whole _ self_mem_involved)
  simp only [after, collect, hm, if_true]
  rw [h.correctedRef_eq hin, h.clampedNoise_eq hin hrel]
  apply binary64Add_of_abs_le (add_mem h.ref_whole htaken)
    (min_mem_wholeNumbers h.noise_whole hincrease)
  rw [abs_le]
  constructor <;> linarith

/-- **A collection in range rounds nothing.** -/
theorem Exact.after_collect : (c.after (.collect current)).Exact m := by
  have hlast : ∀ i ∈ involved c.enabledMetrics m,
      (c.after (.collect current)).lastValues i = current i := by
    intro i hi
    simp only [after, collect, enabled_of_mem_involved hm hi, if_true]
  have hnoise : (c.after (.collect current)).currentFixedNoise m = 0 := by
    simp only [after, collect, hm, if_true]
  obtain ⟨hlower, hupper⟩ := h.newRef_bounds hin
  have hshift := shift_congr hlast
  refine ⟨hin.1.congr hlast, ?_, ?_, ?_, ?_, ?_⟩
  · rw [h.newRef_eq hin hrel hm]
    exact add_mem
      (add_mem h.ref_whole (surplusTaken_mem_wholeNumbers (h.surplus_mem_wholeNumbers hin)))
      (min_mem_wholeNumbers h.noise_whole
        (sub_mem (hin.1.whole _ self_mem_involved) (h.last.whole _ self_mem_involved)))
  · rw [h.newRef_eq hin hrel hm]
    exact hshift.symm ▸ hlower
  · rw [h.newRef_eq hin hrel hm, hlast m self_mem_involved]
    exact hshift.symm ▸ hupper
  · rw [hnoise]
    exact zero_mem wholeNumbers
  · exact hnoise.ge

/-- What a collection reports. -/
theorem Exact.collect_value :
    (c.collect current 0).1 m = (c.after (.collect current)).value m := by
  have hexact := h.after_collect hin hrel hm
  have hlast : (c.after (.collect current)).lastValues m = current m := by
    simp only [after, collect, hm, if_true]
  have hreported : (c.collect current 0).1 m
      = binary64Sub (current m) ((c.after (.collect current)).refValues m) := by
    simp only [after, collect, hm, if_true]
  have hge := hexact.ref_ge
  have hle := hexact.ref_le
  have hmax := hexact.last.add_shift_le
  have hnonneg := hexact.last.nonneg m self_mem_involved
  rw [hreported, value, ← hlast]
  apply binary64Sub_of_abs_le (hexact.last.whole _ self_mem_involved) hexact.ref_whole
  rw [abs_le]
  constructor <;> linarith

/-- By how much a collection moves the reported value of a metric. -/
theorem Exact.collect_value_eq :
    (c.after (.collect current)).value m = c.value m + ((current m - c.lastValues m)
      - c.surplusTaken current m
      - min (c.currentFixedNoise m) (current m - c.lastValues m)) := by
  have hlast : (c.after (.collect current)).lastValues m = current m := by
    simp only [after, collect, hm, if_true]
  rw [value, value, hlast, h.newRef_eq hin hrel hm]
  ring

end Collect

/-! ## The other operations -/

/-- What every update of a place keeps holds of the place after a sequence of updates. -/
theorem foldl_update_induction {P : ℚ → Prop} {f : ℚ → Metric → ℚ} {m : Metric}
    (hf : ∀ v, P v → P (f v m)) (indices : List Metric) {values : MetricValues}
    (hvalues : P (values m)) :
    P (indices.foldl (fun sum idx => Function.update sum idx (f (sum idx) idx)) values m) := by
  induction indices generalizing values with
  | nil => exact hvalues
  | cons idx indices ih =>
    rw [List.foldl_cons]
    apply ih
    by_cases hidx : m = idx
    · subst hidx
      rw [Function.update_self]
      exact hf _ hvalues
    · rwa [Function.update_of_ne hidx]

/-- Natural noise added to a place of natural numbers. -/
theorem binary64Add_natural {v noise : ℚ} (hv : v ∈ wholeNumbers ∧ 0 ≤ v)
    (hnoise : noise ∈ wholeNumbers ∧ 0 ≤ noise) :
    binary64Add v noise ∈ wholeNumbers ∧ 0 ≤ binary64Add v noise :=
  ⟨binary64Add_mem_wholeNumbers hv.1 hnoise.1, binary64Add_nonneg hv.2 hnoise.2⟩

section Natural

variable {c : MetricCollector} {m : Metric} (h : c.Exact m)

include h

theorem Exact.noiseBarrier {current : MetricValues} (hin : c.InRange m (.noiseBarrier current)) :
    (c.noiseBarrier current).Exact m := by
  obtain ⟨hcurrent, hle⟩ := hin
  obtain ⟨hwhole, hnonneg⟩ := foldl_update_induction
    (P := fun v => v ∈ wholeNumbers ∧ 0 ≤ v)
    (f := fun v idx => binary64Add v (binary64Sub (current idx) (c.lastValues idx)))
    (fun v hv => binary64Add_natural hv
      ⟨binary64Sub_mem_wholeNumbers hcurrent (h.last.whole _ self_mem_involved),
        binary64Sub_nonneg hle⟩)
    c.enabledIndices ⟨h.noise_whole, h.noise_nonneg⟩
  exact ⟨h.last, h.ref_whole, h.ref_ge, h.ref_le, hwhole, hnonneg⟩

theorem Exact.addFixedNoise {noise : MetricValues} (hin : c.InRange m (.addFixedNoise noise)) :
    (c.addFixedNoise noise).Exact m := by
  obtain ⟨hwhole, hnonneg⟩ := foldl_update_induction
    (P := fun v => v ∈ wholeNumbers ∧ 0 ≤ v)
    (f := fun v idx => binary64Add v (noise idx)) (fun v hv => binary64Add_natural hv hin)
    c.enabledIndices ⟨h.noise_whole, h.noise_nonneg⟩
  exact ⟨h.last, h.ref_whole, h.ref_ge, h.ref_le, hwhole, hnonneg⟩

end Natural

/-- A new collector has rounded nothing. -/
theorem exact_create {enabledMetrics : Metric → Bool} {initial : MetricValues} {m : Metric}
    (h : RawFits enabledMetrics initial m) : (create enabledMetrics initial).Exact m where
  last := h
  ref_whole := h.whole _ self_mem_involved
  ref_ge := (neg_nonpos.mpr h.shift_nonneg).trans (h.nonneg _ self_mem_involved)
  ref_le := le_add_of_nonneg_right h.shift_nonneg
  noise_whole := zero_mem wholeNumbers
  noise_nonneg := le_rfl

/-! ## One collection against the conditions -/

/-- Both corrections together take off at most the increase `a` when it is no
more than `w`, or when the noise `n` is. -/
theorem le_add_corrected_iff {v a w n : ℚ} :
    v ≤ v + (a - max 0 (a - w) - min n a) ↔ a ≤ w ∨ n ≤ w := by
  rw [le_add_iff_nonneg_right]
  rcases le_total a w with h | h
  · have hmin : min n a ≤ a := min_le_right n a
    rw [max_eq_left (sub_nonpos.2 h)]
    exact iff_of_true (by linarith) (Or.inl h)
  · rw [max_eq_right (sub_nonneg.2 h), sub_sub_cancel, sub_nonneg, min_le_iff, or_comm]

/-- **The reported value goes down exactly when the condition fails**, in the range
without rounding. -/
theorem Exact.value_le_after_collect_iff {c : MetricCollector} {m : Metric}
    {current : MetricValues} (h : c.Exact m) (hin : c.InRange m (.collect current))
    (hrel : m.releasable = false) (hm : c.enabledMetrics m = true) :
    c.value m ≤ (c.after (.collect current)).value m ↔ (m = .cpuTime → c.CpuTimeFits current) := by
  rw [h.collect_value_eq hin hrel hm]
  have hle := min_le_right (c.currentFixedNoise m) (current m - c.lastValues m)
  by_cases hcpu : m = .cpuTime
  · subst hcpu
    rw [surplusTaken_cpuTime current hm]
    by_cases hwall : c.enabledMetrics .wallTime = true
    · simp only [hwall, if_true, CpuTimeFits, surplus, forall_const]
      exact le_add_corrected_iff
    · rw [if_neg hwall, sub_zero]
      exact iff_of_true (by linarith) fun _ h => absurd h hwall
  · have hsurplus := c.surplusTaken_nonpos current hcpu
    simp only [hcpu, false_implies, iff_true]
    linarith

/-! ## Runs -/

/-- The values reported from a state on, after the one last reported. -/
theorem Exact.isChain_value_reported_iff {m : Metric} (hrel : m.releasable = false)
    (steps : List Step) {c : MetricCollector} (h : c.Exact m) (hm : c.enabledMetrics m = true)
    (hin : EachStep after (InRange m) steps c) :
    (c.value m :: (reported steps c).map (· m)).IsChain (· ≤ ·)
      ↔ (m = .cpuTime → CollectionsFit steps c) := by
  induction steps generalizing c with
  | nil => simp [reported, CollectionsFit]
  | cons step steps ih =>
    obtain ⟨hstep, hsteps⟩ := hin
    cases step with
    | collect current =>
      rw [reported, List.map_cons, List.isChain_cons_cons, h.collect_value hstep hrel hm,
        h.value_le_after_collect_iff hstep hrel hm,
        ih (h.after_collect hstep hrel hm) hm hsteps, ← imp_and]
      rfl
    | noiseBarrier current => exact ih (h.noiseBarrier hstep) hm hsteps
    | addFixedNoise noise => exact ih (h.addFixedNoise hstep) hm hsteps

/-- **Reported values never go down exactly when each collection after the
first meets the condition**, for every run of a collector in the range of whole
doubles and every enabled metric that is not releasable.  The condition is one
on the CPU time only. -/
theorem reported_values_mono_iff (enabledMetrics : Metric → Bool) (initial : MetricValues)
    (steps : List Step) {m : Metric} (hm : enabledMetrics m = true) (hrel : m.releasable = false)
    (hinitial : RawFits enabledMetrics initial m)
    (hsteps : EachStep after (InRange m) steps (create enabledMetrics initial)) :
    ((reported steps (create enabledMetrics initial)).map (· m)).IsChain (· ≤ ·)
      ↔ (m = .cpuTime → LaterCollectionsFit steps (create enabledMetrics initial)) := by
  have hc : (create enabledMetrics initial).enabledMetrics m = true := hm
  have hexact := exact_create hinitial
  generalize create enabledMetrics initial = c at hc hexact hsteps
  induction steps generalizing c with
  | nil => simp [reported, LaterCollectionsFit]
  | cons step steps ih =>
    obtain ⟨hstep, hrest⟩ := hsteps
    cases step with
    | collect current =>
      rw [reported, List.map_cons, hexact.collect_value hstep hrel hc]
      exact (hexact.after_collect hstep hrel hc).isChain_value_reported_iff hrel steps hc hrest
    | noiseBarrier current =>
      exact ih (c.noiseBarrier current) hc (hexact.noiseBarrier hstep) hrest
    | addFixedNoise noise =>
      exact ih (c.addFixedNoise noise) hc (hexact.addFixedNoise hstep) hrest

/-- Wall time and CPU time, with `noise` to take off the CPU time after a step in
which the wall time increased by `5` and the CPU time by `10`. -/
def surplusSteps (noise : ℚ) : List Step :=
  [.collect 0, .addFixedNoise (Pi.single .cpuTime noise),
    .collect (Function.update (Pi.single .cpuTime 10) .wallTime 5)]

/-- A noise of `3` fits in the `5` units of wall time. -/
theorem reported_values_mono_surplus :
    ((reported (surplusSteps 3) (create (fun m => m = .wallTime ∨ m = .cpuTime) 0)).map
      (· .cpuTime)).IsChain (· ≤ ·) := by
  refine (reported_values_mono_iff (fun m => m = .wallTime ∨ m = .cpuTime) 0 (surplusSteps 3)
    (m := .cpuTime) rfl rfl ?_ ?_).2 fun _ => ⟨fun _ => Or.inr ?_, trivial⟩
  · decide +kernel
  · decide +kernel
  · decide +kernel

/-- **The reported CPU time goes down**, from `0` to `-5`, although its raw
values do not and no noise is negative. -/
theorem reported_cpu_time_decreases :
    (0 :: rawValues .cpuTime (surplusSteps 10)).IsChain (· ≤ ·)
      ∧ NoiseNonneg .cpuTime (surplusSteps 10)
      ∧ (reported (surplusSteps 10) (create (fun m => m = .wallTime ∨ m = .cpuTime) 0)).map
          (· .cpuTime) = [0, -5] := by
  refine ⟨by decide +kernel, ?_, by decide +kernel⟩
  intro noise hnoise
  have hsame : noise = Pi.single .cpuTime 10 := by simpa [surplusSteps] using hnoise
  rw [hsame, Pi.single_eq_same]
  norm_num

/-- Past the range a wall time goes down with no surplus at all: the noise taken off is
rounded up. -/
example :
    (reported [.collect (Pi.single .wallTime (2 ^ 53)),
        .addFixedNoise (Pi.single .wallTime 4),
        .collect (Pi.single .wallTime (2 ^ 53 + 4))]
      (create (· = .wallTime) (Pi.single .wallTime (2 ^ 53 - 1)))).map (· .wallTime)
        = [1, 0] := by
  decide +kernel

end MetricCollector

end PhpSpx
