import PhpSpx.Metric.Reported

/-!
# CPU time and wall time

A collection takes the surplus of CPU time over wall time off the reported CPU time, and
after that the noise off each of the two clocks.  The surplus is that of the raw
increments: noise that lies more on the wall time than on the CPU time still lets the
reported CPU time grow faster.  Beyond the precision of the doubles, rounding does too.

* `NoiseBalanced` — the condition on a collection.
* `Exact.cpuTime_le_wallTime_iff` — one collection in range.
* `reported_cpu_time_bounded_iff` — whole runs in range.
-/

namespace PhpSpx

open Lib

namespace MetricCollector

/-- The noise on the CPU time covers all that the collection reports of it, or the noise
on the wall time exceeds it by no more than the wall time increased more. -/
def NoiseBalanced (c : MetricCollector) (current : MetricValues) : Prop :=
  min (current .cpuTime - c.lastValues .cpuTime) (current .wallTime - c.lastValues .wallTime)
      ≤ c.currentFixedNoise .cpuTime
  ∨ c.currentFixedNoise .wallTime - c.currentFixedNoise .cpuTime
      ≤ max 0 ((current .wallTime - c.lastValues .wallTime)
        - (current .cpuTime - c.lastValues .cpuTime))

/-- Every collection after the first meets a condition on the state before it and the
raw values. -/
def LaterCollections (P : MetricCollector → MetricValues → Prop) :
    Bool → List Step → MetricCollector → Prop
  | _, [], _ => True
  | later, .collect current :: steps, c =>
      (later = true → P c current) ∧ LaterCollections P true steps (c.after (.collect current))
  | later, step :: steps, c => LaterCollections P later steps (c.after step)

/-- From one reported vector to the next one the CPU time increases no more than the
wall time does. -/
def CpuTimeBounded (values values' : MetricValues) : Prop :=
  values' .cpuTime - values .cpuTime ≤ values' .wallTime - values .wallTime

instance (values values' : MetricValues) : Decidable (CpuTimeBounded values values') :=
  inferInstanceAs (Decidable (_ ≤ _))

/-! ## One collection -/

/-- The increment `b` less its noise `n`, and `w` less what there is in it of the noise `m`. -/
theorem sub_le_sub_min_iff {b w n m : ℚ} : b - n ≤ w - min m w ↔ b ≤ n ∨ m - n ≤ w - b := by
  have hwall : min m w ≤ w := min_le_right m w
  have hnoise : min m w ≤ m := min_le_left m w
  constructor
  · intro hle
    rcases le_total m w with hm | hm
    · rw [min_eq_left hm] at hle
      exact .inr (by linarith)
    · rw [min_eq_right hm] at hle
      exact .inl (by linarith)
  · rintro (hle | hle)
    · linarith
    · linarith

/-- The increments `a` of the CPU time and `w` of the wall time, with the noises `n` and
`m` on them. -/
theorem corrected_le_iff {a w n m : ℚ} :
    a - max 0 (a - w) - min n a ≤ w - min m w ↔ min a w ≤ n ∨ m - n ≤ max 0 (w - a) := by
  have hwall : min m w ≤ w := min_le_right m w
  rcases le_total a w with h | h
  · rw [max_eq_left (sub_nonpos.mpr h), max_eq_right (sub_nonneg.mpr h), min_eq_left h, sub_zero]
    rcases le_total a n with hn | hn
    · rw [min_eq_right hn]
      exact iff_of_true (by linarith) (.inl hn)
    · rw [min_eq_left hn]
      exact sub_le_sub_min_iff
  · rw [max_eq_right (sub_nonneg.mpr h), max_eq_left (sub_nonpos.mpr h), min_eq_right h,
      sub_sub_cancel]
    rcases le_total w n with hn | hn
    · have hw : w ≤ min n a := le_min hn h
      exact iff_of_true (by linarith) (.inl hn)
    · rw [min_eq_left (hn.trans h)]
      have hiff := sub_le_sub_min_iff (b := w) (w := w) (n := n) (m := m)
      rwa [sub_self] at hiff

/-- Both clocks in range. -/
def ClocksInRange (c : MetricCollector) (step : Step) : Prop :=
  c.InRange .cpuTime step ∧ c.InRange .wallTime step

instance (c : MetricCollector) (step : Step) : Decidable (c.ClocksInRange step) :=
  inferInstanceAs (Decidable (_ ∧ _))

section Enabled

variable {c : MetricCollector} {current : MetricValues}
  (hwall : c.enabledMetrics .wallTime = true)

include hwall

/-- The increase of the CPU time that a collection reports. -/
theorem Exact.collect_cpuTime_eq (h : c.Exact .cpuTime)
    (hin : c.InRange .cpuTime (.collect current)) (hcpu : c.enabledMetrics .cpuTime = true) :
    (c.after (.collect current)).value .cpuTime - c.value .cpuTime =
      (current .cpuTime - c.lastValues .cpuTime) - max 0 (c.surplus current)
        - min (c.currentFixedNoise .cpuTime) (current .cpuTime - c.lastValues .cpuTime) := by
  rw [h.collect_value_eq hin rfl hcpu, surplusTaken_cpuTime current hcpu, if_pos hwall]
  ring

/-- The increase of the wall time that a collection reports. -/
theorem Exact.collect_wallTime_eq (h : c.Exact .wallTime)
    (hin : c.InRange .wallTime (.collect current)) :
    (c.after (.collect current)).value .wallTime - c.value .wallTime =
      (current .wallTime - c.lastValues .wallTime)
        - min (c.currentFixedNoise .wallTime) (current .wallTime - c.lastValues .wallTime) := by
  have hsame : c.surplusTaken current .wallTime = 0 := by simp [surplusTaken, Shifted]
  rw [h.collect_value_eq hin rfl hwall, hsame]
  ring

/-- **The CPU time of one collection** outgrows its wall time exactly when the condition
fails. -/
theorem Exact.cpuTime_le_wallTime_iff (hc : c.Exact .cpuTime) (hw : c.Exact .wallTime)
    (hin : c.ClocksInRange (.collect current)) (hcpu : c.enabledMetrics .cpuTime = true) :
    (c.after (.collect current)).value .cpuTime - c.value .cpuTime ≤
        (c.after (.collect current)).value .wallTime - c.value .wallTime ↔
      c.NoiseBalanced current := by
  rw [hc.collect_cpuTime_eq hwall hin.1 hcpu, hw.collect_wallTime_eq hwall hin.2, surplus]
  exact corrected_le_iff

end Enabled

/-! ## Runs -/

/-- The values reported from a state on, after the ones last reported. -/
theorem Exact.isChain_cpuTimeBounded_iff (steps : List Step) {c : MetricCollector}
    (hc : c.Exact .cpuTime) (hw : c.Exact .wallTime) (hcpu : c.enabledMetrics .cpuTime = true)
    (hwall : c.enabledMetrics .wallTime = true) (hin : EachStep after ClocksInRange steps c)
    {values : MetricValues} (hvaluesc : values .cpuTime = c.value .cpuTime)
    (hvaluesw : values .wallTime = c.value .wallTime) :
    (values :: reported steps c).IsChain CpuTimeBounded ↔
      LaterCollections NoiseBalanced true steps c := by
  induction steps generalizing c values with
  | nil => simp [reported, LaterCollections]
  | cons step steps ih =>
    obtain ⟨hstep, hsteps⟩ := hin
    cases step with
    | collect current =>
      have hreportedc := hc.collect_value hstep.1 rfl hcpu
      have hreportedw := hw.collect_value hstep.2 rfl hwall
      have hrest := ih (hc.after_collect hstep.1 rfl hcpu) (hw.after_collect hstep.2 rfl hwall)
        hcpu hwall hsteps hreportedc hreportedw
      rw [reported, List.isChain_cons_cons, CpuTimeBounded, hreportedc, hreportedw, hvaluesc,
        hvaluesw, hc.cpuTime_le_wallTime_iff hwall hw hstep hcpu, hrest]
      simp only [LaterCollections, forall_const]
    | noiseBarrier current =>
      exact ih (hc.noiseBarrier hstep.1) (hw.noiseBarrier hstep.2) hcpu hwall hsteps hvaluesc
        hvaluesw
    | addFixedNoise noise =>
      exact ih (hc.addFixedNoise hstep.1) (hw.addFixedNoise hstep.2) hcpu hwall hsteps hvaluesc
        hvaluesw

/-- **The reported CPU time never outgrows the reported wall time**, from any collection
to the next one, exactly when each collection after the first meets the condition, in
every run in the range of whole doubles. -/
theorem reported_cpu_time_bounded_iff (enabledMetrics : Metric → Bool) (initial : MetricValues)
    (steps : List Step) (hcpu : enabledMetrics .cpuTime = true)
    (hwall : enabledMetrics .wallTime = true)
    (hinitial : RawFits enabledMetrics initial .cpuTime)
    (hsteps : EachStep after ClocksInRange steps (create enabledMetrics initial)) :
    (reported steps (create enabledMetrics initial)).IsChain CpuTimeBounded ↔
      LaterCollections NoiseBalanced false steps (create enabledMetrics initial) := by
  have hcpu' : (create enabledMetrics initial).enabledMetrics .cpuTime = true := hcpu
  have hwall' : (create enabledMetrics initial).enabledMetrics .wallTime = true := hwall
  have hc := exact_create hinitial
  have hw := exact_create (hinitial.wallTime hcpu hwall)
  generalize create enabledMetrics initial = c at hcpu' hwall' hc hw hsteps
  induction steps generalizing c with
  | nil => simp [reported, LaterCollections]
  | cons step steps ih =>
    obtain ⟨hstep, hsteps⟩ := hsteps
    cases step with
    | collect current =>
      have hrest := Exact.isChain_cpuTimeBounded_iff steps (hc.after_collect hstep.1 rfl hcpu')
        (hw.after_collect hstep.2 rfl hwall') hcpu' hwall' hsteps
        (hc.collect_value hstep.1 rfl hcpu') (hw.collect_value hstep.2 rfl hwall')
      rw [reported, hrest]
      simp [LaterCollections]
    | noiseBarrier current =>
      exact ih (c.noiseBarrier current) hcpu' hwall' (hc.noiseBarrier hstep.1)
        (hw.noiseBarrier hstep.2) hsteps
    | addFixedNoise noise =>
      exact ih (c.addFixedNoise noise) hcpu' hwall' (hc.addFixedNoise hstep.1)
        (hw.addFixedNoise hstep.2) hsteps

/-- One unit of wall time, then, after a noise barrier, the unit of CPU time that goes
with it: a clock of coarse steps. -/
def barrierSteps : List Step :=
  [.collect 0, .noiseBarrier (Pi.single .wallTime 1),
    .collect (Function.update (Pi.single .cpuTime 1) .wallTime 1)]

/-- The CPU time grows faster: its unit is reported, that of the wall time is noise. -/
theorem reported_cpu_time_outgrows :
    (0 :: rawValues .cpuTime barrierSteps).IsChain (· ≤ ·) ∧
      (0 :: rawValues .wallTime barrierSteps).IsChain (· ≤ ·) ∧
      (reported barrierSteps (create (fun m => m = .wallTime ∨ m = .cpuTime) 0)).map
          (fun values => (values .cpuTime, values .wallTime)) = [(0, 0), (1, 0)] ∧
      ¬(reported barrierSteps (create (fun m => m = .wallTime ∨ m = .cpuTime) 0)).IsChain
        CpuTimeBounded := by
  refine ⟨by decide +kernel, by decide +kernel, by decide +kernel, by decide +kernel⟩

/-- The same noise on both clocks does no harm. -/
theorem reported_cpu_time_bounded_noise :
    (reported [.collect 0, .addFixedNoise (fun _ => 3),
        .collect (Function.update (Pi.single .cpuTime 4) .wallTime 5)]
      (create (fun m => m = .wallTime ∨ m = .cpuTime) 0)).IsChain CpuTimeBounded := by
  apply (reported_cpu_time_bounded_iff (fun m => m = .wallTime ∨ m = .cpuTime) 0 _ rfl rfl
    (by decide +kernel) (by decide +kernel)).mpr
  refine ⟨nofun, fun _ => .inr ?_, trivial⟩
  decide +kernel

/-- Past the range the noise of one unit is lost on the CPU time and doubled on the wall
time. -/
example :
    (reported [.collect (Pi.single .wallTime (2 ^ 53 + 2)), .addFixedNoise (fun _ => 1),
        .collect (Function.update (Pi.single .cpuTime 2) .wallTime (2 ^ 53 + 4))]
      (create (fun m => m = .wallTime ∨ m = .cpuTime)
        (Pi.single .wallTime (2 ^ 53 + 2)))).map
          (fun values => (values .cpuTime, values .wallTime)) = [(0, 0), (1, 0)] := by
  decide +kernel

end MetricCollector

end PhpSpx
