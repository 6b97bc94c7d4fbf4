import PhpSpx.Lib.Outcome
import PhpSpx.Profiler.Refinement

/-!
# The calibration of the tracing profiler

The first call of a tracing profiler runs its own hooks to measure what they cost.  A profiler
that calibrates and one marked as calibrated show the same state of the machine of open calls,
whatever the calibration left in the frames, in the table and in the metrics.

* `profilerStep` — the three operations, with calibrations of any length.
* `Refines.profilerStep` — each of them refines the machine's, fatal exits included.
* `calibration_leaves_no_trace` — whole runs.
-/

namespace PhpSpx

open Lib

/-! ## Operations -/

/-- A call of one of the two hooks, or of the finalization. -/
inductive ProfilerOp where
  | hook (op : TracerOp)
  | finalize (inputs : ℕ → HookInput)

/-- One operation, with calibrations of `iterCount` iterations. -/
def profilerStep (iterCount : ℕ) (p : Tracer) : ProfilerOp → Except Die Tracer
  | .hook (.opening call) =>
      callStartWith (calibrateFor iterCount call.function call.calibration) p call.function
        call.input
  | .hook (.closing input) => tracingProfilerCallEnd p input
  | .finalize inputs => tracingProfilerFinalize p inputs

/-- With the length that the code gives its calibration these are the hooks. -/
example (p : Tracer) (op : TracerOp) :
    profilerStep calibrationIterCount p (.hook op) = tracerStep p op := by
  cases op <;> rfl

/-- One operation of the machine. -/
def Live.operate (L : Live) : ProfilerOp → Except Die Live
  | .hook op => L.step op
  | .finalize inputs => (Live.run (Live.closings L.depth inputs) L).map Live.conclude

/-! ## Each operation refines -/

/-- A finalized machine ignores the hooks. -/
theorem Live.run_finalized {L : Live} (h : L.finalized = true) (ops : List TracerOp) :
    Live.run ops L = .ok L := by
  induction ops with
  | nil => rfl
  | cons op ops ih =>
    have hstep : L.step op = .ok L := by
      cases op with
      | opening call => exact congrArg Except.ok (if_pos h)
      | closing input => exact if_pos h
    rw [Live.run_cons, hstep]
    exact ih

theorem unwind_finalized {p : Tracer} (h : p.finalized = true) (n : ℕ)
    (inputs : ℕ → HookInput) : unwind n p inputs = .ok p := by
  induction n generalizing inputs with
  | zero => rfl
  | succ n ih =>
    have hend : tracingProfilerCallEnd p (inputs 0) = .ok p := if_pos h
    rw [unwind, hend]
    split
    · rfl
    · exact ih _

section Refines

variable {p : Tracer} {L : Live}

/-- A call end that the machine cannot make is a fatal exit. -/
theorem Refines.callEnd_error (h : Refines p L) {input : HookInput} {d : Die}
    (hend : L.callEnd input.reading = .error d) : tracingProfilerCallEnd p input = .error d := by
  have hopen : ¬(L.finalized = false → 0 < L.depth) := by
    intro hopen
    obtain ⟨L', hL'⟩ := Live.exists_callEnd hopen input.reading
    rw [hL'] at hend
    exact nomatch hend
  obtain ⟨hfin, hdepth⟩ := Classical.not_imp.mp hopen
  have hzero : p.stack.depth = 0 := h.depth.trans (Nat.eq_zero_of_not_pos hdepth)
  have hd : d = .rewindBelowZeroDepth := by
    obtain ⟨hframes, hhidden⟩ := Nat.add_eq_zero_iff.mp (Nat.eq_zero_of_not_pos hdepth)
    rw [List.length_eq_zero_iff] at hframes
    simp only [Live.callEnd, hfin, hframes, hhidden] at hend
    exact (Except.error.inj hend).symm
  rw [tracingProfilerCallEnd, if_neg (by simp [h.finalized, hfin]), if_pos hzero, hd]

/-- Finalizing once more notifies once more. -/
theorem Refines.finalize_finalized (h : Refines p L) (hfin : L.finalized = true)
    (inputs : ℕ → HookInput) :
    ∃ q, tracingProfilerFinalize p inputs = .ok q ∧ Refines q L.conclude := by
  have hunwind := unwind_finalized (h.activated.finalized.trans hfin) p.stack.depth inputs
  exact ⟨_, by rw [tracingProfilerFinalize, hunwind]; rfl, h.activated.concluded⟩

/-- **Each operation refines**, whatever the length of a calibration it makes. -/
theorem Refines.profilerStep (h : Refines p L) (poised : p.Poised) (iterCount : ℕ)
    (op : ProfilerOp) :
    Agree (· = ·) (fun L' q => Refines q L' ∧ q.Poised) (L.operate op)
      (profilerStep iterCount p op) := by
  cases op with
  | hook op =>
    cases op with
    | opening call =>
      obtain ⟨q, hq, href, hpoised, -⟩ :=
        h.callStartFor poised iterCount call.function call.input call.calibration
      rw [PhpSpx.profilerStep, hq]
      exact .ok ⟨href, hpoised⟩
    | closing input =>
      rw [PhpSpx.profilerStep, Live.operate, Live.step]
      cases hend : L.callEnd input.reading with
      | ok L' =>
        obtain ⟨q, hq, href, hpoised, -⟩ := h.callEndKeeps hend
        rw [hq]
        exact .ok ⟨href, hpoised⟩
      | error d =>
        rw [h.callEnd_error hend]
        exact .error rfl
  | finalize inputs =>
    rw [PhpSpx.profilerStep, Live.operate]
    cases hfin : L.finalized with
    | false =>
      obtain ⟨q, L', hq, hL', href⟩ := h.finalize hfin inputs
      rw [hq, hL']
      exact .ok ⟨href, fun hq' => nomatch href.finalized.symm.trans hq'⟩
    | true =>
      obtain ⟨q, hq, href⟩ := h.finalize_finalized hfin inputs
      rw [hq, Live.run_finalized hfin]
      exact .ok ⟨href, fun hq' => nomatch href.finalized.symm.trans hq'⟩

end Refines

/-! ## Runs -/

/-- Two profilers notified the same events and recorded the same statistics, and neither read
nor wrote a frame beyond its stack. -/
structure SameProfile (q q' : Tracer) : Prop where
  notified : q.notified = q'.notified
  entries : q.funcTable.entries = q'.funcTable.entries
  inside : ∀ i ∈ q.stack.accesses, i < q.stack.capacity
  inside' : ∀ i ∈ q'.stack.accesses, i < q'.stack.capacity

theorem Refines.inside {p : Tracer} {L : Live} (h : Refines p L) :
    ∀ i ∈ p.stack.accesses, i < p.stack.capacity :=
  fun i hi => (h.accesses i hi).trans_le h.stackCapacity

/-- **A calibration leaves no trace.**  A profiler that calibrates in its first call and one that
was marked as calibrated go through every sequence of operations alike, up to the fatal exit of
a call end without a call; and the calibration itself neither fails nor leaves the stack. -/
theorem calibration_leaves_no_trace (limits : Limits) (zendInlineHashFunc : String → UInt64)
    (maxDepth : ℕ) (enabledMetrics : Metric → Bool) (junk : MetricValues) (iterCount : ℕ) :
    let p := spxProfilerTracerCreate limits zendInlineHashFunc maxDepth enabledMetrics junk
    (∀ ops : List ProfilerOp,
      Agree (· = ·) SameProfile (runSteps (profilerStep iterCount) ops p)
        (runSteps (profilerStep iterCount) ops { p with calibrated := true })) ∧
      ∀ (function : PhpFunction) (input : CalibrationInput),
        ∃ q, calibrateFor iterCount function input p = .ok q ∧
          ∀ i ∈ q.stack.accesses, i < q.stack.capacity := by
  intro p
  obtain ⟨href, hidle⟩ := refines_create limits zendInlineHashFunc maxDepth enabledMetrics junk
  have hpoised : p.Poised := hidle.active
  constructor
  · intro ops
    have hmarked : Refines { p with calibrated := true }
        (Live.init limits.maxFunctionTableSize p.maxDepth enabledMetrics junk) :=
      ⟨href.ok, href.finalized, href.enabledMetrics, href.reporter, href.maxDepth,
        href.stackCapacity, href.accesses, href.depth, href.frames, href.table,
        href.tableCapacity, href.entries, href.called, href.first, href.cum, href.max,
        href.notified⟩
    have hstep : ∀ (L : Live) (q : Tracer) op, Refines q L ∧ q.Poised →
        Agree (· = ·) (fun L' q' => Refines q' L' ∧ q'.Poised) (L.operate op)
          (profilerStep iterCount q op) := fun L q op h => h.1.profilerStep h.2 iterCount op
    have hrun := agree_runSteps hstep ⟨href, hpoised⟩ ops
    have hrun' := agree_runSteps hstep ⟨hmarked, hpoised⟩ ops
    refine (hrun.common hrun').mono ?_
    rintro q q' ⟨L, ⟨hq, -⟩, hq', -⟩
    exact ⟨hq.notified.trans hq'.notified.symm, hq.entries.trans hq'.entries.symm, hq.inside,
      hq'.inside⟩
  · intro function input
    have hact : p.active = true → p.stack.depth < p.maxDepth :=
      fun ha => of_decide_eq_true ((hpoised rfl).symm.trans ha)
    obtain ⟨q, hq, hcal⟩ :=
      calibrateFor_spec iterCount href.finalized href.table hact href.accesses function input
    refine ⟨q, hq, ?_⟩
    intro i hi
    rw [hcal.stackCapacity]
    exact (hcal.accesses i hi).trans_le href.stackCapacity

end PhpSpx
