import PhpSpx.Engine.ProfilingHandler
import PhpSpx.Profiler.Refinement

/-!
# Profilers at a call stack

What it means for an attached profiler to have been given the frames of a call
stack, and that its three operations keep this.

* `TracerAt` — a tracing profiler in use, at some depth: it can be given a call
  and, if the depth is positive, the end of one.
* `Profiler.At`, `AttachedProfiler.At` — a profiler at the frames of a stack.
* `CapacityDie` — the only errors there can be.
-/

namespace PhpSpx

open Lib

/-! ## The tracing profiler -/

/-- The tracing profiler is in use and its depth is `n`. -/
def TracerAt (n : ℕ) (tracer : Tracer) : Prop :=
  ∃ L, Refines tracer L ∧ Idle tracer ∧ L.finalized = false ∧ L.depth = n

theorem TracerAt.depth {n : ℕ} {tracer : Tracer} (h : TracerAt n tracer) :
    tracer.stack.depth = n := by
  obtain ⟨L, href, -, -, hd⟩ := h
  rw [href.depth, hd]

theorem tracerAt_create (limits : Limits) (zendInlineHashFunc : String → UInt64) (maxDepth : ℕ)
    (enabledMetrics : Metric → Bool) (junk : MetricValues) :
    TracerAt 0 (spxProfilerTracerCreate limits zendInlineHashFunc maxDepth enabledMetrics junk) := by
  obtain ⟨href, hidle⟩ := refines_create limits zendInlineHashFunc maxDepth enabledMetrics junk
  exact ⟨_, href, hidle, rfl, rfl⟩

theorem TracerAt.callStart {n : ℕ} {tracer : Tracer} (h : TracerAt n tracer) (f : PhpFunction)
    (input : HookInput) (calibration : CalibrationInput) :
    ∃ t, tracingProfilerCallStart tracer f input calibration = .ok t ∧ TracerAt (n + 1) t := by
  obtain ⟨L, href, hidle, hfin, rfl⟩ := h
  obtain ⟨t, ht, href', hidle'⟩ := href.callStart hidle f input calibration
  obtain ⟨hd, hfin'⟩ := L.depth_callStart hfin f input.reading
  exact ⟨t, ht, _, href', hidle', hfin', hd⟩

theorem TracerAt.callEnd {n : ℕ} {tracer : Tracer} (h : TracerAt (n + 1) tracer)
    (input : HookInput) :
    ∃ t, tracingProfilerCallEnd tracer input = .ok t ∧ TracerAt n t := by
  obtain ⟨L, href, hidle, hfin, hd⟩ := h
  obtain ⟨M, hM⟩ := L.exists_callEnd (fun _ => by omega) input.reading
  obtain ⟨hd', hfin'⟩ := L.depth_callEnd hfin hM
  obtain ⟨t, ht, href', hidle'⟩ := href.callEnd hidle.calibrated hM
  exact ⟨t, ht, M, href', hidle', hfin', by omega⟩

theorem TracerAt.finalize {n : ℕ} {tracer : Tracer} (h : TracerAt n tracer)
    (unwinding : ℕ → HookInput) : ∃ t, tracingProfilerFinalize tracer unwinding = .ok t := by
  obtain ⟨L, href, -, hfin, -⟩ := h
  obtain ⟨t, -, ht, -, -⟩ := href.finalize hfin unwinding
  exact ⟨t, ht⟩

/-- A tracing profiler with no open call cannot be given the end of one. -/
theorem TracerAt.callEnd_zero {tracer : Tracer} (h : TracerAt 0 tracer) (input : HookInput) :
    tracingProfilerCallEnd tracer input = .error .rewindBelowZeroDepth := by
  have hdepth := h.depth
  obtain ⟨L, href, -, hfin, -⟩ := h
  rw [tracingProfilerCallEnd, href.finalized, hfin, if_neg Bool.false_ne_true, if_pos hdepth]

/-! ## The sampled profiler -/

/-- The two hooks of the tracing profiler do not fail and keep `T`, said of the open
calls, innermost first. -/
structure KeptByCalls (T : List PhpFunction → Tracer → Prop) : Prop where
  callStart : ∀ {calls : List PhpFunction} {tracer : Tracer}, T calls tracer →
    ∀ f input calibration, ∃ t,
      tracingProfilerCallStart tracer f input calibration = .ok t ∧ T (f :: calls) t
  callEnd : ∀ {f : PhpFunction} {calls : List PhpFunction} {tracer : Tracer},
    T (f :: calls) tracer → ∀ input, ∃ t, tracingProfilerCallEnd tracer input = .ok t ∧ T calls t

/-- `T` at the open calls before the forwarded ones gives `T` at those after them. -/
theorem KeptByCalls.forwardCalls {T : List PhpFunction → Tracer → Prop} (hT : KeptByCalls T)
    {tracer : Tracer} {calls calls' : List PhpFunction} (h : T calls tracer)
    {w : List (Paren PhpFunction Unit)} (hw : pending calls w = some calls')
    (inputs : ℕ → ProfilerInput) : ∃ t, forwardCalls w inputs tracer = .ok t ∧ T calls' t := by
  induction w generalizing tracer calls inputs with
  | nil =>
    obtain rfl : calls = calls' := by simpa using hw
    exact ⟨tracer, rfl, h⟩
  | cons op w ih =>
    cases op with
    | opening f =>
      rw [pending_opening] at hw
      obtain ⟨t, ht, hat⟩ := hT.callStart h f (inputs 0).hook (inputs 0).calibration
      obtain ⟨u, hu, hat'⟩ := ih hat hw fun i => inputs (i + 1)
      refine ⟨u, ?_, hat'⟩
      rw [PhpSpx.forwardCalls, ht]
      exact hu
    | closing b =>
      cases calls with
      | nil => exact nomatch hw
      | cons c calls =>
        rw [pending_closing_cons] at hw
        obtain ⟨t, ht, hat⟩ := hT.callEnd h (inputs 0).hook
        obtain ⟨u, hu, hat'⟩ := ih hat hw fun i => inputs (i + 1)
        refine ⟨u, ?_, hat'⟩
        rw [PhpSpx.forwardCalls, ht]
        exact hu

/-- The sampled profiler follows a step of the sampling one. -/
theorem KeptByCalls.sampled {T : List PhpFunction → Tracer → Prop} (hT : KeptByCalls T)
    {hashCode : PhpFunction → UInt64} {before after : Sampler} {tracer : Tracer}
    (hbefore : before.Shown hashCode)
    (htracer : ∀ calls, pending [] before.sampledProfiler = some calls → T calls tracer)
    (hafter : after.Shown hashCode)
    (hadded : ∃ calls, after.sampledProfiler = before.sampledProfiler ++ calls) (env : HookEnv) :
    ∃ t, Profiler.sampled before after env tracer = .ok (.sampling after t) ∧
      ∀ calls, pending [] after.sampledProfiler = some calls → T calls t := by
  obtain ⟨calls, hcalls, -⟩ := hbefore
  obtain ⟨calls', hcalls', -⟩ := hafter
  obtain ⟨w, hw⟩ := hadded
  have hpending : pending calls w = some calls' := by
    rw [hw, pending_append, hcalls] at hcalls'
    exact hcalls'
  obtain ⟨t, ht, hat⟩ := hT.forwardCalls (htracer calls hcalls) hpending env.inputs
  refine ⟨t, ?_, ?_⟩
  · rw [Profiler.sampled, hw, List.drop_left, ht]
    rfl
  · intro shown hshown
    rw [hcalls'] at hshown
    cases hshown
    exact hat

/-- The depth of the tracing profiler is kept. -/
theorem keptByCalls_tracerAt : KeptByCalls fun calls => TracerAt calls.length where
  callStart := fun h f input calibration => h.callStart f input calibration
  callEnd := fun h input => h.callEnd input

/-- A step of the sampling profiler only adds to the calls made to the sampled
one. -/
theorem Sampler.sampledProfiler_handleSample (hashCode : PhpFunction → UInt64) (p : Sampler)
    (callEnd ready : Bool) :
    ∃ calls, (p.handleSample hashCode callEnd ready).sampledProfiler
      = p.sampledProfiler ++ calls := by
  cases ready with
  | false => exact ⟨[], (List.append_nil _).symm⟩
  | true =>
    have hshow : ∃ calls, (p.showCurrent hashCode).sampledProfiler = p.sampledProfiler ++ calls :=
      ⟨_, List.append_assoc _ _ _⟩
    cases callEnd with
    | false => exact hshow
    | true =>
      obtain ⟨calls, hcalls⟩ := hshow
      refine ⟨calls ++ [.closing ()], ?_⟩
      show (p.showCurrent hashCode).sampledProfiler ++ [.closing ()] = _
      rw [hcalls, List.append_assoc]

/-! ## Any profiler -/

section Hash

variable (zendInlineHashFunc : String → UInt64) (samplingPeriod : ℕ)

/-- A profiler at the frames of a call stack: the tracing profiler has as many open
calls; the sampling profiler has these frames, and the sampled profiler as many
open calls as it was shown. -/
def Profiler.At (frames : List PhpFunction) : Profiler → Prop
  | .tracing tracer => TracerAt frames.length tracer
  | .sampling sampler tracer =>
    0 < samplingPeriod ∧ sampler.Shown (PhpFunction.hashCode zendInlineHashFunc) ∧
      sampler.current = frames ∧
      ∀ calls, pending [] sampler.sampledProfiler = some calls → TracerAt calls.length tracer

/-- The errors of a stack that is full: that of the hooks or, when there is a
sampling profiler, its own. -/
def CapacityDie : Die → Prop
  | .callStackCapacityExceeded => True
  | .samplerStackCapacityExceeded => 0 < samplingPeriod
  | .failedToPush | .failedToPop | .rewindBelowZeroDepth => False

variable {zendInlineHashFunc samplingPeriod}

/-- The sampled profiler follows a step of the sampling one. -/
theorem Profiler.sampled_at {before after : Sampler} {tracer : Tracer} {frames : List PhpFunction}
    (hperiod : 0 < samplingPeriod)
    (hbefore : before.Shown (PhpFunction.hashCode zendInlineHashFunc))
    (htracer : ∀ calls, pending [] before.sampledProfiler = some calls →
      TracerAt calls.length tracer)
    (hafter : after.Shown (PhpFunction.hashCode zendInlineHashFunc))
    (hadded : ∃ calls, after.sampledProfiler = before.sampledProfiler ++ calls)
    (hcurrent : after.current = frames) (env : HookEnv) :
    ∃ p, Profiler.sampled before after env tracer = .ok p ∧
      p.At zendInlineHashFunc samplingPeriod frames := by
  obtain ⟨t, ht, hat⟩ := keptByCalls_tracerAt.sampled hbefore htracer hafter hadded env
  exact ⟨.sampling after t, ht, hperiod, hafter, hcurrent, hat⟩

theorem Profiler.At.callStart {frames : List PhpFunction} {p : Profiler}
    (h : p.At zendInlineHashFunc samplingPeriod frames) (f : PhpFunction) (env : HookEnv) :
    Ends (p.callStart zendInlineHashFunc f env)
      (fun q => q.At zendInlineHashFunc samplingPeriod (frames ++ [f]))
      (CapacityDie samplingPeriod) := by
  cases p with
  | tracing tracer =>
    obtain ⟨t, ht, hat⟩ := TracerAt.callStart h f (env.inputs 0).hook (env.inputs 0).calibration
    apply ends_of_ok (a := .tracing t) (by rw [Profiler.callStart, ht]; rfl)
    show TracerAt (frames ++ [f]).length t
    rw [List.length_append]
    exact hat
  | sampling sampler tracer =>
    obtain ⟨hperiod, hshown, hcurrent, htracer⟩ := h
    rw [Profiler.callStart, samplingProfilerCallStart]
    split
    · exact hperiod
    · set pushed : Sampler := { sampler with current := sampler.current ++ [f] } with hpushed
      have hshown' : pushed.Shown (PhpFunction.hashCode zendInlineHashFunc) := hshown
      have hafter : (pushed.handleSample (PhpFunction.hashCode zendInlineHashFunc) false
          env.ready).Shown (PhpFunction.hashCode zendInlineHashFunc) :=
        hshown'.handleSample (fun hend => absurd hend Bool.false_ne_true) env.ready
      obtain ⟨q, hq, hat⟩ := Profiler.sampled_at hperiod hshown' htracer hafter
        (pushed.sampledProfiler_handleSample _ false env.ready)
        (by rw [pushed.current_handleSample, hpushed, hcurrent]) env
      exact ends_of_ok hq hat

theorem Profiler.At.callEnd {frames : List PhpFunction} (hne : frames ≠ []) {p : Profiler}
    (h : p.At zendInlineHashFunc samplingPeriod frames) (env : HookEnv) :
    ∃ q, p.callEnd zendInlineHashFunc env = .ok q ∧
      q.At zendInlineHashFunc samplingPeriod frames.dropLast := by
  cases p with
  | tracing tracer =>
    have hlen : frames.length = frames.dropLast.length + 1 := by
      have := List.length_pos_iff.mpr hne
      rw [List.length_dropLast]
      omega
    have hat : TracerAt (frames.dropLast.length + 1) tracer := hlen ▸ h
    obtain ⟨t, ht, hat'⟩ := hat.callEnd (env.inputs 0).hook
    exact ⟨.tracing t, by rw [Profiler.callEnd, ht]; rfl, hat'⟩
  | sampling sampler tracer =>
    obtain ⟨hperiod, hshown, hcurrent, htracer⟩ := h
    have hafter : (samplingProfilerCallEnd (PhpFunction.hashCode zendInlineHashFunc) sampler
        env.ready).Shown (PhpFunction.hashCode zendInlineHashFunc) :=
      hshown.handleSample (fun _ => hcurrent ▸ hne) env.ready
    refine Profiler.sampled_at hperiod hshown htracer hafter
      (sampler.sampledProfiler_handleSample _ true env.ready) ?_ env
    show (sampler.handleSample _ true env.ready).current.dropLast = _
    rw [sampler.current_handleSample, hcurrent]

theorem Profiler.At.finalize {frames : List PhpFunction} {p : Profiler}
    (h : p.At zendInlineHashFunc samplingPeriod frames) (unwinding : ℕ → HookInput) :
    ∃ q, p.finalize unwinding = .ok q := by
  cases p with
  | tracing tracer =>
    obtain ⟨t, ht⟩ := TracerAt.finalize h unwinding
    exact ⟨.tracing t, by rw [Profiler.finalize, ht]; rfl⟩
  | sampling sampler tracer =>
    obtain ⟨-, ⟨calls, hcalls, -⟩, -, htracer⟩ := h
    obtain ⟨t, ht⟩ := (htracer calls hcalls).finalize unwinding
    exact ⟨.sampling sampler t, by rw [Profiler.finalize, ht]; rfl⟩

variable (zendInlineHashFunc samplingPeriod)

/-- An attached profiler at the frames of a call stack: these are also the functions
of the open ones of the calls it was given. -/
structure AttachedProfiler.At (frames : List PhpFunction) (a : AttachedProfiler) : Prop where
  profiler : a.profiler.At zendInlineHashFunc samplingPeriod frames
  given : pending [] a.given = some frames.reverse

variable {zendInlineHashFunc samplingPeriod}

theorem AttachedProfiler.At.callStart {frames : List PhpFunction} {a : AttachedProfiler}
    (h : a.At zendInlineHashFunc samplingPeriod frames) (f : PhpFunction) (env : HookEnv) :
    Ends (a.callStart zendInlineHashFunc f env)
      (fun b => b.At zendInlineHashFunc samplingPeriod (frames ++ [f]))
      (CapacityDie samplingPeriod) := by
  refine (h.profiler.callStart f env).map fun q hq => ⟨hq, ?_⟩
  show pending [] (a.given ++ [.opening f]) = _
  rw [pending_append, h.given, Option.bind_some, pending_opening, pending_nil, List.reverse_concat]

theorem AttachedProfiler.At.callEnd {frames : List PhpFunction} (hne : frames ≠ [])
    {a : AttachedProfiler} (h : a.At zendInlineHashFunc samplingPeriod frames) (env : HookEnv) :
    ∃ b, a.callEnd zendInlineHashFunc env = .ok b ∧
      b.At zendInlineHashFunc samplingPeriod frames.dropLast := by
  obtain ⟨q, hq, hat⟩ := h.profiler.callEnd hne env
  refine ⟨⟨q, a.given ++ [.closing ()]⟩, by rw [AttachedProfiler.callEnd, hq]; rfl, hat, ?_⟩
  obtain ⟨init, f, rfl⟩ := (List.eq_nil_or_concat' frames).resolve_left hne
  show pending [] (a.given ++ [.closing ()]) = _
  rw [pending_append, h.given, Option.bind_some, List.reverse_concat, pending_closing_cons,
    pending_nil, List.dropLast_concat]

/-- The replay of a call stack brings a profiler at it. -/
theorem AttachedProfiler.At.replay {frames : List PhpFunction} {a : AttachedProfiler}
    (h : a.At zendInlineHashFunc samplingPeriod frames) (fs : List PhpFunction)
    (envs : ℕ → HookEnv) :
    Ends (replayCallStack zendInlineHashFunc fs envs a)
      (fun b => b.At zendInlineHashFunc samplingPeriod (frames ++ fs))
      (CapacityDie samplingPeriod) := by
  induction fs generalizing frames a envs with
  | nil =>
    rw [List.append_nil]
    exact h
  | cons f fs ih =>
    apply (h.callStart f (envs 0)).bind
    intro b hb
    have hrest := ih hb fun i => envs (i + 1)
    rwa [List.append_assoc] at hrest

end Hash

end PhpSpx
