import PhpSpx.Engine.Attached

/-!
# The profiler follows the hook call stack

Whatever the engine does, and wherever the profiler is started and stopped, the
attached profiler was given the frames of the hook call stack, and a tracing
profiler has its depth; but for the start of a sampled profile that fails late.

* `Engine.Fits` — the invariant: the attached profiler is at the hook call stack,
  which holds at least the frames that are still to be popped.
* `profilingHandlerStart_cases` — what the start of a profile can do.
* `Engine.Ok.step`, `Engine.Ok.step_fails` — one operation.
* `profiler_in_step_iff` — whole requests.
-/

namespace PhpSpx

open Lib

/-! ## The hooks -/

section Engine

variable (zendInlineHashFunc : String → UInt64)

/-- The attached profiler is at the hook call stack. -/
def Engine.Follows (e : Engine) : Prop :=
  ∀ a, e.profiler = some a → a.At zendInlineHashFunc e.config.samplingPeriod e.frames

/-- Nothing but the call stack and the profiler differs. -/
def Engine.Moved (e e' : Engine) : Prop :=
  e' = { e with callStack := e'.callStack, profiler := e'.profiler }

variable {zendInlineHashFunc}

theorem Engine.follows_of_none {e : Engine} (h : e.profiler = none) :
    e.Follows zendInlineHashFunc := by
  intro a ha
  rw [h] at ha
  cases ha

/-- The before hook pushes a frame and gives it to the profiler. -/
theorem Engine.Follows.hookBefore {e : Engine} (h : e.Follows zendInlineHashFunc)
    (current : PhpFunction) (env : HookEnv) :
    Ends (profilingHandlerExHookBefore zendInlineHashFunc e current env)
      (fun e' => e.Moved e' ∧ e'.Follows zendInlineHashFunc ∧
        e'.frames.length = e.frames.length + 1)
      (CapacityDie e.config.samplingPeriod) := by
  rw [profilingHandlerExHookBefore]
  cases hstack : e.callStack with
  | none => exact trivial
  | some stack =>
    by_cases hfull : stack.isFull = true
    · simp only [hfull, if_true]
      exact trivial
    · have hpush : ∀ f, stack.push f = some ⟨stack.frames ++ [f], stack.capacity⟩ := fun f => by
        rw [CallStack.push, if_neg (by simpa [CallStack.isFull] using hfull)]
      have hframes : e.frames = stack.frames := by rw [Engine.frames, hstack]; rfl
      simp only [hfull, Bool.false_eq_true, if_false, hpush]
      have hlen : (stack.frames ++ [spxPhpCurrentFunction e.hooks current]).length
          = e.frames.length + 1 := by
        rw [List.length_append, hframes]
        rfl
      cases hp : e.profiler with
      | none => exact ⟨rfl, Engine.follows_of_none rfl, hlen⟩
      | some a =>
        have hat := h a hp
        rw [hframes] at hat
        refine (hat.callStart _ env).map fun b hb => ⟨rfl, ?_, hlen⟩
        intro c hc
        cases hc
        exact hb

/-- The after hook pops a frame and tells the profiler, when there is one. -/
theorem Engine.Follows.hookAfter {e : Engine} (h : e.Follows zendInlineHashFunc)
    (hne : 0 < e.frames.length) (env : HookEnv) :
    ∃ e', profilingHandlerExHookAfter zendInlineHashFunc e env = .ok e' ∧ e.Moved e' ∧
      e'.Follows zendInlineHashFunc ∧ e'.frames.length + 1 = e.frames.length := by
  cases hstack : e.callStack with
  | none =>
    rw [Engine.frames, hstack] at hne
    exact absurd hne (lt_irrefl 0)
  | some stack =>
    have hframes : e.frames = stack.frames := by rw [Engine.frames, hstack]; rfl
    have hpop : stack.pop = some ⟨stack.frames.dropLast, stack.capacity⟩ := by
      rw [hframes] at hne
      rw [CallStack.pop, CallStack.depth, if_neg (Nat.ne_of_gt hne)]
    have hlen : stack.frames.dropLast.length + 1 = e.frames.length := by
      rw [hframes] at hne ⊢
      rw [List.length_dropLast]
      omega
    rw [profilingHandlerExHookAfter, hstack, Option.bind_some, hpop]
    cases hp : e.profiler with
    | none =>
      exact ⟨_, rfl, rfl, Engine.follows_of_none rfl, hlen⟩
    | some a =>
      have hat := h a hp
      rw [hframes] at hat hne
      obtain ⟨b, hb, hat'⟩ := hat.callEnd (List.length_pos_iff.mp hne) env
      refine ⟨{ e with callStack := some ⟨stack.frames.dropLast, stack.capacity⟩, profiler := some b },
        ?_, rfl, fun c hc => ?_, hlen⟩
      · simp only [hb]
        rfl
      · cases hc
        exact hat'

/-! ## The invariant -/

/-- What the hooks, and the start and the stop of a profile, leave alone. -/
def Engine.kept (e : Engine) : SpxConfig × List Activity × Bool × Bool × Bool :=
  (e.config, e.activities, e.hooks.userHooked, e.hooks.internalHooked, e.hooks.globalHooksEnabled)

/-- The two states agree on it. -/
def Engine.Kept (e e' : Engine) : Prop := e'.kept = e.kept

theorem Engine.Kept.config {e e' : Engine} (h : e.Kept e') : e'.config = e.config :=
  congrArg Prod.fst h

theorem Engine.Kept.trans {e e' e'' : Engine} (h : e.Kept e') (h' : e'.Kept e'') : e.Kept e'' :=
  Eq.trans h' h

theorem Engine.Moved.kept {e e' : Engine} (h : e.Moved e') : e.Kept e' := by
  rw [Engine.Kept, h]
  rfl

theorem Engine.Moved.hooks {e e' : Engine} (h : e.Moved e') : e'.hooks = e.hooks := by rw [h]

/-- The pseudo call of the request shutdown, when it is on the call stack. -/
def HookContext.pseudoFrames (hooks : HookContext) : ℕ :=
  (hooks.requestShutdown && hooks.internalHooked).toNat

variable (zendInlineHashFunc)

/-- The attached profiler is at the hook call stack, which has room for `k` pops
above the pseudo call. -/
structure Engine.Fits (k : ℕ) (e : Engine) : Prop where
  follows : e.Follows zendInlineHashFunc
  room : k + e.hooks.pseudoFrames ≤ e.frames.length

variable {zendInlineHashFunc}

/-- A before hook that is set makes room for its pop. -/
theorem Engine.Fits.before {k : ℕ} {e : Engine} (h : e.Fits zendInlineHashFunc k) (hooked : Bool)
    (current : PhpFunction) (env : HookEnv) :
    Ends (if hooked then profilingHandlerExHookBefore zendInlineHashFunc e current env else .ok e)
      (fun e' => e.Moved e' ∧ e'.Fits zendInlineHashFunc (k + hooked.toNat))
      (CapacityDie e.config.samplingPeriod) := by
  cases hooked with
  | false => exact ⟨rfl, h⟩
  | true =>
    refine (h.follows.hookBefore current env).mono fun e' he' => ⟨he'.1, he'.2.1, ?_⟩
    have hroom := h.room
    rw [he'.1.hooks, he'.2.2, Bool.toNat_true]
    omega

/-- An after hook that is set uses the room made for it. -/
theorem Engine.Fits.after {k : ℕ} {e : Engine} {hooked : Bool}
    (h : e.Fits zendInlineHashFunc (k + hooked.toNat)) (env : HookEnv) :
    ∃ e', (if hooked then profilingHandlerExHookAfter zendInlineHashFunc e env else .ok e) = .ok e' ∧
      e.Moved e' ∧ e'.Fits zendInlineHashFunc k := by
  cases hooked with
  | false => exact ⟨e, rfl, rfl, h⟩
  | true =>
    have hroom := h.room
    rw [Bool.toNat_true] at hroom
    obtain ⟨e', he', hmoved, hfollows, hlen⟩ := h.follows.hookAfter (by omega) env
    refine ⟨e', he', hmoved, hfollows, ?_⟩
    rw [hmoved.hooks]
    omega

/-- The push of the pseudo call. -/
theorem Engine.Fits.pushRequestShutdown {k : ℕ} {e : Engine} (h : e.Fits zendInlineHashFunc k)
    (env : HookEnv) :
    Ends (pushRequestShutdown zendInlineHashFunc e env)
      (fun e' => e.Kept e' ∧ e'.Fits zendInlineHashFunc k) (CapacityDie e.config.samplingPeriod) := by
  have hroom : k ≤ e.frames.length := le_trans (Nat.le_add_right _ _) h.room
  rw [PhpSpx.pushRequestShutdown]
  set e₁ : Engine := { e with hooks := { e.hooks with requestShutdown := true } } with he₁
  have hkept : e.Kept e₁ := rfl
  cases hinternal : e₁.hooks.internalHooked with
  | false =>
    refine ⟨hkept, h.follows, ?_⟩
    rw [HookContext.pseudoFrames, hinternal, Bool.and_false]
    exact hroom
  | true =>
    have hfollows : (e₁.setActive (some phpRequestShutdown)).Follows zendInlineHashFunc := h.follows
    refine (hfollows.hookBefore ⟨"", ""⟩ env).map ?_
    intro e' he'
    refine ⟨he'.1.kept, he'.2.1, ?_⟩
    have hlen : (e'.setActive none).frames.length = e.frames.length + 1 := he'.2.2
    rw [hlen]
    exact Nat.add_le_add hroom (Bool.toNat_le _)

/-- The pop of the pseudo call. -/
theorem Engine.Fits.executionFinalize {k : ℕ} {e : Engine} (h : e.Fits zendInlineHashFunc k)
    (env : HookEnv) :
    ∃ e', spxPhpExecutionFinalize zendInlineHashFunc e env = .ok e' ∧ e.Kept e' ∧
      e'.Fits zendInlineHashFunc k := by
  rw [spxPhpExecutionFinalize]
  cases hshutdown : e.hooks.requestShutdown with
  | false => exact ⟨e, rfl, rfl, h⟩
  | true =>
    have hroom := h.room
    rw [HookContext.pseudoFrames, hshutdown, Bool.true_and] at hroom
    cases hinternal : e.hooks.internalHooked with
    | false =>
      refine ⟨{ e with hooks := { e.hooks with requestShutdown := false } }, rfl,
        rfl, h.follows, ?_⟩
      exact le_trans (Nat.le_add_right _ _) hroom
    | true =>
      rw [hinternal, Bool.toNat_true] at hroom
      have hfollows : (e.setActive (some phpRequestShutdown)).Follows zendInlineHashFunc := h.follows
      have hne : 0 < (e.setActive (some phpRequestShutdown)).frames.length :=
        lt_of_lt_of_le (Nat.succ_pos k) hroom
      obtain ⟨e', he', hmoved, hfollows', hlen⟩ := hfollows.hookAfter hne env
      refine ⟨{ e'.setActive none with
          hooks := { (e'.setActive none).hooks with requestShutdown := false } }, ?_,
        hmoved.kept, hfollows', ?_⟩
      · simp only [he']
        rfl
      · have hlen' : e'.frames.length + 1 = e.frames.length := hlen
        show k ≤ e'.frames.length
        omega

/-- Whether an activity has its hooks set. -/
def HookContext.hooked (hooks : HookContext) : Activity → Bool
  | .userCall _ => hooks.userHooked
  | .internalCall _ | .compileFile | .compileString | .gcCollectCycles => hooks.internalHooked

theorem Engine.Fits.namedBefore {k : ℕ} {e : Engine} (h : e.Fits zendInlineHashFunc k)
    (name : String) (env : HookEnv) :
    Ends (namedBefore zendInlineHashFunc name e env)
      (fun e' => e.Kept e' ∧ e'.Fits zendInlineHashFunc (k + e.hooks.internalHooked.toNat))
      (CapacityDie e.config.samplingPeriod) := by
  have h₁ : (e.setActive (some name)).Fits zendInlineHashFunc k := ⟨h.follows, h.room⟩
  exact (h₁.before e.hooks.internalHooked ⟨"", ""⟩ env).mono fun e' he' => ⟨he'.1.kept, he'.2⟩

theorem Engine.Fits.namedAfter {k : ℕ} {e : Engine}
    (h : e.Fits zendInlineHashFunc (k + e.hooks.internalHooked.toNat)) (env : HookEnv) :
    ∃ e', namedAfter zendInlineHashFunc e env = .ok e' ∧ e.Kept e' ∧
      e'.Fits zendInlineHashFunc k := by
  obtain ⟨e', he', hmoved, hfits⟩ := h.after env
  refine ⟨e'.setActive none, ?_, hmoved.kept, hfits.follows, hfits.room⟩
  rw [PhpSpx.namedAfter, internalAfter, he']
  rfl

/-- The hook before an activity makes room for the one after it. -/
theorem Engine.Fits.activityBefore {k : ℕ} {e : Engine} (h : e.Fits zendInlineHashFunc k)
    (activity : Activity) (env : HookEnv) :
    Ends (activityBefore zendInlineHashFunc e env activity)
      (fun e' => e.Kept e' ∧
        e'.Fits zendInlineHashFunc (k + (e.hooks.hooked activity).toNat))
      (CapacityDie e.config.samplingPeriod) := by
  cases activity with
  | userCall function =>
    set e₁ : Engine := { e with hooks := { e.hooks with userDepth := e.hooks.userDepth + 1 } }
    have h₁ : e₁.Fits zendInlineHashFunc k := ⟨h.follows, h.room⟩
    exact (h₁.before e.hooks.userHooked function env).mono fun e' he' => ⟨he'.1.kept, he'.2⟩
  | internalCall function =>
    exact (h.before e.hooks.internalHooked function env).mono fun e' he' => ⟨he'.1.kept, he'.2⟩
  | compileFile => exact h.namedBefore _ env
  | compileString => exact h.namedBefore _ env
  | gcCollectCycles => exact h.namedBefore _ env

/-- The hook after an activity uses the room the one before it made. -/
theorem Engine.Fits.activityAfter {k : ℕ} {e : Engine} {activity : Activity}
    (h : e.Fits zendInlineHashFunc (k + (e.hooks.hooked activity).toNat))
    (env shutdownEnv : HookEnv) :
    Ends (activityAfter zendInlineHashFunc e env shutdownEnv activity)
      (fun e' => e.Kept e' ∧ e'.Fits zendInlineHashFunc k)
      (CapacityDie e.config.samplingPeriod) := by
  cases activity with
  | userCall function =>
    obtain ⟨e', he', hmoved, hfits⟩ := h.after env
    set e₁ : Engine := { e' with hooks := { e'.hooks with userDepth := e'.hooks.userDepth - 1 } }
      with he₁
    have hkept₁ : e.Kept e₁ := hmoved.kept
    have hfits₁ : e₁.Fits zendInlineHashFunc k := ⟨hfits.follows, hfits.room⟩
    show Ends (executeExAfter zendInlineHashFunc e env shutdownEnv) _ _
    have hbody : executeExAfter zendInlineHashFunc e env shutdownEnv =
        if e₁.hooks.userDepth = 0 ∧ e₁.hooks.requestShutdown = false then
          PhpSpx.pushRequestShutdown zendInlineHashFunc e₁ shutdownEnv
        else .ok e₁ := by
      rw [executeExAfter]
      exact congrArg (Except.bind · _) he'
    rw [hbody]
    split
    · have hpush := hfits₁.pushRequestShutdown shutdownEnv
      rw [hkept₁.config] at hpush
      exact hpush.mono fun e'' he'' => ⟨hkept₁.trans he''.1, he''.2⟩
    · exact ⟨hkept₁, hfits₁⟩
  | internalCall function =>
    obtain ⟨e', he', hmoved, hfits⟩ := h.after env
    exact ends_of_ok he' ⟨hmoved.kept, hfits⟩
  | compileFile =>
    obtain ⟨e', he', hkept, hfits⟩ := h.namedAfter env
    exact ends_of_ok he' ⟨hkept, hfits⟩
  | compileString =>
    obtain ⟨e', he', hkept, hfits⟩ := h.namedAfter env
    exact ends_of_ok he' ⟨hkept, hfits⟩
  | gcCollectCycles =>
    obtain ⟨e', he', hkept, hfits⟩ := h.namedAfter env
    exact ends_of_ok he' ⟨hkept, hfits⟩

/-! ## Starting and stopping -/

/-- After the pseudo call is popped, the profiler is finalized and detached. -/
theorem profilingHandlerStop_of_finalized {e e₁ : Engine} {env : StopEnv}
    (he₁ : spxPhpExecutionFinalize zendInlineHashFunc e env.hook = .ok e₁)
    (hprofiler : ∀ a, e₁.profiler = some a →
      ∃ frames, a.At zendInlineHashFunc e₁.config.samplingPeriod frames) :
    profilingHandlerStop zendInlineHashFunc e env
      = .ok { e₁ with profiler := none, reporter := none } := by
  rw [profilingHandlerStop, he₁]
  dsimp only [Except.bind]
  cases hp : e₁.profiler with
  | none => rfl
  | some a =>
    obtain ⟨frames, hat⟩ := hprofiler a hp
    obtain ⟨q, hq⟩ := hat.profiler.finalize env.unwinding
    simp only [hq]
    rfl

theorem Engine.Fits.handlerStop {k : ℕ} {e : Engine} (h : e.Fits zendInlineHashFunc k)
    (env : StopEnv) :
    ∃ e', profilingHandlerStop zendInlineHashFunc e env = .ok e' ∧ e.Kept e' ∧
      e'.Fits zendInlineHashFunc k ∧ e'.profiler = none := by
  obtain ⟨e₁, he₁, hkept, hfits⟩ := h.executionFinalize env.hook
  exact ⟨_, profilingHandlerStop_of_finalized he₁ fun a ha => ⟨_, hfits.follows a ha⟩,
    hkept, ⟨Engine.follows_of_none rfl, hfits.room⟩, rfl⟩

/-- A sampled profile is started, and of its parts only the sampling profiler cannot
be created. -/
def Engine.SamplerFails (e : Engine) (env : StartEnv) : Prop :=
  env.reporterCreated = true ∧ env.tracerCreated = true ∧ 0 < e.config.samplingPeriod ∧
    env.samplerCreated = false

/-- The pseudo call of the request shutdown is on the call stack. -/
def Engine.InShutdown (e : Engine) : Prop :=
  e.hooks.requestShutdown = true ∧ e.hooks.internalHooked = true

variable (zendInlineHashFunc)

/-- After a profile was started, or failed to be: a profiler is attached only when
it has not been given anything yet. -/
structure Engine.Started (k : ℕ) (e : Engine) : Prop where
  room : k + e.hooks.pseudoFrames ≤ e.frames.length
  attached : ∀ a, e.profiler = some a → a.At zendInlineHashFunc e.config.samplingPeriod []

variable {zendInlineHashFunc}

theorem Engine.Fits.started {k : ℕ} {e : Engine} (h : e.Fits zendInlineHashFunc k)
    (hp : e.profiler = none) : e.Started zendInlineHashFunc k := by
  refine ⟨h.room, ?_⟩
  intro a ha
  rw [hp] at ha
  cases ha

/-- Without the pseudo call, a profiler that was given nothing can be stopped. -/
theorem Engine.Started.handlerStop {k : ℕ} {e : Engine} (h : e.Started zendInlineHashFunc k)
    (hpseudo : ¬e.InShutdown) (env : StopEnv) :
    ∃ e', profilingHandlerStop zendInlineHashFunc e env = .ok e' ∧ e.Kept e' ∧
      e'.Fits zendInlineHashFunc k ∧ e'.profiler = none := by
  have hroom : k ≤ e.frames.length := le_trans (Nat.le_add_right _ _) h.room
  set e₁ : Engine := { e with hooks := { e.hooks with requestShutdown := false } } with he₁
  have hfin : spxPhpExecutionFinalize zendInlineHashFunc e env.hook = .ok e₁ := by
    rw [spxPhpExecutionFinalize]
    split
    · rename_i hshutdown
      rw [he₁, ← hshutdown]
    · rename_i hshutdown
      have hinternal : ¬e.hooks.internalHooked = true := fun hi =>
        hpseudo ⟨by simpa using hshutdown, hi⟩
      rw [if_neg hinternal]
      rfl
  exact ⟨_, profilingHandlerStop_of_finalized hfin fun a ha => ⟨[], h.attached a ha⟩,
    rfl, ⟨Engine.follows_of_none rfl, hroom⟩, rfl⟩

/-- The state with a reporter, its key and a profiler that was given nothing. -/
def Engine.attach (e : Engine) (reporter : Option ConfigReport) (key : String)
    (profiler : Option Profiler) : Engine :=
  { e with
    reporter := reporter
    fullReportKey := key
    profiler := profiler.map fun p => ⟨p, []⟩ }

variable (limits : Limits)

/-- What a start can do when no profiler is attached: fail with none, succeed, or
fail with the tracing profiler attached. -/
theorem profilingHandlerStart_cases {e : Engine} (hp : e.profiler = none) (env : StartEnv) :
    (¬e.SamplerFails env ∧ ∃ reporter key, profilingHandlerStart limits zendInlineHashFunc e env =
      profilingHandlerStop zendInlineHashFunc (e.attach reporter key none) env.stop) ∨
    (¬e.SamplerFails env ∧ ∃ reporter key p,
      profilingHandlerStart limits zendInlineHashFunc e env =
          .ok (e.attach reporter key (some p)) ∧
        p.At zendInlineHashFunc e.config.samplingPeriod []) ∨
    (e.SamplerFails env ∧ ∃ reporter key tracer,
      profilingHandlerStart limits zendInlineHashFunc e env =
          profilingHandlerStop zendInlineHashFunc
            (e.attach reporter key (some (.tracing tracer))) env.stop ∧
        TracerAt 0 tracer) := by
  have hdetached : ¬e.profiler.isSome = true := by simp [hp]
  have hattach : ∀ reporter key,
      e.attach reporter key none = { e with reporter := reporter, fullReportKey := key } := by
    intro reporter key
    rw [Engine.attach, hp]
    rfl
  rw [profilingHandlerStart, if_neg hdetached, Engine.SamplerFails]
  cases hreporter : env.reporterCreated with
  | false => exact .inl ⟨fun h => absurd h.1 Bool.false_ne_true, none, "", by rw [hattach]; rfl⟩
  | true =>
    cases htracer : env.tracerCreated with
    | false => exact .inl ⟨fun h => absurd h.2.1 Bool.false_ne_true, _, _, by rw [hattach]; rfl⟩
    | true =>
      have hat := tracerAt_create limits zendInlineHashFunc e.config.maxDepth
        e.config.enabledMetrics env.junk
      by_cases hperiod : e.config.samplingPeriod > 0
      · cases hsampler : env.samplerCreated with
        | false =>
          exact .inr (.inr ⟨⟨rfl, rfl, hperiod, rfl⟩, _, _, _, if_pos hperiod, hat⟩)
        | true =>
          refine .inr (.inl ⟨fun h => absurd h.2.2.2 (Ne.symm Bool.false_ne_true), _, _, _,
            if_pos hperiod, hperiod, shown_create _, rfl, fun calls hcalls => ?_⟩)
          obtain rfl : [] = calls := by simpa [spxProfilerSamplerCreate] using hcalls
          exact hat
      · exact .inr (.inl ⟨fun h => hperiod h.2.2.1, _, _, _, if_neg hperiod, hat⟩)

/-- A start of a profile, unless the sampling profiler fails in the shutdown. -/
theorem Engine.Fits.handlerStart {k : ℕ} {e : Engine} (h : e.Fits zendInlineHashFunc k)
    (hp : e.profiler = none) {env : StartEnv} (hok : ¬(e.SamplerFails env ∧ e.InShutdown)) :
    ∃ e', profilingHandlerStart limits zendInlineHashFunc e env = .ok e' ∧ e.Kept e' ∧
      e'.Started zendInlineHashFunc k ∧ (e'.profiler = none ∨ e'.frames = e.frames) := by
  have hattached : ∀ reporter key (p : Profiler),
      p.At zendInlineHashFunc e.config.samplingPeriod [] →
      (e.attach reporter key (some p)).Started zendInlineHashFunc k := by
    intro reporter key p hat
    refine ⟨h.room, ?_⟩
    intro a ha
    cases ha
    exact ⟨hat, rfl⟩
  rcases profilingHandlerStart_cases limits hp env with ⟨-, reporter, key, hstart⟩
    | ⟨-, reporter, key, p, hstart, hat⟩ | ⟨hfails, reporter, key, tracer, hstart, hat⟩
  · have h₁ : (e.attach reporter key none).Fits zendInlineHashFunc k :=
      ⟨Engine.follows_of_none rfl, h.room⟩
    obtain ⟨e', he', hkept, hfits, hnone⟩ := h₁.handlerStop env.stop
    exact ⟨e', hstart.trans he', hkept, hfits.started hnone, .inl hnone⟩
  · exact ⟨_, hstart, rfl, hattached reporter key p hat, .inr rfl⟩
  · have hpseudo : ¬(e.attach reporter key (some (.tracing tracer))).InShutdown :=
      fun hin => hok ⟨hfails, hin⟩
    obtain ⟨e', he', hkept, hfits, hnone⟩ :=
      (hattached reporter key (.tracing tracer) hat).handlerStop hpseudo env.stop
    exact ⟨e', hstart.trans he', hkept, hfits.started hnone, .inl hnone⟩

/-- A start whose sampling profiler fails in the shutdown tells a tracing profiler
that was given nothing to end a call. -/
theorem Engine.Fits.handlerStart_fails {k : ℕ} {e : Engine} (h : e.Fits zendInlineHashFunc k)
    (hp : e.profiler = none) {env : StartEnv} (hfails : e.SamplerFails env)
    (hin : e.InShutdown) :
    profilingHandlerStart limits zendInlineHashFunc e env = .error .rewindBelowZeroDepth := by
  obtain ⟨reporter, key, tracer, hstart, hat⟩ : ∃ reporter key tracer,
      profilingHandlerStart limits zendInlineHashFunc e env =
          profilingHandlerStop zendInlineHashFunc
            (e.attach reporter key (some (.tracing tracer))) env.stop ∧
        TracerAt 0 tracer := by
    rcases profilingHandlerStart_cases limits hp env with h | h | h
    · exact absurd hfails h.1
    · exact absurd hfails h.1
    · exact h.2
  have hroom := h.room
  rw [HookContext.pseudoFrames, hin.1, hin.2] at hroom
  obtain ⟨stack, hstack, hne⟩ : ∃ stack, e.callStack = some stack ∧ stack.depth ≠ 0 := by
    cases hstack : e.callStack with
    | none =>
      rw [Engine.frames, hstack] at hroom
      exact absurd hroom (Nat.not_succ_le_zero k)
    | some stack =>
      rw [Engine.frames, hstack] at hroom
      refine ⟨stack, rfl, ?_⟩
      intro hz
      exact absurd (hroom.trans_eq hz) (Nat.not_succ_le_zero k)
  have hafter : ∀ name, profilingHandlerExHookAfter zendInlineHashFunc
      ((e.attach reporter key (some (.tracing tracer))).setActive name) env.stop.hook
        = .error .rewindBelowZeroDepth := by
    intro name
    have hpop : ((e.attach reporter key (some (.tracing tracer))).setActive name).callStack.bind
        CallStack.pop = some { stack with frames := stack.frames.dropLast } := by
      change e.callStack.bind CallStack.pop = _
      rw [hstack]
      exact if_neg hne
    rw [profilingHandlerExHookAfter, hpop]
    show (AttachedProfiler.callEnd zendInlineHashFunc ⟨.tracing tracer, []⟩ env.stop.hook).map _ = _
    rw [AttachedProfiler.callEnd, Profiler.callEnd, hat.callEnd_zero]
    rfl
  have hshutdown : (e.attach reporter key (some (.tracing tracer))).hooks.requestShutdown = true :=
    hin.1
  have hinternal : (e.attach reporter key (some (.tracing tracer))).hooks.internalHooked = true :=
    hin.2
  rw [hstart, profilingHandlerStop, spxPhpExecutionFinalize, hshutdown, hinternal, if_neg (by simp),
    if_pos rfl, hafter]
  rfl

/-- A call of `spx_profiler_start` starts a profile. -/
def Engine.Begins (e : Engine) : Prop :=
  e.config.autoStart = false ∧ e.spanDepth = 0 ∧ e.profiler = none

theorem Engine.Fits.profilerStart {k : ℕ} {e : Engine} (h : e.Fits zendInlineHashFunc k)
    {env : StartEnv} (hok : ¬(e.Begins ∧ e.SamplerFails env ∧ e.InShutdown)) :
    Ends (spxProfilerStart limits zendInlineHashFunc e env)
      (fun e' => e.Kept e' ∧ e'.Fits zendInlineHashFunc k)
      (CapacityDie e.config.samplingPeriod) := by
  rw [spxProfilerStart]
  by_cases hauto : e.config.autoStart = true
  · rw [if_pos hauto]
    exact ⟨rfl, h⟩
  rw [if_neg hauto]
  set e₁ : Engine := { e with spanDepth := e.spanDepth + 1 }
  have h₁ : e₁.Fits zendInlineHashFunc k := ⟨h.follows, h.room⟩
  by_cases hspan : e₁.spanDepth > 1
  · rw [if_pos hspan]
    exact ⟨rfl, h₁⟩
  rw [if_neg hspan]
  cases hp : e₁.profiler with
  | some a => exact ⟨rfl, h₁⟩
  | none =>
    rw [Option.isSome_none, if_neg Bool.false_ne_true]
    have hspan' : e.spanDepth + 1 ≤ 1 := not_lt.mp hspan
    have hok' : ¬(e₁.SamplerFails env ∧ e₁.InShutdown) := fun hbad =>
      hok ⟨⟨by simpa using hauto, by omega, hp⟩, hbad⟩
    obtain ⟨e', he', hkept, hstarted, -⟩ := h₁.handlerStart limits hp hok'
    have hkept₁ : e.Kept e' := hkept
    rw [he']
    dsimp only [Except.bind]
    cases hp' : e'.profiler with
    | none => exact ⟨hkept₁, Engine.follows_of_none hp', hstarted.room⟩
    | some a =>
      have hat := hstarted.attached a hp'
      rw [hkept₁.config] at hat
      apply (hat.replay e'.frames env.replay).map
      intro b hb
      refine ⟨hkept₁, ?_, hstarted.room⟩
      intro c hc
      cases hc
      show b.At zendInlineHashFunc e'.config.samplingPeriod e'.frames
      rw [hkept₁.config]
      exact hb

theorem Engine.Fits.profilerStart_fails {k : ℕ} {e : Engine} (h : e.Fits zendInlineHashFunc k)
    {env : StartEnv} (hbegins : e.Begins) (hfails : e.SamplerFails env) (hin : e.InShutdown) :
    spxProfilerStart limits zendInlineHashFunc e env = .error .rewindBelowZeroDepth := by
  obtain ⟨hauto, hspan, hp⟩ := hbegins
  set e₁ : Engine := { e with spanDepth := e.spanDepth + 1 } with he₁
  have h₁ : e₁.Fits zendInlineHashFunc k := ⟨h.follows, h.room⟩
  have hstart : profilingHandlerStart limits zendInlineHashFunc e₁ env
      = .error .rewindBelowZeroDepth := h₁.handlerStart_fails limits hp hfails hin
  have hspan₁ : ¬e₁.spanDepth > 1 := by simp [he₁, hspan]
  have hp₁ : ¬e₁.profiler.isSome = true := by simp [he₁, hp]
  rw [spxProfilerStart, if_neg (by simp [hauto])]
  show (if e₁.spanDepth > 1 then _ else _) = _
  rw [if_neg hspan₁, if_neg hp₁, hstart]
  rfl

theorem Engine.Fits.profilerStop {k : ℕ} {e : Engine} (h : e.Fits zendInlineHashFunc k)
    (env : StopEnv) :
    ∃ e' key, spxProfilerStop zendInlineHashFunc e env = .ok (e', key) ∧ e.Kept e' ∧
      e'.Fits zendInlineHashFunc k := by
  rw [spxProfilerStop]
  split
  · exact ⟨e, none, rfl, rfl, h⟩
  split
  · exact ⟨e, none, rfl, rfl, h⟩
  set e₁ : Engine := { e with spanDepth := e.spanDepth - 1 }
  have h₁ : e₁.Fits zendInlineHashFunc k := ⟨h.follows, h.room⟩
  dsimp only
  split
  · exact ⟨e₁, none, rfl, rfl, h₁⟩
  obtain ⟨e', he', hkept, hfits, -⟩ := h₁.handlerStop env
  exact ⟨e', _, by rw [he']; rfl, hkept, hfits⟩

/-! ## Runs -/

/-- How many of some activities will run an after hook. -/
def HookContext.openHooks (hooks : HookContext) (activities : List Activity) : ℕ :=
  if hooks.globalHooksEnabled then activities.countP hooks.hooked else 0

theorem HookContext.openHooks_of_disabled {hooks : HookContext}
    (h : hooks.globalHooksEnabled = false) (activities : List Activity) :
    hooks.openHooks activities = 0 := by
  rw [openHooks, h, if_neg Bool.false_ne_true]

theorem HookContext.openHooks_cons {hooks : HookContext} (h : hooks.globalHooksEnabled = true)
    (activity : Activity) (activities : List Activity) :
    hooks.openHooks (activity :: activities)
      = hooks.openHooks activities + (hooks.hooked activity).toNat := by
  rw [openHooks, openHooks, if_pos h, if_pos h, List.countP_cons]
  cases hooks.hooked activity <;> rfl

theorem HookContext.openHooks_tail_le (hooks : HookContext) (activities : List Activity) :
    hooks.openHooks activities.tail ≤ hooks.openHooks activities := by
  rw [openHooks, openHooks]
  split
  · exact (List.tail_sublist activities).countP_le
  · exact le_rfl

/-- How many of the activities the engine is in will run an after hook. -/
def Engine.openHooks (e : Engine) : ℕ := e.hooks.openHooks e.activities

theorem Engine.Kept.openHooks {e e' : Engine} (h : e.Kept e') : e'.openHooks = e.openHooks := by
  simp only [Engine.Kept, Engine.kept, Prod.mk.injEq] at h
  obtain ⟨-, hactivities, huser, hinternal, henabled⟩ := h
  have hhooked : e'.hooks.hooked = e.hooks.hooked := by
    funext activity
    cases activity with
    | userCall f => exact huser
    | internalCall f => exact hinternal
    | compileFile => exact hinternal
    | compileString => exact hinternal
    | gcCollectCycles => exact hinternal
  rw [Engine.openHooks, Engine.openHooks, HookContext.openHooks, HookContext.openHooks, henabled,
    hactivities, hhooked]

variable (zendInlineHashFunc)

/-- The invariant of a request under `config`. -/
structure Engine.Ok (config : SpxConfig) (e : Engine) : Prop where
  config : e.config = config
  fits : e.Fits zendInlineHashFunc e.openHooks

/-- The condition on a step: a call of `spx_profiler_start` does not start a sampled
profile whose sampling profiler fails in the shutdown. -/
def EngineOp.Sound (e : Engine) : EngineOp → Prop
  | .profilerStart env => ¬(e.Begins ∧ e.SamplerFails env ∧ e.InShutdown)
  | .enter .. | .leave .. | .bailout | .profilerStop .. => True

variable {zendInlineHashFunc}

theorem Engine.Kept.ok {config : SpxConfig} {e e' : Engine} (h : e.Kept e')
    (hconfig : e.config = config) (hfits : e'.Fits zendInlineHashFunc e.openHooks) :
    e'.Ok zendInlineHashFunc config :=
  ⟨h.config.trans hconfig, by rw [h.openHooks]; exact hfits⟩

/-- **One step.** -/
theorem Engine.Ok.step {config : SpxConfig} {e : Engine} (h : e.Ok zendInlineHashFunc config)
    {op : EngineOp} (hop : op.Sound e) :
    Ends (engineStep limits zendInlineHashFunc e op) (Engine.Ok zendInlineHashFunc config)
      (CapacityDie config.samplingPeriod) := by
  obtain ⟨rfl, hfits⟩ := h
  cases op with
  | enter activity env =>
    set e₁ : Engine := { e with activities := activity :: e.activities } with he₁
    have h₁ : e₁.Fits zendInlineHashFunc e.openHooks := ⟨hfits.follows, hfits.room⟩
    show Ends (if e₁.hooks.globalHooksEnabled = true then
      activityBefore zendInlineHashFunc e₁ env activity else .ok e₁) _ _
    cases henabled : e₁.hooks.globalHooksEnabled with
    | false =>
      have hopen : e₁.openHooks = e.openHooks :=
        (HookContext.openHooks_of_disabled henabled _).trans
          (@HookContext.openHooks_of_disabled e.hooks henabled _).symm
      exact ⟨rfl, by rw [hopen]; exact h₁⟩
    | true =>
      have hopen : e₁.openHooks = e.openHooks + (e₁.hooks.hooked activity).toNat :=
        HookContext.openHooks_cons henabled activity e.activities
      refine (h₁.activityBefore activity env).mono fun e' he' => he'.1.ok rfl ?_
      rw [hopen]
      exact he'.2
  | leave env shutdownEnv =>
    cases hactivities : e.activities with
    | nil =>
      rw [engineStep, hactivities]
      exact ⟨rfl, hfits⟩
    | cons activity activities =>
      set e₁ : Engine := { e with activities := activities } with he₁
      rw [engineStep, hactivities]
      show Ends (if e₁.hooks.globalHooksEnabled = true then
        activityAfter zendInlineHashFunc e₁ env shutdownEnv activity else .ok e₁) _ _
      rw [Engine.openHooks, hactivities] at hfits
      cases henabled : e₁.hooks.globalHooksEnabled with
      | false =>
        refine ⟨rfl, hfits.follows, ?_⟩
        have hroom := hfits.room
        rw [Engine.openHooks, HookContext.openHooks_of_disabled henabled, Nat.zero_add]
        exact le_trans (Nat.le_add_left _ _) hroom
      | true =>
        rw [HookContext.openHooks_cons henabled] at hfits
        have h₁ : e₁.Fits zendInlineHashFunc
            (e₁.openHooks + (e₁.hooks.hooked activity).toNat) := ⟨hfits.follows, hfits.room⟩
        exact (h₁.activityAfter env shutdownEnv).mono fun e' he' => he'.1.ok rfl he'.2
  | bailout =>
    exact ⟨rfl, hfits.follows,
      le_trans (Nat.add_le_add_right (e.hooks.openHooks_tail_le _) _) hfits.room⟩
  | profilerStart env =>
    exact (hfits.profilerStart limits hop).mono fun e' he' => he'.1.ok rfl he'.2
  | profilerStop env =>
    obtain ⟨e', key, he', hkept, hfits'⟩ := hfits.profilerStop env
    exact ends_of_ok (by rw [engineStep, he']; rfl) (hkept.ok rfl hfits')

/-- A step that does not meet the condition makes the process die. -/
theorem Engine.Ok.step_fails {config : SpxConfig} {e : Engine} (h : e.Ok zendInlineHashFunc config)
    {op : EngineOp} (hop : ¬op.Sound e) :
    ∃ d, engineStep limits zendInlineHashFunc e op = .error d ∧
      ¬CapacityDie config.samplingPeriod d := by
  cases op with
  | profilerStart env =>
    obtain ⟨hbegins, hfails, hin⟩ := not_not.mp hop
    exact ⟨_, h.fits.profilerStart_fails limits hbegins hfails hin, id⟩
  | enter activity env => exact absurd trivial hop
  | leave env shutdownEnv => exact absurd trivial hop
  | bailout => exact absurd trivial hop
  | profilerStop env => exact absurd trivial hop

/-- The state a request starts in. -/
theorem exists_profilingHandlerInit (config : SpxConfig) (env : InitEnv) :
    ∃ e, profilingHandlerInit limits zendInlineHashFunc config env = .ok e ∧
      e.Ok zendInlineHashFunc config := by
  rw [profilingHandlerInit]
  cases hcreated : env.callStackCreated with
  | false => exact ⟨_, rfl, rfl, Engine.follows_of_none rfl, le_rfl⟩
  | true =>
    set e : Engine := { Engine.idle config env with
      callStack := some ⟨[], limits.maxStackDepth⟩
      fullReportKey := ""
      spanDepth := 0
      hooks :=
        { (Engine.idle config env).hooks with
          userHooked := true, internalHooked := config.builtins, globalHooksEnabled := true } }
    have hfits : e.Fits zendInlineHashFunc e.openHooks := ⟨Engine.follows_of_none rfl, le_rfl⟩
    show ∃ e', (if config.autoStart = true then
      profilingHandlerStart limits zendInlineHashFunc e env.start else .ok e) = .ok e' ∧ _
    split
    · have hin : ¬e.InShutdown := fun hin => Bool.false_ne_true hin.1
      obtain ⟨e', he', hkept, hstarted, hframes⟩ :=
        hfits.handlerStart limits rfl fun hbad => hin hbad.2
      refine ⟨e', he', hkept.ok rfl ⟨?_, hstarted.room⟩⟩
      rcases hframes with hnone | hframes
      · exact Engine.follows_of_none hnone
      · intro a ha
        rw [hframes]
        exact hstarted.attached a ha
    · exact ⟨e, rfl, rfl, hfits⟩

/-- The attached profiler is in step with the hook call stack: the functions of the
open ones of the calls it was given, innermost first, are the frames of the stack,
and a tracing profiler's depth is that of the stack. -/
def Engine.InStep (e : Engine) : Prop :=
  ∀ a, e.profiler = some a →
    pending [] a.given = some e.frames.reverse ∧
      ∀ tracer, a.profiler = .tracing tracer → tracer.stack.depth = e.frames.length

theorem Engine.Ok.inStep {config : SpxConfig} {e : Engine} (h : e.Ok zendInlineHashFunc config) :
    e.InStep := by
  intro a ha
  have hat := h.fits.follows a ha
  refine ⟨hat.given, ?_⟩
  intro tracer htracer
  have hprofiler := hat.profiler
  rw [htracer] at hprofiler
  exact TracerAt.depth hprofiler

variable (zendInlineHashFunc)

/-- **The hooks keep the profiler in step.**  In a request, the profiler is in step
after any of its operations, the shutdown succeeds, and the process dies of nothing
but a full stack, exactly when no call of `spx_profiler_start` starts a sampled
profile whose sampling profiler cannot be created while the pseudo call of the
request shutdown is on the call stack. -/
theorem profiler_in_step_iff (config : SpxConfig) (env : InitEnv) (ops : List EngineOp)
    (stop : StopEnv) :
    ((∀ done, done <+: ops →
        Ends (engineRun limits zendInlineHashFunc config env done) Engine.InStep
          (CapacityDie config.samplingPeriod)) ∧
      Ends (engineRequest limits zendInlineHashFunc config env ops stop)
        (fun e => e.profiler = none) (CapacityDie config.samplingPeriod)) ↔
    ∀ e, profilingHandlerInit limits zendInlineHashFunc config env = .ok e →
      Along (engineStep limits zendInlineHashFunc) (fun e op => op.Sound e) ops e := by
  obtain ⟨e, he, hok⟩ := exists_profilingHandlerInit limits config env
  have hgood : ∀ (s : Engine) (op : EngineOp), s.Ok zendInlineHashFunc config → op.Sound s →
      Ends (engineStep limits zendInlineHashFunc s op) (Engine.Ok zendInlineHashFunc config)
        (CapacityDie config.samplingPeriod) := fun s op hs hop => hs.step limits hop
  have hrun : ∀ done, engineRun limits zendInlineHashFunc config env done
      = runSteps (engineStep limits zendInlineHashFunc) done e := fun done => by
    rw [engineRun, he]
    rfl
  constructor
  · rintro ⟨hsteps, -⟩ e' he'
    obtain rfl : e = e' := Except.ok.inj (he.symm.trans he')
    have hall := hsteps ops (List.prefix_refl ops)
    rw [hrun] at hall
    exact (ends_runSteps_iff hgood (fun s op hs hop => hs.step_fails limits hop)
      (fun s hs => hs.inStep) hok).mp hall
  · intro h
    have halong := h e he
    refine ⟨?_, ?_⟩
    · intro done hdone
      rw [hrun]
      exact ((halong.of_prefix hdone).ends hgood hok).mono fun s hs => hs.inStep
    · rw [engineRequest, hrun]
      apply (halong.ends hgood hok).bind
      intro s hs
      obtain ⟨s', hs', -, -, hnone⟩ := hs.fits.handlerStop stop
      rw [profilingHandlerShutdown, hs']
      exact hnone

/-- With the builtins traced and profiles sampled, `spx_profiler_start` is called in
a shutdown function, and the heartbeat thread cannot be created. -/
theorem profiler_start_fails_in_shutdown :
    let limits := limitsInit fun _ => none
    let config := { defaultConfig true with
      enabled := true, autoStart := false, builtins := true, samplingPeriod := 1000 }
    let hook : HookEnv := ⟨true, fun _ => ⟨endAt 0, ⟨fun _ _ => 0, fun _ _ => 0, 0, 0, 0, 0⟩⟩⟩
    let start : StartEnv := ⟨true, "", true, fun _ => 0, false, ⟨hook, fun _ => endAt 0⟩, fun _ => hook⟩
    let ops : List EngineOp :=
      [.enter (.userCall ⟨"main.php", ""⟩) hook, .leave hook hook,
        .enter (.userCall ⟨"onShutdown", ""⟩) hook,
        .enter (.internalCall ⟨"spx_profiler_start", ""⟩) hook, .profilerStart start]
    engineRun limits (fun _ => 0) config ⟨true, "", 0, none, start⟩ ops = .error .rewindBelowZeroDepth ∧
      ¬Ends (engineRun limits (fun _ => 0) config ⟨true, "", 0, none, start⟩ ops) Engine.InStep
        (CapacityDie config.samplingPeriod) := by
  intro limits config hook start ops
  have hrun : engineRun limits (fun _ => 0) config ⟨true, "", 0, none, start⟩ ops
      = .error .rewindBelowZeroDepth := rfl
  refine ⟨hrun, ?_⟩
  rw [hrun]
  exact id

end Engine

end PhpSpx
