import PhpSpx.Engine.InStep
import PhpSpx.Engine.Nesting
import PhpSpx.Lib.Run

/-!
# The name of the active function

A compilation, a garbage collection and the request shutdown are recorded under a name of
their own: their hooks set it for the hooks of `php_spx.c`, and take it back afterwards.
It is one name for the whole thread, so a call made within the activity is recorded under
it as well, until another such activity has ended.

* `Activity.function` — what an activity is to be recorded under.
* `RecordsOwnName` — an operation records what it enters under that.
* `PseudoNesting` — the activities that are open, and the name that is in force.
* `activities_under_own_names_iff` — whole runs.
-/

namespace PhpSpx

open Lib

/-! ## Names -/

/-- The name of its own that the hook of an activity sets. -/
def Activity.pseudoName : Activity → Option String
  | .userCall _ | .internalCall _ => none
  | .compileFile => some "::zend_compile_file"
  | .compileString => some "::zend_compile_string"
  | .gcCollectCycles => some "::gc_collect_cycles"

/-- The function an activity is to be recorded under. -/
def Activity.function : Activity → PhpFunction
  | .userCall function | .internalCall function => function
  | .compileFile => ⟨"::zend_compile_file", ""⟩
  | .compileString => ⟨"::zend_compile_string", ""⟩
  | .gcCollectCycles => ⟨"::gc_collect_cycles", ""⟩

/-- The activity is a user function execution. -/
def Activity.isUserCall : Activity → Bool
  | .userCall _ => true
  | .internalCall _ | .compileFile | .compileString | .gcCollectCycles => false

@[simp] theorem countP_isUserCall_cons (function : PhpFunction) (activities : List Activity) :
    (Activity.userCall function :: activities).countP Activity.isUserCall =
      activities.countP Activity.isUserCall + 1 :=
  List.countP_cons_of_pos rfl

/-- An operation, from one state to another, records the activity it enters under the
function of the activity, and the request shutdown it begins under its name. -/
def RecordsOwnName (e e' : Engine) : EngineOp → Prop
  | .enter activity _ =>
      e.hooks.globalHooksEnabled = true → e.hooks.hooked activity = true →
        e'.frames = e.frames ++ [activity.function]
  | .leave _ _ =>
      e.hooks.requestShutdown = false → e'.hooks.requestShutdown = true →
        e'.hooks.internalHooked = true →
          e'.frames.getLast? = some ⟨phpRequestShutdown, ""⟩
  | _ => True

/-- Activities are only entered and left. -/
def EngineOp.Nested : EngineOp → Prop
  | .enter _ _ | .leave _ _ => True
  | .bailout | .profilerStart _ | .profilerStop _ => False

/-! ## Nesting -/

/-- What the nesting of activities so far amounts to: those that are open, innermost
first, whether the request shutdown has begun, and the name that the last of the named
ones to begin has left in force, none of them having ended since. -/
structure PseudoNesting where
  activities : List Activity
  shutdown : Bool
  inForce : Option String

namespace PseudoNesting

/-- Nothing is open.  The name may be what the former request of the thread left. -/
def start (inForce : Option String) : PseudoNesting := ⟨[], false, inForce⟩

/-- An activity begins. -/
def begins (n : PseudoNesting) (activity : Activity) : PseudoNesting :=
  { n with
    activities := activity :: n.activities
    inForce := if activity.pseudoName.isSome then activity.pseudoName else n.inForce }

/-- An activity has ended, of which the open ones are left.  With the outermost user
function the request shutdown begins, which has a name only where builtins are hooked. -/
def ends (builtins : Bool) (n : PseudoNesting) (activity : Activity) : PseudoNesting :=
  if activity.pseudoName.isSome then { n with inForce := none }
  else if activity.isUserCall ∧ n.activities.countP Activity.isUserCall = 0 ∧ n.shutdown = false then
    { n with shutdown := true, inForce := if builtins then none else n.inForce }
  else n

/-- One operation. -/
def after (builtins : Bool) (n : PseudoNesting) : EngineOp → PseudoNesting
  | .enter activity _ => n.begins activity
  | .leave _ _ =>
      match n.activities with
      | [] => n
      | activity :: activities => { n with activities }.ends builtins activity
  | _ => n

/-- A call that is hooked is not made while a name is in force, but for a function of
that very name. -/
def Clear (builtins : Bool) (n : PseudoNesting) : EngineOp → Prop
  | .enter activity _ =>
      activity.pseudoName = none → (activity.isUserCall = true ∨ builtins = true) →
        ∀ name ∈ n.inForce, activity.function = ⟨name, ""⟩
  | _ => True

instance (builtins : Bool) (n : PseudoNesting) : (op : EngineOp) → Decidable (n.Clear builtins op)
  | .enter activity _ =>
      inferInstanceAs (Decidable (activity.pseudoName = none →
        (activity.isUserCall = true ∨ builtins = true) →
          ∀ name ∈ n.inForce, activity.function = ⟨name, ""⟩))
  | .leave _ _ | .bailout | .profilerStart _ | .profilerStop _ => inferInstanceAs (Decidable True)

end PseudoNesting

/-! ## The hooks -/

section Engine

variable {zendInlineHashFunc : String → UInt64} {e : Engine}

/-- Neither the hooks nor the open activities differ. -/
def Engine.SameHooks (e e' : Engine) : Prop := e'.hooks = e.hooks ∧ e'.activities = e.activities

theorem spxPhpCurrentFunction_eq_iff {hooks : HookContext} {current : PhpFunction} :
    spxPhpCurrentFunction hooks current = current ↔
      ∀ name ∈ hooks.activeFunctionName, current = ⟨name, ""⟩ := by
  unfold spxPhpCurrentFunction
  cases hooks.activeFunctionName with
  | none => simp
  | some name => simp [eq_comm]

/-- The before hook pushes what `spx_php_current_function` returns. -/
theorem hookBefore_ends (current : PhpFunction) (env : HookEnv) :
    Ends (profilingHandlerExHookBefore zendInlineHashFunc e current env)
      (fun e' => e.SameHooks e' ∧
        e'.frames = e.frames ++ [spxPhpCurrentFunction e.hooks current])
      (fun _ => True) := by
  unfold profilingHandlerExHookBefore
  cases hstack : e.callStack with
  | none => trivial
  | some stack =>
    have hframes : e.frames = stack.frames := by simp [Engine.frames, hstack]
    by_cases hfull : stack.isFull = true
    · simp [hfull]
    · have hpush : ∀ f, stack.push f = some { stack with frames := stack.frames ++ [f] } := by
        intro f
        simpa [CallStack.push, CallStack.isFull] using hfull
      simp only [hfull, hpush]
      cases e.profiler with
      | none =>
        refine ⟨⟨rfl, rfl⟩, ?_⟩
        rw [hframes]
        rfl
      | some a =>
        simp only
        cases a.callStart zendInlineHashFunc (spxPhpCurrentFunction e.hooks current) env with
        | error d => trivial
        | ok b =>
          refine ⟨⟨rfl, rfl⟩, ?_⟩
          rw [hframes]
          rfl

theorem hookAfter_ends (env : HookEnv) :
    Ends (profilingHandlerExHookAfter zendInlineHashFunc e env) e.SameHooks (fun _ => True) := by
  unfold profilingHandlerExHookAfter
  cases e.callStack.bind CallStack.pop with
  | none => trivial
  | some stack =>
    simp only
    cases e.profiler with
    | none => exact ⟨rfl, rfl⟩
    | some a =>
      simp only
      cases a.callEnd zendInlineHashFunc env with
      | error d => trivial
      | ok b => exact ⟨rfl, rfl⟩

/-- A before hook that is set pushes, one that is not does nothing. -/
theorem internalBefore_ends (current : PhpFunction) (env : HookEnv) :
    Ends (internalBefore zendInlineHashFunc e current env)
      (fun e' => e.SameHooks e' ∧ (e.hooks.internalHooked = true →
        e'.frames = e.frames ++ [spxPhpCurrentFunction e.hooks current]))
      (fun _ => True) := by
  unfold internalBefore
  split
  · apply (hookBefore_ends current env).mono
    rintro e' ⟨hsame, hframes⟩
    exact ⟨hsame, fun _ => hframes⟩
  · rename_i hhooked
    exact ⟨⟨rfl, rfl⟩, fun h => absurd h hhooked⟩

theorem internalAfter_ends (env : HookEnv) :
    Ends (internalAfter zendInlineHashFunc e env) e.SameHooks (fun _ => True) := by
  unfold internalAfter
  split
  · exact hookAfter_ends env
  · exact ⟨rfl, rfl⟩

/-- A named activity begins under its name. -/
theorem namedBefore_ends (name : String) (env : HookEnv) :
    Ends (namedBefore zendInlineHashFunc name e env)
      (fun e' => (e.setActive (some name)).SameHooks e' ∧ (e.hooks.internalHooked = true →
        e'.frames = e.frames ++ [⟨name, ""⟩]))
      (fun _ => True) := by
  unfold namedBefore
  exact internalBefore_ends (e := e.setActive (some name)) ⟨"", ""⟩ env

theorem namedAfter_ends (env : HookEnv) :
    Ends (namedAfter zendInlineHashFunc e env) (e.setActive none).SameHooks (fun _ => True) := by
  unfold namedAfter
  apply (internalAfter_ends env).map
  rintro e' ⟨hhooks, hactivities⟩
  refine ⟨?_, hactivities⟩
  simp [Engine.setActive, hhooks]

/-- The request shutdown begins under its name. -/
theorem pushRequestShutdown_ends (env : HookEnv) :
    Ends (pushRequestShutdown zendInlineHashFunc e env)
      (fun e' => e'.activities = e.activities ∧
        e'.hooks = { e.hooks with
          requestShutdown := true
          activeFunctionName :=
            if e.hooks.internalHooked then none else e.hooks.activeFunctionName } ∧
        (e.hooks.internalHooked = true →
          e'.frames.getLast? = some ⟨phpRequestShutdown, ""⟩))
      (fun _ => True) := by
  unfold pushRequestShutdown
  dsimp only
  split
  · rename_i hhooked
    refine (hookBefore_ends ⟨"", ""⟩ env).map ?_
    rintro e' ⟨⟨hhooks, hactivities⟩, hframes⟩
    refine ⟨hactivities, ?_, ?_⟩
    · simp [Engine.setActive, hhooks]
    · intro _
      have hlast : (e'.setActive none).frames = e'.frames := rfl
      rw [hlast, hframes, List.getLast?_append]
      rfl
  · rename_i hhooked
    refine ⟨rfl, ?_, fun h => absurd h hhooked⟩
    simp [hhooked]

end Engine

/-! ## The nesting is followed -/

/-- The hooks are set, and the state follows the nesting. -/
structure PseudoNesting.Matches (builtins : Bool) (n : PseudoNesting) (e : Engine) : Prop where
  activities : e.activities = n.activities
  hooks : e.hooks =
    ⟨true, builtins, true, n.activities.countP Activity.isUserCall, n.shutdown, n.inForce⟩

namespace PseudoNesting.Matches

variable {builtins : Bool} {n : PseudoNesting} {e : Engine}
  {zendInlineHashFunc : String → UInt64}

/-- A pseudo activity is entered. -/
theorem named (h : n.Matches builtins e) (activity : Activity) {name : String}
    (hname : activity.pseudoName = some name) (huser : activity.isUserCall = false)
    (env : HookEnv) :
    Ends (namedBefore zendInlineHashFunc name { e with activities := activity :: e.activities } env)
      (fun e' => (n.begins activity).Matches builtins e' ∧
        (builtins = true → e'.frames = e.frames ++ [⟨name, ""⟩]))
      (fun _ => True) := by
  apply (namedBefore_ends name env).mono
  rintro e' ⟨⟨hhooks, hactivities⟩, hframes⟩
  refine ⟨⟨?_, ?_⟩, ?_⟩
  · rw [hactivities]
    simp [Engine.setActive, begins, h.activities]
  · rw [hhooks]
    simp [Engine.setActive, begins, h.hooks, hname, huser]
  · intro hbuiltins
    apply hframes
    simp [h.hooks, hbuiltins]

/-- It is recorded under its own name, whatever is in force. -/
theorem named_enter_iff (h : n.Matches builtins e) (activity : Activity) {name : String}
    (hname : activity.pseudoName = some name) (huser : activity.isUserCall = false)
    (hfunction : activity.function = ⟨name, ""⟩)
    (hhooked : e.hooks.hooked activity = e.hooks.internalHooked) (env : HookEnv) :
    Ends (namedBefore zendInlineHashFunc name { e with activities := activity :: e.activities } env)
      (fun e' => (n.begins activity).Matches builtins e' ∧
        (RecordsOwnName e e' (.enter activity env) ↔ n.Clear builtins (.enter activity env)))
      (fun _ => True) := by
  apply (h.named activity hname huser env).mono
  rintro e' ⟨hmatches, hframes⟩
  refine ⟨hmatches, iff_of_true ?_ ?_⟩
  · intro _ htrue
    rw [hfunction]
    apply hframes
    rw [hhooked, h.hooks] at htrue
    exact htrue
  · intro hnone
    rw [hname] at hnone
    cases hnone

/-- A user function is entered. -/
theorem userCall (h : n.Matches builtins e) (function : PhpFunction) (env : HookEnv) :
    Ends (executeExBefore zendInlineHashFunc
        { e with activities := .userCall function :: e.activities } function env)
      (fun e' => (n.begins (.userCall function)).Matches builtins e' ∧
        e'.frames = e.frames ++ [spxPhpCurrentFunction e.hooks function])
      (fun _ => True) := by
  unfold executeExBefore
  dsimp only
  rw [if_pos (by simp [h.hooks])]
  apply (hookBefore_ends function env).mono
  rintro e' ⟨⟨hhooks, hactivities⟩, hframes⟩
  refine ⟨⟨?_, ?_⟩, hframes⟩
  · rw [hactivities]
    simp [begins, h.activities]
  · rw [hhooks]
    simp [begins, h.hooks, Activity.pseudoName]

/-- An internal function is entered. -/
theorem internalCall (h : n.Matches builtins e) (function : PhpFunction) (env : HookEnv) :
    Ends (internalBefore zendInlineHashFunc
        { e with activities := .internalCall function :: e.activities } function env)
      (fun e' => (n.begins (.internalCall function)).Matches builtins e' ∧
        (builtins = true →
          e'.frames = e.frames ++ [spxPhpCurrentFunction e.hooks function]))
      (fun _ => True) := by
  apply (internalBefore_ends function env).mono
  rintro e' ⟨⟨hhooks, hactivities⟩, hframes⟩
  refine ⟨⟨?_, ?_⟩, ?_⟩
  · rw [hactivities]
    simp [begins, h.activities]
  · rw [hhooks]
    simp [begins, h.hooks, Activity.pseudoName, Activity.isUserCall]
  · intro hbuiltins
    apply hframes
    simp [h.hooks, hbuiltins]

/-- A user function is left: the request shutdown begins with the outermost one. -/
theorem userCallLeft {function : PhpFunction} {activities : List Activity}
    (h : n.Matches builtins e) (hopen : n.activities = .userCall function :: activities)
    (env shutdownEnv : HookEnv) :
    Ends (executeExAfter zendInlineHashFunc { e with activities } env shutdownEnv)
      (fun e' => ({ n with activities }.ends builtins (.userCall function)).Matches builtins e' ∧
        (e.hooks.requestShutdown = false → e'.hooks.requestShutdown = true →
          e'.hooks.internalHooked = true → e'.frames.getLast? = some ⟨phpRequestShutdown, ""⟩))
      (fun _ => True) := by
  have hdepth : n.activities.countP Activity.isUserCall - 1 = activities.countP Activity.isUserCall := by
    simp [hopen]
  unfold executeExAfter
  rw [if_pos (by simp [h.hooks])]
  apply (hookAfter_ends env).bind
  rintro e₁ ⟨hhooks, hactivities⟩
  dsimp only
  rw [hhooks, h.hooks, hdepth]
  have hends : { n with activities }.ends builtins (.userCall function) =
      if activities.countP Activity.isUserCall = 0 ∧ n.shutdown = false then
        ⟨activities, true, if builtins then none else n.inForce⟩
      else ⟨activities, n.shutdown, n.inForce⟩ := by
    simp [ends, Activity.pseudoName, Activity.isUserCall]
  rw [hends]
  split
  · apply (pushRequestShutdown_ends shutdownEnv).mono
    rintro e' ⟨hactivities', hhooks', hframes⟩
    refine ⟨⟨hactivities'.trans hactivities, hhooks'⟩, ?_⟩
    intro _ _ hhooked
    apply hframes
    rw [hhooks'] at hhooked
    exact hhooked
  · refine ⟨⟨hactivities, rfl⟩, ?_⟩
    intro hbefore hafter
    exact absurd (hbefore.symm.trans hafter) Bool.false_ne_true

/-- Another activity is left. -/
theorem otherLeft {activity : Activity} {activities : List Activity}
    (h : n.Matches builtins e) (hopen : n.activities = activity :: activities)
    (huser : activity.isUserCall = false) (env shutdownEnv : HookEnv) :
    Ends (activityAfter zendInlineHashFunc { e with activities } env shutdownEnv activity)
      (fun e' => ({ n with activities }.ends builtins activity).Matches builtins e' ∧
        e'.hooks.requestShutdown = e.hooks.requestShutdown)
      (fun _ => True) := by
  have hdepth : n.activities.countP Activity.isUserCall = activities.countP Activity.isUserCall := by
    simp [hopen, huser]
  have hnamed : ∀ e', ({ e with activities }.setActive none).SameHooks e' →
      (⟨activities, n.shutdown, none⟩ : PseudoNesting).Matches builtins e' ∧
        e'.hooks.requestShutdown = e.hooks.requestShutdown := by
    rintro e' ⟨hhooks, hactivities⟩
    refine ⟨⟨hactivities, ?_⟩, ?_⟩
    · rw [hhooks]
      simp [Engine.setActive, h.hooks, hdepth]
    · rw [hhooks]
      rfl
  cases activity with
  | userCall function => cases huser
  | internalCall function =>
    apply (internalAfter_ends env).mono
    rintro e' ⟨hhooks, hactivities⟩
    refine ⟨⟨hactivities, ?_⟩, ?_⟩
    · rw [hhooks]
      simp [ends, Activity.pseudoName, Activity.isUserCall, h.hooks, hdepth]
    · rw [hhooks]
  | compileFile => exact (namedAfter_ends env).mono hnamed
  | compileString => exact (namedAfter_ends env).mono hnamed
  | gcCollectCycles => exact (namedAfter_ends env).mono hnamed

variable {limits : Limits}

theorem enter_iff (h : n.Matches builtins e) (activity : Activity) (env : HookEnv) :
    Ends (engineStep limits zendInlineHashFunc e (.enter activity env))
      (fun e' => (n.begins activity).Matches builtins e' ∧
        (RecordsOwnName e e' (.enter activity env) ↔ n.Clear builtins (.enter activity env)))
      (fun _ => True) := by
  have hglobal : e.hooks.globalHooksEnabled = true := by rw [h.hooks]
  have huser : e.hooks.userHooked = true := by rw [h.hooks]
  have hinternal : e.hooks.internalHooked = builtins := by rw [h.hooks]
  have hname : e.hooks.activeFunctionName = n.inForce := by rw [h.hooks]
  have hstep : engineStep limits zendInlineHashFunc e (.enter activity env) =
      activityBefore zendInlineHashFunc { e with activities := activity :: e.activities } env
        activity := by
    unfold engineStep
    simp [hglobal]
  rw [hstep]
  cases activity with
  | userCall function =>
    apply (h.userCall function env).mono
    rintro e' ⟨hmatches, hframes⟩
    refine ⟨hmatches, ?_⟩
    simp [RecordsOwnName, Clear, hglobal, huser, HookContext.hooked, hframes,
      Activity.pseudoName, Activity.function, Activity.isUserCall, spxPhpCurrentFunction_eq_iff,
      hname]
  | internalCall function =>
    apply (h.internalCall function env).mono
    rintro e' ⟨hmatches, hframes⟩
    refine ⟨hmatches, ?_⟩
    cases builtins with
    | false =>
      simp [RecordsOwnName, Clear, hinternal, HookContext.hooked, Activity.isUserCall]
    | true =>
      simp [RecordsOwnName, Clear, hglobal, hinternal, HookContext.hooked, hframes,
        Activity.pseudoName, Activity.function, spxPhpCurrentFunction_eq_iff, hname]
  | compileFile => exact h.named_enter_iff .compileFile rfl rfl rfl rfl env
  | compileString => exact h.named_enter_iff .compileString rfl rfl rfl rfl env
  | gcCollectCycles => exact h.named_enter_iff .gcCollectCycles rfl rfl rfl rfl env

theorem leave_iff (h : n.Matches builtins e) (env shutdownEnv : HookEnv) :
    Ends (engineStep limits zendInlineHashFunc e (.leave env shutdownEnv))
      (fun e' => (n.after builtins (.leave env shutdownEnv)).Matches builtins e' ∧
        RecordsOwnName e e' (.leave env shutdownEnv))
      (fun _ => True) := by
  have hglobal : e.hooks.globalHooksEnabled = true := by rw [h.hooks]
  unfold engineStep after
  rw [h.activities]
  cases hopen : n.activities with
  | nil =>
    refine ⟨h, ?_⟩
    intro hbefore hafter
    exact absurd (hbefore.symm.trans hafter) Bool.false_ne_true
  | cons activity activities =>
    dsimp only
    rw [if_pos hglobal]
    cases activity with
    | userCall function => exact h.userCallLeft hopen env shutdownEnv
    | internalCall _ | compileFile | compileString | gcCollectCycles =>
      apply (h.otherLeft hopen rfl env shutdownEnv).mono
      rintro e' ⟨hmatches, hsame⟩
      refine ⟨hmatches, ?_⟩
      intro hbefore hafter
      exact absurd (hbefore.symm.trans (hsame.symm.trans hafter)) Bool.false_ne_true

/-- **One operation**: the state follows the nesting, and what is entered is recorded
under its own name exactly when no other name is in force. -/
theorem step_iff (limits : Limits) (zendInlineHashFunc : String → UInt64) (h : n.Matches builtins e) {op : EngineOp} (hop : op.Nested) :
    Ends (engineStep limits zendInlineHashFunc e op)
      (fun e' => (n.after builtins op).Matches builtins e' ∧
        (RecordsOwnName e e' op ↔ n.Clear builtins op))
      (fun _ => True) := by
  cases op with
  | enter activity env => exact h.enter_iff activity env
  | leave env shutdownEnv =>
    apply (h.leave_iff env shutdownEnv).mono
    rintro e' ⟨hmatches, hrecords⟩
    exact ⟨hmatches, iff_of_true hrecords trivial⟩
  | bailout | profilerStart _ | profilerStop _ => exact hop.elim

end PseudoNesting.Matches

/-! ## Runs -/

section Engine

variable {limits : Limits} {zendInlineHashFunc : String → UInt64} {e : Engine}

/-- Outside of the request shutdown, a stop leaves the hooks alone. -/
theorem handlerStop_ends (hshutdown : e.hooks.requestShutdown = false) (env : StopEnv) :
    Ends (profilingHandlerStop zendInlineHashFunc e env) e.SameHooks (fun _ => True) := by
  unfold profilingHandlerStop spxPhpExecutionFinalize
  rw [if_pos hshutdown]
  simp only [Except.bind]
  cases e.profiler with
  | none => exact ⟨rfl, rfl⟩
  | some a =>
    simp only
    cases a.profiler.finalize env.unwinding with
    | error d => trivial
    | ok q => exact ⟨rfl, rfl⟩

theorem handlerStart_ends (hshutdown : e.hooks.requestShutdown = false) (env : StartEnv) :
    Ends (profilingHandlerStart limits zendInlineHashFunc e env) e.SameHooks (fun _ => True) := by
  have hstop : ∀ e₁ : Engine, e.SameHooks e₁ →
      Ends (profilingHandlerStop zendInlineHashFunc e₁ env.stop) e.SameHooks (fun _ => True) := by
    rintro e₁ ⟨hhooks, hactivities⟩
    have hshutdown₁ : e₁.hooks.requestShutdown = false := by rw [hhooks, hshutdown]
    apply (handlerStop_ends hshutdown₁ env.stop).mono
    rintro e₂ ⟨hhooks₂, hactivities₂⟩
    exact ⟨hhooks₂.trans hhooks, hactivities₂.trans hactivities⟩
  unfold profilingHandlerStart
  dsimp only
  split_ifs
  all_goals first | exact ⟨rfl, rfl⟩ | exact hstop _ ⟨rfl, rfl⟩

/-- The nesting a run amounts to. -/
def PseudoNesting.of (config : SpxConfig) (env : InitEnv) (ops : List EngineOp) : PseudoNesting :=
  ops.foldl (after config.builtins) (start env.activeFunctionName)

theorem PseudoNesting.of_concat (config : SpxConfig) (env : InitEnv) (ops : List EngineOp)
    (op : EngineOp) :
    of config env (ops ++ [op]) = (of config env ops).after config.builtins op := by
  simp [of]

theorem matches_init {config : SpxConfig} {env : InitEnv} (hcreated : env.callStackCreated = true) :
    Ends (profilingHandlerInit limits zendInlineHashFunc config env)
      ((PseudoNesting.of config env []).Matches config.builtins) (fun _ => True) := by
  unfold profilingHandlerInit
  dsimp only
  rw [hcreated, if_neg (Ne.symm Bool.false_ne_true)]
  split
  · apply (handlerStart_ends rfl env.start).mono
    rintro e' ⟨hhooks, hactivities⟩
    exact ⟨hactivities, hhooks⟩
  · exact ⟨rfl, rfl⟩

theorem engineRun_concat (config : SpxConfig) (env : InitEnv) (ops : List EngineOp)
    (op : EngineOp) :
    engineRun limits zendInlineHashFunc config env (ops ++ [op]) =
      (engineRun limits zendInlineHashFunc config env ops).bind
        (engineStep limits zendInlineHashFunc · op) := by
  unfold engineRun
  cases profilingHandlerInit limits zendInlineHashFunc config env with
  | error d => rfl
  | ok e₀ =>
    show runSteps _ (ops ++ [op]) e₀ = _
    rw [runSteps_append]
    congr 1
    funext s
    rw [runSteps]
    cases engineStep limits zendInlineHashFunc s op <;> rfl

variable (limits zendInlineHashFunc)

theorem matches_run (config : SpxConfig) {env : InitEnv} (hcreated : env.callStackCreated = true)
    {ops : List EngineOp} (hops : ∀ op ∈ ops, op.Nested) :
    Ends (engineRun limits zendInlineHashFunc config env ops)
      ((PseudoNesting.of config env ops).Matches config.builtins) (fun _ => True) := by
  induction ops using List.reverseRecOn with
  | nil => exact (matches_init hcreated).bind fun e he => he
  | append_singleton ops op ih =>
    rw [engineRun_concat, PseudoNesting.of_concat]
    refine (ih fun op' hop' => hops op' (List.mem_append_left _ hop')).bind ?_
    intro e he
    apply (he.step_iff limits zendInlineHashFunc (hops op (by simp))).mono
    rintro e' ⟨hmatches, -⟩
    exact hmatches

/-- Without the hooks, an operation is an entry or an exit and no more. -/
theorem hooksOff_step (hoff : e.hooks.globalHooksEnabled = false) {op : EngineOp} (hop : op.Nested) :
    Ends (engineStep limits zendInlineHashFunc e op) (fun e' => e'.hooks = e.hooks)
      (fun _ => True) := by
  cases op with
  | enter activity env => simp [engineStep, hoff]
  | leave env shutdownEnv =>
    unfold engineStep
    cases e.activities with
    | nil => rfl
    | cons activity activities => simp [hoff]
  | bailout | profilerStart _ | profilerStop _ => exact hop.elim

theorem hooksOff_run (config : SpxConfig) {env : InitEnv} (hcreated : env.callStackCreated = false)
    {ops : List EngineOp} (hops : ∀ op ∈ ops, op.Nested) :
    Ends (engineRun limits zendInlineHashFunc config env ops)
      (fun e => e.hooks.globalHooksEnabled = false) (fun _ => True) := by
  induction ops using List.reverseRecOn with
  | nil =>
    unfold engineRun profilingHandlerInit
    dsimp only
    rw [if_pos hcreated]
    rfl
  | append_singleton ops op ih =>
    rw [engineRun_concat]
    refine (ih fun op' hop' => hops op' (List.mem_append_left _ hop')).bind ?_
    intro e he
    apply (hooksOff_step limits zendInlineHashFunc he (hops op (by simp))).mono
    intro e' he'
    rw [he', he]

theorem recordsOwnName_of_off {e' : Engine} (hoff : e.hooks.globalHooksEnabled = false)
    (hsame : e'.hooks = e.hooks) {op : EngineOp} (hop : op.Nested) : RecordsOwnName e e' op := by
  cases op with
  | enter activity env =>
    intro hglobal
    exact absurd (hoff.symm.trans hglobal) Bool.false_ne_true
  | leave env shutdownEnv =>
    intro hbefore hafter
    rw [hsame] at hafter
    exact absurd (hbefore.symm.trans hafter) Bool.false_ne_true
  | bailout | profilerStart _ | profilerStop _ => exact hop.elim

/-- **Every activity is recorded under its own name**, in a request of nested
activities, exactly when no hooked call is made while the name of a compilation or of a
garbage collection is in force. -/
theorem activities_under_own_names_iff (config : SpxConfig) (env : InitEnv) (ops : List EngineOp)
    (hops : ∀ op ∈ ops, op.Nested) :
    (∀ done op e e', done ++ [op] <+: ops →
        engineRun limits zendInlineHashFunc config env done = .ok e →
        engineStep limits zendInlineHashFunc e op = .ok e' → RecordsOwnName e e' op) ↔
      (env.callStackCreated = true → ∀ done op, done ++ [op] <+: ops →
        Succeeds (engineRun limits zendInlineHashFunc config env (done ++ [op])) →
        (PseudoNesting.of config env done).Clear config.builtins op) := by
  have hnested : ∀ {done op}, done ++ [op] <+: ops → (∀ op' ∈ done, op'.Nested) ∧ op.Nested := by
    intro done op hdone
    refine ⟨fun op' hop' => hops op' (hdone.subset (by simp [hop'])), ?_⟩
    exact hops op (hdone.subset (by simp))
  cases hcreated : env.callStackCreated with
  | false =>
    refine iff_of_true ?_ nofun
    intro done op e e' hdone he he'
    obtain ⟨hdone, hop⟩ := hnested hdone
    have hoff := hooksOff_run limits zendInlineHashFunc config hcreated hdone
    rw [he] at hoff
    have hsame := hooksOff_step limits zendInlineHashFunc hoff hop
    rw [he'] at hsame
    exact recordsOwnName_of_off hoff hsame hop
  | true =>
    have hstep : ∀ {done op e e'}, done ++ [op] <+: ops →
        engineRun limits zendInlineHashFunc config env done = .ok e →
        engineStep limits zendInlineHashFunc e op = .ok e' →
        (RecordsOwnName e e' op ↔ (PseudoNesting.of config env done).Clear config.builtins op) := by
      intro done op e e' hdone he he'
      obtain ⟨hdone, hop⟩ := hnested hdone
      have hmatches := matches_run limits zendInlineHashFunc config hcreated hdone
      rw [he] at hmatches
      have hrecords := hmatches.step_iff limits zendInlineHashFunc hop
      rw [he'] at hrecords
      exact hrecords.2
    constructor
    · rintro h - done op hdone ⟨e', hrun⟩
      rw [engineRun_concat] at hrun
      obtain ⟨e, he, he'⟩ := bind_eq_ok_iff.mp hrun
      exact (hstep hdone he he').mp (h done op e e' hdone he he')
    · intro h done op e e' hdone he he'
      refine (hstep hdone he he').mpr (h rfl done op hdone ⟨e', ?_⟩)
      rw [engineRun_concat, he]
      exact he'

end Engine

/-- A garbage collection runs a destructor: the call is recorded as another garbage
collection. -/
theorem destructor_under_name_of_gc :
    let config := { defaultConfig true with autoStart := false, builtins := true }
    let ops : List EngineOp := [.enter (.userCall ⟨"main.php", ""⟩) quietHook,
      .enter .gcCollectCycles quietHook, .enter (.userCall ⟨"__destruct", "Node"⟩) quietHook]
    (∀ op ∈ ops, op.Nested) ∧
      ¬∀ done op e e', done ++ [op] <+: ops →
        engineRun (limitsInit fun _ => none) (fun _ => 0) config quietInit done = .ok e →
        engineStep (limitsInit fun _ => none) (fun _ => 0) e op = .ok e' →
          RecordsOwnName e e' op := by
  intro config ops
  refine ⟨by simp [ops, EngineOp.Nested], ?_⟩
  intro h
  obtain ⟨e, e', hrun, hstep, hglobal, hhooked, hframes, hframes'⟩ :
      ∃ e e', engineRun (limitsInit fun _ => none) (fun _ => 0) config quietInit
          (ops.take 2) = .ok e ∧
        engineStep (limitsInit fun _ => none) (fun _ => 0) e
          (.enter (.userCall ⟨"__destruct", "Node"⟩) quietHook) = .ok e' ∧
        e.hooks.globalHooksEnabled = true ∧
        e.hooks.hooked (.userCall ⟨"__destruct", "Node"⟩) = true ∧
        e.frames = [⟨"main.php", ""⟩, ⟨"::gc_collect_cycles", ""⟩] ∧
        e'.frames =
          [⟨"main.php", ""⟩, ⟨"::gc_collect_cycles", ""⟩, ⟨"::gc_collect_cycles", ""⟩] :=
    ⟨_, _, rfl, rfl, rfl, rfl, rfl, rfl⟩
  have hrecords := h (ops.take 2) _ e e' List.prefix_rfl hrun hstep hglobal hhooked
  rw [hframes, hframes'] at hrecords
  revert hrecords
  decide

/-- A file is compiled and a garbage collection runs, and the functions are called after
them. -/
theorem activities_under_own_names_flat :
    let ops : List EngineOp := [.enter .compileFile quietHook, .leave quietHook quietHook,
      .enter (.userCall ⟨"main.php", ""⟩) quietHook, .enter .gcCollectCycles quietHook,
      .leave quietHook quietHook, .enter (.userCall ⟨"f", ""⟩) quietHook]
    ∀ done op e e', done ++ [op] <+: ops →
      engineRun (limitsInit fun _ => none) (fun _ => 0) (defaultConfig true) quietInit done = .ok e →
      engineStep (limitsInit fun _ => none) (fun _ => 0) e op = .ok e' → RecordsOwnName e e' op := by
  intro ops
  refine (activities_under_own_names_iff (limitsInit fun _ => none) (fun _ => 0)
    (defaultConfig true) quietInit ops (by simp [ops, EngineOp.Nested])).mpr ?_
  have hclear : EachStep (PseudoNesting.after (defaultConfig true).builtins)
      (PseudoNesting.Clear (defaultConfig true).builtins) ops (PseudoNesting.start none) := by
    decide +kernel
  intro _ done op hdone _
  exact (eachStep_iff_forall_prefixes _ _ _).mp hclear done op hdone

end PhpSpx
