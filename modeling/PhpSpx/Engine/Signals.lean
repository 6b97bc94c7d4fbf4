import PhpSpx.Engine.ProfilingHandler

/-!
# Signals

`spx_signal_handler.c` and what `php_spx.c` does with it, in small steps: the hooks,
the shutdown of the profiling handler and the signal callback are broken up into
statements, and a signal can be delivered between any two of them.

The statements left to execute are a stack: a function that is called, and the callback
of a delivered signal, put theirs on top.  A statement that is one of a sequence names
its place in it.  A call of a profiler's function takes two statements, one to enter it
and one to return from it.

* `Process` — the state.
* `processStep` — a statement, or the delivery of a signal.
* `Process.Quiet.hookBefore`, `Process.Quiet.hookAfter`, `Process.Quiet.handlerShutdown` —
  without signals, the statements of a function do what the function does as a whole.
* `process_without_signals` — so does a script and the shutdown after it.

The process is that of a CLI request with an automatic start, from the end of
`profiling_handler_init` on.  A signal is delivered here even while its own callback
runs, which the kernel would hold back.  The counter `handler_called` does not wrap.
-/

namespace PhpSpx

open Lib

/-! ## `spx_signal_handler.c` -/

/-- `SIGINT` and `SIGTERM`. -/
inductive Signal where
  | sigint
  | sigterm
  deriving DecidableEq, Repr

/-- The number of a signal. -/
def Signal.number : Signal → ℕ
  | .sigint => 2
  | .sigterm => 15

/-- `spx_signal_handler_t`.  The former actions are not in it: see `ignored`. -/
structure SignalHandler where
  handlerSet : Bool
  handlerCalled : ℕ
  probing : Bool
  stop : Bool
  signo : ℤ
  terminateCallback : Bool

/-- The handler once created, with the callback, and installed. -/
def SignalHandler.installed : SignalHandler where
  handlerSet := true
  handlerCalled := 0
  probing := false
  stop := false
  signo := -1
  terminateCallback := true

/-- The exit status for what `signo` holds. -/
def exitStatus (signo : ℤ) : ℕ := if signo < 0 then 0 else 128 + signo.toNat

/-! ## Statements -/

/-- What a hook tells the profiler. -/
inductive HookCall where
  | callStart (function : PhpFunction)
  | callEnd
  deriving DecidableEq, Repr

/-- A call of a function of the profiler. -/
inductive ProfilerCall where
  | hook (call : HookCall)
  | finalize
  | destroy
  deriving DecidableEq, Repr

/-- The places in a hook once there is a profiler. -/
inductive ProbePoint where
  | set
  | call
  | return
  | reset
  | check
  deriving DecidableEq, Repr

/-- The places in `profiling_handler_stop`, those in `spx_php_execution_finalize`
first. -/
inductive StopPoint where
  | execution
  | clearName
  | clear
  | profiler
  | finalize
  | conclude
  | finalized
  | destroy
  | destroyed
  | detach
  | reporter
  deriving DecidableEq, Repr

/-- The places in `profiling_handler_shutdown`, those in
`profiling_handler_ex_unset_context` and `spx_signal_handler_uninstall` included. -/
inductive ShutdownPoint where
  | stop
  | unset
  | restore (signal : Signal)
  | clearGlobal
  | destroyHandler
  | execution
  | callStack
  deriving DecidableEq, Repr

/-- The places in `signal_callback`. -/
inductive CallbackPoint where
  | count
  | check
  | record
  | decide
  deriving DecidableEq, Repr

/-- A statement. -/
inductive Stmt where
  /-- A before hook, called with what `spx_php.c` and the engine say is executed. -/
  | before (activeFunctionName : Option String) (current : PhpFunction)
  /-- An after hook. -/
  | after
  /-- `context.request_shutdown = 1` of `global_hook_execute_ex`. -/
  | requestShutdown
  /-- The test of the profiler in a hook. -/
  | tell (call : HookCall)
  | probe (point : ProbePoint) (call : HookCall)
  | stop (point : StopPoint)
  | shutdown (point : ShutdownPoint)
  /-- The end of `profiling_handler_sig_terminate`. -/
  | exit
  | callback (point : CallbackPoint) (signal : Signal)
  deriving DecidableEq, Repr

/-! ## State -/

/-- How the process has ended. -/
inductive Ending where
  | sigTerminate (status : ℕ)
  | callback (status : ℕ)
  | die (d : Die)
  | killed (signal : Signal)

/-- The process.  `globalHandler` says that `global_handler` is set, to what
`sigHandler` is; `installed` says for which signals the callback is.  The code keeps
neither the functions of the profiler that are running, innermost first, nor how often
its finalization was entered, whether it once was while a function of the profiler was
running, and how many `FINALIZE` events the reporter was sent. -/
structure Process where
  engine : Engine
  sigHandler : Option SignalHandler
  globalHandler : Bool
  installed : Signal → Bool
  todo : List Stmt
  ended : Option Ending
  running : List ProfilerCall
  finalizeEntries : ℕ
  overlapped : Bool
  finalizeEvents : ℕ

namespace Process

/-- Go on with some statements. -/
def next (s : Process) (stmts : List Stmt) : Process := { s with todo := stmts ++ s.todo }

/-- `spx_utils_die`. -/
def die (s : Process) (d : Die) : Process := { s with ended := some (.die d) }

/-- The signal handler changed, when there is one. -/
def modifyHandler (s : Process) (g : SignalHandler → SignalHandler) : Process :=
  { s with sigHandler := s.sigHandler.map g }

/-- `spx_signal_handler_set_probing`, when there is a handler. -/
def setProbing (s : Process) (probing : Bool) : Process :=
  s.modifyHandler fun handler => { handler with probing := probing }

/-- A call of `profiling_handler_sig_terminate`.  It does not return, so what was to be
done is dropped. -/
def sigTerminate (s : Process) : Process := { s with todo := [.shutdown .stop, .exit] }

/-- Enter a function of the profiler. -/
def enter (s : Process) (call : ProfilerCall) : Process := { s with running := call :: s.running }

/-- Return from the innermost one. -/
def leave (s : Process) : Process := { s with running := s.running.tail }

end Process

/-- The before hook up to the test of the profiler, with the current function. -/
def Engine.pushCurrent (e : Engine) (current : PhpFunction) : Except Die (Engine × PhpFunction) :=
  match e.callStack with
  | none => .error .callStackCapacityExceeded
  | some stack =>
    if stack.isFull then .error .callStackCapacityExceeded
    else
      let function := spxPhpCurrentFunction e.hooks current
      match stack.push function with
      | none => .error .failedToPush
      | some stack => .ok ({ e with callStack := some stack }, function)

/-- The after hook up to the test of the profiler. -/
def Engine.popCurrent (e : Engine) : Except Die Engine :=
  match e.callStack.bind CallStack.pop with
  | none => .error .failedToPop
  | some stack => .ok { e with callStack := some stack }

section Step

variable (zendInlineHashFunc : String → UInt64)

/-- What a hook tells the profiler, done. -/
def AttachedProfiler.tell (a : AttachedProfiler) (env : HookEnv) :
    HookCall → Except Die AttachedProfiler
  | .callStart function => a.callStart zendInlineHashFunc function env
  | .callEnd => a.callEnd zendInlineHashFunc env

/-! ## Steps -/

/-- A statement of a hook that has a profiler. -/
def Process.probe (s : Process) (env : HookEnv) (call : HookCall) : ProbePoint → Process
  | .set => (s.setProbing true).next [.probe .call call]
  | .call => (s.enter (.hook call)).next [.probe .return call]
  | .return =>
    match s.engine.profiler with
    | none => s
    | some a =>
      match a.tell zendInlineHashFunc env call with
      | .error d => s.die d
      | .ok a =>
        { s.leave with engine := { s.engine with profiler := some a } }.next [.probe .reset call]
  | .reset => (s.setProbing false).next [.probe .check call]
  | .check => if s.sigHandler.any SignalHandler.stop then s.sigTerminate else s

/-- A statement of `profiling_handler_stop`. -/
def Process.stop (s : Process) (env : StopEnv) : StopPoint → Process
  | .execution =>
    if s.engine.hooks.requestShutdown = false then s.next [.stop .profiler]
    else if s.engine.hooks.internalHooked then
      { s with engine := s.engine.setActive (some phpRequestShutdown) }.next
        [.after, .stop .clearName]
    else s.next [.stop .clear]
  | .clearName => { s with engine := s.engine.setActive none }.next [.stop .clear]
  | .clear =>
    { s with
      engine :=
        { s.engine with hooks := { s.engine.hooks with requestShutdown := false } } }.next
      [.stop .profiler]
  | .profiler =>
    match s.engine.profiler with
    | none => s.next [.stop .reporter]
    | some _ => s.next [.stop .finalize]
  | .finalize =>
    { s.enter .finalize with
      finalizeEntries := s.finalizeEntries + 1
      overlapped := s.overlapped || !s.running.isEmpty }.next [.stop .conclude]
  | .conclude =>
    match s.engine.profiler with
    | none => s
    | some a =>
      match a.profiler.finalize env.unwinding with
      | .error d => s.die d
      | .ok profiler =>
        { s with
          engine := { s.engine with profiler := some { a with profiler := profiler } }
          finalizeEvents := s.finalizeEvents + 1 }.next [.stop .finalized]
  | .finalized => s.leave.next [.stop .destroy]
  | .destroy => (s.enter .destroy).next [.stop .destroyed]
  | .destroyed => s.leave.next [.stop .detach]
  | .detach => { s with engine := { s.engine with profiler := none } }.next [.stop .reporter]
  | .reporter => { s with engine := { s.engine with reporter := none } }

/-- A statement of `profiling_handler_shutdown`. -/
def Process.shutdown (s : Process) : ShutdownPoint → Process
  | .stop => s.next [.stop .execution, .shutdown .unset]
  | .unset =>
    match s.sigHandler with
    | none => s.next [.shutdown .execution]
    | some handler =>
      if handler.handlerSet then s.next [.shutdown (.restore .sigint)]
      else s.next [.shutdown .destroyHandler]
  | .restore .sigint =>
    { s with installed := Function.update s.installed .sigint false }.next
      [.shutdown (.restore .sigterm)]
  | .restore .sigterm =>
    { s with installed := Function.update s.installed .sigterm false }.next
      [.shutdown .clearGlobal]
  | .clearGlobal =>
    { s.modifyHandler fun handler => { handler with handlerSet := false } with
      globalHandler := false }.next [.shutdown .destroyHandler]
  -- the handler is freed and the pointer reset
  | .destroyHandler =>
    { s with sigHandler := none, globalHandler := false }.next [.shutdown .execution]
  | .execution =>
    { s with
      engine :=
        { s.engine with
          hooks :=
            { s.engine.hooks with
              userHooked := false, internalHooked := false, userDepth := 0,
              requestShutdown := false } } }.next [.shutdown .callStack]
  | .callStack => { s with engine := { s.engine with callStack := none } }

/-- A statement of `signal_callback`, once `global_handler` was found set. -/
def Process.callback (s : Process) (handler : SignalHandler) (signal : Signal) :
    CallbackPoint → Process
  | .count =>
    (s.modifyHandler fun handler =>
      { handler with handlerCalled := handler.handlerCalled + 1 }).next [.callback .check signal]
  | .check => if handler.handlerCalled > 1 then s else s.next [.callback .record signal]
  | .record =>
    (s.modifyHandler fun handler => { handler with signo := signal.number }).next
      [.callback .decide signal]
  | .decide =>
    if handler.probing then s.modifyHandler fun handler => { handler with stop := true }
    else if handler.terminateCallback then s.sigTerminate
    else { s with ended := some (.callback (exitStatus signal.number)) }

/-- One statement, with what the outside answers to it.  The process is in the state
before it, without the statement. -/
def Process.exec (s : Process) (env : StopEnv) : Stmt → Process
  | .before activeFunctionName current =>
    match (s.engine.setActive activeFunctionName).pushCurrent current with
    | .error d => s.die d
    | .ok (e, function) => { s with engine := e }.next [.tell (.callStart function)]
  | .after =>
    match s.engine.popCurrent with
    | .error d => s.die d
    | .ok e => { s with engine := e }.next [.tell .callEnd]
  | .requestShutdown =>
    { s with
      engine := { s.engine with hooks := { s.engine.hooks with requestShutdown := true } } }
  | .tell call =>
    match s.engine.profiler with
    | none => s
    | some _ => s.next [.probe .set call]
  | .probe point call => s.probe zendInlineHashFunc env.hook call point
  | .stop point => s.stop env point
  | .shutdown point => s.shutdown point
  | .exit =>
    let signo := (s.sigHandler.map SignalHandler.signo).getD (-1)
    { s with ended := some (.sigTerminate (exitStatus signo)) }
  | .callback point signal =>
    match s.globalHandler, s.sigHandler with
    | true, some handler => s.callback handler signal point
    | _, _ => s

/-- The next statement is executed, or a signal is delivered. -/
inductive ProcessOp where
  | run (env : StopEnv)
  | deliver (signal : Signal)

/-- `ignored` says which signals the actions in force before ignore; the others kill the
process. -/
def processStep (ignored : Signal → Bool) (s : Process) (op : ProcessOp) : Process :=
  match s.ended with
  | some _ => s
  | none =>
    match op with
    | .run env =>
      match s.todo with
      | [] => s
      | stmt :: todo => Process.exec zendInlineHashFunc { s with todo := todo } env stmt
    | .deliver signal =>
      if s.installed signal then s.next [.callback .count signal]
      else if ignored signal then s
      else { s with ended := some (.killed signal) }

section Lemmas

variable {zendInlineHashFunc} {ignored : Signal → Bool} {s : Process}

theorem processStep_of_ended {ending : Ending} (h : s.ended = some ending) (op : ProcessOp) :
    processStep zendInlineHashFunc ignored s op = s := by
  unfold processStep
  rw [h]

theorem processStep_run_nil (htodo : s.todo = []) (env : StopEnv) :
    processStep zendInlineHashFunc ignored s (.run env) = s := by
  unfold processStep
  rw [htodo]
  cases s.ended <;> rfl

theorem processStep_run (hended : s.ended = none) {stmt : Stmt} {todo : List Stmt}
    (htodo : s.todo = stmt :: todo) (env : StopEnv) :
    processStep zendInlineHashFunc ignored s (.run env) =
      Process.exec zendInlineHashFunc { s with todo := todo } env stmt := by
  unfold processStep
  rw [hended, htodo]

theorem processStep_deliver (hended : s.ended = none) (signal : Signal) :
    processStep zendInlineHashFunc ignored s (.deliver signal) =
      if s.installed signal then s.next [.callback .count signal]
      else if ignored signal then s
      else { s with ended := some (.killed signal) } := by
  unfold processStep
  rw [hended]

end Lemmas

/-- Some steps. -/
def processRun (ignored : Signal → Bool) (s : Process) (ops : List ProcessOp) : Process :=
  ops.foldl (processStep zendInlineHashFunc ignored) s

/-! ## The start -/

/-- What a script makes the hooks do. -/
inductive ScriptOp where
  | before (activeFunctionName : Option String) (current : PhpFunction)
  | after
  | requestShutdown

/-- The statement of a call of a hook. -/
def ScriptOp.stmt : ScriptOp → Stmt
  | .before activeFunctionName current => .before activeFunctionName current
  | .after => .after
  | .requestShutdown => .requestShutdown

/-- The process after `profiling_handler_init`, before a script and the request
shutdown.  The signal handler may not have been created or installed. -/
def Process.start (e : Engine) (handled : Bool) (script : List ScriptOp) : Process where
  engine := e
  sigHandler := if handled then some .installed else none
  globalHandler := handled
  installed := fun _ => handled
  todo := script.map ScriptOp.stmt ++ [.shutdown .stop]
  ended := none
  running := []
  finalizeEntries := 0
  overlapped := false
  finalizeEvents := 0

/-! ## Without signals -/

/-- What a hook does once the call stack is up to date. -/
def Engine.tellProfiler (e : Engine) (env : HookEnv) (call : HookCall) : Except Die Engine :=
  match e.profiler with
  | none => .ok e
  | some a => (a.tell zendInlineHashFunc env call).map fun a => { e with profiler := some a }

theorem hookBefore_eq (e : Engine) (current : PhpFunction) (env : HookEnv) :
    profilingHandlerExHookBefore zendInlineHashFunc e current env =
      (e.pushCurrent current).bind fun (e, function) =>
        e.tellProfiler zendInlineHashFunc env (.callStart function) := by
  rw [profilingHandlerExHookBefore, Engine.pushCurrent]
  cases e.callStack with
  | none => rfl
  | some stack =>
    dsimp only
    split
    · rfl
    · cases stack.push (spxPhpCurrentFunction e.hooks current) with
      | none => rfl
      | some stack => rfl

theorem hookAfter_eq (e : Engine) (env : HookEnv) :
    profilingHandlerExHookAfter zendInlineHashFunc e env =
      e.popCurrent.bind fun e => e.tellProfiler zendInlineHashFunc env .callEnd := by
  rw [profilingHandlerExHookAfter, Engine.popCurrent]
  cases e.callStack.bind CallStack.pop with
  | none => rfl
  | some stack => rfl

variable (ignored : Signal → Bool) (env : StopEnv)

/-- The process goes from one state to the other when no signal is delivered. -/
def Process.Goes (s s' : Process) : Prop :=
  ∃ k, processRun zendInlineHashFunc ignored s (List.replicate k (.run env)) = s'

variable {zendInlineHashFunc ignored env}

theorem processRun_append (s : Process) (ops ops' : List ProcessOp) :
    processRun zendInlineHashFunc ignored s (ops ++ ops') =
      processRun zendInlineHashFunc ignored (processRun zendInlineHashFunc ignored s ops) ops' :=
  List.foldl_append

theorem Process.goes_refl (s : Process) : s.Goes zendInlineHashFunc ignored env s := ⟨0, rfl⟩

theorem Process.Goes.trans {s s' s'' : Process} (h : s.Goes zendInlineHashFunc ignored env s')
    (h' : s'.Goes zendInlineHashFunc ignored env s'') :
    s.Goes zendInlineHashFunc ignored env s'' := by
  obtain ⟨k, rfl⟩ := h
  obtain ⟨k', rfl⟩ := h'
  refine ⟨k + k', ?_⟩
  rw [List.replicate_add, processRun_append]

/-- One statement. -/
theorem Process.goes_exec {s s' : Process} {stmt : Stmt} {todo : List Stmt}
    (hended : s.ended = none) (htodo : s.todo = stmt :: todo)
    (h : Process.Goes zendInlineHashFunc ignored env
      (Process.exec zendInlineHashFunc { s with todo := todo } env stmt) s') :
    s.Goes zendInlineHashFunc ignored env s' := by
  have hstep : processStep zendInlineHashFunc ignored s (.run env) = _ :=
    processStep_run hended htodo env
  exact Process.Goes.trans ⟨1, hstep⟩ h

/-- No hook is in its probing section, and no signal is waiting for the end of one. -/
def Process.Quiet (s : Process) : Prop :=
  s.ended = none ∧ ∀ handler, s.sigHandler = some handler →
    handler.probing = false ∧ handler.stop = false

/-- The process did what a function of `php_spx.c` does to the engine, and goes on with
the rest; or it died of the same. -/
def Process.Did (s : Process) (x : Except Die Engine) (todo : List Stmt) (s' : Process) : Prop :=
  match x with
  | .ok e => s' = { s with engine := e, todo := todo }
  | .error d => s'.ended = some (.die d)

theorem Process.Quiet.setProbing {s : Process} (h : s.Quiet) :
    (s.setProbing true).setProbing false = s := by
  obtain ⟨engine, sigHandler, _, _, _, _, _, _, _, _⟩ := s
  cases sigHandler with
  | none => rfl
  | some handler =>
    obtain ⟨_, _, probing, _, _, _⟩ := handler
    obtain rfl : probing = false := (h.2 _ rfl).1
    rfl

theorem Process.stop_profiler_none {s : Process} (hp : s.engine.profiler = none) :
    s.stop env .profiler = s.next [.stop .reporter] := by
  rw [Process.stop]
  simp only [hp]

theorem Process.stop_profiler_some {s : Process} {a : AttachedProfiler}
    (hp : s.engine.profiler = some a) : s.stop env .profiler = s.next [.stop .finalize] := by
  rw [Process.stop]
  simp only [hp]

/-- What a hook does once the call stack is up to date, statement by statement. -/
theorem Process.Quiet.tell {s : Process} (h : s.Quiet) {call : HookCall} {todo : List Stmt}
    (htodo : s.todo = .tell call :: todo) :
    ∃ s', s.Goes zendInlineHashFunc ignored env s' ∧
      s.Did (s.engine.tellProfiler zendInlineHashFunc env.hook call) todo s' := by
  obtain ⟨hended, hquiet⟩ := id h
  rw [Engine.tellProfiler]
  cases hp : s.engine.profiler with
  | none =>
    refine ⟨_, Process.goes_exec hended htodo ?_, rfl⟩
    rw [Process.exec]
    simp only [hp]
    exact Process.goes_refl _
  | some a =>
    -- up to the return from the profiler
    set running := s.enter (.hook call) with hrunning
    set called : Process := { running.setProbing true with todo := .probe .return call :: todo }
      with hcalled
    have hgoes : s.Goes zendInlineHashFunc ignored env called := by
      apply Process.goes_exec hended htodo
      rw [Process.exec]
      simp only [hp]
      exact Process.goes_exec hended rfl (Process.goes_exec hended rfl (Process.goes_refl _))
    have hreturn : called.Goes zendInlineHashFunc ignored env
        (Process.probe zendInlineHashFunc { called with todo := todo } env.hook call .return) :=
      Process.goes_exec hended rfl (Process.goes_refl _)
    have hp' : called.engine.profiler = some a := hp
    simp only [Process.probe, hp'] at hreturn
    cases htell : a.tell zendInlineHashFunc env.hook call with
    | error d =>
      simp only [htell] at hreturn
      exact ⟨_, hgoes.trans hreturn, by simp only [htell]; rfl⟩
    | ok b =>
      simp only [htell] at hreturn
      refine ⟨{ s with engine := { s.engine with profiler := some b }, todo := todo },
        hgoes.trans (hreturn.trans ?_), by simp only [htell]; rfl⟩
      refine Process.goes_exec hended rfl (Process.goes_exec hended rfl ?_)
      have hback : ((s.setProbing true).setProbing false).sigHandler = s.sigHandler := by
        rw [h.setProbing]
      have hstop : ¬((s.setProbing true).setProbing false).sigHandler.any SignalHandler.stop
          = true := by
        rw [hback]
        cases hs : s.sigHandler with
        | none => exact Bool.false_ne_true
        | some handler => exact ne_true_of_eq_false (hquiet handler hs).2
      refine ⟨0, ?_⟩
      show (if ((s.setProbing true).setProbing false).sigHandler.any SignalHandler.stop = true
        then _ else _) = _
      rw [if_neg hstop]
      show ({ s with
        engine := _
        todo := todo
        sigHandler := ((s.setProbing true).setProbing false).sigHandler } : Process) = _
      rw [hback]
      rfl

theorem Process.Did.of_engine {s s' : Process} {e : Engine} {stmts todo : List Stmt}
    {x : Except Die Engine} (h : Process.Did { s with engine := e, todo := stmts } x todo s') :
    s.Did x todo s' := by
  cases x with
  | ok e => exact h
  | error d => exact h

/-- **The before hook.** -/
theorem Process.Quiet.hookBefore {s : Process} (h : s.Quiet) {name : Option String}
    {current : PhpFunction} {todo : List Stmt} (htodo : s.todo = .before name current :: todo) :
    ∃ s', s.Goes zendInlineHashFunc ignored env s' ∧
      s.Did (profilingHandlerExHookBefore zendInlineHashFunc (s.engine.setActive name) current
        env.hook) todo s' := by
  obtain ⟨hended, hquiet⟩ := id h
  rw [hookBefore_eq]
  cases hpush : (s.engine.setActive name).pushCurrent current with
  | error d =>
    refine ⟨Process.die { s with todo := todo } d, Process.goes_exec hended htodo ?_, rfl⟩
    rw [Process.exec]
    simp only [hpush]
    exact Process.goes_refl _
  | ok pushed =>
    obtain ⟨e, function⟩ := pushed
    have hquiet₁ : Process.Quiet
        { s with engine := e, todo := .tell (.callStart function) :: todo } :=
      ⟨hended, hquiet⟩
    obtain ⟨s', hs', hdid⟩ := hquiet₁.tell rfl
    refine ⟨s', Process.goes_exec hended htodo ?_, hdid.of_engine⟩
    rw [Process.exec]
    simp only [hpush]
    exact hs'

/-- **The after hook.** -/
theorem Process.Quiet.hookAfter {s : Process} (h : s.Quiet) {todo : List Stmt}
    (htodo : s.todo = .after :: todo) :
    ∃ s', s.Goes zendInlineHashFunc ignored env s' ∧
      s.Did (profilingHandlerExHookAfter zendInlineHashFunc s.engine env.hook) todo s' := by
  obtain ⟨hended, hquiet⟩ := id h
  rw [hookAfter_eq]
  cases hpop : s.engine.popCurrent with
  | error d =>
    refine ⟨Process.die { s with todo := todo } d, Process.goes_exec hended htodo ?_, rfl⟩
    rw [Process.exec]
    simp only [hpop]
    exact Process.goes_refl _
  | ok e =>
    have hquiet₁ : Process.Quiet { s with engine := e, todo := .tell .callEnd :: todo } :=
      ⟨hended, hquiet⟩
    obtain ⟨s', hs', hdid⟩ := hquiet₁.tell rfl
    refine ⟨s', Process.goes_exec hended htodo ?_, hdid.of_engine⟩
    rw [Process.exec]
    simp only [hpop]
    exact hs'

/-- `spx_php_execution_finalize`. -/
theorem Process.Quiet.executionFinalize {s : Process} (h : s.Quiet) {todo : List Stmt}
    (htodo : s.todo = .stop .execution :: todo) :
    ∃ s', s.Goes zendInlineHashFunc ignored env s' ∧
      s.Did (spxPhpExecutionFinalize zendInlineHashFunc s.engine env.hook) (.stop .profiler :: todo)
        s' := by
  obtain ⟨hended, hquiet⟩ := id h
  have hstep : ∀ {s₁ s' : Process}, Process.stop { s with todo := todo } env .execution = s₁ →
      s₁.Goes zendInlineHashFunc ignored env s' → s.Goes zendInlineHashFunc ignored env s' := by
    rintro s₁ s' rfl hs'
    exact Process.goes_exec hended htodo hs'
  rw [spxPhpExecutionFinalize]
  rw [Process.stop] at hstep
  cases hshutdown : s.engine.hooks.requestShutdown with
  | false => exact ⟨_, hstep (if_pos hshutdown) (Process.goes_refl _), rfl⟩
  | true =>
    rw [if_neg (by simp [hshutdown])] at hstep
    cases hinternal : s.engine.hooks.internalHooked with
    | false =>
      refine ⟨_, hstep (if_neg (ne_true_of_eq_false hinternal)) ?_, rfl⟩
      exact Process.goes_exec hended rfl (Process.goes_refl _)
    | true =>
      set s₁ : Process := { s with
        engine := s.engine.setActive (some phpRequestShutdown)
        todo := .after :: .stop .clearName :: todo } with hs₁
      have hquiet₁ : s₁.Quiet := ⟨hended, hquiet⟩
      obtain ⟨s₂, hs₂, hdid⟩ : ∃ s₂, s₁.Goes zendInlineHashFunc ignored env s₂ ∧
          s₁.Did (profilingHandlerExHookAfter zendInlineHashFunc
            (s.engine.setActive (some phpRequestShutdown)) env.hook) (.stop .clearName :: todo)
            s₂ :=
        hquiet₁.hookAfter rfl
      have hgoes : s.Goes zendInlineHashFunc ignored env s₂ := hstep (if_pos hinternal) hs₂
      rw [if_neg (Ne.symm Bool.false_ne_true), if_pos rfl]
      cases hafter : profilingHandlerExHookAfter zendInlineHashFunc
          (s.engine.setActive (some phpRequestShutdown)) env.hook with
      | error d =>
        rw [hafter] at hdid
        exact ⟨s₂, hgoes, hdid⟩
      | ok e =>
        rw [hafter] at hdid
        obtain rfl : s₂ = { s₁ with engine := e, todo := .stop .clearName :: todo } := hdid
        refine ⟨_, hgoes.trans ?_, rfl⟩
        exact Process.goes_exec hended rfl (Process.goes_exec hended rfl (Process.goes_refl _))

/-- The process did what a stop does to the engine, and goes on with the rest; or it
died of the same. -/
def Process.DidStop (s : Process) (x : Except Die Engine) (todo : List Stmt) (s' : Process) :
    Prop :=
  match x with
  | .ok e => ∃ entries overlapped events, s' = { s with
      engine := e
      todo := todo
      finalizeEntries := entries
      overlapped := overlapped
      finalizeEvents := events }
  | .error d => s'.ended = some (.die d)

/-- **`profiling_handler_stop`.** -/
theorem Process.Quiet.handlerStop {s : Process} (h : s.Quiet) {todo : List Stmt}
    (htodo : s.todo = .stop .execution :: todo) :
    ∃ s', s.Goes zendInlineHashFunc ignored env s' ∧
      s.DidStop (profilingHandlerStop zendInlineHashFunc s.engine env) todo s' := by
  have hended := h.1
  obtain ⟨s₁, hgoes, hdid⟩ : ∃ s₁, s.Goes zendInlineHashFunc ignored env s₁ ∧
      s.Did (spxPhpExecutionFinalize zendInlineHashFunc s.engine env.hook)
        (.stop .profiler :: todo) s₁ := h.executionFinalize htodo
  cases hexecution : spxPhpExecutionFinalize zendInlineHashFunc s.engine env.hook with
  | error d =>
    rw [hexecution] at hdid
    rw [profilingHandlerStop, hexecution]
    exact ⟨s₁, hgoes, hdid⟩
  | ok e =>
    rw [hexecution] at hdid
    obtain rfl : s₁ = { s with engine := e, todo := .stop .profiler :: todo } := hdid
    have hstop : profilingHandlerStop zendInlineHashFunc s.engine env =
        match e.profiler with
        | none => .ok { e with reporter := none }
        | some a => (a.profiler.finalize env.unwinding).map fun _ =>
          { e with profiler := none, reporter := none } := by
      rw [profilingHandlerStop, hexecution]
      rfl
    rcases Option.eq_none_or_eq_some e.profiler with hp | ⟨a, hp⟩
    · have hresult : profilingHandlerStop zendInlineHashFunc s.engine env
          = .ok { e with reporter := none } := by
        rw [hstop]
        simp only [hp]
      rw [hresult]
      refine ⟨{ s with engine := { e with reporter := none }, todo := todo },
        hgoes.trans (Process.goes_exec hended rfl ?_), _, _, _, rfl⟩
      rw [Process.exec, Process.stop_profiler_none hp]
      exact Process.goes_exec hended rfl (Process.goes_refl _)
    · -- up to the end of the profile
      set entered : Process := { s with
        engine := e
        todo := .stop .conclude :: todo
        running := .finalize :: s.running
        finalizeEntries := s.finalizeEntries + 1
        overlapped := s.overlapped || !s.running.isEmpty } with hentered
      have hconclude : s.Goes zendInlineHashFunc ignored env
          (Process.stop { entered with todo := todo } env .conclude) := by
        refine hgoes.trans (Process.goes_exec hended rfl ?_)
        rw [Process.exec, Process.stop_profiler_some hp]
        exact Process.goes_exec hended rfl (Process.goes_exec hended rfl (Process.goes_refl _))
      have hp' : entered.engine.profiler = some a := hp
      simp only [Process.stop, hp'] at hconclude
      simp only [hp] at hstop
      rw [hstop]
      cases hfinalize : a.profiler.finalize env.unwinding with
      | error d =>
        simp only [hfinalize] at hconclude
        exact ⟨_, hconclude, rfl⟩
      | ok profiler =>
        simp only [hfinalize] at hconclude
        refine ⟨{ s with
          engine := { e with profiler := none, reporter := none }
          todo := todo
          finalizeEntries := s.finalizeEntries + 1
          overlapped := s.overlapped || !s.running.isEmpty
          finalizeEvents := s.finalizeEvents + 1 }, hconclude.trans ?_, _, _, _, rfl⟩
        exact Process.goes_exec hended rfl (Process.goes_exec hended rfl
          (Process.goes_exec hended rfl (Process.goes_exec hended rfl
            (Process.goes_exec hended rfl ⟨0, rfl⟩))))

/-- What a shutdown does to the engine once the profile is stopped. -/
def Engine.shutDown (e : Engine) : Engine :=
  { e with
    callStack := none
    hooks :=
      { e.hooks with
        userHooked := false, internalHooked := false, userDepth := 0, requestShutdown := false } }

/-- What follows the stop in a shutdown. -/
theorem Process.goes_unset {s : Process} (hended : s.ended = none) {todo : List Stmt}
    (htodo : s.todo = .shutdown .unset :: todo) :
    ∃ s', s.Goes zendInlineHashFunc ignored env s' ∧ s'.engine = s.engine.shutDown ∧
      s'.todo = todo ∧ s'.ended = none ∧ s'.sigHandler = none := by
  -- the last two statements
  have hlast : ∀ s₁ : Process, s₁.ended = none → s₁.sigHandler = none →
      s₁.engine = s.engine → s₁.todo = .shutdown .execution :: todo →
      s.Goes zendInlineHashFunc ignored env s₁ →
      ∃ s', s.Goes zendInlineHashFunc ignored env s' ∧ s'.engine = s.engine.shutDown ∧
        s'.todo = todo ∧ s'.ended = none ∧ s'.sigHandler = none := by
    intro s₁ hended₁ hhandler₁ hengine₁ htodo₁ hgoes
    refine ⟨_, hgoes.trans (Process.goes_exec hended₁ htodo₁
      (Process.goes_exec hended₁ rfl (Process.goes_refl _))), ?_, rfl, hended₁, hhandler₁⟩
    show s₁.engine.shutDown = _
    rw [hengine₁]
  cases hhandler : s.sigHandler with
  | none =>
    refine hlast { s with todo := .shutdown .execution :: todo } hended hhandler rfl rfl
      (Process.goes_exec hended htodo ?_)
    rw [Process.exec, Process.shutdown]
    simp only [hhandler]
    exact Process.goes_refl _
  | some handler =>
    -- uninstalled or not, the handler is destroyed
    have hdestroyed : ∀ s₁ : Process, s₁.ended = none → s₁.engine = s.engine →
        s₁.todo = .shutdown .destroyHandler :: todo → s.Goes zendInlineHashFunc ignored env s₁ →
        ∃ s', s.Goes zendInlineHashFunc ignored env s' ∧ s'.engine = s.engine.shutDown ∧
          s'.todo = todo ∧ s'.ended = none ∧ s'.sigHandler = none := by
      intro s₁ hended₁ hengine₁ htodo₁ hgoes
      refine hlast
        { s₁ with
          sigHandler := none, globalHandler := false, todo := .shutdown .execution :: todo }
        hended₁ rfl hengine₁ rfl (hgoes.trans ?_)
      exact Process.goes_exec hended₁ htodo₁ (Process.goes_refl _)
    have hunset : Process.shutdown { s with todo := todo } .unset =
        if handler.handlerSet then
          Process.next { s with todo := todo } [.shutdown (.restore .sigint)]
        else Process.next { s with todo := todo } [.shutdown .destroyHandler] := by
      rw [Process.shutdown]
      simp only [hhandler]
    cases hset : handler.handlerSet with
    | false =>
      rw [hset, if_neg Bool.false_ne_true] at hunset
      refine hdestroyed { s with todo := .shutdown .destroyHandler :: todo } hended rfl rfl
        (Process.goes_exec hended htodo ?_)
      rw [Process.exec, hunset]
      exact Process.goes_refl _
    | true =>
      rw [hset, if_pos rfl] at hunset
      set uninstalled := s.modifyHandler fun handler => { handler with handlerSet := false }
      refine hdestroyed
        { uninstalled with
          installed :=
            Function.update (Function.update s.installed .sigint false) .sigterm false
          globalHandler := false
          todo := .shutdown .destroyHandler :: todo }
        hended rfl rfl (Process.goes_exec hended htodo ?_)
      rw [Process.exec, hunset]
      exact Process.goes_exec hended rfl (Process.goes_exec hended rfl
        (Process.goes_exec hended rfl (Process.goes_refl _)))

/-- **`profiling_handler_shutdown`.** -/
theorem Process.Quiet.handlerShutdown {s : Process} (h : s.Quiet) {todo : List Stmt}
    (htodo : s.todo = .shutdown .stop :: todo) :
    ∃ s', s.Goes zendInlineHashFunc ignored env s' ∧
      match profilingHandlerShutdown zendInlineHashFunc s.engine env with
      | .ok e => s'.engine = e ∧ s'.todo = todo ∧ s'.ended = none ∧ s'.sigHandler = none
      | .error d => s'.ended = some (.die d) := by
  set s₁ : Process := { s with todo := .stop .execution :: .shutdown .unset :: todo } with hs₁
  have hquiet₁ : s₁.Quiet := h
  obtain ⟨s₂, hgoes, hdid⟩ : ∃ s₂, s₁.Goes zendInlineHashFunc ignored env s₂ ∧
      s₁.DidStop (profilingHandlerStop zendInlineHashFunc s.engine env) (.shutdown .unset :: todo)
        s₂ := hquiet₁.handlerStop rfl
  have hgoes₂ : s.Goes zendInlineHashFunc ignored env s₂ := Process.goes_exec h.1 htodo hgoes
  rw [profilingHandlerShutdown]
  cases hstop : profilingHandlerStop zendInlineHashFunc s.engine env with
  | error d =>
    rw [hstop] at hdid
    exact ⟨s₂, hgoes₂, hdid⟩
  | ok e =>
    rw [hstop] at hdid
    obtain ⟨entries, overlapped, events, rfl⟩ := hdid
    set stopped : Process := { s₁ with
      engine := e
      todo := .shutdown .unset :: todo
      finalizeEntries := entries
      overlapped := overlapped
      finalizeEvents := events }
    have hended : stopped.ended = none := h.1
    obtain ⟨s', hs', hengine, hrest⟩ := Process.goes_unset hended rfl
    exact ⟨s', hgoes₂.trans hs', hengine, hrest⟩

/-- What a hook called by the script does to the engine, as a whole. -/
def Engine.scriptStep (zendInlineHashFunc : String → UInt64) (env : HookEnv) (e : Engine) :
    ScriptOp → Except Die Engine
  | .before activeFunctionName current =>
    profilingHandlerExHookBefore zendInlineHashFunc (e.setActive activeFunctionName) current env
  | .after => profilingHandlerExHookAfter zendInlineHashFunc e env
  | .requestShutdown => .ok { e with hooks := { e.hooks with requestShutdown := true } }

theorem Process.Quiet.scriptOp {s : Process} (h : s.Quiet) {op : ScriptOp} {todo : List Stmt}
    (htodo : s.todo = op.stmt :: todo) :
    ∃ s', s.Goes zendInlineHashFunc ignored env s' ∧
      s.Did (s.engine.scriptStep zendInlineHashFunc env.hook op) todo s' := by
  cases op with
  | before activeFunctionName current => exact h.hookBefore htodo
  | after => exact h.hookAfter htodo
  | requestShutdown => exact ⟨_, Process.goes_exec h.1 htodo (Process.goes_refl _), rfl⟩

/-- The hooks of a script. -/
theorem Process.Quiet.script {s : Process} (h : s.Quiet) {script : List ScriptOp}
    {todo : List Stmt} (htodo : s.todo = script.map ScriptOp.stmt ++ todo) :
    ∃ s', s.Goes zendInlineHashFunc ignored env s' ∧
      s.Did (runSteps (Engine.scriptStep zendInlineHashFunc env.hook) script s.engine) todo s' := by
  induction script generalizing s with
  | nil =>
    refine ⟨s, Process.goes_refl s, ?_⟩
    rw [List.map_nil, List.nil_append] at htodo
    rw [← htodo]
    rfl
  | cons op script ih =>
    obtain ⟨s₁, hgoes, hdid⟩ : ∃ s₁, s.Goes zendInlineHashFunc ignored env s₁ ∧
        s.Did (s.engine.scriptStep zendInlineHashFunc env.hook op)
          (script.map ScriptOp.stmt ++ todo) s₁ := h.scriptOp htodo
    rw [runSteps]
    cases hop : s.engine.scriptStep zendInlineHashFunc env.hook op with
    | error d =>
      rw [hop] at hdid
      exact ⟨s₁, hgoes, hdid⟩
    | ok e =>
      rw [hop] at hdid
      obtain rfl : s₁ = { s with engine := e, todo := script.map ScriptOp.stmt ++ todo } := hdid
      obtain ⟨s', hgoes', hdid'⟩ := @ih { s with engine := e, todo := _ } h rfl
      exact ⟨s', hgoes.trans hgoes', hdid'.of_engine⟩

theorem quiet_start (e : Engine) (handled : Bool) (script : List ScriptOp) :
    (Process.start e handled script).Quiet := by
  refine ⟨rfl, ?_⟩
  intro handler hhandler
  cases handled with
  | false => exact nomatch hhandler
  | true =>
    obtain rfl : SignalHandler.installed = handler := Option.some.inj hhandler
    exact ⟨rfl, rfl⟩

/-- **Without signals** the process does what the hooks of the script and the shutdown after them
do to the engine, or dies of the same. -/
theorem process_without_signals (e : Engine) (handled : Bool) (script : List ScriptOp) :
    ∃ s', (Process.start e handled script).Goes zendInlineHashFunc ignored env s' ∧
      match (runSteps (Engine.scriptStep zendInlineHashFunc env.hook) script e).bind fun e =>
          profilingHandlerShutdown zendInlineHashFunc e env with
      | .ok e => s'.engine = e ∧ s'.todo = [] ∧ s'.ended = none ∧ s'.sigHandler = none
      | .error d => s'.ended = some (.die d) := by
  set s : Process := Process.start e handled script
  have hquiet : s.Quiet := quiet_start e handled script
  obtain ⟨s₁, hgoes, hdid⟩ : ∃ s₁, s.Goes zendInlineHashFunc ignored env s₁ ∧
      s.Did (runSteps (Engine.scriptStep zendInlineHashFunc env.hook) script e)
        [.shutdown .stop] s₁ := hquiet.script rfl
  cases hscript : runSteps (Engine.scriptStep zendInlineHashFunc env.hook) script e with
  | error d =>
    rw [hscript] at hdid
    exact ⟨s₁, hgoes, hdid⟩
  | ok e₁ =>
    rw [hscript] at hdid
    have hquiet₁ : Process.Quiet { s with engine := e₁, todo := [.shutdown .stop] } := hquiet
    obtain rfl : s₁ = { s with engine := e₁, todo := [.shutdown .stop] } := hdid
    obtain ⟨s', hgoes', hdid'⟩ := hquiet₁.handlerShutdown rfl
    exact ⟨s', hgoes.trans hgoes', hdid'⟩

end Step

end PhpSpx
