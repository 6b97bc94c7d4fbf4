import PhpSpx.Engine.Nesting
import PhpSpx.Engine.Signals

/-!
# The exit status after a signal

`profiling_handler_sig_terminate` asks the signal handler for the number of the signal
after the shutdown, which destroys the handler.

* `ExitAfter` — the end of `profiling_handler_sig_terminate` is reached only after some
  statements, or when something holds.
* `Process.exec_of_not_signalled` — what a statement changes of all this when no signal
  has a part in it.
* `sig_terminate_loses_signo` — whole runs.
-/

namespace PhpSpx

open Lib

/-! ## What comes before the exit -/

/-- Before the first statement with a mark, an `exit` is left to execute only if `P`
holds. -/
def ExitAfter (mark : Stmt → Prop) (P : Prop) : List Stmt → Prop
  | [] => True
  | stmt :: todo => mark stmt ∨ ((stmt = .exit → P) ∧ ExitAfter mark P todo)

section ExitAfter

variable {mark : Stmt → Prop} {P Q : Prop}

theorem exitAfter_of (h : P) (todo : List Stmt) : ExitAfter mark P todo := by
  induction todo with
  | nil => exact trivial
  | cons stmt todo ih => exact .inr ⟨fun _ => h, ih⟩

theorem exitAfter_of_mark {stmt : Stmt} (h : mark stmt) (todo : List Stmt) :
    ExitAfter mark P (stmt :: todo) := .inl h

theorem ExitAfter.mono {todo : List Stmt} (h : ExitAfter mark P todo) (hPQ : P → Q) :
    ExitAfter mark Q todo := by
  induction todo with
  | nil => exact trivial
  | cons stmt todo ih =>
    exact h.imp_right fun ⟨hexit, htodo⟩ => ⟨fun he => hPQ (hexit he), ih htodo⟩

theorem ExitAfter.tail {stmt : Stmt} {todo : List Stmt} (h : ExitAfter mark P (stmt :: todo))
    (hstmt : ¬mark stmt) : ExitAfter mark P todo := (h.resolve_left hstmt).2

theorem ExitAfter.exit {todo : List Stmt} (h : ExitAfter mark P (.exit :: todo))
    (hexit : ¬mark .exit) : P := (h.resolve_left hexit).1 rfl

theorem ExitAfter.append {stmts todo : List Stmt} (h : ExitAfter mark P todo)
    (hstmts : .exit ∉ stmts) : ExitAfter mark P (stmts ++ todo) := by
  induction stmts with
  | nil => exact h
  | cons stmt stmts ih =>
    obtain ⟨hne, hrest⟩ := not_or.mp (mt List.mem_cons.mpr hstmts)
    exact .inr ⟨fun he => absurd he.symm hne, ih hrest⟩

end ExitAfter

/-! ## What a statement changes -/

/-- A statement that is only there once a signal was delivered. -/
def Stmt.Signalled : Stmt → Prop
  | .exit | .callback .. => True
  | _ => False

/-- What is left to execute, whether the handler is there and its flag `stop`, and how
the process ends, from before a statement to after it, no signal having a part in it. -/
structure Process.Passes (s s' : Process) : Prop where
  todo : ∃ stmts : List Stmt, (∀ stmt ∈ stmts, ¬stmt.Signalled) ∧ s'.todo = stmts ++ s.todo
  handler : s'.sigHandler = none ∨
    s'.sigHandler.map SignalHandler.stop = s.sigHandler.map SignalHandler.stop
  ended : s'.ended = s.ended ∨ ∃ d, s'.ended = some (.die d)

theorem map_stop {x : Option SignalHandler} {g : SignalHandler → SignalHandler}
    (hg : ∀ handler, (g handler).stop = handler.stop) :
    (x.map g).map SignalHandler.stop = x.map SignalHandler.stop := by
  rw [Option.map_map]
  exact congrArg (Option.map · x) (funext hg)

/-- A statement that puts others on top. -/
theorem Process.passes_next {s s' : Process} (stmts : List Stmt)
    (hstmts : ∀ stmt ∈ stmts, ¬stmt.Signalled) (htodo : s'.todo = stmts ++ s.todo)
    (hhandler : s'.sigHandler.map SignalHandler.stop = s.sigHandler.map SignalHandler.stop)
    (hended : s'.ended = s.ended) : s.Passes s' :=
  ⟨⟨stmts, hstmts, htodo⟩, .inr hhandler, .inl hended⟩

theorem Process.passes_die (s : Process) (d : Die) : s.Passes (s.die d) :=
  ⟨⟨[], nofun, rfl⟩, .inr rfl, .inr ⟨d, rfl⟩⟩

theorem Process.passes_refl (s : Process) : s.Passes s :=
  Process.passes_next [] nofun rfl rfl rfl

section Exec

variable {zendInlineHashFunc : String → UInt64} {s : Process}

theorem Process.stop_passes (env : StopEnv) (point : StopPoint) : s.Passes (s.stop env point) := by
  cases point with
  | execution =>
    rw [Process.stop]
    split
    · exact Process.passes_next [_] (by simp [Stmt.Signalled]) rfl rfl rfl
    · split
      · exact Process.passes_next [_, _] (by simp [Stmt.Signalled]) rfl rfl rfl
      · exact Process.passes_next [_] (by simp [Stmt.Signalled]) rfl rfl rfl
  | profiler =>
    rw [Process.stop]
    split
    · exact Process.passes_next [_] (by simp [Stmt.Signalled]) rfl rfl rfl
    · exact Process.passes_next [_] (by simp [Stmt.Signalled]) rfl rfl rfl
  | conclude =>
    rw [Process.stop]
    split
    · exact s.passes_refl
    · split
      · exact s.passes_die _
      · exact Process.passes_next [_] (by simp [Stmt.Signalled]) rfl rfl rfl
  | reporter => exact Process.passes_next [] (by simp) rfl rfl rfl
  | clearName | clear | finalize | finalized | destroy | destroyed | detach =>
    exact Process.passes_next [_] (by simp [Stmt.Signalled]) rfl rfl rfl

theorem Process.shutdown_passes (point : ShutdownPoint) : s.Passes (s.shutdown point) := by
  cases point with
  | stop => exact Process.passes_next [_, _] (by simp [Stmt.Signalled]) rfl rfl rfl
  | unset =>
    rw [Process.shutdown]
    split
    · exact Process.passes_next [_] (by simp [Stmt.Signalled]) rfl rfl rfl
    · split
      · exact Process.passes_next [_] (by simp [Stmt.Signalled]) rfl rfl rfl
      · exact Process.passes_next [_] (by simp [Stmt.Signalled]) rfl rfl rfl
  | restore signal =>
    cases signal with
    | sigint => exact Process.passes_next [_] (by simp [Stmt.Signalled]) rfl rfl rfl
    | sigterm => exact Process.passes_next [_] (by simp [Stmt.Signalled]) rfl rfl rfl
  | clearGlobal =>
    exact Process.passes_next [_] (by simp [Stmt.Signalled]) rfl (map_stop fun _ => rfl) rfl
  | destroyHandler => exact ⟨⟨[_], by simp [Stmt.Signalled], rfl⟩, .inl rfl, .inl rfl⟩
  | execution => exact Process.passes_next [_] (by simp [Stmt.Signalled]) rfl rfl rfl
  | callStack => exact Process.passes_next [] (by simp) rfl rfl rfl

/-- **A statement of a hook, of the stop or of the shutdown**: only the end of a hook
that finds the flag `stop` set makes the process exit. -/
theorem Process.exec_of_not_signalled {stmt : Stmt} (hstmt : ¬stmt.Signalled) (env : StopEnv) :
    s.Passes (Process.exec zendInlineHashFunc s env stmt) ∨
      (s.sigHandler.any SignalHandler.stop = true ∧
        Process.exec zendInlineHashFunc s env stmt = s.sigTerminate) := by
  cases stmt with
  | exit => exact absurd trivial hstmt
  | callback point signal => exact absurd trivial hstmt
  | before name current =>
    rw [Process.exec]
    split
    · exact .inl (s.passes_die _)
    · exact .inl (Process.passes_next [_] (by simp [Stmt.Signalled]) rfl rfl rfl)
  | after =>
    rw [Process.exec]
    split
    · exact .inl (s.passes_die _)
    · exact .inl (Process.passes_next [_] (by simp [Stmt.Signalled]) rfl rfl rfl)
  | requestShutdown => exact .inl (Process.passes_next [] (by simp) rfl rfl rfl)
  | tell call =>
    rw [Process.exec]
    split
    · exact .inl s.passes_refl
    · exact .inl (Process.passes_next [_] (by simp [Stmt.Signalled]) rfl rfl rfl)
  | probe point call =>
    rw [Process.exec]
    cases point with
    | set | reset =>
      exact .inl
        (Process.passes_next [_] (by simp [Stmt.Signalled]) rfl (map_stop fun _ => rfl) rfl)
    | call => exact .inl (Process.passes_next [_] (by simp [Stmt.Signalled]) rfl rfl rfl)
    | «return» =>
      rw [Process.probe]
      split
      · exact .inl s.passes_refl
      · split
        · exact .inl (s.passes_die _)
        · exact .inl (Process.passes_next [_] (by simp [Stmt.Signalled]) rfl rfl rfl)
    | check =>
      rw [Process.probe]
      split
      · rename_i hstop
        exact .inr ⟨hstop, rfl⟩
      · exact .inl s.passes_refl
  | stop point => exact .inl (Process.stop_passes env point)
  | shutdown point => exact .inl (Process.shutdown_passes point)

end Exec

/-! ## The invariant -/

/-- A statement of the shutdown after which the signal handler is yet to be
destroyed. -/
def Stmt.KeepsHandler : Stmt → Prop
  | .shutdown .execution | .shutdown .callStack => False
  | .shutdown _ => True
  | _ => False

/-- When the end of `profiling_handler_sig_terminate` is reached the signal handler is
destroyed, so it ends the process with status `0`. -/
structure Process.LosesSigno (s : Process) : Prop where
  destroyed : ExitAfter Stmt.KeepsHandler (s.sigHandler = none) s.todo
  status : ∀ status, s.ended = some (.sigTerminate status) → status = 0

section Step

variable {zendInlineHashFunc : String → UInt64}

theorem losesSigno_of_running {s : Process} (hended : s.ended = none)
    (h : ExitAfter Stmt.KeepsHandler (s.sigHandler = none) s.todo) : s.LosesSigno :=
  ⟨h, fun _ hstatus => nomatch hended.symm.trans hstatus⟩

theorem losesSigno_sigTerminate {s : Process} (hended : s.ended = none) :
    s.sigTerminate.LosesSigno :=
  losesSigno_of_running hended (exitAfter_of_mark trivial _)

/-- A statement of a callback that puts others on top. -/
theorem Process.LosesSigno.next {s s' : Process} {stmt : Stmt}
    (h : ExitAfter Stmt.KeepsHandler (s.sigHandler = none) (stmt :: s.todo))
    (hstmt : ¬stmt.KeepsHandler) (hended : s'.ended = none)
    (hhandler : s.sigHandler = none → s'.sigHandler = none) (stmts : List Stmt)
    (hstmts : .exit ∉ stmts) (htodo : s'.todo = stmts ++ s.todo) : s'.LosesSigno := by
  apply losesSigno_of_running hended
  rw [htodo]
  exact ((h.tail hstmt).append hstmts).mono hhandler

/-- A statement without a mark of a hook, of the stop or of the shutdown. -/
theorem Process.Passes.losesSigno {s s' : Process} {stmt : Stmt} (hpasses : s.Passes s')
    (h : ExitAfter Stmt.KeepsHandler (s.sigHandler = none) (stmt :: s.todo))
    (hstmt : ¬stmt.KeepsHandler) (hended : s.ended = none) : s'.LosesSigno := by
  obtain ⟨⟨stmts, hstmts, htodo⟩, hhandler, hended'⟩ := hpasses
  refine ⟨?_, ?_⟩
  · have hexit : .exit ∉ stmts := fun hmem => hstmts .exit hmem trivial
    rw [htodo]
    refine ((h.tail hstmt).append hexit).mono fun hnone => hhandler.elim id ?_
    intro hsame
    rw [hnone, Option.map_none] at hsame
    exact Option.map_eq_none_iff.mp hsame
  · intro status hstatus
    rcases hended' with hsame | ⟨d, hdie⟩
    · exact nomatch (hsame.trans hended).symm.trans hstatus
    · exact nomatch hdie.symm.trans hstatus

/-- **One statement.** -/
theorem Process.LosesSigno.exec {s : Process} {stmt : Stmt}
    (h : ExitAfter Stmt.KeepsHandler (s.sigHandler = none) (stmt :: s.todo))
    (hended : s.ended = none) (env : StopEnv) : (Process.exec zendInlineHashFunc s env stmt).LosesSigno := by
  have hothers : ¬stmt.Signalled → ¬stmt.KeepsHandler →
      (Process.exec zendInlineHashFunc s env stmt).LosesSigno := by
    intro hsignalled hkeeps
    rcases Process.exec_of_not_signalled hsignalled env with hpasses | ⟨-, hterminates⟩
    · exact hpasses.losesSigno h hkeeps hended
    · rw [hterminates]
      exact losesSigno_sigTerminate hended
  cases stmt with
  | before | after | requestShutdown | tell | probe | stop => exact hothers id id
  | shutdown point =>
    cases point with
    | stop =>
      -- the statements of the stop come before the next one of the shutdown
      exact losesSigno_of_running hended (.inr ⟨by simp, .inl trivial⟩)
    | unset =>
      rw [Process.exec, Process.shutdown]
      split
      · rename_i hnone
        exact losesSigno_of_running hended (exitAfter_of hnone _)
      · split
        · exact losesSigno_of_running hended (exitAfter_of_mark trivial _)
        · exact losesSigno_of_running hended (exitAfter_of_mark trivial _)
    | restore signal =>
      cases signal with
      | sigint => exact losesSigno_of_running hended (exitAfter_of_mark trivial _)
      | sigterm => exact losesSigno_of_running hended (exitAfter_of_mark trivial _)
    | clearGlobal => exact losesSigno_of_running hended (exitAfter_of_mark trivial _)
    | destroyHandler => exact losesSigno_of_running hended (exitAfter_of rfl _)
    | execution | callStack => exact hothers id id
  | exit =>
    have hnone : s.sigHandler = none := h.exit id
    refine ⟨exitAfter_of hnone _, ?_⟩
    intro status hstatus
    rw [Process.exec, hnone] at hstatus
    cases hstatus
    rfl
  | callback point signal =>
    rw [Process.exec]
    split
    · cases point with
      | count => exact .next h id hended Option.map_eq_none_iff.mpr [_] (by simp) rfl
      | check =>
        rw [Process.callback]
        split
        · exact .next h id hended id [] (by simp) rfl
        · exact .next h id hended id [_] (by simp) rfl
      | record => exact .next h id hended Option.map_eq_none_iff.mpr [_] (by simp) rfl
      | decide =>
        rw [Process.callback]
        split
        · exact .next h id hended Option.map_eq_none_iff.mpr [] (by simp) rfl
        · split
          · exact losesSigno_sigTerminate hended
          · exact ⟨h.tail id, fun _ => by simp⟩
    · exact .next h id hended id [] (by simp) rfl

variable {ignored : Signal → Bool}

/-- **One step.** -/
theorem Process.LosesSigno.step {s : Process} (h : s.LosesSigno) (op : ProcessOp) :
    (processStep zendInlineHashFunc ignored s op).LosesSigno := by
  cases hended : s.ended with
  | some ending => rwa [processStep_of_ended hended]
  | none =>
    cases op with
    | run env =>
      cases htodo : s.todo with
      | nil => rwa [processStep_run_nil htodo]
      | cons stmt todo =>
        rw [processStep_run hended htodo]
        have hdestroyed := h.destroyed
        rw [htodo] at hdestroyed
        exact Process.LosesSigno.exec (s := { s with todo := todo }) hdestroyed hended env
    | deliver signal =>
      rw [processStep_deliver hended]
      split
      · exact losesSigno_of_running hended (h.destroyed.append (by simp))
      · split
        · exact h
        · exact ⟨h.destroyed, nofun⟩

theorem Process.LosesSigno.run {s : Process} (h : s.LosesSigno) (ops : List ProcessOp) :
    (processRun zendInlineHashFunc ignored s ops).LosesSigno := by
  induction ops generalizing s with
  | nil => exact h
  | cons op ops ih => exact ih (h.step op)

theorem exit_notMem_script (script : List ScriptOp) : .exit ∉ script.map ScriptOp.stmt := by
  simp only [List.mem_map, not_exists, not_and]
  intro op _
  cases op <;> exact nofun

theorem losesSigno_start (e : Engine) (handled : Bool) (script : List ScriptOp) :
    (Process.start e handled script).LosesSigno :=
  losesSigno_of_running rfl
    (ExitAfter.append (exitAfter_of_mark trivial _) (exit_notMem_script script))

/-! ## Before the first signal -/

/-- No signal was delivered. -/
structure Process.Undisturbed (s : Process) : Prop where
  todo : ∀ stmt ∈ s.todo, ¬stmt.Signalled
  stop : ∀ handler, s.sigHandler = some handler → handler.stop = false
  ended : ∀ status, s.ended ≠ some (.sigTerminate status)

/-- A statement of a hook, of the stop or of the shutdown. -/
theorem Process.Undisturbed.exec {s : Process} (h : s.Undisturbed) {stmt : Stmt}
    (hstmt : ¬stmt.Signalled) (env : StopEnv) :
    (Process.exec zendInlineHashFunc s env stmt).Undisturbed := by
  rcases Process.exec_of_not_signalled hstmt env with hpasses | ⟨hany, -⟩
  · obtain ⟨⟨stmts, hstmts, htodo⟩, hhandler, hended⟩ := hpasses
    refine ⟨?_, ?_, ?_⟩
    · intro x hx
      rw [htodo] at hx
      exact (List.mem_append.mp hx).elim (hstmts x) (h.todo x)
    · intro handler hh
      rcases hhandler with hnone | hsame
      · exact nomatch hnone.symm.trans hh
      · rw [hh, Option.map_some] at hsame
        obtain ⟨handler', hh', hstop⟩ := Option.map_eq_some_iff.mp hsame.symm
        rw [← hstop]
        exact h.stop handler' hh'
    · intro status hstatus
      rcases hended with hsame | ⟨d, hdie⟩
      · exact h.ended status (hsame.symm.trans hstatus)
      · exact nomatch hdie.symm.trans hstatus
  · -- no hook finds the flag `stop` set
    cases hh : s.sigHandler with
    | none =>
      rw [hh] at hany
      cases hany
    | some handler =>
      rw [hh] at hany
      exact absurd hany (ne_true_of_eq_false (h.stop handler hh))

/-! ## Runs -/

/-- The first signal delivered. -/
def firstSignal : List ProcessOp → Option Signal
  | [] => none
  | .run _ :: ops => firstSignal ops
  | .deliver signal :: _ => some signal

theorem Process.Undisturbed.run {s : Process} (h : s.Undisturbed) {ops : List ProcessOp}
    (hops : firstSignal ops = none) :
    (processRun zendInlineHashFunc ignored s ops).Undisturbed := by
  induction ops generalizing s with
  | nil => exact h
  | cons op ops ih =>
    cases op with
    | deliver signal => exact nomatch hops
    | run env =>
      refine ih ?_ hops
      cases hended : s.ended with
      | some ending => rwa [processStep_of_ended hended]
      | none =>
        cases htodo : s.todo with
        | nil => rwa [processStep_run_nil htodo]
        | cons stmt todo =>
          rw [processStep_run hended htodo]
          have hall := h.todo
          rw [htodo] at hall
          have hrest : Process.Undisturbed { s with todo := todo } :=
            ⟨fun x hx => hall x (List.mem_cons_of_mem _ hx), h.stop, h.ended⟩
          exact hrest.exec (hall stmt List.mem_cons_self) env

theorem undisturbed_start (e : Engine) (handled : Bool) (script : List ScriptOp) :
    (Process.start e handled script).Undisturbed := by
  refine ⟨?_, ?_, fun _ => nofun⟩
  · intro stmt hstmt
    rcases List.mem_append.mp hstmt with hscript | hlast
    · obtain ⟨op, -, rfl⟩ := List.mem_map.mp hscript
      cases op <;> exact id
    · rw [List.mem_singleton.mp hlast]
      exact id
  · intro handler hh
    cases handled with
    | false => exact nomatch hh
    | true =>
      obtain rfl : SignalHandler.installed = handler := Option.some.inj hh
      rfl

variable (zendInlineHashFunc ignored)

/-- **The number of the signal is lost.**  However the script runs and wherever signals
are delivered, when the process ends through `profiling_handler_sig_terminate` there was
a first signal, and the exit status is not 128 and its number, but `0`. -/
theorem sig_terminate_loses_signo (e : Engine) (handled : Bool) (script : List ScriptOp)
    (ops : List ProcessOp) {status : ℕ}
    (h : (processRun zendInlineHashFunc ignored (Process.start e handled script) ops).ended
      = some (.sigTerminate status)) :
    status = 0 ∧ ∃ signal, firstSignal ops = some signal ∧ status ≠ 128 + signal.number := by
  have hstatus : status = 0 := ((losesSigno_start e handled script).run ops).status status h
  refine ⟨hstatus, ?_⟩
  cases hfirst : firstSignal ops with
  | none => exact absurd h (((undisturbed_start e handled script).run hfirst).ended status)
  | some signal =>
    refine ⟨signal, rfl, ?_⟩
    rw [hstatus]
    omega

end Step

/-- What the outside answers when nothing is measured. -/
def quietStop : StopEnv := ⟨quietHook, fun _ => endAt 0⟩

/-- `SIGINT` is delivered before the first hook, and the process goes on to its end. -/
def interruptedStart : List ProcessOp := .deliver .sigint :: List.replicate 22 (.run quietStop)

theorem exists_interruptedStart :
    ∃ e, profilingHandlerInit (limitsInit fun _ => none) (fun _ => 0) (defaultConfig true) quietInit
        = .ok e ∧
      (processRun (fun _ => 0) (fun _ => false) (Process.start e true []) interruptedStart).ended
        = some (.sigTerminate 0) := ⟨_, rfl, rfl⟩

/-- Its exit status is `0`, not 130. -/
theorem sig_terminate_exits_zero :
    ∃ e status, profilingHandlerInit (limitsInit fun _ => none) (fun _ => 0) (defaultConfig true)
        quietInit = .ok e ∧
      (processRun (fun _ => 0) (fun _ => false) (Process.start e true []) interruptedStart).ended
        = some (.sigTerminate status) ∧
      firstSignal interruptedStart = some .sigint ∧ status ≠ 128 + Signal.sigint.number := by
  obtain ⟨e, he, hended⟩ := exists_interruptedStart
  exact ⟨e, 0, he, hended, rfl, by decide⟩

/-- The number of `SIGINT` is lost in this run. -/
theorem sig_terminate_loses_sigint :
    ∃ e status, profilingHandlerInit (limitsInit fun _ => none) (fun _ => 0) (defaultConfig true)
        quietInit = .ok e ∧
      (processRun (fun _ => 0) (fun _ => false) (Process.start e true []) interruptedStart).ended
        = some (.sigTerminate status) ∧
      status = 0 ∧
      ∃ signal, firstSignal interruptedStart = some signal ∧ status ≠ 128 + signal.number := by
  obtain ⟨e, he, hended⟩ := exists_interruptedStart
  exact ⟨e, 0, he, hended, sig_terminate_loses_signo (fun _ => 0) (fun _ => false) e true []
    interruptedStart hended⟩

end PhpSpx
