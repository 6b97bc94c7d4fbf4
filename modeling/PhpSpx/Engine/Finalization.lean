import PhpSpx.Engine.SignalStatus

/-!
# Finalizations

How often the profiler is finalized when signals are delivered.  A probing section puts
a signal off, and only the first signal counts; but nothing protects the request
shutdown itself, so the first signal may find a finalization that is under way.

* `Process.FinalizesOnce` — the profiler is finalized at most once, and on its own.
* `Process.Stands` — the invariant: what is left to execute, and the facts that hold
  before the statement that was interrupted.
* `SoundRun` — the first signal is not delivered between the entry of the finalization
  and the reset of the pointer to the profiler.
* `finalizes_once_iff` — whole runs.
-/

namespace PhpSpx

open Lib

/-! ## The property -/

/-- The finalization of the profiler was entered at most once, never while one of the
profiler's functions was running, and the reporter was sent at most one `FINALIZE`
event.  A process that ended through `profiling_handler_sig_terminate` has finalized
the profiler it had. -/
structure Process.FinalizesOnce (attached : Bool) (s : Process) : Prop where
  entries : s.finalizeEntries ≤ 1
  alone : s.overlapped = false
  events : s.finalizeEvents ≤ 1
  terminated : ∀ status, s.ended = some (.sigTerminate status) → attached = true →
    s.finalizeEntries = 1 ∧ s.finalizeEvents = 1

/-- The profiler's finalization was entered, and the profiler is still there. -/
def Process.Finalizing (s : Process) : Prop :=
  0 < s.finalizeEntries ∧ s.engine.profiler.isSome = true

/-- The condition on a step: the first signal that reaches the handler is not delivered
while the profiler is being finalized and destroyed. -/
def ProcessOp.Sound (s : Process) : ProcessOp → Prop
  | .run _ => True
  | .deliver signal =>
    s.ended = none → s.installed signal = true → s.globalHandler = true →
      ∀ handler, s.sigHandler = some handler → handler.handlerCalled = 0 → ¬s.Finalizing

/-- Every step of a run meets the condition. -/
def SoundRun (zendInlineHashFunc : String → UInt64) (ignored : Signal → Bool) (s : Process)
    (ops : List ProcessOp) : Prop :=
  ∀ done op, done ++ [op] <+: ops → op.Sound (processRun zendInlineHashFunc ignored s done)

/-! ## Facts about statements -/

namespace Stmt

/-- A statement of the signal callback. -/
def isCallback : Stmt → Bool
  | .callback .. => true
  | _ => false

/-- The functions of the profiler that are running before the statement. -/
def running : Stmt → List ProfilerCall
  | .probe .return call => [.hook call]
  | .stop .conclude | .stop .finalized => [.finalize]
  | .stop .destroyed => [.destroy]
  | _ => []

/-- A statement of a probing section. -/
def probing : Stmt → Bool
  | .probe .call _ | .probe .return _ | .probe .reset _ => true
  | _ => false

/-- A statement before which the request shutdown is no more noted. -/
def cleared : Stmt → Bool
  | .stop .profiler | .stop .finalize | .stop .conclude | .stop .finalized | .stop .destroy
  | .stop .destroyed | .stop .detach => true
  | _ => false

/-- A statement before which there is a profiler. -/
def profiled : Stmt → Bool
  | .probe .set _ | .probe .call _ | .probe .return _ | .stop .finalize | .stop .conclude
  | .stop .finalized | .stop .destroy | .stop .destroyed | .stop .detach => true
  | _ => false

/-- A statement before which the profiler's finalization was entered and the pointer to
it is still set, with whether the `FINALIZE` event was sent. -/
def finalizing : Stmt → Option Bool
  | .stop .conclude => some false
  | .stop .finalized | .stop .destroy | .stop .destroyed | .stop .detach => some true
  | _ => none

/-- A statement of which none of this is said. -/
def isPlain (stmt : Stmt) : Bool :=
  !stmt.isCallback && stmt.running.isEmpty && !stmt.probing && !stmt.cleared && !stmt.profiled
    && stmt.finalizing.isNone

/-- A statement after which the profiler is yet to be detached. -/
def Detaches : Stmt → Prop
  | .shutdown .stop => True
  | .stop .reporter => False
  | .stop _ => True
  | _ => False

end Stmt

theorem pushCurrent_profiler {e : Engine} {current : PhpFunction} {pushed : Engine × PhpFunction}
    (h : e.pushCurrent current = .ok pushed) : pushed.1.profiler = e.profiler := by
  rw [Engine.pushCurrent] at h
  split at h
  · cases h
  · split at h
    · cases h
    · dsimp only at h
      split at h
      · cases h
      · cases h
        rfl

theorem popCurrent_profiler {e e' : Engine} (h : e.popCurrent = .ok e') :
    e'.profiler = e.profiler := by
  rw [Engine.popCurrent] at h
  split at h
  · cases h
  · cases h
    rfl

/-! ## The invariant -/

/-- How often a profiler that was there at the start and now is or is not any more was
finalized. -/
def finalizations (attached : Bool) (profiler : Option AttachedProfiler) : ℕ :=
  (attached && profiler.isNone).toNat

/-- The functions of the profiler that are running, the flag `probing`, and how often the
profiler was finalized. -/
def Process.Facts (attached : Bool) (running : List ProfilerCall) (probing : Bool)
    (entries events : ℕ) (s : Process) : Prop :=
  (s.running = running ∧ s.overlapped = false ∧ s.finalizeEntries = entries ∧
    s.finalizeEvents = events) ∧
  (s.engine.profiler.isSome = true → attached = true) ∧
  ∀ handler, s.sigHandler = some handler →
    handler.probing = probing ∧ handler.terminateCallback = true

/-- What holds before a plain statement. -/
def Process.Calm (attached : Bool) (s : Process) : Prop :=
  s.Facts attached [] false (finalizations attached s.engine.profiler)
    (finalizations attached s.engine.profiler)

/-- What holds before a statement. -/
structure Process.At (attached : Bool) (stmt : Stmt) (s : Process) : Prop where
  facts : s.Facts attached stmt.running stmt.probing
    (stmt.finalizing.elim (finalizations attached s.engine.profiler) fun _ => 1)
    (stmt.finalizing.elim (finalizations attached s.engine.profiler) Bool.toNat)
  cleared : stmt.cleared = true → s.engine.hooks.requestShutdown = false
  profiled : stmt.profiled = true → s.engine.profiler.isSome = true
  notCallback : stmt.isCallback = false

/-- While the profiler is being finalized, no callback under way will find that its
signal is the first. -/
def Process.Late (callbacks : List (CallbackPoint × Signal)) (s : Process) : Prop :=
  ∀ callback ∈ callbacks, s.globalHandler = true → ∀ handler, s.sigHandler = some handler →
    (callback.1 = .count ∧ 1 ≤ handler.handlerCalled) ∨
      (callback.1 = .check ∧ 2 ≤ handler.handlerCalled)

/-- What is left to execute: the callbacks under way, and what they interrupted, of which
only the first statement can be in the middle of something. -/
structure Process.Stands (attached : Bool) (callbacks : List (CallbackPoint × Signal))
    (stmts : List Stmt) (s : Process) : Prop where
  todo : s.todo = callbacks.map (fun callback => .callback callback.1 callback.2) ++ stmts
  tail : ∀ stmt ∈ stmts.tail, stmt.isPlain = true
  top : s.At attached (stmts.headD .exit)
  late : (stmts.headD .exit).finalizing ≠ none → s.Late callbacks
  detached : ExitAfter Stmt.Detaches (s.engine.profiler = none) s.todo

/-- The invariant of a process. -/
def Process.Sane (attached : Bool) (s : Process) : Prop :=
  (s.ended = none ∧ ∃ callbacks stmts, s.Stands attached callbacks stmts) ∨
    (s.ended ≠ none ∧ s.FinalizesOnce attached)

section Facts

variable {attached : Bool} {s s' : Process}

theorem finalizations_le (profiler : Option AttachedProfiler) :
    finalizations attached profiler ≤ 1 := Bool.toNat_le _

theorem Stmt.eqs_of_isPlain {stmt : Stmt} (h : stmt.isPlain = true) :
    stmt.isCallback = false ∧ stmt.running = [] ∧ stmt.probing = false ∧ stmt.cleared = false ∧
      stmt.profiled = false ∧ stmt.finalizing = none := by
  simpa [Stmt.isPlain, and_assoc] using h

theorem Process.Calm.at {stmt : Stmt} (h : s.Calm attached) (hstmt : stmt.isPlain = true) :
    s.At attached stmt := by
  obtain ⟨hcallback, hrunning, hprobing, hcleared, hprofiled, hfinalizing⟩ :=
    Stmt.eqs_of_isPlain hstmt
  refine ⟨?_, ?_, ?_, hcallback⟩
  · rw [hrunning, hprobing, hfinalizing]
    exact h
  · intro hc
    rw [hcleared] at hc
    cases hc
  · intro hp
    rw [hprofiled] at hp
    cases hp

theorem Process.At.calm {stmt : Stmt} (h : s.At attached stmt) (hrunning : stmt.running = [])
    (hprobing : stmt.probing = false) (hfinalizing : stmt.finalizing = none) :
    s.Calm attached := by
  have hfacts := h.facts
  rw [hrunning, hprobing, hfinalizing] at hfacts
  exact hfacts

/-- The engine changed, but for the profiler. -/
theorem Process.Calm.congr {e : Engine} {stmts : List Stmt} (h : s.Calm attached)
    (he : e.profiler = s.engine.profiler) :
    Process.Calm attached { s with engine := e, todo := stmts } := by
  rw [Process.Calm, Process.Facts] at h ⊢
  rw [he]
  exact h

/-- Plain statements are left to execute. -/
theorem Process.Calm.stands {stmts : List Stmt} (h : s.Calm attached) (htodo : s.todo = stmts)
    (hplain : ∀ stmt ∈ stmts, stmt.isPlain = true)
    (hdetached : ExitAfter Stmt.Detaches (s.engine.profiler = none) s.todo) :
    s.Stands attached [] stmts := by
  have htop : (stmts.headD .exit).isPlain = true := by
    cases stmts with
    | nil => rfl
    | cons stmt stmts => exact hplain stmt List.mem_cons_self
  refine ⟨htodo, fun stmt hstmt => hplain stmt (List.mem_of_mem_tail hstmt), h.at htop,
    fun hne => ?_, hdetached⟩
  exact absurd (Stmt.eqs_of_isPlain htop).2.2.2.2.2 hne

theorem Process.At.finalizesOnce {stmt : Stmt} (h : s.At attached stmt)
    (hended : ∀ status, s.ended ≠ some (.sigTerminate status)) : s.FinalizesOnce attached := by
  obtain ⟨⟨-, halone, hentries, hevents⟩, -⟩ := h.facts
  refine ⟨?_, halone, ?_, fun status hstatus => absurd hstatus (hended status)⟩
  · rw [hentries]
    cases stmt.finalizing with
    | none => exact finalizations_le _
    | some n => exact le_rfl
  · rw [hevents]
    cases stmt.finalizing with
    | none => exact finalizations_le _
    | some sent => exact Bool.toNat_le sent

theorem Process.At.setEnded {stmt : Stmt} (h : s.At attached stmt) (ended : Option Ending) :
    Process.At attached stmt { s with ended := ended } :=
  ⟨h.facts, h.cleared, h.profiled, h.notCallback⟩

/-- The process ends at a statement, and not by `sigTerminate`. -/
theorem Process.At.ends {stmt : Stmt} (h : s.At attached stmt) {ending : Ending}
    (hending : ∀ status, ending ≠ .sigTerminate status) :
    Process.Sane attached { s with ended := some ending } := by
  refine .inr ⟨Option.some_ne_none _, (h.setEnded _).finalizesOnce ?_⟩
  intro status hstatus
  exact hending status (Option.some.inj hstatus)

theorem Process.At.die {stmt : Stmt} (h : s.At attached stmt) (d : Die) :
    (s.die d).Sane attached := h.ends fun _ => by simp

theorem Process.At.setTodo {stmt : Stmt} (h : s.At attached stmt) (todo : List Stmt) :
    Process.At attached stmt { s with todo := todo } :=
  ⟨h.facts, h.cleared, h.profiled, h.notCallback⟩

/-- A process about to execute `stmt`, with plain statements after it. -/
theorem Process.At.sane (stmt : Stmt) {todo : List Stmt} (h : s.At attached stmt)
    (hended : s.ended = none) (htodo : s.todo = stmt :: todo)
    (hplain : ∀ x ∈ todo, x.isPlain = true)
    (hdetached : ExitAfter Stmt.Detaches (s.engine.profiler = none) s.todo) : s.Sane attached :=
  .inl ⟨hended, [], stmt :: todo, htodo, hplain, h,
    fun _ _ hmem => absurd hmem List.not_mem_nil, hdetached⟩

/-- A process with plain statements left. -/
theorem Process.Calm.sane (h : s.Calm attached) (hended : s.ended = none)
    (hplain : ∀ x ∈ s.todo, x.isPlain = true)
    (hdetached : ExitAfter Stmt.Detaches (s.engine.profiler = none) s.todo) : s.Sane attached :=
  .inl ⟨hended, [], s.todo, h.stands rfl hplain hdetached⟩

theorem Process.Calm.sigTerminate (h : s.Calm attached) (hended : s.ended = none) :
    s.sigTerminate.Sane attached := by
  have hcalm : s.sigTerminate.Calm attached := h
  refine hcalm.sane hended ?_ (exitAfter_of_mark trivial _)
  intro x hx
  rcases List.mem_cons.mp hx with rfl | hx
  · rfl
  · rw [List.mem_singleton.mp hx]
    rfl

theorem plain_cons {stmt : Stmt} {todo : List Stmt} (hstmt : stmt.isPlain = true)
    (h : ∀ x ∈ todo, x.isPlain = true) : ∀ x ∈ stmt :: todo, x.isPlain = true :=
  List.forall_mem_cons.mpr ⟨hstmt, h⟩

end Facts

section Step

variable {zendInlineHashFunc : String → UInt64} {attached : Bool}

/-- A statement of a hook that has a profiler. -/
theorem Process.At.probe {s : Process} {point : ProbePoint} {call : HookCall}
    (h : s.At attached (.probe point call)) (hended : s.ended = none)
    (hplain : ∀ x ∈ s.todo, x.isPlain = true)
    (hdetached : ExitAfter Stmt.Detaches (s.engine.profiler = none) s.todo) (env : HookEnv) :
    (s.probe zendInlineHashFunc env call point).Sane attached := by
  obtain ⟨⟨hrunning, halone, hentries, hevents⟩, hkept, hhandler⟩ := h.facts
  have hnext : ∀ p, ExitAfter Stmt.Detaches (s.engine.profiler = none) (.probe p call :: s.todo) :=
    fun p => .inr ⟨by simp, hdetached⟩
  cases point with
  | set =>
    refine Process.At.sane (.probe .call call) ⟨⟨⟨hrunning, halone, hentries, hevents⟩, hkept,
      fun handler hh => ?_⟩, by rintro ⟨⟩, fun _ => h.profiled rfl, rfl⟩ hended rfl hplain (hnext _)
    obtain ⟨handler', hh', rfl⟩ := Option.map_eq_some_iff.mp hh
    exact ⟨rfl, (hhandler handler' hh').2⟩
  | call =>
    refine Process.At.sane (.probe .return call) ⟨⟨⟨?_, halone, hentries, hevents⟩, hkept,
      hhandler⟩, by rintro ⟨⟩, fun _ => h.profiled rfl, rfl⟩ hended rfl hplain (hnext _)
    exact congrArg _ hrunning
  | «return» =>
    obtain ⟨a, ha⟩ := Option.isSome_iff_exists.mp (h.profiled rfl)
    rw [Process.probe]
    simp only [ha]
    cases htell : a.tell zendInlineHashFunc env call with
    | error d => exact h.die d
    | ok b =>
      rw [ha] at hentries hevents hkept
      refine Process.At.sane (.probe .reset call) ⟨⟨⟨?_, halone, hentries, hevents⟩,
        fun _ => hkept rfl, hhandler⟩, by rintro ⟨⟩, by rintro ⟨⟩, rfl⟩ hended rfl hplain ?_
      · exact congrArg List.tail hrunning
      · refine .inr ⟨by simp, hdetached.mono ?_⟩
        intro hnone
        cases ha.symm.trans hnone
  | reset =>
    refine Process.Calm.sane ⟨⟨hrunning, halone, hentries, hevents⟩, hkept, fun handler hh => ?_⟩
      hended (plain_cons rfl hplain) (hnext _)
    obtain ⟨handler', hh', rfl⟩ := Option.map_eq_some_iff.mp hh
    exact ⟨rfl, (hhandler handler' hh').2⟩
  | check =>
    have hcalm : s.Calm attached := h.calm rfl rfl rfl
    rw [Process.probe]
    split
    · exact hcalm.sigTerminate hended
    · exact hcalm.sane hended hplain hdetached

/-- A statement of `profiling_handler_stop`. -/
theorem Process.At.stop {s : Process} {point : StopPoint} (h : s.At attached (.stop point))
    (hended : s.ended = none) (hplain : ∀ x ∈ s.todo, x.isPlain = true)
    (hdetached : ExitAfter Stmt.Detaches (s.engine.profiler = none) (.stop point :: s.todo))
    (env : StopEnv) : (s.stop env point).Sane attached := by
  obtain ⟨⟨hrunning, halone, hentries, hevents⟩, hkept, hhandler⟩ := h.facts
  cases point with
  | execution =>
    have hcalm : s.Calm attached := h.calm rfl rfl rfl
    rw [Process.stop]
    split
    · rename_i hcleared
      exact Process.At.sane (.stop .profiler) ⟨hcalm, fun _ => hcleared, by rintro ⟨⟩, rfl⟩ hended
        rfl hplain (exitAfter_of_mark trivial _)
    · split
      · refine Process.Calm.sane hcalm hended (plain_cons rfl (plain_cons rfl hplain)) ?_
        -- the after hook, then the rest of the stop
        exact .inr ⟨by simp, exitAfter_of_mark trivial _⟩
      · exact Process.Calm.sane hcalm hended (plain_cons rfl hplain) (exitAfter_of_mark trivial _)
  | clearName =>
    have hcalm : s.Calm attached := h.calm rfl rfl rfl
    exact Process.Calm.sane hcalm hended (plain_cons rfl hplain) (exitAfter_of_mark trivial _)
  | clear =>
    have hcalm : s.Calm attached := h.calm rfl rfl rfl
    exact Process.At.sane (.stop .profiler) ⟨hcalm, fun _ => rfl, by rintro ⟨⟩, rfl⟩ hended rfl
      hplain (exitAfter_of_mark trivial _)
  | profiler =>
    have hcalm : s.Calm attached := h.calm rfl rfl rfl
    cases hp : s.engine.profiler with
    | none =>
      rw [Process.stop_profiler_none hp]
      exact Process.Calm.sane hcalm hended (plain_cons rfl hplain) (exitAfter_of hp _)
    | some a =>
      rw [Process.stop_profiler_some hp]
      refine Process.At.sane (.stop .finalize) ⟨hcalm, fun _ => h.cleared rfl, fun _ => ?_,
        rfl⟩ hended rfl hplain (exitAfter_of_mark trivial _)
      exact congrArg Option.isSome hp
  | finalize =>
    obtain ⟨a, ha⟩ := Option.isSome_iff_exists.mp (h.profiled rfl)
    have hzero : finalizations attached s.engine.profiler = 0 := by
      rw [ha, finalizations, Option.isNone_some, Bool.and_false, Bool.toNat_false]
    refine Process.At.sane (.stop .conclude) ⟨⟨⟨congrArg _ hrunning, ?_, ?_, ?_⟩, hkept,
      hhandler⟩, fun _ => h.cleared rfl, fun _ => h.profiled rfl, rfl⟩ hended rfl hplain
      (exitAfter_of_mark trivial _)
    · show (s.overlapped || !s.running.isEmpty) = false
      rw [halone, hrunning]
      rfl
    · exact congrArg Nat.succ (hentries.trans hzero)
    · exact hevents.trans hzero
  | conclude =>
    obtain ⟨a, ha⟩ := Option.isSome_iff_exists.mp (h.profiled rfl)
    rw [Process.stop]
    simp only [ha]
    cases hfinalize : a.profiler.finalize env.unwinding with
    | error d => exact h.die d
    | ok profiler =>
      rw [ha] at hkept
      exact Process.At.sane (.stop .finalized) ⟨⟨⟨hrunning, halone, hentries,
        congrArg Nat.succ hevents⟩, fun _ => hkept rfl, hhandler⟩, fun _ => h.cleared rfl,
        fun _ => rfl, rfl⟩ hended rfl hplain (exitAfter_of_mark trivial _)
  | finalized =>
    exact Process.At.sane (.stop .destroy) ⟨⟨⟨congrArg List.tail hrunning, halone, hentries,
      hevents⟩, hkept, hhandler⟩, fun _ => h.cleared rfl, fun _ => h.profiled rfl, rfl⟩ hended rfl
      hplain (exitAfter_of_mark trivial _)
  | destroy =>
    exact Process.At.sane (.stop .destroyed) ⟨⟨⟨congrArg _ hrunning, halone, hentries,
      hevents⟩, hkept, hhandler⟩, fun _ => h.cleared rfl, fun _ => h.profiled rfl, rfl⟩ hended rfl
      hplain (exitAfter_of_mark trivial _)
  | destroyed =>
    exact Process.At.sane (.stop .detach) ⟨⟨⟨congrArg List.tail hrunning, halone, hentries,
      hevents⟩, hkept, hhandler⟩, fun _ => h.cleared rfl, fun _ => h.profiled rfl, rfl⟩ hended rfl
      hplain (exitAfter_of_mark trivial _)
  | detach =>
    have hone : finalizations attached none = 1 := by
      rw [hkept (h.profiled rfl)]
      rfl
    refine Process.Calm.sane ⟨⟨hrunning, halone, hentries.trans hone.symm, hevents.trans hone.symm⟩,
      by rintro ⟨⟩, hhandler⟩ hended (plain_cons rfl hplain) (exitAfter_of rfl _)
  | reporter =>
    have hcalm : s.Calm attached := h.calm rfl rfl rfl
    exact Process.Calm.sane hcalm hended hplain (hdetached.tail id)

/-- A statement of `profiling_handler_shutdown`. -/
theorem Process.Calm.shutdown {s : Process} {point : ShutdownPoint} (h : s.Calm attached)
    (hended : s.ended = none) (hplain : ∀ x ∈ s.todo, x.isPlain = true)
    (hdetached : ExitAfter Stmt.Detaches (s.engine.profiler = none) (.shutdown point :: s.todo)) :
    (s.shutdown point).Sane attached := by
  obtain ⟨hcounts, hkept, hhandler⟩ := id h
  have hnext : ∀ p : ShutdownPoint, ¬(Stmt.shutdown point).Detaches →
      ExitAfter Stmt.Detaches (s.engine.profiler = none) (.shutdown p :: s.todo) :=
    fun p hpoint => .inr ⟨by simp, hdetached.tail hpoint⟩
  cases point with
  | stop =>
    exact Process.Calm.sane h hended (plain_cons rfl (plain_cons rfl hplain))
      (exitAfter_of_mark trivial _)
  | unset =>
    rw [Process.shutdown]
    split
    · exact Process.Calm.sane h hended (plain_cons rfl hplain) (hnext _ id)
    · split
      · exact Process.Calm.sane h hended (plain_cons rfl hplain) (hnext _ id)
      · exact Process.Calm.sane h hended (plain_cons rfl hplain) (hnext _ id)
  | restore signal =>
    cases signal with
    | sigint => exact Process.Calm.sane h hended (plain_cons rfl hplain) (hnext _ id)
    | sigterm => exact Process.Calm.sane h hended (plain_cons rfl hplain) (hnext _ id)
  | clearGlobal =>
    refine Process.Calm.sane ⟨hcounts, hkept, fun handler hh => ?_⟩ hended (plain_cons rfl hplain)
      (hnext _ id)
    obtain ⟨handler', hh', rfl⟩ := Option.map_eq_some_iff.mp hh
    exact hhandler handler' hh'
  | destroyHandler =>
    exact Process.Calm.sane ⟨hcounts, hkept, fun _ hh => by cases hh⟩ hended
      (plain_cons rfl hplain) (hnext _ id)
  | execution => exact Process.Calm.sane h hended (plain_cons rfl hplain) (hnext _ id)
  | callStack => exact Process.Calm.sane h hended hplain (hdetached.tail id)

/-- A hook that has moved the stack of names goes on to tell the profiler. -/
theorem Process.Calm.tells {s : Process} (h : s.Calm attached) {e : Engine} (call : HookCall)
    (he : e.profiler = s.engine.profiler) (hended : s.ended = none)
    (hplain : ∀ x ∈ s.todo, x.isPlain = true)
    (hdetached : ExitAfter Stmt.Detaches (s.engine.profiler = none) s.todo) :
    ({ s with engine := e }.next [.tell call]).Sane attached := by
  have hcalm : Process.Calm attached { s with engine := e } := h.congr he
  refine Process.Calm.sane hcalm hended (plain_cons rfl hplain) ?_
  exact .inr ⟨by simp, hdetached.mono he.trans⟩

/-- **One statement**, but for those of a callback. -/
theorem Process.At.exec {s : Process} {stmt : Stmt} (h : s.At attached stmt)
    (hended : s.ended = none) (hplain : ∀ x ∈ s.todo, x.isPlain = true)
    (hdetached : ExitAfter Stmt.Detaches (s.engine.profiler = none) (stmt :: s.todo))
    (env : StopEnv) : (Process.exec zendInlineHashFunc s env stmt).Sane attached := by
  cases stmt with
  | before name current =>
    have hcalm : s.Calm attached := h.calm rfl rfl rfl
    rw [Process.exec]
    cases hpush : (s.engine.setActive name).pushCurrent current with
    | error d => exact h.die d
    | ok pushed =>
      obtain ⟨e, function⟩ := pushed
      exact hcalm.tells (.callStart function) (pushCurrent_profiler hpush) hended hplain
        (hdetached.tail id)
  | after =>
    have hcalm : s.Calm attached := h.calm rfl rfl rfl
    rw [Process.exec]
    cases hpop : s.engine.popCurrent with
    | error d => exact h.die d
    | ok e =>
      exact hcalm.tells .callEnd (popCurrent_profiler hpop) hended hplain (hdetached.tail id)
  | requestShutdown =>
    have hcalm : s.Calm attached := h.calm rfl rfl rfl
    exact Process.Calm.sane hcalm hended hplain (hdetached.tail id)
  | tell call =>
    have hcalm : s.Calm attached := h.calm rfl rfl rfl
    rw [Process.exec]
    cases hp : s.engine.profiler with
    | none => exact hcalm.sane hended hplain (hdetached.tail id)
    | some a =>
      exact Process.At.sane (.probe .set call) ⟨hcalm, by rintro ⟨⟩,
        fun _ => congrArg Option.isSome hp, rfl⟩ hended rfl hplain (.inr ⟨by simp, hdetached.tail id⟩)
  | probe point call => exact h.probe hended hplain (hdetached.tail id) env.hook
  | stop point => exact h.stop hended hplain hdetached env
  | shutdown point => exact (h.calm rfl rfl rfl).shutdown hended hplain hdetached
  | exit =>
    have hcalm : s.Calm attached := h.calm rfl rfl rfl
    have hnone : s.engine.profiler = none := hdetached.exit id
    obtain ⟨⟨-, halone, hentries, hevents⟩, -, -⟩ := hcalm
    rw [hnone] at hentries hevents
    refine .inr ⟨Option.some_ne_none _, ?_, halone, ?_, ?_⟩
    · exact hentries.trans_le (finalizations_le _)
    · exact hevents.trans_le (finalizations_le _)
    · intro _ _ hattached
      have hone : finalizations attached none = 1 := by
        rw [hattached]
        rfl
      exact ⟨hentries.trans hone, hevents.trans hone⟩
  | callback point signal => cases h.notCallback

/-! ## Callbacks -/

theorem Stmt.running_eq_nil {stmt : Stmt} (hprobing : stmt.probing = false)
    (hfinalizing : stmt.finalizing = none) : stmt.running = [] := by
  cases stmt with
  | probe point call => cases point <;> first | rfl | cases hprobing
  | stop point => cases point <;> first | rfl | cases hfinalizing
  | _ => rfl

theorem Stmt.profiled_of_finalizing {stmt : Stmt} (h : stmt.finalizing ≠ none) :
    stmt.profiled = true := by
  cases stmt with
  | stop point => cases point <;> first | rfl | exact absurd rfl h
  | _ => exact absurd rfl h

theorem Stmt.cleared_of_finalizing {stmt : Stmt} (h : stmt.finalizing ≠ none) :
    stmt.cleared = true := by
  cases stmt with
  | stop point => cases point <;> first | rfl | exact absurd rfl h
  | _ => exact absurd rfl h

theorem Stmt.probing_of_finalizing {stmt : Stmt} (h : stmt.finalizing ≠ none) :
    stmt.probing = false := by
  cases stmt with
  | probe point call => exact absurd rfl h
  | _ => rfl

/-- A statement is in the finalization of the profiler when its state says so. -/
theorem Process.At.finalizing_iff {s : Process} {stmt : Stmt} (h : s.At attached stmt) :
    s.Finalizing ↔ stmt.finalizing ≠ none := by
  obtain ⟨⟨-, -, hentries, -⟩, -⟩ := h.facts
  rw [Process.Finalizing, hentries]
  cases hf : stmt.finalizing with
  | none =>
    refine iff_of_false ?_ (not_not.mpr rfl)
    rintro ⟨hpos, hprofiler⟩
    obtain ⟨a, ha⟩ := Option.isSome_iff_exists.mp hprofiler
    rw [ha, Option.elim_none, finalizations, Option.isNone_some, Bool.and_false] at hpos
    exact absurd hpos (Nat.lt_irrefl 0)
  | some sent =>
    have hprofiled : stmt.profiled = true :=
      Stmt.profiled_of_finalizing (by rw [hf]; exact Option.some_ne_none sent)
    exact iff_of_true ⟨Nat.one_pos, h.profiled hprofiled⟩ (Option.some_ne_none sent)

/-- The callback writes to the handler, but neither `probing` nor the callback of
`php_spx.c`. -/
theorem Process.At.modifyHandler {s : Process} {stmt : Stmt} (h : s.At attached stmt)
    {g : SignalHandler → SignalHandler}
    (hg : ∀ handler, (g handler).probing = handler.probing ∧
      (g handler).terminateCallback = handler.terminateCallback) :
    (s.modifyHandler g).At attached stmt := by
  obtain ⟨hcounts, hkept, hhandler⟩ := h.facts
  refine ⟨⟨hcounts, hkept, ?_⟩, h.cleared, h.profiled, h.notCallback⟩
  intro handler hh
  obtain ⟨handler', hh', rfl⟩ := Option.map_eq_some_iff.mp hh
  rw [(hg handler').1, (hg handler').2]
  exact hhandler handler' hh'

theorem Process.Late.of_cons {s : Process} {callback : CallbackPoint × Signal}
    {callbacks : List (CallbackPoint × Signal)} (h : s.Late (callback :: callbacks)) :
    s.Late callbacks := fun c hc => h c (List.mem_cons_of_mem _ hc)

/-- The signal of a callback is counted. -/
theorem Process.Late.count {s : Process} {signal : Signal}
    {callbacks : List (CallbackPoint × Signal)} (h : s.Late ((.count, signal) :: callbacks)) :
    Process.Late ((.check, signal) :: callbacks) (s.modifyHandler fun handler =>
      { handler with handlerCalled := handler.handlerCalled + 1 }) := by
  intro callback hcallback hglobal handler hh
  obtain ⟨handler', hh', rfl⟩ := Option.map_eq_some_iff.mp hh
  rcases List.mem_cons.mp hcallback with rfl | hmem
  · refine .inr ⟨rfl, ?_⟩
    rcases h _ List.mem_cons_self hglobal handler' hh' with ⟨-, hcalled⟩ | ⟨hpoint, -⟩
    · exact Nat.succ_le_succ hcalled
    · cases hpoint
  · refine (h.of_cons callback hmem hglobal handler' hh').imp ?_ ?_
    · exact fun ⟨hpoint, hcalled⟩ => ⟨hpoint, Nat.le_succ_of_le hcalled⟩
    · exact fun ⟨hpoint, hcalled⟩ => ⟨hpoint, Nat.le_succ_of_le hcalled⟩

/-- The callback found that its signal is the first: no finalization is under way. -/
theorem Process.Stands.notFinalizing {s : Process} {point : CallbackPoint} {signal : Signal}
    {callbacks : List (CallbackPoint × Signal)} {stmts : List Stmt}
    (h : s.Stands attached ((point, signal) :: callbacks) stmts) (hglobal : s.globalHandler = true)
    {handler : SignalHandler} (hh : s.sigHandler = some handler) (hcount : point ≠ .count)
    (hcheck : point = .check → handler.handlerCalled ≤ 1) :
    (stmts.headD .exit).finalizing = none := by
  by_contra hne
  rcases h.late hne _ List.mem_cons_self hglobal handler hh with ⟨hpoint, -⟩ | ⟨hpoint, hcalled⟩
  · exact hcount hpoint
  · have hcalled' : handler.handlerCalled ≤ 1 := hcheck hpoint
    omega

theorem exitAfter_callbacks {P : Prop} (callbacks : List (CallbackPoint × Signal))
    (stmts : List Stmt) :
    ExitAfter Stmt.Detaches P
      (callbacks.map (fun callback => .callback callback.1 callback.2) ++ stmts) ↔
        ExitAfter Stmt.Detaches P stmts := by
  induction callbacks with
  | nil => exact Iff.rfl
  | cons callback callbacks ih => exact Iff.trans ⟨fun h => h.tail id, fun h => .inr ⟨by simp, h⟩⟩ ih

/-- Other callbacks under way, over the same interrupted statements. -/
theorem Process.Stands.withCallbacks {s s' : Process} {callbacks : List (CallbackPoint × Signal)}
    {stmts : List Stmt} (h : s.Stands attached callbacks stmts)
    (hat : s'.At attached (stmts.headD .exit)) (callbacks' : List (CallbackPoint × Signal))
    (htodo : s'.todo = callbacks'.map (fun callback => .callback callback.1 callback.2) ++ stmts)
    (hprofiler : s'.engine.profiler = s.engine.profiler)
    (hlate : (stmts.headD .exit).finalizing ≠ none → s'.Late callbacks') :
    s'.Stands attached callbacks' stmts := by
  refine ⟨htodo, h.tail, hat, hlate, ?_⟩
  have hdetached := h.detached
  rw [h.todo, exitAfter_callbacks] at hdetached
  rw [htodo, exitAfter_callbacks, hprofiler]
  exact hdetached

/-- **One statement of a callback.** -/
theorem Process.Stands.execCallback {s : Process} {point : CallbackPoint} {signal : Signal}
    {callbacks : List (CallbackPoint × Signal)} {stmts todo : List Stmt}
    (h : s.Stands attached ((point, signal) :: callbacks) stmts) (hended : s.ended = none)
    (htodo : todo = callbacks.map (fun callback => .callback callback.1 callback.2) ++ stmts)
    (env : StopEnv) :
    (Process.exec zendInlineHashFunc { s with todo := todo } env (.callback point signal)).Sane
      attached := by
  have htop : Process.At attached (stmts.headD .exit) { s with todo := todo } := h.top.setTodo todo
  -- the callback returns
  have hreturn : Process.Sane attached { s with todo := todo } :=
    .inl ⟨hended, callbacks, stmts,
      h.withCallbacks htop callbacks htodo rfl fun hne => (h.late hne).of_cons⟩
  rw [Process.exec]
  split
  · rename_i handler hglobal hh
    change s.globalHandler = true at hglobal
    change s.sigHandler = some handler at hh
    cases point with
    | count =>
      have hat := (htop.modifyHandler (g := fun handler =>
        { handler with handlerCalled := handler.handlerCalled + 1 }) fun _ => ⟨rfl, rfl⟩).setTodo
          (.callback .check signal :: todo)
      exact .inl ⟨hended, (.check, signal) :: callbacks, stmts,
        h.withCallbacks hat _ (congrArg _ htodo) rfl fun hne => (h.late hne).count⟩
    | check =>
      rw [Process.callback]
      split
      · exact hreturn
      · rename_i hcalled
        have hfinalizing : (stmts.headD .exit).finalizing = none :=
          h.notFinalizing hglobal hh (by simp) fun _ => not_lt.mp hcalled
        have hat := htop.setTodo (.callback .record signal :: todo)
        exact .inl ⟨hended, (.record, signal) :: callbacks, stmts,
          h.withCallbacks hat _ (congrArg _ htodo) rfl fun hne => absurd hfinalizing hne⟩
    | record =>
      have hfinalizing : (stmts.headD .exit).finalizing = none :=
        h.notFinalizing hglobal hh (by simp) (by simp)
      have hat := (htop.modifyHandler (g := fun handler =>
        { handler with signo := signal.number }) fun _ => ⟨rfl, rfl⟩).setTodo
          (.callback .decide signal :: todo)
      exact .inl ⟨hended, (.decide, signal) :: callbacks, stmts,
        h.withCallbacks hat _ (congrArg _ htodo) rfl fun hne => absurd hfinalizing hne⟩
    | decide =>
      have hfinalizing : (stmts.headD .exit).finalizing = none :=
        h.notFinalizing hglobal hh (by simp) (by simp)
      obtain ⟨hprobing, hterminate⟩ := h.top.facts.2.2 handler hh
      rw [Process.callback]
      split
      · have hat := htop.modifyHandler (g := fun handler => { handler with stop := true })
          fun _ => ⟨rfl, rfl⟩
        exact .inl ⟨hended, callbacks, stmts,
          h.withCallbacks hat callbacks htodo rfl fun hne => absurd hfinalizing hne⟩
      · rename_i hnot
        have hoff : (stmts.headD .exit).probing = false := by
          rw [← hprobing]
          exact Bool.eq_false_of_not_eq_true hnot
        have hcalm : Process.Calm attached { s with todo := todo } :=
          htop.calm (Stmt.running_eq_nil hoff hfinalizing) hoff hfinalizing
        exact hcalm.sigTerminate hended
  · exact hreturn

/-! ## Runs -/

theorem Process.Sane.finalizesOnce {s : Process} (h : s.Sane attached) :
    s.FinalizesOnce attached := by
  rcases h with ⟨hended, callbacks, stmts, hstands⟩ | ⟨-, honce⟩
  · exact hstands.top.finalizesOnce fun _ hstatus => nomatch hended.symm.trans hstatus
  · exact honce

variable {ignored : Signal → Bool}

/-- **One step.** -/
theorem Process.Sane.step {s : Process} (h : s.Sane attached) {op : ProcessOp}
    (hsound : op.Sound s) : (processStep zendInlineHashFunc ignored s op).Sane attached := by
  rcases id h with ⟨hended, callbacks, stmts, hstands⟩ | ⟨hended, honce⟩
  · cases op with
    | run env =>
      cases callbacks with
      | cons callback callbacks =>
        rw [processStep_run hended hstands.todo]
        exact hstands.execCallback hended rfl env
      | nil =>
        cases stmts with
        | nil => rwa [processStep_run_nil hstands.todo]
        | cons stmt stmts =>
          rw [processStep_run hended hstands.todo]
          have htop : s.At attached stmt := hstands.top
          have hdetached := hstands.detached
          rw [hstands.todo] at hdetached
          exact (htop.setTodo stmts).exec hended hstands.tail hdetached env
    | deliver signal =>
      rw [processStep_deliver hended]
      split
      · rename_i hinstalled
        have hat := hstands.top.setTodo (.callback .count signal :: s.todo)
        refine .inl ⟨hended, (.count, signal) :: callbacks, stmts,
          hstands.withCallbacks hat _ (congrArg _ hstands.todo) rfl fun hne => ?_⟩
        -- a signal that comes during the finalization is not the first
        intro callback hcallback hglobal handler hh
        rcases List.mem_cons.mp hcallback with rfl | hmem
        · refine .inl ⟨rfl, Nat.one_le_iff_ne_zero.mpr ?_⟩
          intro hzero
          have hfinalizing : s.Finalizing := hstands.top.finalizing_iff.mpr hne
          exact hsound hended hinstalled hglobal handler hh hzero hfinalizing
        · exact hstands.late hne callback hmem hglobal handler hh
      · split
        · exact h
        · exact hstands.top.ends fun _ => by simp
  · obtain ⟨ending, hending⟩ := Option.ne_none_iff_exists'.mp hended
    rwa [processStep_of_ended hending]

theorem SoundRun.head {s : Process} {op : ProcessOp} {ops : List ProcessOp}
    (h : SoundRun zendInlineHashFunc ignored s (op :: ops)) : op.Sound s :=
  h [] op (List.prefix_append [op] ops)

theorem SoundRun.tail {s : Process} {op : ProcessOp} {ops : List ProcessOp}
    (h : SoundRun zendInlineHashFunc ignored s (op :: ops)) :
    SoundRun zendInlineHashFunc ignored (processStep zendInlineHashFunc ignored s op) ops :=
  fun done next hnext => h (op :: done) next (List.prefix_cons_inj op |>.mpr hnext)

theorem Process.Sane.run {s : Process} (h : s.Sane attached) {ops : List ProcessOp}
    (hops : SoundRun zendInlineHashFunc ignored s ops) :
    (processRun zendInlineHashFunc ignored s ops).Sane attached := by
  induction ops generalizing s with
  | nil => exact h
  | cons op ops ih => exact ih (h.step hops.head) hops.tail

theorem soundRun_run (s : Process) (envs : List StopEnv) :
    SoundRun zendInlineHashFunc ignored s (envs.map .run) := by
  intro done op hprefixed
  have hmem : op ∈ envs.map ProcessOp.run :=
    hprefixed.subset (List.mem_append_right _ List.mem_cons_self)
  obtain ⟨env, -, rfl⟩ := List.mem_map.mp hmem
  exact trivial

theorem sane_start (e : Engine) (handled : Bool) (script : List ScriptOp) :
    (Process.start e handled script).Sane e.profiler.isSome := by
  have hzero : finalizations e.profiler.isSome e.profiler = 0 := by
    rw [finalizations]
    cases e.profiler <;> rfl
  have hcalm : (Process.start e handled script).Calm e.profiler.isSome := by
    refine ⟨⟨rfl, rfl, hzero.symm, hzero.symm⟩, id, ?_⟩
    intro handler hh
    cases handled with
    | false => exact nomatch hh
    | true =>
      obtain rfl : SignalHandler.installed = handler := Option.some.inj hh
      exact ⟨rfl, rfl⟩
  refine hcalm.sane rfl (fun x hx => ?_)
    (ExitAfter.append (exitAfter_of_mark trivial _) (exit_notMem_script script))
  rcases List.mem_append.mp hx with hscript | hlast
  · obtain ⟨op, -, rfl⟩ := List.mem_map.mp hscript
    cases op <;> rfl
  · rw [List.mem_singleton.mp hlast]
    rfl

/-- The callback of a first signal, outside a probing section. -/
theorem Process.run_callback {s : Process} (hended : s.ended = none)
    (hglobal : s.globalHandler = true) {handler : SignalHandler} (hh : s.sigHandler = some handler)
    (hcalled : handler.handlerCalled = 0)
    (hprobing : handler.probing = false) (hterminate : handler.terminateCallback = true)
    (signal : Signal) (env : StopEnv) :
    ∃ handler', processRun zendInlineHashFunc ignored (s.next [.callback .count signal])
      (List.replicate 4 (.run env)) =
        Process.sigTerminate { s with sigHandler := some handler' } := by
  obtain ⟨_, _, _, _, _, _, _, _, _, _⟩ := s
  obtain ⟨_, _, _, _, _, _⟩ := handler
  subst hended hglobal hh hcalled hprobing hterminate
  exact ⟨_, rfl⟩

/-- `profiling_handler_sig_terminate` enters the finalization when there is a profiler
and no request shutdown is noted. -/
theorem Process.run_sigTerminate {s : Process} (hended : s.ended = none)
    (hcleared : s.engine.hooks.requestShutdown = false) {a : AttachedProfiler}
    (ha : s.engine.profiler = some a) (env : StopEnv) :
    (processRun zendInlineHashFunc ignored s.sigTerminate
      (List.replicate 4 (.run env))).finalizeEntries = s.finalizeEntries + 1 := by
  obtain ⟨⟨_, ⟨_, _, _, _, _, _⟩, _, _, _, _, _, _⟩, _, _, _, _, _, _, _, _, _⟩ := s
  subst hended hcleared ha
  rfl

/-- A first signal during the finalization: the callback enters it once more. -/
theorem Process.Stands.finalizesTwice {s : Process} {callbacks : List (CallbackPoint × Signal)}
    {stmts : List Stmt} (h : s.Stands attached callbacks stmts) (hended : s.ended = none)
    {signal : Signal} (hinstalled : s.installed signal = true) (hglobal : s.globalHandler = true)
    {handler : SignalHandler} (hh : s.sigHandler = some handler)
    (hcalled : handler.handlerCalled = 0) (hfinalizing : s.Finalizing) (env : StopEnv) :
    (processRun zendInlineHashFunc ignored s
      (.deliver signal :: List.replicate 8 (.run env))).finalizeEntries =
        s.finalizeEntries + 1 := by
  have hne : (stmts.headD .exit).finalizing ≠ none := h.top.finalizing_iff.mp hfinalizing
  obtain ⟨hprobing, hterminate⟩ := h.top.facts.2.2 handler hh
  rw [Stmt.probing_of_finalizing hne] at hprobing
  have hcleared : s.engine.hooks.requestShutdown = false :=
    h.top.cleared (Stmt.cleared_of_finalizing hne)
  obtain ⟨a, ha⟩ := Option.isSome_iff_exists.mp hfinalizing.2
  have hdeliver : processStep zendInlineHashFunc ignored s (.deliver signal) =
      s.next [.callback .count signal] := by
    rw [processStep_deliver hended, if_pos hinstalled]
  obtain ⟨handler', hcallback⟩ : ∃ handler', processRun zendInlineHashFunc ignored
      (s.next [.callback .count signal]) (List.replicate 4 (.run env)) =
        Process.sigTerminate { s with sigHandler := some handler' } :=
    Process.run_callback hended hglobal hh hcalled hprobing hterminate signal env
  -- the handler changed in between
  have hended' : ({ s with sigHandler := some handler' } : Process).ended = none := hended
  calc (processRun zendInlineHashFunc ignored s
        (.deliver signal :: List.replicate 8 (.run env))).finalizeEntries
      = (processRun zendInlineHashFunc ignored (s.next [.callback .count signal])
          (List.replicate 4 (.run env) ++ List.replicate 4 (.run env))).finalizeEntries := by
        rw [← hdeliver, ← List.replicate_add]
        rfl
    _ = s.finalizeEntries + 1 := by
        rw [processRun_append, hcallback]
        exact Process.run_sigTerminate hended' hcleared ha env

/-- The profiler is finalized once in a run, and when a process goes on from any point
of it without signals. -/
theorem Process.Sane.soundRun {s : Process} (h : s.Sane attached) {ops : List ProcessOp}
    (honce : ∀ done, done <+: ops → ∀ envs : List StopEnv,
      (processRun zendInlineHashFunc ignored s (done ++ envs.map .run)).FinalizesOnce attached)
    (env : StopEnv) : SoundRun zendInlineHashFunc ignored s ops := by
  induction ops generalizing s with
  | nil =>
    intro done op hprefixed
    have hnil : done ++ [op] = [] := List.prefix_nil.mp hprefixed
    exact absurd hnil (List.append_ne_nil_of_right_ne_nil _ (List.cons_ne_nil op []))
  | cons op ops ih =>
    have hhead : op.Sound s := by
      cases op with
      | run env => exact trivial
      | deliver signal =>
        intro hended hinstalled hglobal handler hh hcalled hfinalizing
        rcases h with ⟨-, callbacks, stmts, hstands⟩ | ⟨hne, -⟩
        · have htwice : (processRun zendInlineHashFunc ignored s
              (.deliver signal :: List.replicate 8 (.run env))).finalizeEntries =
                s.finalizeEntries + 1 :=
            hstands.finalizesTwice hended hinstalled hglobal hh hcalled hfinalizing env
          have hle := (honce [.deliver signal] (List.prefix_append [_] ops)
            (List.replicate 8 env)).entries
          rw [List.map_replicate] at hle
          have hpos : 0 < s.finalizeEntries := hfinalizing.1
          have heq : s.finalizeEntries + 1 ≤ 1 := htwice.symm.trans_le hle
          omega
        · exact hne hended
    have htail := ih (h.step hhead) fun done hdone envs =>
      honce (op :: done) (List.prefix_cons_inj op |>.mpr hdone) envs
    intro done next hprefixed
    cases done with
    | nil =>
      obtain rfl : next = op := (List.cons_prefix_cons.mp hprefixed).1
      exact hhead
    | cons first done =>
      obtain ⟨rfl, hrest⟩ := List.cons_prefix_cons.mp hprefixed
      exact htail done next hrest

variable (zendInlineHashFunc ignored)

/-- **One finalization.**  Whatever is executed and wherever signals are delivered, the
profiler is finalized once, however the process may go on from any point, if and only if
no first signal is delivered while the profiler is being finalized and destroyed. -/
theorem finalizes_once_iff (e : Engine) (handled : Bool) (script : List ScriptOp)
    (ops : List ProcessOp) :
    (∀ done, done <+: ops → ∀ envs : List StopEnv,
      (processRun zendInlineHashFunc ignored (Process.start e handled script)
        (done ++ envs.map .run)).FinalizesOnce e.profiler.isSome) ↔
    SoundRun zendInlineHashFunc ignored (Process.start e handled script) ops := by
  have hstart := sane_start e handled script
  constructor
  · exact fun honce => hstart.soundRun honce quietStop
  · intro hsound done hdone envs
    have hreached : (processRun zendInlineHashFunc ignored (Process.start e handled script)
        done).Sane e.profiler.isSome :=
      hstart.run fun done' op hop => hsound done' op (hop.trans hdone)
    rw [processRun_append]
    exact (hreached.run (soundRun_run _ envs)).finalizesOnce

end Step

/-- `SIGINT` is delivered at the end of the finalization that the request shutdown
makes, once the `FINALIZE` event is sent. -/
def interruptedShutdown : List ProcessOp :=
  List.replicate 5 (.run quietStop) ++ .deliver .sigint :: List.replicate 9 (.run quietStop)

/-- The profiler is then finalized again, inside its finalization. -/
theorem interrupted_shutdown_finalizes_twice :
    ∃ e s, profilingHandlerInit (limitsInit fun _ => none) (fun _ => 0) (defaultConfig true)
        quietInit = .ok e ∧
      processRun (fun _ => 0) (fun _ => false) (Process.start e true []) interruptedShutdown = s ∧
      s.finalizeEntries = 2 ∧ s.overlapped = true ∧ s.finalizeEvents = 2 ∧
      ¬s.FinalizesOnce e.profiler.isSome := by
  have h : ∃ e s, profilingHandlerInit (limitsInit fun _ => none) (fun _ => 0) (defaultConfig true)
        quietInit = .ok e ∧
      processRun (fun _ => 0) (fun _ => false) (Process.start e true []) interruptedShutdown = s ∧
      s.finalizeEntries = 2 ∧ s.overlapped = true ∧ s.finalizeEvents = 2 :=
    ⟨_, _, rfl, rfl, rfl, rfl, rfl⟩
  obtain ⟨e, s, he, hs, hentries, halone, hevents⟩ := h
  refine ⟨e, s, he, hs, hentries, halone, hevents, ?_⟩
  intro honce
  exact Bool.false_ne_true (honce.alone.symm.trans halone)

end PhpSpx
