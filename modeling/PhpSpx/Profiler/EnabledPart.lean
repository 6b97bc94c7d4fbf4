import PhpSpx.Profiler.Refinement

/-!
# What a profile says of the enabled metrics

The slots of the other metrics hold whatever was in memory, and every operation on metric
values works on all of them.  Two profiles that are told the same of the enabled metrics tell
the same of them.

* `enabledValues` — the values of the enabled metrics, `0` in the other slots.
* `SameHook` — two hooks that tell the profiler the same of the enabled metrics.
* `Live.SameHook.run` — the operations of the profiler commute with `enabledValues`.
* `tracer_events_enabledPart` — the events of two such profiles.
-/

namespace PhpSpx

open Lib

section EnabledPart

variable (E : Metric → Bool)

/-- The values of the enabled metrics, `0` for the others. -/
noncomputable def enabledValues (v : MetricValues) : MetricValues := Set.indicator {m | E m = true} v

variable {E}

theorem enabledValues_apply {m : Metric} (hm : E m = true) (v : MetricValues) :
    enabledValues E v m = v m := Set.indicator_of_mem (s := {m | E m = true}) hm v

theorem enabledValues_congr {v w : MetricValues} (h : ∀ m, E m = true → v m = w m) :
    enabledValues E v = enabledValues E w := Set.indicator_congr h

@[simp] theorem enabledValues_zero : enabledValues E 0 = 0 := Set.indicator_zero' _

@[simp] theorem enabledValues_add (v w : MetricValues) :
    enabledValues E (v + w) = enabledValues E v + enabledValues E w := Set.indicator_add' _ v w

@[simp] theorem enabledValues_sub (v w : MetricValues) :
    enabledValues E (v - w) = enabledValues E v - enabledValues E w := Set.indicator_sub' _ v w

@[simp] theorem enabledValues_sup (v w : MetricValues) :
    enabledValues E (v ⊔ w) = enabledValues E v ⊔ enabledValues E w := by
  funext m
  by_cases hm : E m = true
  · simp only [Pi.sup_apply, enabledValues_apply hm]
  · have hzero (u : MetricValues) : enabledValues E u m = 0 :=
      Set.indicator_of_notMem (s := {m | E m = true}) hm u
    simp only [Pi.sup_apply, hzero, max_self]

end EnabledPart

/-! ## Statistics and events -/

section Data

variable (E : Metric → Bool)

noncomputable section

/-- The statistics of the enabled metrics. -/
def FuncStats.enabledPart (stats : FuncStats) : FuncStats :=
  { stats with inc := enabledValues E stats.inc, exc := enabledValues E stats.exc }

/-- An entry with the statistics of the enabled metrics. -/
def FuncTableEntry.enabledPart (entry : FuncTableEntry) : FuncTableEntry :=
  { entry with stats := entry.stats.enabledPart E }

/-- What an event says of the enabled metrics. -/
def Event.enabledPart (event : Event) : Event :=
  { event with
    max := enabledValues E event.max
    cum := enabledValues E event.cum
    funcTable :=
      { event.funcTable with
        entries := event.funcTable.entries.map (FuncTableEntry.enabledPart E) }
    inc := event.inc.map (enabledValues E)
    exc := event.exc.map (enabledValues E) }

/-- What an open call says of the enabled metrics. -/
def OpenCall.enabledPart (c : OpenCall) : OpenCall :=
  { c with start := enabledValues E c.start, children := enabledValues E c.children }

/-- The open calls with what they say of the enabled metrics. -/
def enabledCalls (calls : OpenCalls) : OpenCalls := calls.map (Option.map (OpenCall.enabledPart E))

/-- What a state says of the enabled metrics. -/
def Live.enabledPart (L : Live) : Live :=
  { L with
    frames := enabledCalls E L.frames
    stats := fun f => (L.stats f).enabledPart E
    first := enabledValues E L.first
    cum := enabledValues E L.cum
    max := enabledValues E L.max
    notified := L.notified.map (Event.enabledPart E) }

end

variable {E}

@[simp] theorem FuncStats.enabledPart_zero : FuncStats.zero.enabledPart E = FuncStats.zero := by
  simp [FuncStats.enabledPart, FuncStats.zero]

@[simp] theorem FuncStats.enabledPart_recordCall (stats : FuncStats) (cycleDepth : ℕ)
    (inc exc : MetricValues) :
    (stats.recordCall cycleDepth inc exc).enabledPart E
      = (stats.enabledPart E).recordCall cycleDepth (enabledValues E inc) (enabledValues E exc) := by
  refine FuncStats.ext' rfl rfl ?_ ?_
  · show enabledValues E (if cycleDepth = 0 then _ else _) = if cycleDepth = 0 then _ else _
    split
    · simp [FuncStats.enabledPart]
    · rfl
  · show enabledValues E (if cycleDepth = 0 then _ else _) = if cycleDepth = 0 then _ else _
    split
    · simp [FuncStats.enabledPart]
    · rfl

/-! ## Open calls -/

@[simp] theorem length_enabledCalls (calls : OpenCalls) :
    (enabledCalls E calls).length = calls.length := List.length_map _

@[simp] theorem openFunctions_enabledCalls (calls : OpenCalls) :
    openFunctions (enabledCalls E calls) = openFunctions calls := by
  induction calls with
  | nil => rfl
  | cons x calls ih =>
    cases x with
    | none => exact ih
    | some c => exact congrArg (c.function :: ·) ih

theorem chargeHead_enabledCalls (inc : MetricValues) (calls : OpenCalls) :
    chargeHead (enabledValues E inc) (enabledCalls E calls)
      = enabledCalls E (chargeHead inc calls) := by
  rcases calls with _ | ⟨_ | c, calls⟩
  · rfl
  · rfl
  · simp [enabledCalls, chargeHead, OpenCall.enabledPart]

theorem creditFirst_enabledCalls (f : PhpFunction) (exc : MetricValues) (calls : OpenCalls) :
    creditFirst f (enabledValues E exc) (enabledCalls E calls)
      = enabledCalls E (creditFirst f exc calls) := by
  induction calls with
  | nil => rfl
  | cons x calls ih =>
    cases x with
    | none => exact congrArg (none :: ·) ih
    | some c =>
      by_cases hc : c.function = f
      · simp [enabledCalls, creditFirst, OpenCall.enabledPart, hc]
      · have hrest := congrArg (some (c.enabledPart E) :: ·) ih
        simpa [enabledCalls, creditFirst, OpenCall.enabledPart, hc] using hrest

/-! ## The operations of the profiler -/

namespace Live

@[simp] theorem enabledPart_entries (L : Live) :
    (L.enabledPart E).entries = L.entries.map (FuncTableEntry.enabledPart E) := by
  apply List.ext_getElem (by simp [entries, Live.enabledPart])
  intro i hi hi'
  simp [entries, Live.enabledPart, FuncTableEntry.enabledPart]

@[simp] theorem enabledPart_caller (L : Live) : (L.enabledPart E).caller = L.caller := by
  rcases L with ⟨_, _, _, _, frames, _, _, _, _, _, _, _, _⟩
  rcases frames with _ | ⟨_ | c, calls⟩ <;> rfl

@[simp] theorem enabledPart_depth (L : Live) : (L.enabledPart E).depth = L.depth := by
  simp [depth, Live.enabledPart]

theorem enabledPart_event (L : Live) (type : EventType) (caller callee : Option ℕ)
    (inc exc : Option MetricValues) :
    (L.event type caller callee inc exc).enabledPart E
      = (L.enabledPart E).event type caller callee (inc.map (enabledValues E))
        (exc.map (enabledValues E)) := by
  simp only [event, Event.enabledPart, enabledPart_entries, enabledPart_depth]
  rfl

theorem enabledPart_sample (L : Live) (r : MetricValues) :
    (L.sample r).enabledPart E = (L.enabledPart E).sample (enabledValues E r) := by
  by_cases h : L.called = 0 <;> simp [sample, Live.enabledPart, h]

theorem enabledPart_follow (L : Live) (f : PhpFunction) (r : MetricValues) :
    (L.follow f r).enabledPart E = (L.enabledPart E).follow f (enabledValues E r) := by
  have hevent := L.enabledPart_event (E := E) .callStart L.caller (some (L.idx f)) none none
  have hframes : enabledCalls E (some ⟨f, r, 0⟩ :: L.frames)
      = some ⟨f, enabledValues E r, 0⟩ :: enabledCalls E L.frames := by
    simp [enabledCalls, OpenCall.enabledPart]
  simp only [follow, Live.enabledPart, hframes, List.map_append, List.map_cons, List.map_nil,
    hevent]
  rw [← Live.enabledPart, enabledPart_caller]
  rfl

theorem enabledPart_callStart (L : Live) (f : PhpFunction) (r : MetricValues) :
    (L.callStart f r).enabledPart E = (L.enabledPart E).callStart f (enabledValues E r) := by
  rw [callStart, callStart, enabledPart_depth, ← enabledPart_sample]
  show (if L.finalized then _ else _ : Live).enabledPart E = if L.finalized then _ else
    if L.maxDepth ≤ L.depth then _ else _
  split
  · rfl
  · split
    · rfl
    · show (if f ∈ ((L.sample r).lookup f).functions then _ else _ : Live).enabledPart E
        = if f ∈ ((L.sample r).lookup f).functions then _ else _
      split
      · exact enabledPart_follow _ f r
      · rfl

/-- The costs of an ended call. -/
def charge (L : Live) (f : PhpFunction) (inc exc : MetricValues) : Live :=
  { L with
    frames := creditFirst f exc (chargeHead inc L.frames)
    stats :=
      Function.update L.stats f ((L.stats f).recordCall (openCount f L.frames) inc exc) }

/-- The event of an ended call. -/
def tellEnd (L : Live) (f : PhpFunction) (inc exc : MetricValues) : Live :=
  { L with
    notified :=
      L.notified ++ [L.event .callEnd L.caller (some (L.idx f)) (some inc) (some exc)] }

theorem settle_eq (L : Live) (c : OpenCall) (r : MetricValues) :
    L.settle c r = (L.charge c.function (r - c.start) (r - c.start - c.children)).tellEnd
      c.function (r - c.start) (r - c.start - c.children) := rfl

theorem enabledPart_charge (L : Live) (f : PhpFunction) (inc exc : MetricValues) :
    (L.charge f inc exc).enabledPart E
      = (L.enabledPart E).charge f (enabledValues E inc) (enabledValues E exc) := by
  have hstats := Function.comp_update (FuncStats.enabledPart E) L.stats f
    ((L.stats f).recordCall (openCount f L.frames) inc exc)
  have hcount : openCount f (enabledCalls E L.frames) = openCount f L.frames := by
    rw [openCount, openFunctions_enabledCalls, openCount]
  rw [FuncStats.enabledPart_recordCall] at hstats
  simp only [charge, Live.enabledPart, chargeHead_enabledCalls, creditFirst_enabledCalls, hcount,
    Live.mk.injEq, true_and, and_true]
  exact hstats

theorem enabledPart_tellEnd (L : Live) (f : PhpFunction) (inc exc : MetricValues) :
    (L.tellEnd f inc exc).enabledPart E
      = (L.enabledPart E).tellEnd f (enabledValues E inc) (enabledValues E exc) := by
  have hevent := L.enabledPart_event (E := E) .callEnd L.caller (some (L.idx f)) (some inc)
    (some exc)
  simp only [tellEnd, Live.enabledPart, List.map_append, List.map_cons, List.map_nil, hevent]
  rw [← Live.enabledPart, enabledPart_caller]
  rfl

theorem enabledPart_settle (L : Live) (c : OpenCall) (r : MetricValues) :
    (L.settle c r).enabledPart E
      = (L.enabledPart E).settle (c.enabledPart E) (enabledValues E r) := by
  rw [settle_eq, enabledPart_tellEnd, enabledPart_charge, settle_eq]
  simp only [enabledValues_sub]
  rfl

theorem enabledPart_callEnd (L : Live) (r : MetricValues) :
    (L.callEnd r).map (Live.enabledPart E) = (L.enabledPart E).callEnd (enabledValues E r) := by
  have hcollect (frames : OpenCalls) : (L.collect frames r).enabledPart E
      = (L.enabledPart E).collect (enabledCalls E frames) (enabledValues E r) := by
    simp [collect, Live.enabledPart]
  have hfin : (L.enabledPart E).finalized = L.finalized := rfl
  have hhidden : (L.enabledPart E).hidden = L.hidden := rfl
  have hframes : (L.enabledPart E).frames = enabledCalls E L.frames := rfl
  rw [callEnd, callEnd, hfin, hhidden, hframes]
  cases L.finalized with
  | true => rfl
  | false =>
    cases L.hidden with
    | succ h => rfl
    | zero =>
      cases L.frames with
      | nil => rfl
      | cons x frames =>
        cases x with
        | none => exact congrArg Except.ok (hcollect frames)
        | some c =>
          apply congrArg Except.ok
          show ((L.collect frames r).settle c r).enabledPart E = _
          rw [enabledPart_settle, hcollect]
          rfl

theorem enabledPart_conclude (L : Live) :
    (L.conclude).enabledPart E = (L.enabledPart E).conclude := by
  have hevent := ({ L with finalized := true } : Live).enabledPart_event (E := E) .finalize none
    none none none
  simp only [conclude, Live.enabledPart, List.map_append, List.map_cons, List.map_nil, hevent]
  rfl

end Live

/-! ## Runs -/

/-- The two hooks are the same, and the values collected in them are equal for the enabled
metrics. -/
def SameHook (E : Metric → Bool) : TracerOp → TracerOp → Prop
  | .opening call, .opening call' =>
    call.function = call'.function ∧
      ∀ m, E m = true → call.input.reading m = call'.input.reading m
  | .closing input, .closing input' => ∀ m, E m = true → input.reading m = input'.reading m
  | .opening _, .closing _ | .closing _, .opening _ => False

/-- One hook. -/
theorem SameHook.step {op op' : TracerOp} (h : SameHook E op op') {L L' : Live}
    (hL : L.enabledPart E = L'.enabledPart E) :
    (L.step op).map (Live.enabledPart E) = (L'.step op').map (Live.enabledPart E) := by
  cases op with
  | opening call =>
    cases op' with
    | opening call' =>
      apply congrArg Except.ok
      show (L.callStart _ _).enabledPart E = (L'.callStart _ _).enabledPart E
      rw [Live.enabledPart_callStart, Live.enabledPart_callStart, hL, h.1, enabledValues_congr h.2]
    | closing input' => exact h.elim
  | closing input =>
    cases op' with
    | opening call' => exact h.elim
    | closing input' =>
      show (L.callEnd _).map _ = (L'.callEnd _).map _
      rw [Live.enabledPart_callEnd, Live.enabledPart_callEnd, hL, enabledValues_congr h]

/-- Any hooks. -/
theorem sameHook_run {ops ops' : List TracerOp} (h : List.Forall₂ (SameHook E) ops ops')
    {L L' : Live} (hL : L.enabledPart E = L'.enabledPart E) :
    (Live.run ops L).map (Live.enabledPart E) = (Live.run ops' L').map (Live.enabledPart E) := by
  induction h generalizing L L' with
  | nil => exact congrArg Except.ok hL
  | cons hop _ ih =>
    rw [Live.run_cons, Live.run_cons]
    have hstep := hop.step hL
    cases hM : Live.step L _ with
    | error d =>
      cases hM' : Live.step L' _ with
      | error d' =>
        rw [hM, hM'] at hstep
        cases hstep
        rfl
      | ok M' =>
        rw [hM, hM'] at hstep
        exact nomatch hstep
    | ok M =>
      cases hM' : Live.step L' _ with
      | error d' =>
        rw [hM, hM'] at hstep
        exact nomatch hstep
      | ok M' =>
        rw [hM, hM'] at hstep
        exact ih (Except.ok.inj hstep)

theorem sameHook_height {ops ops' : List TracerOp} (h : List.Forall₂ (SameHook E) ops ops')
    (d : ℕ) : height d ops = height d ops' := by
  induction h generalizing d with
  | nil => rfl
  | @cons op op' ops ops' hop _ ih =>
    cases op with
    | opening call =>
      cases op' with
      | opening call' => exact ih (d + 1)
      | closing input' => exact hop.elim
    | closing input =>
      cases op' with
      | opening call' => exact hop.elim
      | closing input' =>
        cases d with
        | zero => rfl
        | succ d => exact ih d

theorem sameHook_closings {ends ends' : ℕ → HookInput}
    (h : ∀ i m, E m = true → (ends i).reading m = (ends' i).reading m) (n : ℕ) :
    List.Forall₂ (SameHook E) (Live.closings n ends) (Live.closings n ends') := by
  induction n generalizing ends ends' with
  | zero => exact .nil
  | succ n ih => exact .cons (h 0) (ih fun i => h (i + 1))

/-- The first call leaves nothing of what was in memory. -/
theorem Live.callStart_init (capacity : ℕ) {maxDepth : ℕ} (hdepth : 0 < maxDepth)
    (junk junk' : MetricValues) (f : PhpFunction) (r : MetricValues) :
    (Live.init capacity maxDepth E junk).callStart f r
      = (Live.init capacity maxDepth E junk').callStart f r := by
  have hsample : (Live.init capacity maxDepth E junk).sample r
      = (Live.init capacity maxDepth E junk').sample r := rfl
  have hroom (junk : MetricValues) : ¬(Live.init capacity maxDepth E junk).maxDepth
      ≤ (Live.init capacity maxDepth E junk).depth := not_le.mpr hdepth
  rw [callStart, callStart, if_neg (hroom junk), if_neg (hroom junk'), hsample]
  rfl

theorem Live.run_init (capacity : ℕ) {maxDepth : ℕ} (hdepth : 0 < maxDepth)
    (junk junk' : MetricValues) {ops : List TracerOp} {n : ℕ} (hops : height 0 ops = some n)
    (hne : ops ≠ []) :
    Live.run ops (Live.init capacity maxDepth E junk)
      = Live.run ops (Live.init capacity maxDepth E junk') := by
  cases ops with
  | nil => exact absurd rfl hne
  | cons op ops =>
    cases op with
    | opening call =>
      rw [Live.run_cons, Live.run_cons, Live.step, Live.step,
        Live.callStart_init capacity hdepth junk junk']
    | closing input => exact nomatch hops

/-! ## The events of a profile -/

/-- The events show the enabled metrics. -/
def Live.Shows (E : Metric → Bool) (L : Live) : Prop :=
  L.enabledMetrics = E ∧ ∀ event ∈ L.notified, event.enabledMetrics = E

theorem Live.Shows.concat {L : Live} (h : L.Shows E) {event : Event}
    (hevent : event.enabledMetrics = E) :
    ∀ e ∈ L.notified ++ [event], e.enabledMetrics = E := by
  intro e he
  rcases List.mem_append.mp he with he | he
  · exact h.2 e he
  · rwa [List.mem_singleton.mp he]

theorem Live.Shows.step {L L' : Live} (h : L.Shows E) {op : TracerOp}
    (hstep : L.step op = .ok L') : L'.Shows E := by
  cases op with
  | opening call =>
    cases hstep
    rcases L.callStart_cases call.function call.input.reading with ⟨-, he⟩ | ⟨-, -, he⟩
      | ⟨-, -, -, he⟩ | ⟨-, -, -, he⟩
    · rwa [he]
    · rw [he]
      exact h
    · rw [he]
      exact ⟨h.1, h.concat h.1⟩
    · rw [he]
      exact h
  | closing input =>
    rcases Live.callEnd_cases hstep with ⟨-, rfl⟩ | ⟨-, n, -, rfl⟩ | ⟨-, -, frames, -, rfl⟩
      | ⟨-, -, c, frames, -, rfl⟩
    · exact h
    · exact h
    · exact h
    · exact ⟨h.1, h.concat h.1⟩

theorem Live.Shows.run {L L' : Live} (h : L.Shows E) {ops : List TracerOp}
    (hrun : Live.run ops L = .ok L') : L'.Shows E := by
  induction ops generalizing L with
  | nil =>
    cases hrun
    exact h
  | cons op ops ih =>
    obtain ⟨M, hM, hrest⟩ := Live.run_cons_ok hrun
    exact ih (h.step hM) hrest

end Data

section Profile

variable (limits : Limits) (zendInlineHashFunc : String → UInt64) (maxDepth : ℕ)
  {E : Metric → Bool} (junk junk' : MetricValues)

/-- **The events of two profiles that are told the same of the enabled metrics say the same of
them.**  There is at least one call. -/
theorem tracer_events_enabledPart {ops ops' : List TracerOp} {n : ℕ}
    (hops : height 0 ops = some n) (hne : ops ≠ []) (hsame : List.Forall₂ (SameHook E) ops ops')
    {ends ends' : ℕ → HookInput}
    (hends : ∀ i m, E m = true → (ends i).reading m = (ends' i).reading m) :
    ∃ q q',
      tracerProfile (spxProfilerTracerCreate limits zendInlineHashFunc maxDepth E junk) ops ends
          = .ok q ∧
        tracerProfile (spxProfilerTracerCreate limits zendInlineHashFunc maxDepth E junk') ops'
          ends' = .ok q' ∧
        q.notified.map (Event.enabledPart E) = q'.notified.map (Event.enabledPart E) ∧
        (∀ event ∈ q.notified, event.enabledMetrics = E) ∧
        ∀ event ∈ q'.notified, event.enabledMetrics = E := by
  obtain ⟨q, L, hq, hL, href, -, -⟩ :=
    tracerProfile_refines limits zendInlineHashFunc maxDepth E junk hops ends
  obtain ⟨q', L', hq', hL', href', -, -⟩ :=
    tracerProfile_refines limits zendInlineHashFunc maxDepth E junk'
      ((sameHook_height hsame 0).symm.trans hops) ends'
  have hdepth : 0 < (spxProfilerTracerCreate limits zendInlineHashFunc maxDepth E junk).maxDepth :=
    by
      show 0 < if maxDepth > 0 ∧ maxDepth < limits.maxStackDepth then maxDepth
        else limits.maxStackDepth
      split
      · rename_i h
        exact h.1
      · exact limits.maxStackDepth_pos
  have hshows : L.Shows E := Live.Shows.run ⟨rfl, fun _ h => absurd h List.not_mem_nil⟩ hL
  have hshows' : L'.Shows E := Live.Shows.run ⟨rfl, fun _ h => absurd h List.not_mem_nil⟩ hL'
  refine ⟨q, q', hq, hq', ?_, ?_, ?_⟩
  · have hword : List.Forall₂ (SameHook E) (ops ++ Live.closings n ends)
        (ops' ++ Live.closings n ends') := List.rel_append hsame (sameHook_closings hends n)
    have hheight : height 0 (ops ++ Live.closings n ends) = some 0 := by
      rw [height_append, hops]
      exact Live.height_closings_depth n ends
    rw [Live.run_init _ hdepth junk junk' hheight (by simp [hne])] at hL
    have hrun := (congrArg (Except.map (Live.enabledPart E)) hL).symm.trans
      ((sameHook_run hword rfl).trans (congrArg (Except.map (Live.enabledPart E)) hL'))
    have hconclude : L.conclude.enabledPart E = L'.conclude.enabledPart E := by
      rw [Live.enabledPart_conclude, Live.enabledPart_conclude, Except.ok.inj hrun]
    rw [href.notified, href'.notified]
    exact congrArg Live.notified hconclude
  · rw [href.notified]
    exact hshows.concat hshows.1
  · rw [href'.notified]
    exact hshows'.concat hshows'.1

end Profile

end PhpSpx
