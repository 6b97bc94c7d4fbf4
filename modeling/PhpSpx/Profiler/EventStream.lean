import PhpSpx.Profiler.Refinement

/-!
# The stream of events of the tracing profiler

The reporter is notified of the start and of the end of every followed call,
and once of the finalization.  Calls are dropped beyond the depth limit, when
the function table is full, and after the finalization.

* `Event.paren` — an event as a bracket labelled with its callee and its depth.
* `Nested` — the invariant: the brackets left open are the followed open calls.
* `tracer_events_nested` — the stream of a finalized profile.
* `Consistent`, `tracer_events_consistent` — what the reporters rely on.
-/

namespace PhpSpx

open Lib

/-- The bracket of an event: a call start opens, a call end closes, both
labelled with the callee's entry and the depth. -/
def Event.paren (event : Event) : Option (Paren (Option ℕ × ℕ) (Option ℕ × ℕ)) :=
  match event.type with
  | .callStart => some (.opening (event.callee, event.depth))
  | .callEnd => some (.closing (event.callee, event.depth))
  | .finalize => none

/-- The labels of the followed open calls. -/
def openLabels (functions : List PhpFunction) : OpenCalls → List (Option ℕ × ℕ)
  | [] => []
  | none :: calls => openLabels functions calls
  | some c :: calls => (some (functions.idxOf c.function), calls.length) :: openLabels functions calls

@[simp] theorem openLabels_chargeHead (functions : List PhpFunction) (inc : MetricValues)
    (calls : OpenCalls) :
    openLabels functions (chargeHead inc calls) = openLabels functions calls := by
  rcases calls with _ | ⟨_ | c, calls⟩ <;> rfl

@[simp] theorem openLabels_creditFirst (functions : List PhpFunction) (f : PhpFunction)
    (exc : MetricValues) (calls : OpenCalls) :
    openLabels functions (creditFirst f exc calls) = openLabels functions calls := by
  induction calls with
  | nil => rfl
  | cons x calls ih =>
    cases x with
    | none => exact ih
    | some c =>
      rw [creditFirst]
      split
      · rfl
      · simp only [openLabels, length_creditFirst, ih]

/-- A lookup does not change the labels of the open calls. -/
theorem openLabels_recordFunction {functions : List PhpFunction} {calls : OpenCalls}
    (h : ∀ f ∈ openFunctions calls, f ∈ functions) (capacity : ℕ) (f : PhpFunction) :
    openLabels (recordFunction capacity functions f) calls = openLabels functions calls := by
  induction calls with
  | nil => rfl
  | cons x calls ih =>
    cases x with
    | none => exact ih h
    | some c =>
      have hc : c.function ∈ functions := h _ (by simp)
      have hrest := ih fun g hg => h g (by simp [hg])
      have hidx : (recordFunction capacity functions f).idxOf c.function
          = functions.idxOf c.function := by
        unfold recordFunction
        split
        · rfl
        · rw [List.idxOf_append_of_mem hc]
      simp only [openLabels, hrest, hidx]

/-- The stream of a profile that is not finalized: it leaves open the labels of
the followed open calls, and has no finalization in it. -/
structure Nested (L : Live) : Prop where
  open_eq : unmatched [] (L.notified.filterMap Event.paren)
    = some (openLabels L.functions L.frames)
  not_finalize : ∀ event ∈ L.notified, event.type ≠ .finalize

theorem nested_init (capacity maxDepth : ℕ) (enabledMetrics : Metric → Bool)
    (junk : MetricValues) : Nested (Live.init capacity maxDepth enabledMetrics junk) :=
  ⟨rfl, fun _ h => absurd h List.not_mem_nil⟩

/-- An event appended to the stream. -/
theorem mem_concat_ne_finalize {events : List Event} {event : Event}
    (h : ∀ e ∈ events, e.type ≠ .finalize) (he : event.type ≠ .finalize) :
    ∀ e ∈ events ++ [event], e.type ≠ .finalize := by
  intro e hmem
  rcases List.mem_append.1 hmem with hmem | hmem
  · exact h e hmem
  · rwa [List.mem_singleton.1 hmem]

theorem Nested.callStart {L : Live} (h : Nested L) (ok : L.Ok) (f : PhpFunction)
    (r : MetricValues) : Nested (L.callStart f r) := by
  have hopen : unmatched [] (L.notified.filterMap Event.paren)
      = some (openLabels (recordFunction L.capacity L.functions f) L.frames) :=
    h.open_eq.trans (congrArg some (openLabels_recordFunction ok.open_mem L.capacity f).symm)
  rcases L.callStart_cases f r with ⟨-, he⟩ | ⟨-, -, he⟩ | ⟨-, hd, -, he⟩ | ⟨-, -, -, he⟩
  · rwa [he]
  · rw [he]
    exact ⟨h.open_eq, h.not_finalize⟩
  · -- a followed call: its label is opened
    rw [he]
    have hdepth : ((L.sample r).lookup f).depth = L.frames.length := by
      show L.frames.length + L.hidden = L.frames.length
      rw [ok.hidden_eq_zero hd, Nat.add_zero]
    refine ⟨?_, mem_concat_ne_finalize h.not_finalize (by simp [Live.event])⟩
    have hconcat := unmatched_concat_opening hopen
      (some (((L.sample r).lookup f).idx f), ((L.sample r).lookup f).depth)
    rw [Live.follow, List.filterMap_append]
    apply hconcat.trans
    rw [hdepth]
    rfl
  · rw [he]
    exact ⟨hopen, h.not_finalize⟩

theorem Nested.callEnd {L L' : Live} (h : Nested L) {r : MetricValues}
    (hend : L.callEnd r = .ok L') : Nested L' := by
  have hopen := h.open_eq
  rcases Live.callEnd_cases hend with ⟨-, rfl⟩ | ⟨-, n, -, rfl⟩ | ⟨-, -, frames, hfr, rfl⟩
    | ⟨-, hz, c, frames, hfr, rfl⟩
  · exact h
  · exact ⟨h.open_eq, h.not_finalize⟩
  · rw [hfr] at hopen
    exact ⟨hopen, h.not_finalize⟩
  · -- a followed call: its label is closed
    rw [hfr] at hopen
    refine ⟨?_, mem_concat_ne_finalize h.not_finalize (by simp [Live.event])⟩
    have hconcat := unmatched_concat_closing hopen
    have hdepth : frames.length = (creditFirst c.function (r - c.start - c.children)
        (chargeHead (r - c.start) frames)).length + L.hidden := by
      rw [length_creditFirst, length_chargeHead, hz, Nat.add_zero]
    simp only [Live.settle, Live.collect, openLabels_creditFirst, openLabels_chargeHead]
    rw [List.filterMap_append]
    rw [hdepth] at hconcat
    exact hconcat

theorem Nested.run {L L' : Live} (h : Nested L) (ok : L.Ok) {ops : List TracerOp}
    (hrun : Live.run ops L = .ok L') : Nested L' := by
  induction ops generalizing L with
  | nil =>
    cases hrun
    exact h
  | cons op ops ih =>
    obtain ⟨M, hs, hrest⟩ := Live.run_cons_ok hrun
    have hM : Nested M := by
      cases op with
      | opening call =>
        cases hs
        exact h.callStart ok _ _
      | closing input => exact h.callEnd hs
    exact ih hM (ok.step hs) hrest

/-- A finalized profiler ignores its hooks. -/
theorem tracerRun_finalized {p : Tracer} (h : p.finalized = true) (ops : List TracerOp) :
    tracerRun ops p = .ok p := by
  induction ops with
  | nil => rfl
  | cons op ops ih =>
    have hstep : tracerStep p op = .ok p := by
      cases op with
      | opening call => exact if_pos h
      | closing input => exact if_pos h
    rw [tracerRun, hstep]
    exact ih

/-- **The stream of events is well nested.**  A run in which no call ends at
depth `0`, its finalization and any hooks after it: no call of a hook kills the
process; the notified starts and ends match, each end with the callee and the
depth of the start it closes, and nothing is left open; the one finalization is
the last event; and the frames touched are below the depth limit and the
capacity of the stack. -/
theorem tracer_events_nested (limits : Limits) (zendInlineHashFunc : String → UInt64)
    (maxDepth : ℕ) (enabledMetrics : Metric → Bool) (junk : MetricValues) {ops : List TracerOp}
    {n : ℕ} (hops : height 0 ops = some n) (inputs : ℕ → HookInput) (ops' : List TracerOp) :
    let p := spxProfilerTracerCreate limits zendInlineHashFunc maxDepth enabledMetrics junk
    ∃ q events fin, (tracerProfile p ops inputs).bind (tracerRun ops') = .ok q
      ∧ q.notified = events ++ [fin]
      ∧ unmatched [] (events.filterMap Event.paren) = some []
      ∧ (∀ event ∈ events, event.type ≠ .finalize) ∧ fin.type = .finalize
      ∧ ∀ i ∈ q.stack.accesses, i < p.maxDepth ∧ i < limits.maxStackDepth := by
  intro p
  obtain ⟨q, L, hq, hL, href, hdepth, -⟩ := tracerProfile_refines limits zendInlineHashFunc
    maxDepth enabledMetrics junk hops inputs
  obtain ⟨hcreate, -⟩ := refines_create limits zendInlineHashFunc maxDepth enabledMetrics junk
  have hnested : Nested L := (nested_init ..).run hcreate.ok hL
  have hframes : L.frames = [] := by
    apply List.eq_nil_of_length_eq_zero
    simp only [Live.depth] at hdepth
    omega
  have hopen := hnested.open_eq
  rw [hframes] at hopen
  refine ⟨q, L.notified,
    ({ L with finalized := true } : Live).event .finalize none none none none, ?_,
    href.notified, hopen, hnested.not_finalize, rfl, fun i hi => ?_⟩
  · rw [hq]
    exact tracerRun_finalized href.finalized ops'
  · have hlt : i < p.maxDepth := by
      have hq := href.accesses i hi
      rwa [href.maxDepth, show L.conclude.maxDepth = L.maxDepth from rfl,
        Live.maxDepth_run hL] at hq
    exact ⟨hlt, hlt.trans_le (maxDepth_create_le ..)⟩

/-- `f` calls `g`, for which a table of one function has no room, and `g` calls
`f` and a fourth call beyond the depth limit. -/
theorem tracer_events_nested_saturated :
    let p := spxProfilerTracerCreate ⟨8, 1, 1, by decide, by decide, by decide⟩ (fun _ => 0) 3
      (fun _ => true) 0
    let ops := [callAt "f" 0, callAt "g" 1, callAt "f" 2, callAt "f" 3, .closing (endAt 4)]
    ∃ q events fin, (tracerProfile p ops fun _ => endAt 5).bind (tracerRun [callAt "h" 6]) = .ok q
      ∧ q.notified = events ++ [fin]
      ∧ unmatched [] (events.filterMap Event.paren) = some []
      ∧ (∀ event ∈ events, event.type ≠ .finalize) ∧ fin.type = .finalize
      ∧ ∀ i ∈ q.stack.accesses, i < 3 ∧ i < 8 :=
  tracer_events_nested ⟨8, 1, 1, by decide, by decide, by decide⟩ (fun _ => 0) 3 (fun _ => true) 0
    (show height 0 [callAt "f" 0, callAt "g" 1, callAt "f" 2, callAt "f" 3, .closing (endAt 4)]
      = some 3 from rfl) (fun _ => endAt 5) [callAt "h" 6]

/-! ## What the reporters rely on -/

/-- The functions of the table, each at its index. -/
def EventFuncTable.functions (t : EventFuncTable) : List PhpFunction :=
  t.entries.map FuncTableEntry.function

/-- A call event has its callee in the table, and the end of a call has costs. -/
structure Event.WellFormed (event : Event) : Prop where
  callee : event.type ≠ .finalize →
    ∃ i, event.callee = some i ∧ i < event.funcTable.functions.length
  costs : event.type = .callEnd → ∃ inc exc, event.inc = some inc ∧ event.exc = some exc

/-- Events of one profile: the same metrics are enabled in all of them, and no function leaves
the table. -/
structure Consistent (enabledMetrics : Metric → Bool) (events : List Event) : Prop where
  enabledMetrics : ∀ event ∈ events, event.enabledMetrics = enabledMetrics
  wellFormed : ∀ event ∈ events, event.WellFormed
  grows : events.Pairwise fun event event' =>
    event.funcTable.functions <+: event'.funcTable.functions

theorem consistent_nil (enabledMetrics : Metric → Bool) : Consistent enabledMetrics [] :=
  ⟨fun _ h => absurd h List.not_mem_nil, fun _ h => absurd h List.not_mem_nil, .nil⟩

/-- One more event. -/
theorem Consistent.concat {enabledMetrics : Metric → Bool} {events : List Event} {event : Event}
    (h : Consistent enabledMetrics events) (hmetrics : event.enabledMetrics = enabledMetrics)
    (hwell : event.WellFormed)
    (hgrows : ∀ e ∈ events, e.funcTable.functions <+: event.funcTable.functions) :
    Consistent enabledMetrics (events ++ [event]) := by
  constructor
  · intro e he
    rcases List.mem_append.mp he with he | he
    · exact h.enabledMetrics e he
    · rwa [List.mem_singleton.mp he]
  · intro e he
    rcases List.mem_append.mp he with he | he
    · exact h.wellFormed e he
    · rwa [List.mem_singleton.mp he]
  · rw [List.pairwise_append]
    refine ⟨h.grows, List.pairwise_singleton _ _, ?_⟩
    rintro e he event' hevent'
    rw [List.mem_singleton.mp hevent']
    exact hgrows e he

/-- The events notified so far are consistent, with the table as it is. -/
structure Accounted (enabledMetrics : Metric → Bool) (L : Live) : Prop where
  metrics : L.enabledMetrics = enabledMetrics
  consistent : Consistent enabledMetrics L.notified
  grown : ∀ event ∈ L.notified, event.funcTable.functions <+: L.functions

variable {em : Metric → Bool}

@[simp] theorem functions_event (L : Live) (type : EventType) (caller callee : Option ℕ)
    (inc exc : Option MetricValues) :
    (L.event type caller callee inc exc).funcTable.functions = L.functions := by
  apply List.ext_getElem?
  intro i
  simp [EventFuncTable.functions, Live.event, Live.entries, Function.comp_def]

/-- A step that notifies an event, which shows the table as the step leaves it. -/
theorem Accounted.notify {L L' : Live} (h : Accounted em L) {event : Event}
    (hnotified : L'.notified = L.notified ++ [event])
    (hmetrics : L'.enabledMetrics = L.enabledMetrics) (hgrown : L.functions <+: L'.functions)
    (hevent : event.enabledMetrics = L.enabledMetrics)
    (htable : event.funcTable.functions = L'.functions) (hwell : event.WellFormed) :
    Accounted em L' := by
  have hold : ∀ e ∈ L.notified, e.funcTable.functions <+: L'.functions :=
    fun e he => (h.grown e he).trans hgrown
  constructor
  · exact hmetrics.trans h.metrics
  · rw [hnotified]
    apply h.consistent.concat (hevent.trans h.metrics) hwell
    rwa [htable]
  · intro e he
    rw [hnotified] at he
    rcases List.mem_append.mp he with he | he
    · exact hold e he
    · rw [List.mem_singleton.mp he, htable]

/-- An event about a function of the table. -/
theorem wellFormed_event {L : Live} {f : PhpFunction} (hf : f ∈ L.functions) (type : EventType)
    (caller : Option ℕ) {inc exc : Option MetricValues}
    (hcosts : type = .callEnd → ∃ i e, inc = some i ∧ exc = some e) :
    (L.event type caller (some (L.idx f)) inc exc).WellFormed := by
  refine ⟨?_, hcosts⟩
  intro _
  refine ⟨_, rfl, ?_⟩
  rw [functions_event]
  exact List.idxOf_lt_length_of_mem hf

theorem Accounted.callStart {L : Live} (h : Accounted em L) (f : PhpFunction) (r : MetricValues) :
    Accounted em (L.callStart f r) := by
  have hgrown := prefix_recordFunction L.capacity L.functions f
  rcases L.callStart_cases f r with ⟨-, he⟩ | ⟨-, -, he⟩ | ⟨-, -, hf, he⟩ | ⟨-, -, -, he⟩
  · rwa [he]
  · rw [he]
    exact ⟨h.metrics, h.consistent, h.grown⟩
  · rw [he]
    refine h.notify rfl rfl hgrown rfl (functions_event ..) ?_
    exact wellFormed_event hf _ _ fun hend => nomatch hend
  · rw [he]
    exact ⟨h.metrics, h.consistent, fun event hev => (h.grown event hev).trans hgrown⟩

theorem Accounted.callEnd {L L' : Live} (h : Accounted em L) (ok : L.Ok) {r : MetricValues}
    (hend : L.callEnd r = .ok L') : Accounted em L' := by
  rcases Live.callEnd_cases hend with ⟨-, rfl⟩ | ⟨-, n, -, rfl⟩ | ⟨-, -, frames, -, rfl⟩
    | ⟨-, -, c, frames, hfr, rfl⟩
  · exact h
  · exact ⟨h.metrics, h.consistent, h.grown⟩
  · exact ⟨h.metrics, h.consistent, h.grown⟩
  · refine h.notify rfl rfl List.prefix_rfl rfl (functions_event ..) ?_
    apply wellFormed_event
    · exact ok.head_mem hfr
    · intro _
      exact ⟨_, _, rfl, rfl⟩

theorem Accounted.run {L L' : Live} (h : Accounted em L) (ok : L.Ok) {ops : List TracerOp}
    (hrun : Live.run ops L = .ok L') : Accounted em L' := by
  induction ops generalizing L with
  | nil =>
    cases hrun
    exact h
  | cons op ops ih =>
    obtain ⟨M, hs, hrest⟩ := Live.run_cons_ok hrun
    have hM : Accounted em M := by
      cases op with
      | opening call =>
        cases hs
        exact h.callStart _ _
      | closing input => exact h.callEnd ok hs
    exact ih hM (ok.step hs) hrest

/-- **The events of a profile are consistent**, the finalization among them. -/
theorem tracer_events_consistent (limits : Limits) (zendInlineHashFunc : String → UInt64)
    (maxDepth : ℕ) (enabledMetrics : Metric → Bool) (junk : MetricValues) {ops : List TracerOp}
    {n : ℕ} (hops : height 0 ops = some n) (inputs : ℕ → HookInput) :
    ∃ q events final, tracerProfile
        (spxProfilerTracerCreate limits zendInlineHashFunc maxDepth enabledMetrics junk) ops inputs
        = .ok q ∧ q.notified = events ++ [final] ∧ final.type = .finalize ∧
      Consistent enabledMetrics (events ++ [final]) := by
  obtain ⟨q, L, hq, hL, href, -, -⟩ := tracerProfile_refines limits zendInlineHashFunc
    maxDepth enabledMetrics junk hops inputs
  obtain ⟨hcreate, -⟩ := refines_create limits zendInlineHashFunc maxDepth enabledMetrics junk
  have hstart : Accounted enabledMetrics (Live.init limits.maxFunctionTableSize
      (spxProfilerTracerCreate limits zendInlineHashFunc maxDepth enabledMetrics junk).maxDepth
      enabledMetrics junk) :=
    ⟨rfl, consistent_nil _, fun _ h => absurd h List.not_mem_nil⟩
  have hrun := hstart.run hcreate.ok hL
  have hfinal : (({ L with finalized := true } : Live).event .finalize none none none
      none).WellFormed :=
    ⟨fun h => absurd rfl h, fun h => nomatch h⟩
  have hconclude : Accounted enabledMetrics L.conclude :=
    hrun.notify rfl rfl List.prefix_rfl rfl (functions_event ..) hfinal
  exact ⟨q, _, _, hq, href.notified, rfl, hconclude.consistent⟩

/-- Only functions that are called are recorded. -/
theorem Live.functions_run {P : PhpFunction → Prop} {ops : List TracerOp}
    (hops : ∀ call, Paren.opening call ∈ ops → P call.function) {L L' : Live}
    (h : ∀ f ∈ L.functions, P f) (hrun : Live.run ops L = .ok L') : ∀ f ∈ L'.functions, P f := by
  induction ops generalizing L with
  | nil =>
    cases hrun
    exact h
  | cons op ops ih =>
    obtain ⟨M, hstep, hrest⟩ := Live.run_cons_ok hrun
    refine ih (fun call hcall => hops call (List.mem_cons_of_mem _ hcall)) ?_ hrest
    cases op with
    | opening call =>
      have hcall : P call.function := hops call List.mem_cons_self
      have hrecord : ∀ f ∈ recordFunction L.capacity L.functions call.function, P f := by
        intro f hf
        rcases mem_or_eq_of_mem_recordFunction hf with hf | rfl
        · exact h f hf
        · exact hcall
      cases hstep
      rcases L.callStart_cases call.function call.input.reading with ⟨-, he⟩ | ⟨-, -, he⟩
        | ⟨-, -, -, he⟩ | ⟨-, -, -, he⟩ <;> rw [he]
      · exact h
      · exact h
      · exact hrecord
      · exact hrecord
    | closing input =>
      rcases Live.callEnd_cases hstep with ⟨-, rfl⟩ | ⟨-, n, -, rfl⟩ | ⟨-, -, frames, -, rfl⟩
        | ⟨-, -, c, frames, -, rfl⟩
      · exact h
      · exact h
      · exact h
      · exact h

theorem opening_notMem_closings (n : ℕ) (inputs : ℕ → HookInput) (call : CallStart) :
    Paren.opening call ∉ Live.closings n inputs := by
  induction n generalizing inputs with
  | zero => exact List.not_mem_nil
  | succ n ih =>
    intro hmem
    rcases List.mem_cons.mp hmem with heq | hmem
    · cases heq
    · exact ih _ hmem

/-- **The events show functions that are called**, and the enabled metrics. -/
theorem tracer_events_functions (limits : Limits) (zendInlineHashFunc : String → UInt64)
    (maxDepth : ℕ) (enabledMetrics : Metric → Bool) (junk : MetricValues) {ops : List TracerOp}
    {n : ℕ} (hops : height 0 ops = some n) (inputs : ℕ → HookInput) {P : PhpFunction → Prop}
    (h : ∀ call, Paren.opening call ∈ ops → P call.function) :
    ∃ q events final, tracerProfile
        (spxProfilerTracerCreate limits zendInlineHashFunc maxDepth enabledMetrics junk) ops inputs
        = .ok q ∧ q.notified = events ++ [final] ∧ final.type = .finalize ∧
      (∀ event ∈ events ++ [final], event.enabledMetrics = enabledMetrics) ∧
      ∀ event ∈ events ++ [final], ∀ f ∈ event.funcTable.functions, P f := by
  obtain ⟨q, L, hq, hL, href, -, -⟩ := tracerProfile_refines limits zendInlineHashFunc
    maxDepth enabledMetrics junk hops inputs
  obtain ⟨hcreate, -⟩ := refines_create limits zendInlineHashFunc maxDepth enabledMetrics junk
  have hstart : Accounted enabledMetrics (Live.init limits.maxFunctionTableSize
      (spxProfilerTracerCreate limits zendInlineHashFunc maxDepth enabledMetrics junk).maxDepth
      enabledMetrics junk) :=
    ⟨rfl, consistent_nil _, fun _ h => absurd h List.not_mem_nil⟩
  have hrun := hstart.run hcreate.ok hL
  have hcalled : ∀ call, Paren.opening call ∈ ops ++ Live.closings n inputs →
      P call.function := by
    intro call hcall
    rcases List.mem_append.mp hcall with hcall | hcall
    · exact h call hcall
    · exact absurd hcall (opening_notMem_closings n inputs call)
  have hfunctions := Live.functions_run hcalled (fun _ h => absurd h List.not_mem_nil) hL
  refine ⟨q, _, _, hq, href.notified, rfl, ?_, ?_⟩
  · refine List.forall_mem_append.mpr ⟨hrun.consistent.enabledMetrics, ?_⟩
    exact List.forall_mem_singleton.mpr hrun.metrics
  · refine List.forall_mem_append.mpr ⟨?_, List.forall_mem_singleton.mpr ?_⟩
    · intro event hevent f hf
      exact hfunctions f ((hrun.grown event hevent).subset hf)
    · rw [functions_event]
      exact hfunctions

end PhpSpx
