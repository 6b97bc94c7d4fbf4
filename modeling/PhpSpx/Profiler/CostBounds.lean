import PhpSpx.Lib.Spans
import PhpSpx.Profiler.Refinement

/-!
# The bounds of the costs

For a metric that never decreases and a function table with room for every function called, the
open calls of the machine are nested spans and the statistics of the table their totals.  So no
cost is negative, and none is greater than the greatest reading of the event that shows it.

* `Live.ledger` — the open calls and the statistics, for one metric.
* `Costed` — the invariant, `Costed.run` along a run.
* `tracer_costs_within_max` — every event of a profile.
-/

namespace PhpSpx

open Lib

/-! ## Statements -/

/-- The values collected in a hook. -/
def TracerOp.reading : TracerOp → MetricValues
  | .opening call => call.input.reading
  | .closing input => input.reading

/-- The functions called within the depth limit, at `depth` open calls. -/
def calledFunctions (maxDepth : ℕ) : ℕ → List TracerOp → List PhpFunction
  | _, [] => []
  | depth, .opening call :: ops =>
      (if depth < maxDepth then [call.function] else []) ++ calledFunctions maxDepth (depth + 1) ops
  | depth, .closing _ :: ops => calledFunctions maxDepth (depth - 1) ops

/-- The costs that an event shows for a metric are in order, up to its greatest reading. -/
def Event.CostsWithinMax (m : Metric) (event : Event) : Prop :=
  ∀ entry ∈ event.funcTable.entries,
    0 ≤ entry.stats.exc m ∧ entry.stats.exc m ≤ entry.stats.inc m ∧
      entry.stats.inc m ≤ event.max m

/-! ## Open calls as spans -/

/-- The span of a followed call. -/
def OpenCall.span (m : Metric) (c : OpenCall) : Span PhpFunction ℚ :=
  ⟨c.function, c.start m, c.children m⟩

/-- The followed calls and the statistics, for one metric. -/
def Live.ledger (m : Metric) (L : Live) (calls : List OpenCall) : Ledger PhpFunction ℚ where
  spans := calls.map (OpenCall.span m)
  inc f := (L.stats f).inc m
  exc f := (L.stats f).exc m

theorem openFunctions_map_some (calls : List OpenCall) :
    openFunctions (calls.map some) = calls.map OpenCall.function := by
  induction calls with
  | nil => rfl
  | cons c calls ih => rw [List.map_cons, openFunctions_some, ih, List.map_cons]

theorem map_label_span (m : Metric) (calls : List OpenCall) :
    (calls.map (OpenCall.span m)).map Span.label = calls.map OpenCall.function := by
  rw [List.map_map]
  rfl

/-- Charging the call around an ended one charges its span. -/
theorem exists_chargeHead (m : Metric) (inc : MetricValues) (calls : List OpenCall) :
    ∃ calls' : List OpenCall, chargeHead inc (calls.map some) = calls'.map some ∧
      calls'.map (OpenCall.span m) = Span.charge (inc m) (calls.map (OpenCall.span m)) := by
  cases calls with
  | nil => exact ⟨[], rfl, rfl⟩
  | cons c calls => exact ⟨{ c with children := c.children + inc } :: calls, rfl, rfl⟩

/-- Crediting an open call credits its span. -/
theorem exists_creditFirst (m : Metric) (f : PhpFunction) (exc : MetricValues)
    (calls : List OpenCall) :
    ∃ calls' : List OpenCall, creditFirst f exc (calls.map some) = calls'.map some ∧
      calls'.map (OpenCall.span m) = Span.credit f (exc m) (calls.map (OpenCall.span m)) := by
  induction calls with
  | nil => exact ⟨[], rfl, rfl⟩
  | cons c calls ih =>
    obtain ⟨calls', hcalls', hspans⟩ := ih
    have hlabel : (c.span m).label = c.function := rfl
    by_cases hf : c.function = f
    · refine ⟨{ c with children := c.children - exc } :: calls, ?_, ?_⟩
      · rw [List.map_cons, creditFirst, if_pos hf]
        rfl
      · rw [List.map_cons, List.map_cons, Span.credit, if_pos (hlabel.trans hf)]
        rfl
    · refine ⟨c :: calls', ?_, ?_⟩
      · rw [List.map_cons, creditFirst, if_neg hf, hcalls']
        rfl
      · rw [List.map_cons, List.map_cons, Span.credit, if_neg (hlabel ▸ hf), hspans]

/-! ## The invariant -/

/-- The state of a run whose last reading of a metric is `now`: every open call that is not
hidden is followed, the totals are sound, and so is every event notified. -/
structure Costed (m : Metric) (now : ℚ) (S : Finset PhpFunction) (L : Live) : Prop where
  ok : L.Ok
  room : S.card ≤ L.capacity
  recorded : ∀ f ∈ L.functions, f ∈ S
  sampled : ∃ calls, L.frames = calls.map some ∧
    (L.called ≠ 0 → 0 ≤ L.first m ∧ now ≤ L.max m ∧ (L.ledger m calls).Sound (L.first m) now)
  notified : ∀ event ∈ L.notified, event.CostsWithinMax m

variable {m : Metric} {now : ℚ} {S : Finset PhpFunction} {L : Live}

theorem costed_init {capacity maxDepth : ℕ} (hdepth : 0 < maxDepth) (hroom : S.card ≤ capacity)
    (enabledMetrics : Metric → Bool) (junk : MetricValues) (m : Metric) (now : ℚ) :
    Costed m now S (Live.init capacity maxDepth enabledMetrics junk) where
  ok := Live.ok_init capacity hdepth enabledMetrics junk
  room := hroom
  recorded := fun _ h => absurd h List.not_mem_nil
  sampled := ⟨[], rfl, fun h => absurd rfl h⟩
  notified := fun _ h => absurd h List.not_mem_nil

/-- An event of a state with sound totals. -/
theorem costsWithinMax_event {calls : List OpenCall} (hfirst : 0 ≤ L.first m)
    (hmax : now ≤ L.max m) (hsound : (L.ledger m calls).Sound (L.first m) now) (type : EventType)
    (caller callee : Option ℕ) (inc exc : Option MetricValues) :
    (L.event type caller callee inc exc).CostsWithinMax m := by
  intro entry hentry
  obtain ⟨i, hi, rfl⟩ := List.mem_mapIdx.mp hentry
  obtain ⟨hexc, hle, hinc⟩ := hsound.bounds L.functions[i]
  refine ⟨hexc, hle, ?_⟩
  change (L.stats L.functions[i]).inc m ≤ L.max m
  change (L.stats L.functions[i]).inc m ≤ now - L.first m at hinc
  linarith

/-- Writing a function's statistics adds to its total, unless the function is still open. -/
theorem total_update (total : FuncStats → ℚ) {stats : PhpFunction → FuncStats} {f : PhpFunction}
    {new : FuncStats} {cost : ℚ} {outer : Prop} [Decidable outer]
    (hsame : outer → total new = total (stats f))
    (hnew : ¬outer → total new = total (stats f) + cost) :
    (fun g => total (Function.update stats f new g)) =
      if outer then fun g => total (stats g)
      else Function.update (fun g => total (stats g)) f (total (stats f) + cost) := by
  funext g
  by_cases hg : g = f
  · subst hg
    rw [Function.update_self]
    split
    · exact hsame ‹_›
    · rw [Function.update_self]
      exact hnew ‹_›
  · rw [Function.update_of_ne hg]
    split
    · rfl
    · rw [Function.update_of_ne hg]

/-- Settling an ended call finishes its span. -/
theorem ledger_settle {frames : OpenCalls} (c : OpenCall) {rest credited : List OpenCall}
    (hframes : frames = rest.map some) (r : MetricValues)
    (hspans : credited.map (OpenCall.span m) =
      Span.credit c.function ((r - c.start - c.children) m)
        (Span.charge ((r - c.start) m) (rest.map (OpenCall.span m)))) :
    ((L.collect frames r).settle c r).ledger m credited =
      (L.ledger m (c :: rest)).finish (r m) (c.span m) (rest.map (OpenCall.span m)) := by
  have hcount : openCount c.function frames = 0 ↔
      c.function ∉ (rest.map (OpenCall.span m)).map Span.label := by
    rw [openCount, hframes, openFunctions_map_some, map_label_span, List.count_eq_zero]
  apply Ledger.ext
  · exact hspans
  · apply total_update fun stats => stats.inc m
    · intro houter
      exact congrFun (if_neg (hcount.not_left.mpr houter)) m
    · intro houter
      exact congrFun (if_pos (hcount.mpr houter)) m
  · apply total_update fun stats => stats.exc m
    · intro houter
      exact congrFun (if_neg (hcount.not_left.mpr houter)) m
    · intro houter
      exact congrFun (if_pos (hcount.mpr houter)) m

theorem Costed.notified_append (h : Costed m now S L) {event : Event}
    (hevent : event.CostsWithinMax m) : ∀ e ∈ L.notified ++ [event], e.CostsWithinMax m := by
  intro e he
  rcases List.mem_append.mp he with he | he
  · exact h.notified e he
  · rwa [List.mem_singleton.mp he]

/-- The readings of a call start move the time on. -/
theorem Costed.sample_sound (h : Costed m now S L) {calls : List OpenCall}
    (hframes : L.frames = calls.map some)
    (hsampled : L.called ≠ 0 →
      0 ≤ L.first m ∧ now ≤ L.max m ∧ (L.ledger m calls).Sound (L.first m) now)
    {r : MetricValues} (hr : 0 ≤ r m) (hle : now ≤ r m) :
    0 ≤ (L.sample r).first m ∧ r m ≤ (L.sample r).max m ∧
      ((L.sample r).ledger m calls).Sound ((L.sample r).first m) (r m) := by
  by_cases hcalled : L.called = 0
  · obtain ⟨hnil, -, hfunctions⟩ := h.ok.fresh hcalled
    have hcalls : calls = [] := by
      rw [hnil] at hframes
      exact List.map_eq_nil_iff.mp hframes.symm
    have hzero : ∀ f, L.stats f = FuncStats.zero :=
      fun f => h.ok.unrecorded f (by rw [hfunctions]; exact List.not_mem_nil)
    have hfirst : (L.sample r).first = r := if_pos hcalled
    have hmax : (L.sample r).max = r := by
      simp [Live.sample, hcalled]
    have hstats : ∀ f, (L.sample r).stats f = FuncStats.zero := hzero
    rw [hfirst, hmax, hcalls]
    refine ⟨hr, le_rfl, trivial, trivial, ?_, ?_, ?_⟩
    · intro f
      simp [Live.ledger, hstats, FuncStats.zero]
    · intro f
      simp [Live.ledger, hstats, FuncStats.zero]
    · intro f
      simp [Live.ledger, hstats, FuncStats.zero, Span.outermost]
  · obtain ⟨hfirst, hmax, hsound⟩ := hsampled hcalled
    have hsame : (L.sample r).first = L.first := if_neg hcalled
    rw [hsame]
    refine ⟨hfirst, ?_, hsound.later hle⟩
    exact le_sup_right

theorem Costed.callStart (h : Costed m now S L) {f : PhpFunction}
    (hf : L.depth < L.maxDepth → f ∈ S) {r : MetricValues} (hr : 0 ≤ r m) (hle : now ≤ r m) :
    ∃ now', Costed m now' S (L.callStart f r) ∧ now' ≤ r m := by
  obtain ⟨calls, hframes, hsampled⟩ := h.sampled
  have hok := h.ok.callStart f r
  rcases L.callStart_cases f r with ⟨-, he⟩ | ⟨-, -, he⟩ | ⟨-, hd, hmem, he⟩ | ⟨-, hd, hmem, -⟩
  · rw [he]
    exact ⟨now, h, hle⟩
  · rw [he] at hok ⊢
    exact ⟨now, ⟨hok, h.room, h.recorded, ⟨calls, hframes, hsampled⟩, h.notified⟩, hle⟩
  · obtain ⟨hfirst, hmax, hsound⟩ := h.sample_sound hframes hsampled hr hle
    have hrecorded : ∀ g ∈ recordFunction L.capacity L.functions f, g ∈ S := by
      intro g hg
      rcases mem_or_eq_of_mem_recordFunction hg with hg | rfl
      · exact h.recorded g hg
      · exact hf hd
    rw [he] at hok ⊢
    refine ⟨r m, ⟨hok, h.room, hrecorded, ⟨⟨f, r, 0⟩ :: calls, ?_, ?_⟩, ?_⟩, le_rfl⟩
    · exact congrArg (some ⟨f, r, 0⟩ :: ·) hframes
    · intro _
      exact ⟨hfirst, hmax, hsound.begin f⟩
    · apply h.notified_append
      exact @costsWithinMax_event m (r m) ((L.sample r).lookup f) calls hfirst hmax hsound
        _ _ _ _ _
  · exact absurd (mem_recordFunction_of_room h.ok.nodup h.room h.recorded (hf hd)) hmem

theorem Costed.callEnd (h : Costed m now S L) {L' : Live} {r : MetricValues} (hle : now ≤ r m)
    (hend : L.callEnd r = .ok L') : ∃ now', Costed m now' S L' ∧ now' ≤ r m := by
  obtain ⟨calls, hframes, hsampled⟩ := h.sampled
  have hok := h.ok.callEnd hend
  rcases Live.callEnd_cases hend with ⟨-, rfl⟩ | ⟨-, n, -, rfl⟩ | ⟨-, -, frames, hfr, -⟩
    | ⟨-, -, c, frames, hfr, rfl⟩
  · exact ⟨now, h, hle⟩
  · exact ⟨now, ⟨hok, h.room, h.recorded, ⟨calls, hframes, hsampled⟩, h.notified⟩, hle⟩
  · -- every call that is not hidden is followed
    rw [hfr] at hframes
    cases calls with
    | nil => exact nomatch hframes
    | cons c calls => exact nomatch (List.cons.inj hframes).1
  · obtain ⟨hfirst, hmax, hsound⟩ := hsampled (h.ok.called_ne_zero hfr)
    rw [hfr] at hframes
    obtain ⟨rest, hcalls, hrest⟩ : ∃ rest, calls = c :: rest ∧ frames = rest.map some := by
      cases calls with
      | nil => exact nomatch hframes
      | cons c' rest =>
        obtain ⟨hc, hrest⟩ := List.cons.inj hframes
        exact ⟨rest, by rw [Option.some.inj hc], hrest⟩
    subst hcalls hrest
    obtain ⟨charged, hcharged, hspans⟩ := exists_chargeHead m (r - c.start) rest
    obtain ⟨credited, hcredited, hspans'⟩ :=
      exists_creditFirst m c.function (r - c.start - c.children) charged
    have hcons : (L.ledger m (c :: rest)).spans = c.span m :: rest.map (OpenCall.span m) := rfl
    have hfinish := (hsound.later hle).finish hcons
    rw [hspans] at hspans'
    have hledger := ledger_settle (L := L) c rfl r hspans'
    have hfirst' : 0 ≤ ((L.collect (rest.map some) r).settle c r).first m := hfirst
    have hmax' : r m ≤ ((L.collect (rest.map some) r).settle c r).max m := le_sup_right
    rw [← hledger] at hfinish
    refine ⟨r m, ⟨hok, h.room, h.recorded, ⟨credited, ?_, ?_⟩, ?_⟩, le_rfl⟩
    · rw [← hcredited, ← hcharged]
      rfl
    · intro _
      exact ⟨hfirst', hmax', hfinish⟩
    · apply h.notified_append
      exact costsWithinMax_event hfirst' hmax' hfinish _ _ _ _ _

/-! ## Runs -/

theorem calledFunctions_closings (maxDepth depth n : ℕ) (inputs : ℕ → HookInput) :
    calledFunctions maxDepth depth (Live.closings n inputs) = [] := by
  induction n generalizing depth inputs with
  | zero => rfl
  | succ n ih => exact ih _ _

/-- The finalization calls no function. -/
theorem calledFunctions_append_closings (maxDepth depth n : ℕ) (ops : List TracerOp)
    (inputs : ℕ → HookInput) :
    calledFunctions maxDepth depth (ops ++ Live.closings n inputs) =
      calledFunctions maxDepth depth ops := by
  induction ops generalizing depth with
  | nil => exact calledFunctions_closings ..
  | cons op ops ih =>
    cases op with
    | opening call => rw [List.cons_append, calledFunctions, calledFunctions, ih]
    | closing input => rw [List.cons_append, calledFunctions, calledFunctions, ih]

/-- **A run** with readings that never decrease. -/
theorem Costed.run {L' : Live} (h : Costed m now S L) (hfin : L.finalized = false)
    {ops : List TracerOp} (hcalled : ∀ f ∈ calledFunctions L.maxDepth L.depth ops, f ∈ S)
    (hnonneg : ∀ op ∈ ops, 0 ≤ op.reading m) (hnow : ∀ op ∈ ops, now ≤ op.reading m)
    (hmono : ops.Pairwise fun op op' => op.reading m ≤ op'.reading m)
    (hrun : Live.run ops L = .ok L') : ∃ now', Costed m now' S L' := by
  induction ops generalizing L now with
  | nil =>
    cases hrun
    exact ⟨now, h⟩
  | cons op ops ih =>
    obtain ⟨M, hstep, hrest⟩ := Live.run_cons_ok hrun
    obtain ⟨hlater, hmono'⟩ := List.pairwise_cons.mp hmono
    obtain ⟨hr, hnonneg'⟩ := List.forall_mem_cons.mp hnonneg
    obtain ⟨hle, -⟩ := List.forall_mem_cons.mp hnow
    have hmax : M.maxDepth = L.maxDepth := Live.maxDepth_step hstep
    cases op with
    | opening call =>
      cases hstep
      obtain ⟨hdepth, hfin'⟩ := Live.depth_callStart hfin call.function call.input.reading
      rw [calledFunctions] at hcalled
      have hf : L.depth < L.maxDepth → call.function ∈ S := by
        intro hd
        apply hcalled
        rw [if_pos hd]
        exact List.mem_append_left _ (List.mem_singleton_self _)
      obtain ⟨now', hM, hnow'⟩ := h.callStart (r := call.input.reading) hf hr hle
      refine ih hM hfin' ?_ hnonneg' (fun op hop => hnow'.trans (hlater op hop)) hmono' hrest
      rw [hmax, hdepth]
      exact fun f hf => hcalled f (List.mem_append_right _ hf)
    | closing input =>
      obtain ⟨hdepth, hfin'⟩ := Live.depth_callEnd hfin hstep
      obtain ⟨now', hM, hnow'⟩ := h.callEnd hle hstep
      refine ih hM hfin' ?_ hnonneg' (fun op hop => hnow'.trans (hlater op hop)) hmono' hrest
      rw [hmax, show M.depth = L.depth - 1 by omega]
      exact hcalled

/-- The event of the finalization. -/
theorem Costed.conclude (h : Costed m now S L) :
    ∀ event ∈ L.conclude.notified, event.CostsWithinMax m := by
  apply h.notified_append
  obtain ⟨calls, -, hsampled⟩ := h.sampled
  by_cases hcalled : L.called = 0
  · intro entry hentry
    obtain ⟨i, hi, -⟩ := List.mem_mapIdx.mp hentry
    rw [show ({ L with finalized := true } : Live).functions = L.functions from rfl,
      (h.ok.fresh hcalled).2.2] at hi
    exact absurd hi (Nat.not_lt_zero i)
  · obtain ⟨hfirst, hmax, hsound⟩ := hsampled hcalled
    exact @costsWithinMax_event m now { L with finalized := true } calls hfirst hmax hsound
      _ _ _ _ _

/-- **The costs of every event of a profile are within bounds**, for a metric with readings that
are not negative and never decrease, when the table has room for the functions called within
the depth limit. -/
theorem tracer_costs_within_max (limits : Limits) (zendInlineHashFunc : String → UInt64)
    (maxDepth : ℕ) (enabledMetrics : Metric → Bool) (junk : MetricValues) {ops : List TracerOp}
    {n : ℕ} (hops : height 0 ops = some n) (inputs : ℕ → HookInput) {m : Metric} :
    let p := spxProfilerTracerCreate limits zendInlineHashFunc maxDepth enabledMetrics junk
    let hooks := ops ++ Live.closings n inputs
    (calledFunctions p.maxDepth 0 ops).toFinset.card ≤ limits.maxFunctionTableSize →
    (∀ op ∈ hooks, 0 ≤ op.reading m) →
    hooks.Pairwise (fun op op' => op.reading m ≤ op'.reading m) →
    ∃ q, tracerProfile p ops inputs = .ok q ∧ ∀ event ∈ q.notified, event.CostsWithinMax m := by
  intro p hooks hroom hnonneg hmono
  obtain ⟨q, L, hq, hL, href, -, -⟩ := tracerProfile_refines limits zendInlineHashFunc maxDepth
    enabledMetrics junk hops inputs
  obtain ⟨hcreate, -⟩ := refines_create limits zendInlineHashFunc maxDepth enabledMetrics junk
  have hstart := costed_init hcreate.ok.maxDepth_pos hroom enabledMetrics junk m 0
  have hcalled : ∀ f ∈ calledFunctions p.maxDepth 0 hooks,
      f ∈ (calledFunctions p.maxDepth 0 ops).toFinset := by
    intro f hf
    rw [calledFunctions_append_closings] at hf
    exact List.mem_toFinset.mpr hf
  obtain ⟨now, hcosted⟩ := hstart.run rfl hcalled hnonneg hnonneg hmono hL
  refine ⟨q, hq, ?_⟩
  rw [href.notified]
  exact hcosted.conclude

end PhpSpx
