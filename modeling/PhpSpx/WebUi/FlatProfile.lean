import PhpSpx.Profiler.Profile
import PhpSpx.WebUi.ProfileData

/-!
# The flat profile of the web UI

The web UI computes its flat profile from the events of a report alone: a
builder turns them into a list of calls with links to their parents, and the
statistics of the functions are summed over that list.  The tracing profiler
computes its own while it runs.  Both are functions of the call forest.  Both add
costs without rounding, as doubles are in the range of
`binary64Add_eq_metricValuesAdd`.

* `StackShows` — the builder's stack and the open calls of the profiler.
* `exists_built` — the events of a forest add its calls to the list, each node
  before its children.
* `exists_counted` — the calls of a forest add its statistics to the map.
* `web_profile_eq_tracer_stats` — the two flat profiles are the same.
-/

namespace PhpSpx.WebUi

open Lib

variable {metrics : EnabledMetrics}

/-! ## Values of the enabled metrics -/

/-- The enabled metrics of a profile, in the order of the enumeration. -/
def enabledMetricsOf (enabledMetrics : Metric → Bool) : EnabledMetrics where
  list := Metric.all.filter enabledMetrics
  nodup := Metric.nodup_all.filter _

/-- The values of the enabled metrics, in an array. -/
def rawValues (values : MetricValues) : RawValues metrics := fun j => values (metrics.list.get j)

/-- The values of the enabled metrics, in an object. -/
def metricValueSet (values : MetricValues) : MetricValueSet metrics := fun m => values m

@[simp] theorem byMetric_rawValues (values : MetricValues) :
    byMetric (rawValues values : RawValues metrics) = metricValueSet values := by
  funext m
  exact congrArg values (List.getElem_idxOf (offset m).2)

/-- The line of an event in a report. -/
def reportEvent : LogEntry → Option (ReportEvent metrics)
  | ⟨.callStart, some idx, cum⟩ => some ⟨idx, true, rawValues cum⟩
  | ⟨.callEnd, some idx, cum⟩ => some ⟨idx, false, rawValues cum⟩
  | _ => none

/-- The event lines of the report of a profile. -/
def reportEvents (notified : List Event) : List (ReportEvent metrics) :=
  notified.filterMap fun event => reportEvent event.logEntry

/-- The event lines of a forest of calls. -/
def forestEvents (functions : List PhpFunction) (z : MetricValues) (F : CallForest) :
    List (ReportEvent metrics) :=
  (forestLog functions z F).filterMap reportEvent

@[simp] theorem forestEvents_nil (functions : List PhpFunction) (z : MetricValues) :
    (forestEvents functions z .nil : List (ReportEvent metrics)) = [] := rfl

@[simp] theorem forestEvents_node (functions : List PhpFunction) (z : MetricValues)
    (a : CallStart) (b : HookInput) (c s : CallForest) :
    (forestEvents functions z (.node a b c s) : List (ReportEvent metrics))
      = ⟨functions.idxOf a.function, true, rawValues (a.input.reading - z)⟩
        :: (forestEvents functions z c
          ++ ⟨functions.idxOf a.function, false, rawValues (b.reading - z)⟩
            :: forestEvents functions z s) := by
  simp [forestEvents, forestLog, reportEvent]

/-! ## The stack of the builder -/

/-- A frame without what its sub-calls change. -/
def BuilderFrame.header (frame : BuilderFrame metrics) : BuilderFrame metrics :=
  { frame with children := 0 }

/-- The frames are those of the given open calls, all of them followed. -/
def StackShows (functions : List PhpFunction) (stack : List (BuilderFrame metrics))
    (calls : OpenCalls) : Prop :=
  List.Forall₂
    (fun frame x => ∃ c, x = some c ∧ c.function ∈ functions
      ∧ frame.fnIdx = functions.idxOf c.function ∧ frame.children = rawValues c.children)
    stack calls

namespace ProfileDataBuilder

variable {functions : List PhpFunction} {stack : List (BuilderFrame metrics)} {calls : OpenCalls}

@[simp] theorem header_idx (frame : BuilderFrame metrics) : frame.header.idx = frame.idx := rfl

@[simp] theorem map_header_chargeTop (inc : RawValues metrics)
    (stack : List (BuilderFrame metrics)) :
    (chargeTop inc stack).map BuilderFrame.header = stack.map BuilderFrame.header := by
  cases stack <;> rfl

@[simp] theorem map_header_creditNearest (fnIdx : ℕ) (exc : RawValues metrics)
    (stack : List (BuilderFrame metrics)) :
    (creditNearest fnIdx exc stack).map BuilderFrame.header = stack.map BuilderFrame.header := by
  induction stack with
  | nil => rfl
  | cons frame frames ih =>
    rw [creditNearest]
    split
    · rfl
    · rw [List.map_cons, List.map_cons, ih]

theorem stackShows_chargeTop (h : StackShows functions stack calls) (inc : MetricValues) :
    StackShows functions (chargeTop (rawValues inc) stack) (chargeHead inc calls) := by
  cases h with
  | nil => exact .nil
  | cons hhead hrest =>
    obtain ⟨c, rfl, hmem, hidx, hchildren⟩ := hhead
    refine .cons ⟨_, rfl, hmem, hidx, ?_⟩ hrest
    show (fun j => _ + rawValues inc j) = rawValues (c.children + inc)
    rw [hchildren]
    rfl

theorem stackShows_creditNearest (h : StackShows functions stack calls) (f : PhpFunction)
    (exc : MetricValues) :
    StackShows functions (creditNearest (functions.idxOf f) (rawValues exc) stack)
      (creditFirst f exc calls) := by
  induction h with
  | nil => exact .nil
  | cons hhead hrest ih =>
    obtain ⟨c, rfl, hmem, hidx, hchildren⟩ := hhead
    rw [creditNearest, creditFirst]
    -- indices tell the recorded functions apart
    have hiff : functions.idxOf c.function = functions.idxOf f ↔ c.function = f :=
      List.idxOf_inj hmem
    by_cases hcf : c.function = f
    · rw [if_pos (hidx.trans (hiff.2 hcf)), if_pos hcf]
      refine .cons ⟨_, rfl, hmem, hidx, ?_⟩ hrest
      show (fun j => _ - rawValues exc j) = rawValues (c.children - exc)
      rw [hchildren]
      rfl
    · rw [if_neg fun hi => hcf (hiff.1 (hidx.symm.trans hi)), if_neg hcf]
      exact .cons ⟨c, rfl, hmem, hidx, hchildren⟩ ih

theorem addEvents_append (events events' : List (ReportEvent metrics))
    (builder : ProfileDataBuilder metrics) :
    addEvents (events ++ events') builder
      = (addEvents events builder).bind (addEvents events') := by
  induction events generalizing builder with
  | nil => rfl
  | cons event events ih =>
    rw [List.cons_append, addEvents, addEvents]
    cases builder.addEvent event with
    | none => rfl
    | some builder => exact ih builder

end ProfileDataBuilder

/-! ## The list of calls -/

/-- The index of the call the next call is made by, `-1` when there is none. -/
def parentIdx (stack : List (BuilderFrame metrics)) : ℤ :=
  match stack.head?.map BuilderFrame.idx with
  | some idx => idx
  | none => -1

theorem parentIdx_congr {stack stack' : List (BuilderFrame metrics)}
    (h : stack'.map BuilderFrame.header = stack.map BuilderFrame.header) :
    parentIdx stack' = parentIdx stack := by
  cases stack with
  | nil =>
    rw [List.map_nil, List.map_eq_nil_iff] at h
    rw [h]
  | cons frame frames =>
    cases stack' with
    | nil => simp at h
    | cons frame' frames' =>
      rw [List.map_cons, List.map_cons, List.cons_eq_cons] at h
      have hidx : frame'.header.idx = frame.header.idx := congrArg BuilderFrame.idx h.1
      exact congrArg Int.ofNat hidx

/-- The record of a call that made the calls of the forest `c`. -/
def callRecord (functions : List PhpFunction) (z : MetricValues) (parent : ℤ) (a : CallStart)
    (b : HookInput) (c : CallForest) : CallRecord metrics where
  functionIdx := functions.idxOf a.function
  parentIdx := parent
  start := metricValueSet (a.input.reading - z)
  last := metricValueSet (b.reading - z)
  exc := metricValueSet (callCost a b - (c.rootCost callCost - forestCredit c a.function))

/-- The records of a forest of calls, from index `base` on, each node before its
children. -/
def Records (functions : List PhpFunction) (z : MetricValues) (element : ℕ → CallRecord metrics) :
    ℕ → ℤ → CallForest → Prop
  | _, _, .nil => True
  | base, parent, .node a b c s =>
      element base = callRecord functions z parent a b c
      ∧ Records functions z element (base + 1) base c
      ∧ Records functions z element (base + 1 + c.labels.length) parent s

theorem Records.congr {functions : List PhpFunction} {z : MetricValues}
    {element element' : ℕ → CallRecord metrics} {F : CallForest} {base : ℕ} {parent : ℤ}
    (h : Records functions z element base parent F)
    (heq : ∀ i, base ≤ i → i < base + F.labels.length → element' i = element i) :
    Records functions z element' base parent F := by
  induction F generalizing base parent with
  | nil => trivial
  | node a b c s ihc ihs =>
    obtain ⟨hroot, hc, hs⟩ := h
    simp only [Forest.labels_node, List.length_cons, List.length_append] at heq
    refine ⟨?_, ihc hc fun i h₁ h₂ => heq i (by omega) (by omega),
      ihs hs fun i h₁ h₂ => heq i (by omega) (by omega)⟩
    rw [heq base le_rfl (by omega), hroot]

/-- The builder `B'` is `B` after the events of the forest `F`. -/
structure Built (functions : List PhpFunction) (z : MetricValues)
    (B B' : ProfileDataBuilder metrics) (calls : OpenCalls) (F : CallForest) : Prop where
  stack : StackShows functions B'.stack (settleForest F calls)
  headers : B'.stack.map BuilderFrame.header = B.stack.map BuilderFrame.header
  callCount : B'.callCount = B.callCount + F.labels.length
  names : B'.callList.functionNames = B.callList.functionNames
  size_mono : B.callList.getSize ≤ B'.callList.getSize
  size_le : B.callList.getSize ≤ B.callCount → B'.callList.getSize ≤ B'.callCount
  size_eq : B.callList.getSize ≤ B.callCount → B'.callCount ≠ B.callCount →
    B'.callList.getSize = B'.callCount
  outside : ∀ i, i < B.callCount ∨ B'.callCount ≤ i →
    B'.callList.array.element i = B.callList.array.element i
  calls : Records functions z B'.callList.array.element B.callCount (parentIdx B.stack) F

theorem Built.nil {functions : List PhpFunction} (z : MetricValues) {B : ProfileDataBuilder metrics}
    {calls : OpenCalls} (h : StackShows functions B.stack calls) :
    Built functions z B B calls .nil where
  stack := by rwa [settleForest_nil]
  headers := rfl
  callCount := rfl
  names := rfl
  size_mono := le_rfl
  size_le := id
  size_eq := fun _ h => absurd rfl h
  outside := fun _ _ => rfl
  calls := trivial

/-- The list has the calls that were counted. -/
theorem Built.size_callList {functions : List PhpFunction} {z : MetricValues}
    {B B' : ProfileDataBuilder metrics} {calls : OpenCalls} {F : CallForest}
    (h : Built functions z B B' calls F) (hcount : B.callCount = 0)
    (hsize : B.callList.getSize = 0) : B'.callList.getSize = F.labels.length := by
  have hcalls := h.callCount
  have hle := h.size_le (by omega)
  by_cases hzero : B'.callCount = B.callCount
  · omega
  · have heq := h.size_eq (by omega) hzero
    omega

/-- The line of a call start. -/
def startLine (functions : List PhpFunction) (z : MetricValues) (a : CallStart) :
    ReportEvent metrics :=
  ⟨functions.idxOf a.function, true, rawValues (a.input.reading - z)⟩

/-- The line of a call end. -/
def endLine (functions : List PhpFunction) (z : MetricValues) (a : CallStart) (b : HookInput) :
    ReportEvent metrics :=
  ⟨functions.idxOf a.function, false, rawValues (b.reading - z)⟩

/-- The frame of a call as its end finds it, after the calls of the forest `c`. -/
def frameBack (functions : List PhpFunction) (z : MetricValues) (B : ProfileDataBuilder metrics)
    (a : CallStart) (c : CallForest) : BuilderFrame metrics where
  idx := B.callCount
  startEvent := startLine functions z a
  startEventIdx := B.eventCount
  fnIdx := functions.idxOf a.function
  parent := B.stack.head?.map BuilderFrame.idx
  start := fun _ => 0
  last := fun _ => 0
  exc := fun _ => 0
  children := rawValues (c.rootCost callCost - forestCredit c a.function)

/-- The stack of the builder when a call ends, after the calls it made. -/
theorem Built.stack_opened {functions : List PhpFunction} {z : MetricValues}
    {B C : ProfileDataBuilder metrics} {calls : OpenCalls} {a : CallStart} {c : CallForest}
    (hc : Built functions z (B.pushFrame (startLine functions z a)) C
      (some ⟨a.function, a.input.reading, 0⟩ :: calls) c) :
    ∃ frames, C.stack = frameBack functions z B a c :: frames
      ∧ frames.map BuilderFrame.header = B.stack.map BuilderFrame.header
      ∧ StackShows functions frames
          (creditAll (Function.update (forestCredit c) a.function 0) calls) := by
  have hstack := hc.stack
  rw [settleForest_cons] at hstack
  obtain ⟨frame, frames, ⟨d, hd, -, -, hchildren⟩, hframes, hC⟩ :=
    List.forall₂_cons_right_iff.1 hstack
  cases hd
  have hheaders := hc.headers
  rw [hC, List.map_cons] at hheaders
  obtain ⟨hheader, hrest⟩ := List.cons_eq_cons.1 hheaders
  refine ⟨frames, ?_, hrest, hframes⟩
  have hframe : frame = { frame.header with children := frame.children } := rfl
  rw [hC, hframe, hheader, hchildren]
  rfl

/-- What an ended call costs does not depend on the origin of the profile. -/
theorem rawValues_endLine_sub (functions : List PhpFunction) (z : MetricValues) (a : CallStart)
    (b : HookInput) :
    (fun j => (endLine functions z a b : ReportEvent metrics).values j
        - (startLine functions z a : ReportEvent metrics).values j)
      = rawValues (callCost a b) := by
  funext j
  exact sub_sub_sub_cancel_right _ _ _

theorem exc_ended (functions : List PhpFunction) (z : MetricValues)
    (B : ProfileDataBuilder metrics) (a : CallStart) (b : HookInput) (c : CallForest) :
    ((frameBack functions z B a c).ended (endLine functions z a b)).exc
      = rawValues (callCost a b - (c.rootCost callCost - forestCredit c a.function)) := by
  funext j
  have hinc : (endLine functions z a b : ReportEvent metrics).values j
      - (startLine functions z a : ReportEvent metrics).values j = rawValues (callCost a b) j :=
    congrFun (rawValues_endLine_sub functions z a b) j
  exact congrArg (· - _) hinc

/-- A tree followed by its siblings, from its children and its siblings. -/
theorem Built.node {functions : List PhpFunction} {z : MetricValues}
    {B C B' : ProfileDataBuilder metrics} {calls : OpenCalls} {a : CallStart} {b : HookInput}
    {c s : CallForest} {frames : List (BuilderFrame metrics)}
    (hc : Built functions z (B.pushFrame (startLine functions z a)) C
      (some ⟨a.function, a.input.reading, 0⟩ :: calls) c)
    (hframes : frames.map BuilderFrame.header = B.stack.map BuilderFrame.header)
    (hs : Built functions z
      (C.popFrame (frameBack functions z B a c) frames (endLine functions z a b)) B'
      (creditFirst a.function (callCost a b - (c.rootCost callCost - forestCredit c a.function))
        (chargeHead (callCost a b)
          (creditAll (Function.update (forestCredit c) a.function 0) calls))) s) :
    Built functions z B B' calls (.node a b c s) := by
  have hcount : C.callCount = B.callCount + 1 + c.labels.length := hc.callCount
  have hcount' : B'.callCount = C.callCount + s.labels.length := hs.callCount
  -- the record of the root is written at the index its start was given
  set D := C.popFrame (frameBack functions z B a c) frames (endLine functions z a b) with hD
  have hset : D.callList.array = C.callList.array.setElement B.callCount
      (callRecord functions z (parentIdx B.stack) a b c) := by
    apply congrArg (C.callList.array.setElement B.callCount)
    rw [callRecord, ← byMetric_rawValues, ← byMetric_rawValues, ← byMetric_rawValues,
      ← exc_ended functions z B]
    rfl
  have hroot : D.callList.array.element B.callCount
      = callRecord functions z (parentIdx B.stack) a b c := by
    rw [hset]
    exact Function.update_self ..
  have hother : ∀ i, i ≠ B.callCount →
      D.callList.array.element i = C.callList.array.element i := by
    intro i hi
    rw [hset]
    exact Function.update_of_ne hi ..
  have hsize : D.callList.getSize
      = if B.callCount + 1 > C.callList.getSize then B.callCount + 1 else C.callList.getSize :=
    congrArg ChunkedRecordArray.size hset
  have hheaders : D.stack.map BuilderFrame.header = B.stack.map BuilderFrame.header := by
    rw [← hframes]
    exact (ProfileDataBuilder.map_header_creditNearest ..).trans
      (ProfileDataBuilder.map_header_chargeTop ..)
  have hmono : B.callList.getSize ≤ C.callList.getSize := hc.size_mono
  have hle : B.callList.getSize ≤ B.callCount + 1 → C.callList.getSize ≤ C.callCount := hc.size_le
  have heq : B.callList.getSize ≤ B.callCount + 1 → C.callCount ≠ B.callCount + 1 →
      C.callList.getSize = C.callCount := hc.size_eq
  have hmono' := hs.size_mono
  have hle' : D.callList.getSize ≤ C.callCount → B'.callList.getSize ≤ B'.callCount := hs.size_le
  have heq' : D.callList.getSize ≤ C.callCount → B'.callCount ≠ C.callCount →
      B'.callList.getSize = B'.callCount := hs.size_eq
  have houtside : ∀ i, i < C.callCount ∨ B'.callCount ≤ i →
      B'.callList.array.element i = D.callList.array.element i := hs.outside
  refine ⟨?_, hs.headers.trans hheaders, ?_, hs.names.trans hc.names, ?_, ?_, ?_, ?_, ?_, ?_, ?_⟩
  · rw [← settleForest_node]
    exact hs.stack
  · simp only [Forest.labels_node, List.length_cons, List.length_append]
    omega
  · split at hsize <;> omega
  · intro h
    split at hsize <;> omega
  · intro h _
    by_cases hC : C.callCount = B.callCount + 1
    · by_cases hB' : B'.callCount = C.callCount <;> split at hsize <;> omega
    · by_cases hB' : B'.callCount = C.callCount <;> split at hsize <;> omega
  · intro i hi
    rw [houtside i (by omega), hother i (by omega)]
    exact hc.outside i (show i < B.callCount + 1 ∨ C.callCount ≤ i by omega)
  · rw [houtside _ (Or.inl (by omega)), hroot]
  · apply hc.calls.congr
    intro i hi hi'
    have hi₁ : B.callCount + 1 ≤ i := hi
    have hi₂ : i < B.callCount + 1 + c.labels.length := hi'
    rw [houtside i (Or.inl (by omega)), hother i (by omega)]
  · have hcalls := hs.calls
    rw [parentIdx_congr hheaders] at hcalls
    rwa [← hcount]

/-- **The events of a forest of calls** record its calls and credit the frames
around it as the calls themselves do. -/
theorem exists_built {functions : List PhpFunction} (z : MetricValues) (F : CallForest)
    (hF : ∀ f ∈ F.labels.map callFunction, f ∈ functions) {B : ProfileDataBuilder metrics}
    {calls : OpenCalls} (h : StackShows functions B.stack calls) :
    ∃ B', ProfileDataBuilder.addEvents (forestEvents functions z F) B = some B'
      ∧ Built functions z B B' calls F := by
  induction F generalizing B calls with
  | nil => exact ⟨B, rfl, .nil z h⟩
  | node a b c s ihc ihs =>
    simp only [Forest.labels_node, List.map_cons, List.map_append, List.mem_cons,
      List.mem_append] at hF
    -- the call starts
    have hpushed : StackShows functions (B.pushFrame (startLine functions z a)).stack
        (some ⟨a.function, a.input.reading, 0⟩ :: calls) :=
      .cons ⟨_, rfl, hF _ (Or.inl rfl), rfl, rfl⟩ h
    -- the calls made by the call
    obtain ⟨C, hC, hc⟩ := ihc (fun f hf => hF f (Or.inr (Or.inl hf))) hpushed
    obtain ⟨frames, hCstack, hheaders, hshows⟩ := hc.stack_opened
    -- its end
    have hend : C.addEvent (endLine functions z a b)
        = some (C.popFrame (frameBack functions z B a c) frames (endLine functions z a b)) := by
      have hstop : ¬ (endLine functions z a b : ReportEvent metrics).isStart = true :=
        Bool.false_ne_true
      rw [ProfileDataBuilder.addEvent, if_neg hstop, hCstack]
    have hpopped : StackShows functions
        (C.popFrame (frameBack functions z B a c) frames (endLine functions z a b)).stack
        (creditFirst a.function (callCost a b - (c.rootCost callCost - forestCredit c a.function))
          (chargeHead (callCost a b)
            (creditAll (Function.update (forestCredit c) a.function 0) calls))) := by
      have hcredit := ProfileDataBuilder.stackShows_creditNearest
        (ProfileDataBuilder.stackShows_chargeTop hshows (callCost a b)) a.function
        (callCost a b - (c.rootCost callCost - forestCredit c a.function))
      rw [← exc_ended functions z B, ← rawValues_endLine_sub functions z a b] at hcredit
      exact hcredit
    -- its siblings
    obtain ⟨B', hB', hs⟩ := ihs (fun f hf => hF f (Or.inr (Or.inr hf))) hpopped
    refine ⟨B', ?_, hc.node hheaders hs⟩
    rw [forestEvents_node, ProfileDataBuilder.addEvents]
    show (some (B.pushFrame (startLine functions z a))).bind _ = _
    rw [Option.bind_some, ProfileDataBuilder.addEvents_append, hC, Option.bind_some,
      ProfileDataBuilder.addEvents]
    exact (congrArg (Option.bind · _) hend).trans hB'

/-! ## The statistics over the calls -/

/-- The functions of the calls above a parent link, nearest first. -/
def Ancestors (functions : List PhpFunction) (element : ℕ → CallRecord metrics) :
    ℤ → List PhpFunction → Prop
  | parent, [] => parent = -1
  | parent, f :: ancestors =>
      ∃ idx : ℕ, parent = idx ∧ (element idx).functionIdx = functions.idxOf f
        ∧ Ancestors functions element (element idx).parentIdx ancestors

/-- The loop over the parents counts the ancestors of the same function. -/
theorem cycleDepthLoop_eq {functions : List PhpFunction} {list : CallList metrics} {f : PhpFunction}
    (hf : f ∈ functions) {parent : ℤ} {ancestors : List PhpFunction}
    (h : Ancestors functions list.array.element parent ancestors) {fuel : ℕ}
    (hfuel : ancestors.length ≤ fuel) (cycleDepth : ℕ) :
    list.cycleDepthLoop (functions.idxOf f) fuel parent cycleDepth
      = some (cycleDepth + ancestors.count f) := by
  induction ancestors generalizing parent fuel cycleDepth with
  | nil =>
    cases h
    unfold CallList.cycleDepthLoop
    rw [if_pos (by decide)]
    rfl
  | cons g ancestors ih =>
    obtain ⟨idx, rfl, hidx, hrest⟩ := h
    cases fuel with
    | zero => simp at hfuel
    | succ fuel =>
      unfold CallList.cycleDepthLoop
      rw [if_neg (by omega)]
      dsimp only
      rw [Int.toNat_natCast, hidx, ih hrest (Nat.le_of_succ_le_succ hfuel)]
      -- indices tell the recorded functions apart
      by_cases hfg : f = g
      · subst hfg
        rw [if_pos rfl, List.count_cons_self]
        congr 1
        omega
      · rw [if_neg fun hi => hfg ((List.idxOf_inj hf).1 hi), List.count_cons_of_ne (Ne.symm hfg)]

/-- The statistics of a table entry, as the web UI shows them. -/
def FunctionStats.ofTable (functionName : Option String) (stats : FuncStats) :
    FunctionStats metrics where
  functionName := functionName
  maxCycleDepth := stats.maxCycleDepth
  called := stats.called
  inc := metricValueSet stats.inc
  exc := metricValueSet stats.exc

/-- The map holds the given statistics of the functions called at least once. -/
structure StatsShow (functions : List PhpFunction) (names : ℕ → Option String)
    (functionsStats : FunctionsStats metrics) (stats : PhpFunction → FuncStats) : Prop where
  shown : ∀ f ∈ functions, functionsStats (functions.idxOf f)
    = if (stats f).called = 0 then none
      else some (.ofTable (names (functions.idxOf f)) (stats f))
  zero : ∀ f ∈ functions, (stats f).called = 0 → stats f = FuncStats.zero
  unknown : ∀ idx, functions.length ≤ idx → functionsStats idx = none

theorem FunctionStats.addCall_ofTable (functionName : Option String) (stats : FuncStats) (k : ℕ)
    (inc exc : MetricValues) :
    (ofTable functionName stats : FunctionStats metrics).addCall k (metricValueSet inc)
        (metricValueSet exc)
      = ofTable functionName (stats.recordCall k inc exc) := by
  have hmax : (stats.recordCall k inc exc).maxCycleDepth = max stats.maxCycleDepth k :=
    recordCall_maxCycleDepth stats k inc exc
  rw [addCall, ofTable, ofTable, hmax]
  rcases Nat.eq_zero_or_pos k with rfl | hk
  · rfl
  · rw [if_pos hk, if_pos hk, FuncStats.recordCall, if_neg hk.ne', if_neg hk.ne']

/-- One call counted. -/
theorem StatsShow.addCall {functions : List PhpFunction} {list : CallList metrics}
    {functionsStats : FunctionsStats metrics} {stats : PhpFunction → FuncStats}
    (h : StatsShow functions list.functionNames functionsStats stats) {f : PhpFunction}
    (hf : f ∈ functions) {idx k : ℕ} {inc exc : MetricValues}
    (hidx : list.getFunctionIdx idx = functions.idxOf f) (hk : list.getCycleDepth idx = some k)
    (hinc : list.getIncMetricValues idx = metricValueSet inc)
    (hexc : list.getExcMetricValues idx = metricValueSet exc) :
    ∃ functionsStats', FunctionsStats.addCall list functionsStats idx = some functionsStats'
      ∧ StatsShow functions list.functionNames functionsStats'
          (Function.update stats f ((stats f).recordCall k inc exc)) := by
  have hcurrent : (functionsStats (functions.idxOf f)).getD
      (.fresh (list.functionNames (functions.idxOf f)))
        = .ofTable (list.functionNames (functions.idxOf f)) (stats f) := by
    rw [h.shown f hf]
    split
    · rename_i h0
      rw [h.zero f hf h0]
      rfl
    · rfl
  refine ⟨Function.update functionsStats (functions.idxOf f)
    (some (.ofTable (list.functionNames (functions.idxOf f)) ((stats f).recordCall k inc exc))),
    ?_, ?_, ?_, ?_⟩
  · rw [FunctionsStats.addCall, hk, CallList.getFunctionName, hidx, hinc, hexc, hcurrent,
      Option.map_some, FunctionStats.addCall_ofTable]
  · intro g hg
    by_cases hgf : g = f
    · subst hgf
      have hcalled : ((stats g).recordCall k inc exc).called ≠ 0 := Nat.succ_ne_zero _
      rw [Function.update_self, Function.update_self, if_neg hcalled]
    · have hne : functions.idxOf g ≠ functions.idxOf f :=
        fun hi => hgf ((List.idxOf_inj hg).1 hi)
      rw [Function.update_of_ne hne, Function.update_of_ne hgf]
      exact h.shown g hg
  · intro g hg
    by_cases hgf : g = f
    · subst hgf
      rw [Function.update_self]
      exact fun h0 => absurd h0 (Nat.succ_ne_zero _)
    · rw [Function.update_of_ne hgf]
      exact h.zero g hg
  · intro i hi
    have hlt : functions.idxOf f < functions.length := List.idxOf_lt_length_of_mem hf
    rw [Function.update_of_ne (by omega)]
    exact h.unknown i hi

/-- A call may be counted before the calls it made. -/
theorem addForest_recordCall (stats : FuncStats) (k : ℕ) (inc exc : MetricValues)
    (f : PhpFunction) (c : CallForest) :
    (stats.recordCall k inc exc).addForest (k + 1) f c
      = (stats.addForest (k + 1) f c).recordCall k inc exc := by
  ext1
  · simp only [FuncStats.addForest, FuncStats.recordCall]
    omega
  · rw [recordCall_maxCycleDepth]
    simp only [FuncStats.addForest, recordCall_maxCycleDepth]
    omega
  · simp [FuncStats.addForest, FuncStats.recordCall]
  · simp [FuncStats.addForest, FuncStats.recordCall]

/-- **The calls of a forest add its statistics to the map.** -/
theorem exists_counted {functions : List PhpFunction} {z : MetricValues} {list : CallList metrics}
    (F : CallForest) (hF : ∀ f ∈ F.labels.map callFunction, f ∈ functions) {base : ℕ} {parent : ℤ}
    {ancestors : List PhpFunction}
    (hrecords : Records functions z list.array.element base parent F)
    (hancestors : Ancestors functions list.array.element parent ancestors)
    (hlen : ancestors.length ≤ base) (hsize : base + F.labels.length ≤ list.getSize)
    {functionsStats : FunctionsStats metrics} {stats : PhpFunction → FuncStats}
    (h : StatsShow functions list.functionNames functionsStats stats) :
    ∃ functionsStats',
      (List.range' base F.labels.length).foldlM (FunctionsStats.addCall list) functionsStats
        = some functionsStats'
      ∧ StatsShow functions list.functionNames functionsStats'
          fun f => (stats f).addForest (ancestors.count f) f F := by
  induction F generalizing base parent ancestors functionsStats stats with
  | nil => exact ⟨functionsStats, rfl, by simpa using h⟩
  | node a b c s ihc ihs =>
    simp only [Forest.labels_node, List.map_cons, List.map_append, List.mem_cons,
      List.mem_append] at hF
    simp only [Forest.labels_node, List.length_cons, List.length_append] at hsize ⊢
    obtain ⟨hroot, hc, hs⟩ := hrecords
    have ha : a.function ∈ functions := hF _ (Or.inl rfl)
    -- the call itself
    have hdepth : list.getCycleDepth base = some (ancestors.count a.function) := by
      rw [CallList.getCycleDepth, CallList.getFunctionIdx, hroot]
      exact (cycleDepthLoop_eq ha hancestors (by omega) 0).trans (by rw [Nat.zero_add])
    have hinc : list.getIncMetricValues base = metricValueSet (callCost a b) := by
      rw [CallList.getIncMetricValues, hroot]
      funext m
      exact sub_sub_sub_cancel_right _ _ _
    have hexc : list.getExcMetricValues base
        = metricValueSet (callCost a b - (c.rootCost callCost - forestCredit c a.function)) :=
      congrArg CallRecord.exc hroot
    obtain ⟨S₁, hS₁, h₁⟩ := h.addCall ha (congrArg CallRecord.functionIdx hroot) hdepth hinc hexc
    -- the calls it made
    have hancestors' : Ancestors functions list.array.element base (a.function :: ancestors) :=
      ⟨base, rfl, congrArg CallRecord.functionIdx hroot,
        (congrArg CallRecord.parentIdx hroot).symm ▸ hancestors⟩
    obtain ⟨S₂, hS₂, h₂⟩ := ihc (fun f hf => hF f (Or.inr (Or.inl hf))) hc hancestors'
      (Nat.succ_le_succ hlen) (by omega) h₁
    -- its siblings
    obtain ⟨S₃, hS₃, h₃⟩ := ihs (fun f hf => hF f (Or.inr (Or.inr hf))) hs hancestors
      (by omega) (by omega) h₂
    have hstats : (fun f => (stats f).addForest (ancestors.count f) f (.node a b c s))
        = fun f => ((Function.update stats a.function ((stats a.function).recordCall
            (ancestors.count a.function) (callCost a b)
            (callCost a b - (c.rootCost callCost - forestCredit c a.function))) f).addForest
              ((a.function :: ancestors).count f) f c).addForest (ancestors.count f) f s := by
      funext f
      by_cases hf : f = a.function
      · subst hf
        rw [Function.update_self, List.count_cons_self, addForest_recordCall, addForest_node_self]
      · rw [Function.update_of_ne hf, List.count_cons_of_ne (Ne.symm hf),
          addForest_node_of_ne (Ne.symm hf)]
    refine ⟨S₃, ?_, hstats ▸ h₃⟩
    rw [List.range'_succ, ← List.range'_append_1, List.foldlM_cons, hS₁]
    show List.foldlM _ S₁ _ = _
    rw [List.foldlM_append, hS₂]
    exact hS₃

/-! ## The two flat profiles -/

section FlatProfile

variable (limits : Limits) (zendInlineHashFunc : String → UInt64) (maxDepth : ℕ)
  (enabledMetrics : Metric → Bool) (junk : MetricValues)

/-- The report of a finalized profile has the lines of its call forest. -/
theorem reportEvents_conclude (L : Live) {functions : List PhpFunction} {z : MetricValues}
    {F : CallForest} (h : L.notified.map Event.logEntry = forestLog functions z F) :
    (reportEvents L.conclude.notified : List (ReportEvent metrics))
      = forestEvents functions z F := by
  have hevents : ∀ l : List Event, (reportEvents l : List (ReportEvent metrics))
      = (l.map Event.logEntry).filterMap reportEvent := fun l => by
    rw [List.filterMap_map]
    rfl
  rw [hevents, Live.conclude, List.map_append, h, List.filterMap_append]
  exact List.append_nil _

/-- **The tracing profiler and the web UI compute the same flat profile.**  The
events of a finalized profile, as its report lists them for the enabled
metrics, build without failure a list of calls whose statistics are, at every
index, those of the function table, provided the table has room for the
functions called within the depth limit. -/
theorem web_profile_eq_tracer_stats {ops : List TracerOp} {n : ℕ} (hops : height 0 ops = some n)
    (inputs : ℕ → HookInput) (calledFunctionCount : ℕ) :
    let p := spxProfilerTracerCreate limits zendInlineHashFunc maxDepth enabledMetrics junk
    let T := (callForest ops inputs).truncate p.maxDepth
    (T.labels.map callFunction).toFinset.card ≤ limits.maxFunctionTableSize →
    ∃ (q : Tracer) (builder : ProfileDataBuilder (enabledMetricsOf enabledMetrics))
      (functionsStats : FunctionsStats (enabledMetricsOf enabledMetrics)),
      tracerProfile p ops inputs = .ok q
      ∧ ProfileDataBuilder.addEvents (reportEvents q.notified) (.setMetadata calledFunctionCount)
          = some builder
      ∧ FunctionsStats.ofAllCalls builder.callList = some functionsStats
      ∧ ∀ idx, functionsStats idx
          = (q.funcTable.entries[idx]?).map fun entry =>
            { functionName := builder.callList.functionNames idx
              maxCycleDepth := entry.stats.maxCycleDepth
              called := entry.stats.called
              inc := metricValueSet entry.stats.inc
              exc := metricValueSet entry.stats.exc } := by
  intro p T hT
  obtain ⟨q, L, hq, href, hfollows⟩ := tracerProfile_follows limits zendInlineHashFunc maxDepth
    enabledMetrics junk hops inputs hT
  have hmem : ∀ f, f ∈ L.functions ↔ f ∈ T.labels.map callFunction := fun f => by
    rw [hfollows.mem_functions f]
    exact or_iff_right List.not_mem_nil
  have hF : ∀ f ∈ T.labels.map callFunction, f ∈ L.functions := fun f => (hmem f).2
  -- the list of calls
  have hstack : StackShows L.functions
      (.setMetadata calledFunctionCount :
        ProfileDataBuilder (enabledMetricsOf enabledMetrics)).stack [] := .nil
  obtain ⟨B, hB, hbuilt⟩ := exists_built (originOf (callForest ops inputs)) T hF hstack
  have hcount : B.callCount = T.labels.length := hbuilt.callCount.trans (Nat.zero_add _)
  have hsize : B.callList.getSize = T.labels.length := by
    have hle : B.callList.getSize ≤ B.callCount := hbuilt.size_le le_rfl
    by_cases hzero : B.callCount = 0
    · omega
    · exact (hbuilt.size_eq le_rfl hzero).trans hcount
  -- its statistics
  have hstart : StatsShow L.functions B.callList.functionNames
      (fun _ => none : FunctionsStats (enabledMetricsOf enabledMetrics)) fun _ => FuncStats.zero :=
    ⟨fun _ _ => rfl, fun _ _ _ => rfl, fun _ _ => rfl⟩
  have hancestors : Ancestors L.functions B.callList.array.element (-1) [] := rfl
  obtain ⟨S, hS, hshow⟩ := exists_counted T hF hbuilt.calls hancestors le_rfl
    (by rw [hsize]; exact (Nat.zero_add _).le) hstart
  refine ⟨q, B, S, hq, ?_, ?_, ?_⟩
  · rw [href.notified, reportEvents_conclude L hfollows.log]
    exact hB
  · rw [FunctionsStats.ofAllCalls, FunctionsStats.new, hsize, List.range_eq_range']
    exact hS
  · intro idx
    have hentries : q.funcTable.entries
        = L.functions.mapIdx fun i f => ⟨i, f, L.stats f⟩ := href.entries
    rw [hentries, List.getElem?_mapIdx]
    by_cases hidx : idx < L.functions.length
    · have hf : L.functions[idx] ∈ L.functions := List.getElem_mem hidx
      have hidxOf : L.functions.idxOf L.functions[idx] = idx := href.ok.nodup.idxOf_getElem idx hidx
      have hstats : L.stats L.functions[idx]
          = FuncStats.zero.addForest 0 L.functions[idx] T := hfollows.stats _
      have hcalled : (FuncStats.zero.addForest 0 L.functions[idx] T).called ≠ 0 := by
        have hpos := List.count_pos_iff.2 ((hmem _).1 hf)
        rw [← Forest.count_eq_count_labels] at hpos
        simp only [FuncStats.addForest, FuncStats.zero]
        omega
      have hshown := hshow.shown _ hf
      simp only [List.count_nil, hidxOf] at hshown
      rw [List.getElem?_eq_getElem hidx, hshown.trans (if_neg hcalled), Option.map_some,
        Option.map_some, hstats]
      rfl
    · rw [List.getElem?_eq_none (by omega), hshow.unknown idx (by omega)]
      rfl

end FlatProfile

/-- `f` calls `g`, which calls `f`: the map has `2` calls of `f`, one of them
inside another. -/
theorem web_profile_recursion :
    ∃ (q : Tracer) (builder : ProfileDataBuilder (enabledMetricsOf (· = .wallTime)))
      (functionsStats : FunctionsStats (enabledMetricsOf (· = .wallTime))),
      tracerProfile
          (spxProfilerTracerCreate (limitsInit fun _ => none) (fun _ => 0) 0 (· = .wallTime) 0)
          [callAt "f" 0, callAt "g" 1, callAt "f" 3, .closing (endAt 6)] (fun _ => endAt 10) = .ok q
      ∧ ProfileDataBuilder.addEvents (reportEvents q.notified) (.setMetadata 2) = some builder
      ∧ FunctionsStats.ofAllCalls builder.callList = some functionsStats
      ∧ ∀ idx, functionsStats idx
          = (q.funcTable.entries[idx]?).map fun entry =>
            { functionName := builder.callList.functionNames idx
              maxCycleDepth := entry.stats.maxCycleDepth
              called := entry.stats.called
              inc := metricValueSet entry.stats.inc
              exc := metricValueSet entry.stats.exc } :=
  web_profile_eq_tracer_stats (limitsInit fun _ => none) (fun _ => 0) 0 (· = .wallTime) 0
    (show height 0 [callAt "f" 0, callAt "g" 1, callAt "f" 3, .closing (endAt 6)] = some 2
      from rfl) (fun _ => endAt 10) 2 (by decide)

end PhpSpx.WebUi
