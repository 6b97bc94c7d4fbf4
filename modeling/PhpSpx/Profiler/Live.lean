import PhpSpx.Profiler.Tracer

/-!
# Open calls

The abstract machine behind the tracing profiler: a list of open calls in place
of the array of frames, a search of the recorded functions in place of the hash
map, and statistics kept for each function in place of the table's entries.
There is no calibration in it and no metric collector.

* `Live.callStart`, `Live.callEnd`, `Live.finalize` — the three operations.
* `chargeHead` and `creditFirst` — the two ways an ended call changes the costs
  already attributed below it.
-/

namespace PhpSpx

open Lib

/-- A call the profiler follows: its function, the values at its start and what
is already known not to be its own cost. -/
structure OpenCall where
  function : PhpFunction
  start : MetricValues
  children : MetricValues
  deriving DecidableEq

/-- The open calls, innermost first.  `none` is a call whose function found no
room in the function table. -/
abbrev OpenCalls := List (Option OpenCall)

/-- Charge the cost of an ended call to the call around it. -/
def chargeHead (inc : MetricValues) : OpenCalls → OpenCalls
  | [] => []
  | none :: calls => none :: calls
  | some c :: calls => some { c with children := c.children + inc } :: calls

/-- Credit the innermost open call of a function with the exclusive cost of an
ended call of that function. -/
def creditFirst (f : PhpFunction) (exc : MetricValues) : OpenCalls → OpenCalls
  | [] => []
  | none :: calls => none :: creditFirst f exc calls
  | some c :: calls =>
      if c.function = f then some { c with children := c.children - exc } :: calls
      else some c :: creditFirst f exc calls

/-- The functions of the followed open calls. -/
def openFunctions (calls : OpenCalls) : List PhpFunction :=
  calls.filterMap fun x => x.map OpenCall.function

/-- How many open calls of a function there are. -/
def openCount (f : PhpFunction) (calls : OpenCalls) : ℕ := (openFunctions calls).count f

@[simp] theorem openFunctions_nil : openFunctions [] = [] := rfl

@[simp] theorem openFunctions_none (calls : OpenCalls) :
    openFunctions (none :: calls) = openFunctions calls := rfl

@[simp] theorem openFunctions_some (c : OpenCall) (calls : OpenCalls) :
    openFunctions (some c :: calls) = c.function :: openFunctions calls := rfl

@[simp] theorem length_chargeHead (inc : MetricValues) (calls : OpenCalls) :
    (chargeHead inc calls).length = calls.length := by
  rcases calls with _ | ⟨_ | c, calls⟩ <;> rfl

@[simp] theorem openFunctions_chargeHead (inc : MetricValues) (calls : OpenCalls) :
    openFunctions (chargeHead inc calls) = openFunctions calls := by
  rcases calls with _ | ⟨_ | c, calls⟩ <;> rfl

@[simp] theorem length_creditFirst (f : PhpFunction) (exc : MetricValues) (calls : OpenCalls) :
    (creditFirst f exc calls).length = calls.length := by
  induction calls with
  | nil => rfl
  | cons x calls ih =>
    cases x with
    | none => simp [creditFirst, ih]
    | some c =>
      rw [creditFirst]
      split <;> simp [ih]

@[simp] theorem openFunctions_creditFirst (f : PhpFunction) (exc : MetricValues)
    (calls : OpenCalls) : openFunctions (creditFirst f exc calls) = openFunctions calls := by
  induction calls with
  | nil => rfl
  | cons x calls ih =>
    cases x with
    | none => simpa [creditFirst] using ih
    | some c =>
      rw [creditFirst]
      split <;> simp [ih]

/-! ## The machine -/

/-- The state.  `hidden` counts the open calls beyond the depth limit. -/
structure Live where
  capacity : ℕ
  maxDepth : ℕ
  enabledMetrics : Metric → Bool
  finalized : Bool
  frames : OpenCalls
  hidden : ℕ
  functions : List PhpFunction
  stats : PhpFunction → FuncStats
  called : ℕ
  first : MetricValues
  cum : MetricValues
  max : MetricValues
  notified : List Event

namespace Live

/-- The initial state. -/
def init (capacity maxDepth : ℕ) (enabledMetrics : Metric → Bool) (junk : MetricValues) :
    Live where
  capacity := capacity
  maxDepth := maxDepth
  enabledMetrics := enabledMetrics
  finalized := false
  frames := []
  hidden := 0
  functions := []
  stats := fun _ => FuncStats.zero
  called := 0
  first := junk
  cum := junk
  max := junk
  notified := []

/-- The number of open calls. -/
def depth (L : Live) : ℕ := L.frames.length + L.hidden

/-- The index of a function in the table. -/
def idx (L : Live) (f : PhpFunction) : ℕ := L.functions.idxOf f

/-- The index of the innermost open call, when that call is followed. -/
def caller (L : Live) : Option ℕ := L.frames.head?.join.map fun c => L.idx c.function

/-- The entries of the function table. -/
def entries (L : Live) : List FuncTableEntry :=
  L.functions.mapIdx fun i f => ⟨i, f, L.stats f⟩

/-- An event, as the state shows it. -/
def event (L : Live) (type : EventType) (caller callee : Option ℕ)
    (inc exc : Option MetricValues) : Event where
  type := type
  enabledMetrics := L.enabledMetrics
  called := L.called
  max := L.max
  cum := L.cum
  funcTable :=
    { size := L.functions.length
      capacity := L.capacity
      entries := L.entries }
  depth := L.depth
  caller := caller
  callee := callee
  inc := inc
  exc := exc

/-- Take the readings of a call start. -/
def sample (L : Live) (reading : MetricValues) : Live :=
  let first := if L.called = 0 then reading else L.first
  { L with
    first := first
    cum := reading - first
    max := (if L.called = 0 then reading else L.max) ⊔ reading }

/-- Count a new call and look its function up. -/
def lookup (L : Live) (f : PhpFunction) : Live :=
  { L with
    functions := recordFunction L.capacity L.functions f
    called := L.called + 1 }

/-- Open a call whose function was found. -/
def follow (L : Live) (f : PhpFunction) (reading : MetricValues) : Live :=
  { L with
    frames := some ⟨f, reading, 0⟩ :: L.frames
    notified := L.notified ++ [L.event .callStart L.caller (some (L.idx f)) none none] }

/-- Open a call whose function found no room. -/
def skip (L : Live) : Live := { L with frames := none :: L.frames }

/-- A call starts. -/
def callStart (L : Live) (f : PhpFunction) (reading : MetricValues) : Live :=
  if L.finalized then L
  else if L.maxDepth ≤ L.depth then { L with hidden := L.hidden + 1 }
  else
    let L := (L.sample reading).lookup f
    if f ∈ L.functions then L.follow f reading else L.skip

/-- Close the innermost followed call: `L` is the state without its frame. -/
def settle (L : Live) (c : OpenCall) (reading : MetricValues) : Live :=
  let inc := reading - c.start
  let exc := inc - c.children
  let L :=
    { L with
      frames := creditFirst c.function exc (chargeHead inc L.frames)
      stats :=
        Function.update L.stats c.function
          ((L.stats c.function).recordCall (openCount c.function L.frames) inc exc) }
  { L with
    notified :=
      L.notified ++ [L.event .callEnd L.caller (some (L.idx c.function)) (some inc) (some exc)] }

/-- Take the readings of a call end, with the frames that remain. -/
def collect (L : Live) (frames : OpenCalls) (reading : MetricValues) : Live :=
  { L with
    frames := frames
    cum := reading - L.first
    max := L.max ⊔ reading }

/-- A call ends. -/
def callEnd (L : Live) (reading : MetricValues) : Except Die Live :=
  if L.finalized then .ok L
  else
    match L.hidden, L.frames with
    | h + 1, _ => .ok { L with hidden := h }
    | 0, [] => .error .rewindBelowZeroDepth
    | 0, none :: frames => .ok (L.collect frames reading)
    | 0, some c :: frames => .ok ((L.collect frames reading).settle c reading)

/-- One operation. -/
def step (L : Live) : TracerOp → Except Die Live
  | .opening call => .ok (L.callStart call.function call.input.reading)
  | .closing input => L.callEnd input.reading

/-- The ends of `n` calls. -/
def closings : ℕ → (ℕ → HookInput) → List TracerOp
  | 0, _ => []
  | n + 1, inputs => .closing (inputs 0) :: closings n fun i => inputs (i + 1)

/-- A sequence of operations. -/
def run : List TracerOp → Live → Except Die Live
  | [], L => .ok L
  | op :: ops, L => (L.step op).bind (run ops)

@[simp] theorem run_nil (L : Live) : run [] L = .ok L := rfl

theorem run_cons (op : TracerOp) (ops : List TracerOp) (L : Live) :
    run (op :: ops) L = (L.step op).bind (run ops) := rfl

theorem run_cons_ok {op : TracerOp} {ops : List TracerOp} {L L' : Live}
    (h : run (op :: ops) L = .ok L') : ∃ M, L.step op = .ok M ∧ run ops M = .ok L' := by
  rw [run_cons] at h
  cases hs : L.step op with
  | error e =>
    rw [hs] at h
    cases h
  | ok M =>
    rw [hs] at h
    exact ⟨M, rfl, h⟩

/-- The end of the profile, when no call is open any more. -/
def conclude (L : Live) : Live :=
  let L := { L with finalized := true }
  { L with notified := L.notified ++ [L.event .finalize none none none none] }

/-! ## The operations by cases -/

/-- What a call start can do. -/
theorem callStart_cases (L : Live) (f : PhpFunction) (r : MetricValues) :
    (L.finalized = true ∧ L.callStart f r = L)
    ∨ (L.finalized = false ∧ L.maxDepth ≤ L.depth
        ∧ L.callStart f r = { L with hidden := L.hidden + 1 })
    ∨ (L.finalized = false ∧ L.depth < L.maxDepth
        ∧ f ∈ recordFunction L.capacity L.functions f
        ∧ L.callStart f r = ((L.sample r).lookup f).follow f r)
    ∨ (L.finalized = false ∧ L.depth < L.maxDepth
        ∧ f ∉ recordFunction L.capacity L.functions f
        ∧ L.callStart f r = ((L.sample r).lookup f).skip) := by
  unfold callStart
  cases hfin : L.finalized with
  | true => simp
  | false =>
    by_cases hd : L.maxDepth ≤ L.depth
    · simp [hd]
    · by_cases hf : f ∈ recordFunction L.capacity L.functions f
      · have hf' : f ∈ ((L.sample r).lookup f).functions := hf
        simp [hd, hf, hf', not_le.1 hd]
      · have hf' : f ∉ ((L.sample r).lookup f).functions := hf
        simp [hd, hf, hf', not_le.1 hd]

/-- What a call end that does not fail can do. -/
theorem callEnd_cases {L L' : Live} {r : MetricValues} (h : L.callEnd r = .ok L') :
    (L.finalized = true ∧ L' = L)
    ∨ (L.finalized = false ∧ ∃ n, L.hidden = n + 1 ∧ L' = { L with hidden := n })
    ∨ (L.finalized = false ∧ L.hidden = 0 ∧ ∃ frames, L.frames = none :: frames
        ∧ L' = L.collect frames r)
    ∨ (L.finalized = false ∧ L.hidden = 0 ∧ ∃ c frames, L.frames = some c :: frames
        ∧ L' = (L.collect frames r).settle c r) := by
  unfold callEnd at h
  cases hfin : L.finalized with
  | true => simp_all
  | false =>
    simp only [hfin, Bool.false_eq_true, if_false] at h
    split at h
    · rename_i n hn
      exact .inr (.inl ⟨rfl, n, hn, (Except.ok.inj h).symm⟩)
    · cases h
    · rename_i frames hn hfr
      exact .inr (.inr (.inl ⟨rfl, hn, frames, hfr, (Except.ok.inj h).symm⟩))
    · rename_i c frames hn hfr
      exact .inr (.inr (.inr ⟨rfl, hn, c, frames, hfr, (Except.ok.inj h).symm⟩))

/-- A call end fails only when no call is open. -/
theorem exists_callEnd {L : Live} (h : L.finalized = false → 0 < L.depth) (r : MetricValues) :
    ∃ L', L.callEnd r = .ok L' := by
  unfold callEnd
  cases hfin : L.finalized with
  | true => exact ⟨L, by simp⟩
  | false =>
    simp only [Bool.false_eq_true, if_false]
    split
    · exact ⟨_, rfl⟩
    · rename_i hn hfr
      have hd := h hfin
      rw [depth, hn, hfr] at hd
      exact absurd hd (lt_irrefl _)
    · exact ⟨_, rfl⟩
    · exact ⟨_, rfl⟩

/-! ## The invariant -/

/-- The open calls fill the depth limit before any of them is hidden, and only
recorded functions are followed or have statistics. -/
structure Ok (L : Live) : Prop where
  maxDepth_pos : 0 < L.maxDepth
  visible : L.frames.length ≤ L.maxDepth
  hidden_eq : L.hidden ≠ 0 → L.frames.length = L.maxDepth
  nodup : L.functions.Nodup
  length_le : L.functions.length ≤ L.capacity
  open_mem : ∀ f ∈ openFunctions L.frames, f ∈ L.functions
  unrecorded : ∀ f, f ∉ L.functions → L.stats f = FuncStats.zero
  fresh : L.called = 0 → L.frames = [] ∧ L.hidden = 0 ∧ L.functions = []

theorem ok_init (capacity : ℕ) {maxDepth : ℕ} (h : 0 < maxDepth)
    (enabledMetrics : Metric → Bool) (junk : MetricValues) :
    (init capacity maxDepth enabledMetrics junk).Ok where
  maxDepth_pos := h
  visible := Nat.zero_le _
  hidden_eq := fun h => absurd rfl h
  nodup := List.nodup_nil
  length_le := Nat.zero_le _
  open_mem := fun _ h => absurd h List.not_mem_nil
  unrecorded := fun _ _ => rfl
  fresh := fun _ => ⟨rfl, rfl, rfl⟩

/-- Below the depth limit no call is hidden. -/
theorem Ok.hidden_eq_zero {L : Live} (ok : L.Ok) (h : L.depth < L.maxDepth) : L.hidden = 0 := by
  by_contra hne
  have := ok.hidden_eq hne
  simp only [depth] at h
  omega

/-- A lookup keeps what the invariant says about the recorded functions. -/
theorem Ok.nodup_record {L : Live} (ok : L.Ok) (f : PhpFunction) :
    (recordFunction L.capacity L.functions f).Nodup
    ∧ (recordFunction L.capacity L.functions f).length ≤ L.capacity := by
  unfold recordFunction
  split
  · exact ⟨ok.nodup, ok.length_le⟩
  · rename_i h
    obtain ⟨hmem, hlen⟩ := not_or.1 h
    have hle := ok.length_le
    refine ⟨ok.nodup.append (List.nodup_singleton f) (by simpa using hmem), ?_⟩
    rw [List.length_append, List.length_singleton]
    omega

theorem Ok.callStart {L : Live} (ok : L.Ok) (f : PhpFunction) (r : MetricValues) :
    (L.callStart f r).Ok := by
  obtain ⟨hnodup, hlen⟩ := ok.nodup_record f
  have hmono : ∀ g ∈ L.functions, g ∈ recordFunction L.capacity L.functions f :=
    fun g hg => mem_recordFunction_of_mem hg
  have hzero : ∀ g, g ∉ recordFunction L.capacity L.functions f → L.stats g = FuncStats.zero :=
    fun g hg => ok.unrecorded g fun h => hg (hmono g h)
  rcases callStart_cases L f r with ⟨-, h⟩ | ⟨-, hd, h⟩ | ⟨-, hd, hf, h⟩ | ⟨-, hd, hf, h⟩
  · rwa [h]
  · rw [h]
    have hfull : L.frames.length = L.maxDepth := by
      by_cases hz : L.hidden = 0
      · have := ok.visible
        simp only [depth] at hd
        omega
      · exact ok.hidden_eq hz
    refine ⟨ok.maxDepth_pos, ok.visible, fun _ => hfull, ok.nodup, ok.length_le, ok.open_mem,
      ok.unrecorded, fun hc => ?_⟩
    have hpos := ok.maxDepth_pos
    rw [← hfull, (ok.fresh hc).1] at hpos
    exact absurd hpos (lt_irrefl _)
  · rw [h]
    have hz := ok.hidden_eq_zero hd
    refine ⟨ok.maxDepth_pos, ?_, fun hne => absurd hz hne, hnodup, hlen, ?_, hzero,
      fun hc => absurd hc (Nat.succ_ne_zero _)⟩
    · simp only [depth, hz] at hd
      exact hd
    · intro g hg
      rcases List.mem_cons.1 hg with rfl | hg
      · exact hf
      · exact hmono g (ok.open_mem g hg)
  · rw [h]
    have hz := ok.hidden_eq_zero hd
    refine ⟨ok.maxDepth_pos, ?_, fun hne => absurd hz hne, hnodup, hlen,
      fun g hg => hmono g (ok.open_mem g hg), hzero, fun hc => absurd hc (Nat.succ_ne_zero _)⟩
    simp only [depth, hz] at hd
    exact hd

theorem Ok.collect {L : Live} (ok : L.Ok) (hz : L.hidden = 0) {x : Option OpenCall}
    {frames : OpenCalls} (hfr : L.frames = x :: frames) (r : MetricValues) :
    (L.collect frames r).Ok := by
  have hvis := ok.visible
  rw [hfr] at hvis
  refine ⟨ok.maxDepth_pos, Nat.le_of_succ_le hvis, fun hne => absurd hz hne, ok.nodup,
    ok.length_le, fun f hf => ok.open_mem f ?_, ok.unrecorded, fun hc => ?_⟩
  · rw [hfr]
    cases x with
    | none => exact hf
    | some c => exact List.mem_cons_of_mem _ hf
  · have hnil := (ok.fresh hc).1
    rw [hfr] at hnil
    cases hnil

theorem Ok.settle {L : Live} (ok : L.Ok) {c : OpenCall} (hc : c.function ∈ L.functions)
    (hcalled : L.called ≠ 0) (r : MetricValues) : (L.settle c r).Ok := by
  refine ⟨ok.maxDepth_pos, ?_, fun hne => ?_, ok.nodup, ok.length_le, ?_, ?_,
    fun h0 => absurd h0 hcalled⟩
  · simpa [Live.settle] using ok.visible
  · simpa [Live.settle] using ok.hidden_eq hne
  · intro g hg
    simp only [Live.settle, openFunctions_creditFirst, openFunctions_chargeHead] at hg
    exact ok.open_mem g hg
  · intro g hg
    have hne : g ≠ c.function := fun he => hg (he ▸ hc)
    simp only [Live.settle, Function.update_of_ne hne]
    exact ok.unrecorded g hg

/-- A followed call was recorded. -/
theorem Ok.head_mem {L : Live} (ok : L.Ok) {c : OpenCall} {frames : OpenCalls}
    (hfr : L.frames = some c :: frames) : c.function ∈ L.functions :=
  ok.open_mem _ (by rw [hfr]; exact List.mem_cons_self ..)

/-- Where a call is open, calls were counted. -/
theorem Ok.called_ne_zero {L : Live} (ok : L.Ok) {x : Option OpenCall} {frames : OpenCalls}
    (hfr : L.frames = x :: frames) : L.called ≠ 0 := by
  intro hc
  have hnil := (ok.fresh hc).1
  rw [hfr] at hnil
  cases hnil

theorem Ok.callEnd {L L' : Live} (ok : L.Ok) {r : MetricValues} (h : L.callEnd r = .ok L') :
    L'.Ok := by
  rcases callEnd_cases h with ⟨-, rfl⟩ | ⟨-, n, hn, rfl⟩ | ⟨-, hz, frames, hfr, rfl⟩
    | ⟨-, hz, c, frames, hfr, rfl⟩
  · exact ok
  · have hne : L.hidden ≠ 0 := by omega
    exact ⟨ok.maxDepth_pos, ok.visible, fun _ => ok.hidden_eq hne, ok.nodup, ok.length_le,
      ok.open_mem, ok.unrecorded, fun hc => absurd (ok.fresh hc).2.1 hne⟩
  · exact ok.collect hz hfr r
  · exact (ok.collect hz hfr r).settle (ok.head_mem hfr) (ok.called_ne_zero hfr) r

theorem Ok.step {L L' : Live} (ok : L.Ok) {op : TracerOp} (h : L.step op = .ok L') : L'.Ok := by
  cases op with
  | opening call =>
    cases h
    exact ok.callStart _ _
  | closing input => exact ok.callEnd h

theorem Ok.run {L L' : Live} (ok : L.Ok) {ops : List TracerOp} (h : Live.run ops L = .ok L') :
    L'.Ok := by
  induction ops generalizing L with
  | nil =>
    cases h
    exact ok
  | cons op ops ih =>
    obtain ⟨M, hs, hrest⟩ := run_cons_ok h
    exact ih (ok.step hs) hrest

/-! ## Runs -/

theorem run_append (ops ops' : List TracerOp) (L : Live) :
    run (ops ++ ops') L = (run ops L).bind (run ops') := by
  induction ops generalizing L with
  | nil => rfl
  | cons op ops ih =>
    rw [List.cons_append, run_cons, run_cons]
    cases L.step op with
    | error e => rfl
    | ok L' => exact ih L'

@[simp] theorem depth_settle (L : Live) (c : OpenCall) (r : MetricValues) :
    (L.settle c r).depth = L.depth := by
  simp [settle, depth]

theorem depth_callStart {L : Live} (hfin : L.finalized = false) (f : PhpFunction)
    (r : MetricValues) :
    (L.callStart f r).depth = L.depth + 1 ∧ (L.callStart f r).finalized = false := by
  rcases callStart_cases L f r with ⟨h, -⟩ | ⟨-, -, h⟩ | ⟨-, -, -, h⟩ | ⟨-, -, -, h⟩
  · rw [hfin] at h
    cases h
  · rw [h]
    exact ⟨rfl, hfin⟩
  · rw [h]
    exact ⟨Nat.succ_add ..|>.trans rfl, hfin⟩
  · rw [h]
    exact ⟨Nat.succ_add ..|>.trans rfl, hfin⟩

theorem depth_callEnd {L L' : Live} (hfin : L.finalized = false) {r : MetricValues}
    (h : L.callEnd r = .ok L') : L'.depth + 1 = L.depth ∧ L'.finalized = false := by
  rcases callEnd_cases h with ⟨h, -⟩ | ⟨-, n, hn, rfl⟩ | ⟨-, hz, frames, hfr, rfl⟩
    | ⟨-, hz, c, frames, hfr, rfl⟩
  · rw [hfin] at h
    cases h
  · refine ⟨?_, hfin⟩
    simp only [depth, hn]
    omega
  · refine ⟨?_, hfin⟩
    simp only [depth, collect, hfr, List.length_cons]
    omega
  · refine ⟨?_, hfin⟩
    rw [depth_settle]
    simp only [depth, collect, hfr, List.length_cons]
    omega

theorem maxDepth_step {L L' : Live} {op : TracerOp} (h : L.step op = .ok L') :
    L'.maxDepth = L.maxDepth := by
  cases op with
  | opening call =>
    cases h
    rcases callStart_cases L call.function call.input.reading with ⟨-, h⟩ | ⟨-, -, h⟩
      | ⟨-, -, -, h⟩ | ⟨-, -, -, h⟩ <;> rw [h] <;> rfl
  | closing input =>
    rcases callEnd_cases h with ⟨-, rfl⟩ | ⟨-, n, -, rfl⟩ | ⟨-, -, frames, -, rfl⟩
      | ⟨-, -, c, frames, -, rfl⟩ <;> rfl

theorem maxDepth_run {L L' : Live} {ops : List TracerOp} (h : run ops L = .ok L') :
    L'.maxDepth = L.maxDepth := by
  induction ops generalizing L with
  | nil =>
    cases h
    rfl
  | cons op ops ih =>
    obtain ⟨M, hs, hrest⟩ := run_cons_ok h
    exact (ih hrest).trans (maxDepth_step hs)

/-- **A run in which no call ends at depth `0` does not fail**, and its depth is
the number of brackets it leaves open. -/
theorem exists_run {L : Live} (hfin : L.finalized = false) {ops : List TracerOp} {n : ℕ}
    (h : height L.depth ops = some n) :
    ∃ L', run ops L = .ok L' ∧ L'.depth = n ∧ L'.finalized = false := by
  induction ops generalizing L with
  | nil => exact ⟨L, rfl, by simpa using h, hfin⟩
  | cons op ops ih =>
    cases op with
    | opening call =>
      obtain ⟨hdepth, hfin'⟩ := depth_callStart hfin call.function call.input.reading
      rw [height_opening, ← hdepth] at h
      exact ih hfin' h
    | closing input =>
      cases hd : L.depth with
      | zero =>
        rw [hd, height_closing_zero] at h
        cases h
      | succ d =>
        obtain ⟨M, hM⟩ := exists_callEnd (L := L) (fun _ => by omega) input.reading
        obtain ⟨hdepth, hfin'⟩ := depth_callEnd hfin hM
        have hMd : M.depth = d := by omega
        rw [hd, height_closing_succ, ← hMd] at h
        obtain ⟨L', hL', hrest⟩ := ih hfin' h
        exact ⟨L', by rw [run_cons]; exact (congrArg (Except.bind · (run ops)) hM).trans hL', hrest⟩

theorem height_closings_depth (n : ℕ) (inputs : ℕ → HookInput) :
    height n (closings n inputs) = some 0 := by
  induction n generalizing inputs with
  | zero => simp [closings]
  | succ n ih => exact ih _

end Live

end PhpSpx
