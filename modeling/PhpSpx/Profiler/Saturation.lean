import PhpSpx.Profiler.Profile

/-!
# A full function table

Once the function table is full, a call of a function it does not know is
looked up in vain and not followed.  This file compares a run with the run from
which the start and the end of every such call are erased.  Costs are added
without rounding, as doubles are in the range of `binary64Add_eq_metricValuesAdd`.

* `eraseUntracked` — the erased run, and which open calls were erased.
* `Erasable` — the condition under which the two runs end with the same table:
  no call of a known function is made directly by an unfollowed call inside a
  followed one, and the depth limit drops no call of a known function that it
  would not drop in the erased run.
* `saturated_profile_eq_erased` — then the two tables have the same statistics.
* `saturated_profile_counted_twice` — without it they can differ: the loop over
  the parent frames charges a call only to the frame directly below it.
-/

namespace PhpSpx

open Lib

/-! ## The erased run -/

section Erase

variable {σ : Type} (step : σ → TracerOp → Except Die σ) (lost : σ → PhpFunction → Bool)

/-- A run without the calls that are lost, and for each call left open,
innermost first, whether it is one of them.  `marks` are those of the calls open
at the start. -/
def eraseBy : σ → List Bool → List TracerOp → List TracerOp × List Bool
  | _, marks, [] => ([], marks)
  | s, marks, op :: ops =>
      match step s op with
      | .error _ => (op :: ops, marks)  -- the process died
      | .ok s' =>
          match op with
          | .opening call =>
              let rest := eraseBy s' (lost s call.function :: marks) ops
              if lost s call.function then rest else (op :: rest.1, rest.2)
          | .closing _ =>
              let rest := eraseBy s' marks.tail ops
              if marks.head? = some true then rest else (op :: rest.1, rest.2)

/-- Every call start of a run meets a condition on the state before it. -/
def startsMeet (condition : σ → List Bool → PhpFunction → Bool) :
    σ → List Bool → List TracerOp → Bool
  | _, _, [] => true
  | s, marks, op :: ops =>
      match step s op with
      | .error _ => true
      | .ok s' =>
          match op with
          | .opening call =>
              condition s marks call.function
              && startsMeet condition s' (lost s call.function :: marks) ops
          | .closing _ => startsMeet condition s' marks.tail ops

end Erase

/-- A call whose lookup answers `NULL`. -/
def untracked (p : Tracer) (f : PhpFunction) : Bool :=
  !p.finalized && p.active && (p.funcTable.getEntry f).1.isNone

/-- The run without its untracked calls. -/
def eraseUntracked (p : Tracer) (ops : List TracerOp) : List TracerOp × List Bool :=
  eraseBy tracerStep untracked p [] ops

/-- The inputs of the finalization, without those of the erased calls. -/
def keptInputs : List Bool → (ℕ → HookInput) → ℕ → HookInput
  | [], inputs => inputs
  | true :: marks, inputs => keptInputs marks fun i => inputs (i + 1)
  | false :: marks, inputs => fun i =>
      match i with
      | 0 => inputs 0
      | i + 1 => keptInputs marks (fun i => inputs (i + 1)) i

/-- The condition on a call start: if the table knows the function or has room
for it, then a call followed directly inside an untracked one has no followed
call around it, and a call beyond the depth limit is beyond it without the
untracked calls. -/
def erasableStart (p : Tracer) (marks : List Bool) (f : PhpFunction) : Bool :=
  (p.funcTable.getEntry f).1 ≠ none →
    (p.stack.depth < p.maxDepth → marks.head? = some true → false ∉ marks)
    ∧ (p.maxDepth ≤ p.stack.depth → p.maxDepth ≤ marks.count false)

/-- Every call start of a run meets the condition. -/
def Erasable (p : Tracer) (ops : List TracerOp) : Prop :=
  startsMeet tracerStep untracked erasableStart p [] ops

/-! ## The same of the abstract machine -/

/-- A call whose lookup fails. -/
def Live.untracked (L : Live) (f : PhpFunction) : Bool :=
  !L.finalized && decide (L.depth < L.maxDepth)
    && decide (f ∉ recordFunction L.capacity L.functions f)

/-- The condition on a call start. -/
def Live.erasableStart (L : Live) (marks : List Bool) (f : PhpFunction) : Bool :=
  f ∈ recordFunction L.capacity L.functions f →
    (L.depth < L.maxDepth → marks.head? = some true → false ∉ marks)
    ∧ (L.maxDepth ≤ L.depth → L.maxDepth ≤ marks.count false)

theorem Refines.lookup_eq {p : Tracer} {L : Live} (h : Refines p L) (f : PhpFunction) :
    (p.funcTable.getEntry f).1
      = if f ∈ recordFunction L.capacity L.functions f then
          some ((recordFunction L.capacity L.functions f).idxOf f) else none := by
  obtain ⟨-, -, -, hfound, -⟩ := FuncTable.getEntry_spec h.table f
  rwa [h.functions, h.tableCapacity, findIdx?_recordFunction] at hfound

theorem Refines.untracked_eq {p : Tracer} {L : Live} (h : Refines p L) (idle : Idle p)
    (f : PhpFunction) : untracked p f = L.untracked f := by
  unfold untracked Live.untracked
  rw [h.lookup_eq f]
  cases hfin : L.finalized with
  | true => simp [h.finalized.trans hfin]
  | false =>
    have hfin' := h.finalized.trans hfin
    rw [hfin', idle.active hfin', h.depth, h.maxDepth]
    by_cases hf : f ∈ recordFunction L.capacity L.functions f <;> simp [hf]

theorem Refines.erasableStart_eq {p : Tracer} {L : Live} (h : Refines p L) (marks : List Bool)
    (f : PhpFunction) : erasableStart p marks f = L.erasableStart marks f := by
  unfold erasableStart Live.erasableStart
  rw [h.lookup_eq f, h.depth, h.maxDepth]
  by_cases hf : f ∈ recordFunction L.capacity L.functions f <;> simp [hf]

/-- The profiler and its abstract machine erase the same calls. -/
theorem Refines.eraseBy_eq {p : Tracer} {L L' : Live} (h : Refines p L) (idle : Idle p)
    (marks : List Bool) {ops : List TracerOp} (hrun : Live.run ops L = .ok L') :
    eraseBy tracerStep untracked p marks ops = eraseBy Live.step Live.untracked L marks ops := by
  induction ops generalizing p L marks with
  | nil => rfl
  | cons op ops ih =>
    obtain ⟨M, hs, hrest⟩ := Live.run_cons_ok hrun
    obtain ⟨q, hq, hM, hidle⟩ := h.step idle hs
    simp only [eraseBy, hs, hq, h.untracked_eq idle, ih hM hidle _ hrest]

/-- The condition is the same for both. -/
theorem Refines.startsMeet_eq {p : Tracer} {L L' : Live} (h : Refines p L) (idle : Idle p)
    (marks : List Bool) {ops : List TracerOp} (hrun : Live.run ops L = .ok L') :
    startsMeet tracerStep untracked erasableStart p marks ops
      = startsMeet Live.step Live.untracked Live.erasableStart L marks ops := by
  induction ops generalizing p L marks with
  | nil => rfl
  | cons op ops ih =>
    obtain ⟨M, hs, hrest⟩ := Live.run_cons_ok hrun
    obtain ⟨q, hq, hM, hidle⟩ := h.step idle hs
    simp only [startsMeet, hs, hq, h.untracked_eq idle, h.erasableStart_eq, ih hM hidle _ hrest]

/-! ## The simulation -/

/-- A followed call directly inside an unfollowed one has no followed call
around it.  The marks of the unfollowed calls are set. -/
def Isolated : List Bool → Prop
  | [] => True
  | true :: marks => Isolated marks
  | false :: marks => (marks.head? = some true → false ∉ marks) ∧ Isolated marks

/-- The state `E` of the erased run beside the state `L` of the run.  The `k`
innermost open calls of `E` are calls the depth limit drops from `L`. -/
structure Erased (L : Live) (marks : List Bool) (E : Live) : Prop where
  ok : L.Ok
  ok' : E.Ok
  finalized : L.finalized = false
  finalized' : E.finalized = false
  capacity : E.capacity = L.capacity
  maxDepth : E.maxDepth = L.maxDepth
  functions : E.functions = L.functions
  stats : E.stats = L.stats
  marks_eq : marks = List.replicate L.hidden false ++ L.frames.map Option.isNone
  isolated : Isolated (L.frames.map Option.isNone)
  full : none ∈ L.frames → L.functions.length = L.capacity
  frames : ∃ k, E.frames = List.replicate k none ++ L.frames.filter Option.isSome
    ∧ E.hidden + k = L.hidden

theorem count_false_isNone (calls : OpenCalls) :
    (calls.map Option.isNone).count false = (calls.filter Option.isSome).length := by
  induction calls with
  | nil => rfl
  | cons x calls ih => cases x <;> simp [ih]

/-- The depth of the erased run is the number of marks that are not set. -/
theorem Erased.depth {L E : Live} {marks : List Bool} (h : Erased L marks E) :
    marks.count false = E.depth := by
  obtain ⟨k, hframes, hk⟩ := h.frames
  rw [h.marks_eq, List.count_append, List.count_replicate_self, count_false_isNone, Live.depth,
    hframes, List.length_append, List.length_replicate]
  omega

theorem Erased.length {L E : Live} {marks : List Bool} (h : Erased L marks E) :
    marks.length = L.depth := by
  rw [h.marks_eq, List.length_append, List.length_replicate, List.length_map, Live.depth,
    Nat.add_comm]

theorem Erased.depth_le {L E : Live} {marks : List Bool} (h : Erased L marks E) :
    E.depth ≤ L.depth := by
  rw [← h.depth, ← h.length]
  exact List.count_le_length

theorem Erased.marks_of_hidden {L E : Live} {marks : List Bool} (h : Erased L marks E)
    (hz : L.hidden = 0) : marks = L.frames.map Option.isNone := by
  have hmarks := h.marks_eq
  rwa [hz, List.replicate_zero, List.nil_append] at hmarks

theorem Erased.recordFunction_eq {L E : Live} {marks : List Bool} (h : Erased L marks E)
    (f : PhpFunction) :
    recordFunction E.capacity E.functions f = recordFunction L.capacity L.functions f := by
  rw [h.capacity, h.functions]

/-- A call starts that the depth limit drops. -/
theorem Erased.dropped {L E : Live} {marks : List Bool} (h : Erased L marks E) {f : PhpFunction}
    {r : MetricValues} (he : L.callStart f r = { L with hidden := L.hidden + 1 })
    (hcond : f ∈ recordFunction L.capacity L.functions f → L.maxDepth ≤ marks.count false) :
    Erased (L.callStart f r) (false :: marks) (E.callStart f r) := by
  obtain ⟨k, hframes, hk⟩ := h.frames
  have hdepth := h.depth
  have hmax := h.maxDepth
  have hokL := h.ok.callStart f r
  have hokE := h.ok'.callStart f r
  rw [he] at hokL ⊢
  have hmarks : false :: marks
      = List.replicate (L.hidden + 1) false ++ L.frames.map Option.isNone := by
    rw [h.marks_eq]
    rfl
  rcases E.callStart_cases f r with ⟨hfin, -⟩ | ⟨-, -, he'⟩ | ⟨-, hd', hf', -⟩ | ⟨-, hd', hf', he'⟩
  · rw [h.finalized'] at hfin
    cases hfin
  · rw [he'] at hokE ⊢
    exact ⟨hokL, hokE, h.finalized, h.finalized', h.capacity, h.maxDepth, h.functions, h.stats,
      hmarks, h.isolated, h.full, k, hframes, by simp only; omega⟩
  · -- the erased run cannot follow a call that the run drops
    rw [h.recordFunction_eq f] at hf'
    have hfull := hcond hf'
    omega
  · rw [he'] at hokE ⊢
    obtain ⟨hsame, -⟩ := recordFunction_of_notMem hf'
    exact ⟨hokL, hokE, h.finalized, h.finalized', h.capacity, h.maxDepth,
      hsame.trans h.functions, h.stats, hmarks, h.isolated, h.full, k + 1,
      congrArg (none :: ·) hframes, by
        show E.hidden + (k + 1) = L.hidden + 1
        omega⟩

/-- A call starts that both runs follow. -/
theorem Erased.followed {L E : Live} {marks : List Bool} (h : Erased L marks E) {f : PhpFunction}
    {r : MetricValues} (hd : L.depth < L.maxDepth) (hf : f ∈ recordFunction L.capacity L.functions f)
    (he : L.callStart f r = ((L.sample r).lookup f).follow f r)
    (hcond : marks.head? = some true → false ∉ marks) :
    Erased (L.callStart f r) (false :: marks) (E.callStart f r) := by
  obtain ⟨k, hframes, hk⟩ := h.frames
  have hle := h.depth_le
  have hmax := h.maxDepth
  have hz := h.ok.hidden_eq_zero hd
  have hk0 : k = 0 := by omega
  have hmarks := h.marks_of_hidden hz
  have hokL := h.ok.callStart f r
  have hokE := h.ok'.callStart f r
  rw [he] at hokL ⊢
  rcases E.callStart_cases f r with ⟨hfin, -⟩ | ⟨-, hd', -⟩ | ⟨-, -, -, he'⟩ | ⟨-, -, hf', -⟩
  · rw [h.finalized'] at hfin
    cases hfin
  · omega
  · rw [he'] at hokE ⊢
    refine ⟨hokL, hokE, h.finalized, h.finalized', h.capacity, h.maxDepth, h.recordFunction_eq f,
      h.stats, ?_, ⟨?_, h.isolated⟩, fun hmem => ?_, 0, ?_, ?_⟩
    · rw [hmarks]
      show _ = List.replicate L.hidden false ++ _
      rw [hz]
      rfl
    · rw [hmarks] at hcond
      exact hcond
    · have hfull := h.full ((List.mem_cons.1 hmem).resolve_left (by simp))
      show (recordFunction L.capacity L.functions f).length = L.capacity
      rw [recordFunction_of_full hfull, hfull]
    · show some _ :: E.frames = [] ++ List.filter Option.isSome (some _ :: L.frames)
      rw [hframes, hk0]
      rfl
    · show E.hidden + 0 = L.hidden
      omega
  · rw [h.recordFunction_eq f] at hf'
    exact absurd hf hf'

/-- A call starts that is erased. -/
theorem Erased.lost {L E : Live} {marks : List Bool} (h : Erased L marks E) {f : PhpFunction}
    {r : MetricValues} (hd : L.depth < L.maxDepth) (hf : f ∉ recordFunction L.capacity L.functions f)
    (he : L.callStart f r = ((L.sample r).lookup f).skip) :
    Erased (L.callStart f r) (true :: marks) E := by
  obtain ⟨k, hframes, hk⟩ := h.frames
  obtain ⟨hsame, hfull⟩ := recordFunction_of_notMem hf
  have hz := h.ok.hidden_eq_zero hd
  have hokL := h.ok.callStart f r
  rw [he] at hokL ⊢
  refine ⟨hokL, h.ok', h.finalized, h.finalized', h.capacity, h.maxDepth,
    h.functions.trans hsame.symm, h.stats, ?_, h.isolated, fun _ => ?_, k, hframes, hk⟩
  · rw [h.marks_of_hidden hz]
    show _ = List.replicate L.hidden false ++ _
    rw [hz]
    rfl
  · show (recordFunction L.capacity L.functions f).length = L.capacity
    rw [hsame, hfull]

theorem Erased.callStart {L E : Live} {marks : List Bool} (h : Erased L marks E) (f : PhpFunction)
    (r : MetricValues) (hcond : L.erasableStart marks f = true) :
    if L.untracked f = true then Erased (L.callStart f r) (true :: marks) E
    else Erased (L.callStart f r) (false :: marks) (E.callStart f r) := by
  have hcond := of_decide_eq_true hcond
  rcases L.callStart_cases f r with ⟨hfin, -⟩ | ⟨-, hd, he⟩ | ⟨-, hd, hf, he⟩ | ⟨-, hd, hf, he⟩
  · rw [h.finalized] at hfin
    cases hfin
  · have hun : L.untracked f = false := by simp [Live.untracked, hd]
    rw [if_neg (by simp [hun])]
    exact h.dropped he fun hf => (hcond hf).2 hd
  · have hun : L.untracked f = false := by simp [Live.untracked, hf]
    rw [if_neg (by simp [hun])]
    exact h.followed hd hf he ((hcond hf).1 hd)
  · have hun : L.untracked f = true := by simp [Live.untracked, h.finalized, hd, hf]
    rw [if_pos hun]
    exact h.lost hd hf he

theorem filter_creditFirst (f : PhpFunction) (exc : MetricValues) (calls : OpenCalls) :
    (creditFirst f exc calls).filter Option.isSome
      = creditFirst f exc (calls.filter Option.isSome) := by
  induction calls with
  | nil => rfl
  | cons x calls ih =>
    cases x with
    | none => simpa [creditFirst] using ih
    | some c =>
      by_cases hc : c.function = f
      · simp [creditFirst, hc]
      · simp [creditFirst, hc, ih]

/-- In isolated calls, charging the call directly below is charging the
innermost followed call. -/
theorem filter_chargeHead (inc : MetricValues) {calls : OpenCalls}
    (h : (calls.map Option.isNone).head? = some true → false ∉ calls.map Option.isNone) :
    (chargeHead inc calls).filter Option.isSome
      = chargeHead inc (calls.filter Option.isSome) := by
  rcases calls with _ | ⟨_ | c, calls⟩
  · rfl
  · have hnone : ((none : Option OpenCall) :: calls).filter Option.isSome = [] := by
      refine List.filter_eq_nil_iff.2 fun x hx hsome => h rfl ?_
      exact List.mem_map.2 ⟨x, hx, by cases x <;> simp_all⟩
    rw [chargeHead, hnone]
    rfl
  · rfl

theorem openFunctions_filter (calls : OpenCalls) :
    openFunctions (calls.filter Option.isSome) = openFunctions calls := by
  induction calls with
  | nil => rfl
  | cons x calls ih => cases x <;> simp [ih]

theorem map_isNone_chargeHead (inc : MetricValues) (calls : OpenCalls) :
    (chargeHead inc calls).map Option.isNone = calls.map Option.isNone := by
  rcases calls with _ | ⟨_ | c, calls⟩ <;> rfl

theorem map_isNone_creditFirst (f : PhpFunction) (exc : MetricValues) (calls : OpenCalls) :
    (creditFirst f exc calls).map Option.isNone = calls.map Option.isNone := by
  induction calls with
  | nil => rfl
  | cons x calls ih =>
    cases x with
    | none => simp [creditFirst, ih]
    | some c =>
      rw [creditFirst]
      split <;> simp [ih]

theorem map_isNone_settled (f : PhpFunction) (inc exc : MetricValues) (calls : OpenCalls) :
    (creditFirst f exc (chargeHead inc calls)).map Option.isNone = calls.map Option.isNone :=
  (map_isNone_creditFirst ..).trans (map_isNone_chargeHead ..)

theorem none_mem_iff (calls : OpenCalls) : none ∈ calls ↔ true ∈ calls.map Option.isNone := by
  simp only [List.mem_map, Option.isNone_iff_eq_none, exists_eq_right]

/-- The end of a call that the depth limit dropped. -/
theorem Erased.endDropped {L E : Live} {marks : List Bool} (h : Erased L marks E)
    {r : MetricValues} {n : ℕ} (hn : L.hidden = n + 1) (hok : Live.Ok { L with hidden := n }) :
    ∃ E', E.callEnd r = .ok E' ∧ Erased { L with hidden := n } marks.tail E' := by
  obtain ⟨k, hframes, hk⟩ := h.frames
  have htail : marks.tail = List.replicate n false ++ L.frames.map Option.isNone := by
    rw [h.marks_eq, hn]
    rfl
  cases hE : E.hidden with
  | succ m =>
    have hendE : E.callEnd r = .ok { E with hidden := m } := by
      rw [Live.callEnd, if_neg (by simp [h.finalized']), hE]
    exact ⟨_, hendE, hok, h.ok'.callEnd hendE, h.finalized, h.finalized', h.capacity, h.maxDepth,
      h.functions, h.stats, htail, h.isolated, h.full, k, hframes, by
        show m + k = n
        omega⟩
  | zero =>
    have hkn : k = n + 1 := by omega
    rw [hkn, List.replicate_succ, List.cons_append] at hframes
    have hendE : E.callEnd r
        = .ok (E.collect (List.replicate n none ++ L.frames.filter Option.isSome) r) := by
      rw [Live.callEnd, if_neg (by simp [h.finalized']), hE, hframes]
    exact ⟨_, hendE, hok, h.ok'.callEnd hendE, h.finalized, h.finalized', h.capacity, h.maxDepth,
      h.functions, h.stats, htail, h.isolated, h.full, n, rfl, by
        show E.hidden + n = n
        omega⟩

/-- Both runs around the innermost open call of the run, when the depth limit drops
none. -/
theorem Erased.around {L E : Live} {marks : List Bool} (h : Erased L marks E) (hz : L.hidden = 0)
    {x : Option OpenCall} {frames : OpenCalls} (hfr : L.frames = x :: frames) :
    marks = x.isNone :: frames.map Option.isNone ∧ Isolated (x.isNone :: frames.map Option.isNone) ∧
      (none ∈ frames → L.functions.length = L.capacity) ∧ E.hidden = 0 ∧
      E.frames = (x :: frames).filter Option.isSome := by
  obtain ⟨k, hframes, hk⟩ := h.frames
  have hk0 : k = 0 := by omega
  have hmarks := h.marks_of_hidden hz
  have hiso := h.isolated
  have hfull := h.full
  rw [hfr] at hmarks hiso hfull hframes
  rw [hk0] at hframes
  exact ⟨hmarks, hiso, fun hmem => hfull (List.mem_cons_of_mem _ hmem), by omega, hframes⟩

/-- The end of an erased call. -/
theorem Erased.endLost {L E : Live} {marks : List Bool} (h : Erased L marks E) {r : MetricValues}
    (hz : L.hidden = 0) {frames : OpenCalls} (hfr : L.frames = none :: frames)
    (hok : (L.collect frames r).Ok) : Erased (L.collect frames r) marks.tail E := by
  obtain ⟨hmarks, hiso, hfull, hhid, hframes⟩ := h.around hz hfr
  refine ⟨hok, h.ok', h.finalized, h.finalized', h.capacity, h.maxDepth, h.functions, h.stats, ?_,
    hiso, hfull, 0, hframes, ?_⟩
  · rw [hmarks]
    show _ = List.replicate L.hidden false ++ _
    rw [hz]
    rfl
  · show E.hidden + 0 = L.hidden
    omega

/-- The end of a followed call. -/
theorem Erased.endFollowed {L E : Live} {marks : List Bool} (h : Erased L marks E)
    {r : MetricValues} (hz : L.hidden = 0) {c : OpenCall} {frames : OpenCalls}
    (hfr : L.frames = some c :: frames) (hok : ((L.collect frames r).settle c r).Ok) :
    ∃ E', E.callEnd r = .ok E' ∧ Erased ((L.collect frames r).settle c r) marks.tail E' := by
  obtain ⟨hmarks, hiso, hfull, hhid, hframes⟩ := h.around hz hfr
  have hframes' : E.frames = some c :: frames.filter Option.isSome := hframes
  have hendE : E.callEnd r
      = .ok ((E.collect (frames.filter Option.isSome) r).settle c r) := by
    rw [Live.callEnd, if_neg (by simp [h.finalized']), hhid, hframes']
  refine ⟨_, hendE, hok, h.ok'.callEnd hendE, h.finalized, h.finalized', h.capacity,
    h.maxDepth, h.functions, ?_, ?_, ?_, fun hmem => hfull ?_, 0, ?_, ?_⟩
  · have hcount : openCount c.function (frames.filter Option.isSome)
        = openCount c.function frames := by rw [openCount, openFunctions_filter, openCount]
    simp only [Live.settle, Live.collect, h.stats, hcount]
  · rw [hmarks]
    show _ = List.replicate L.hidden false ++ List.map Option.isNone (creditFirst _ _ _)
    rw [hz]
    exact (map_isNone_settled _ _ _ frames).symm
  · show Isolated (List.map Option.isNone (creditFirst _ _ (chargeHead _ frames)))
    rw [map_isNone_settled]
    exact hiso.2
  · have hmem' := (none_mem_iff _).mp hmem
    rw [none_mem_iff]
    exact map_isNone_settled _ _ _ frames ▸ hmem'
  · have hcharge := filter_chargeHead (r - c.start) hiso.1
    have hcredit := filter_creditFirst c.function (r - c.start - c.children)
      (chargeHead (r - c.start) frames)
    rw [hcharge] at hcredit
    exact hcredit.symm
  · show E.hidden + 0 = L.hidden
    omega

theorem Erased.callEnd {L L' E : Live} {marks : List Bool} (h : Erased L marks E)
    {r : MetricValues} (hend : L.callEnd r = .ok L') :
    if marks.head? = some true then Erased L' marks.tail E
    else ∃ E', E.callEnd r = .ok E' ∧ Erased L' marks.tail E' := by
  have hokL := h.ok.callEnd hend
  rcases Live.callEnd_cases hend with ⟨hfin, -⟩ | ⟨-, n, hn, rfl⟩ | ⟨-, hz, frames, hfr, rfl⟩
    | ⟨-, hz, c, frames, hfr, rfl⟩
  · rw [h.finalized] at hfin
    cases hfin
  · rw [if_neg (by rw [h.marks_eq, hn]; simp [List.replicate_succ])]
    exact h.endDropped hn hokL
  · rw [if_pos (by rw [(h.around hz hfr).1]; rfl)]
    exact h.endLost hz hfr hokL
  · rw [if_neg (by rw [(h.around hz hfr).1]; simp)]
    exact h.endFollowed hz hfr hokL

/-- **The simulation along a run.** -/
theorem Erased.run {L L' E : Live} {marks : List Bool} (h : Erased L marks E)
    {ops : List TracerOp} (hrun : Live.run ops L = .ok L')
    (hcond : startsMeet Live.step Live.untracked Live.erasableStart L marks ops = true) :
    ∃ E', Live.run (eraseBy Live.step Live.untracked L marks ops).1 E = .ok E'
      ∧ Erased L' (eraseBy Live.step Live.untracked L marks ops).2 E' := by
  induction ops generalizing L E marks with
  | nil =>
    cases hrun
    exact ⟨E, rfl, h⟩
  | cons op ops ih =>
    obtain ⟨M, hs, hrest⟩ := Live.run_cons_ok hrun
    simp only [startsMeet, hs] at hcond
    cases op with
    | opening call =>
      obtain ⟨hstart, hcond⟩ := Bool.and_eq_true_iff.1 hcond
      have hstep := h.callStart call.function call.input.reading hstart
      have hM : L.callStart call.function call.input.reading = M := Except.ok.inj hs
      rw [hM] at hstep
      simp only [eraseBy, hs]
      cases hun : L.untracked call.function with
      | true =>
        rw [hun] at hcond
        rw [hun, if_pos rfl] at hstep
        exact ih hstep hrest hcond
      | false =>
        rw [hun] at hcond
        rw [hun, if_neg (by simp)] at hstep
        exact ih hstep hrest hcond
    | closing input =>
      have hstep := h.callEnd hs
      simp only [eraseBy, hs]
      by_cases hhead : marks.head? = some true
      · rw [if_pos hhead] at hstep ⊢
        exact ih hstep hrest hcond
      · rw [if_neg hhead] at hstep ⊢
        obtain ⟨E', hE', hrel⟩ := hstep
        obtain ⟨E'', hE'', hrel'⟩ := ih hrel hrest hcond
        exact ⟨E'', by rw [Live.run_cons]; exact (congrArg (Except.bind · _) hE').trans hE'', hrel'⟩

/-! ## The finalization -/

/-- Erasing from the ends of the open calls keeps the ends of those whose mark
is not set. -/
theorem eraseBy_closings {L L' : Live} (marks : List Bool) (inputs : ℕ → HookInput)
    (hrun : Live.run (Live.closings marks.length inputs) L = .ok L') :
    (eraseBy Live.step Live.untracked L marks (Live.closings marks.length inputs)).1
      = Live.closings (marks.count false) (keptInputs marks inputs) := by
  induction marks generalizing L inputs with
  | nil => rfl
  | cons mark marks ih =>
    obtain ⟨M, hs, hrest⟩ := Live.run_cons_ok hrun
    have h := ih (fun i => inputs (i + 1)) hrest
    cases mark with
    | true =>
      rw [List.length_cons, Live.closings]
      simp only [eraseBy, hs, List.tail_cons, List.head?_cons, if_true]
      rw [h, List.count_cons_of_ne (by simp)]
      rfl
    | false =>
      rw [List.length_cons, Live.closings, List.count_cons_self, Live.closings]
      simp only [eraseBy, hs, List.tail_cons, List.head?_cons, Option.some.injEq,
        Bool.false_eq_true, if_false]
      rw [h]
      rfl

/-- The ends of calls meet every condition on call starts. -/
theorem startsMeet_closings {σ : Type} (step : σ → TracerOp → Except Die σ)
    (lost : σ → PhpFunction → Bool) (condition : σ → List Bool → PhpFunction → Bool) (s : σ)
    (marks : List Bool) (n : ℕ) (inputs : ℕ → HookInput) :
    startsMeet step lost condition s marks (Live.closings n inputs) = true := by
  induction n generalizing s marks inputs with
  | zero => rfl
  | succ n ih =>
    simp only [Live.closings, startsMeet]
    split
    · rfl
    · exact ih ..

section Profile

variable (limits : Limits) (zendInlineHashFunc : String → UInt64) (maxDepth : ℕ)
  (enabledMetrics : Metric → Bool) (junk : MetricValues)

theorem erased_init :
    let L := Live.init limits.maxFunctionTableSize (spxProfilerTracerCreate limits
      zendInlineHashFunc maxDepth enabledMetrics junk).maxDepth enabledMetrics junk
    Erased L [] L := by
  intro L
  obtain ⟨href, -⟩ := refines_create limits zendInlineHashFunc maxDepth enabledMetrics junk
  exact ⟨href.ok, href.ok, rfl, rfl, rfl, rfl, rfl, rfl, rfl, trivial,
    fun h => absurd h List.not_mem_nil, 0, rfl, rfl⟩

/-- **A full function table hides the untracked calls**, in every run whose call
starts meet the condition `erasableStart`: the finalized table has the
statistics of the run without the untracked calls. -/
theorem saturated_profile_eq_erased {ops : List TracerOp} {n : ℕ} (hops : height 0 ops = some n)
    (inputs : ℕ → HookInput) :
    let p := spxProfilerTracerCreate limits zendInlineHashFunc maxDepth enabledMetrics junk
    let erased := eraseUntracked p ops
    Erasable p ops →
    ∃ q q', tracerProfile p ops inputs = .ok q
      ∧ tracerProfile p erased.1 (keptInputs erased.2 inputs) = .ok q'
      ∧ ∀ f, q.statsOf f = q'.statsOf f := by
  intro p erased hcond
  obtain ⟨hcreate, hidle⟩ := refines_create limits zendInlineHashFunc maxDepth enabledMetrics junk
  obtain ⟨M, hM, hMdepth, hMfin⟩ := Live.exists_run (L := Live.init limits.maxFunctionTableSize
    p.maxDepth enabledMetrics junk) rfl hops
  -- the run
  obtain ⟨q₁, hq₁, hqM, -⟩ := hcreate.run hidle hM
  obtain ⟨q, L, hq, hL, hqL⟩ := hqM.finalize hMfin inputs
  -- the erased run
  have herase := hcreate.eraseBy_eq hidle [] hM
  obtain ⟨E, hE, hrel⟩ := (erased_init limits zendInlineHashFunc maxDepth enabledMetrics junk).run
    hM ((hcreate.startsMeet_eq hidle [] hM).symm.trans hcond)
  rw [← herase] at hE hrel
  obtain ⟨q₂, hq₂, hqE, -⟩ := hcreate.run hidle hE
  obtain ⟨q', E', hq', hE', hqE'⟩ := hqE.finalize hrel.finalized'
    (keptInputs erased.2 inputs)
  -- their finalizations
  rw [← hrel.length] at hL
  obtain ⟨E'', hE'', hrel'⟩ := hrel.run hL (startsMeet_closings ..)
  have hsame : E'' = E' := by
    rw [eraseBy_closings _ inputs hL, hrel.depth] at hE''
    exact Except.ok.inj (hE''.symm.trans hE')
  subst hsame
  refine ⟨q, q', ?_, ?_, ?_⟩
  · rw [tracerProfile, hq₁]
    exact hq
  · rw [tracerProfile]
    exact (congrArg (Except.bind · _) hq₂).trans hq'
  · intro f
    rw [hqL.statsOf f, hqE'.statsOf f]
    show (if f ∈ L.functions then _ else _) = if f ∈ E''.functions then some (E''.stats f) else _
    rw [hrel'.functions, hrel'.stats]
    rfl

end Profile

/-! ## Runs with room for one function -/

/-- Limits with room for one function. -/
def oneFunction : Limits := ⟨8, 1, 1, by decide, by decide, by decide⟩

/-- `f` calls `g`, which the full table does not know, and then itself. -/
def besideUntracked : List TracerOp :=
  [callAt "f" 0, callAt "g" 1, .closing (endAt 2), callAt "f" 3, .closing (endAt 5)]

theorem saturated_profile_eq_erased_beside :
    let p := spxProfilerTracerCreate oneFunction (fun _ => 0) 0 (fun _ => true) 0
    let erased := eraseUntracked p besideUntracked
    ∃ q q', tracerProfile p besideUntracked (fun _ => endAt 7) = .ok q
      ∧ tracerProfile p erased.1 (keptInputs erased.2 fun _ => endAt 7) = .ok q'
      ∧ ∀ f, q.statsOf f = q'.statsOf f := by
  obtain ⟨hcreate, hidle⟩ := refines_create oneFunction (fun _ => 0) 0 (fun _ => true) 0
  obtain ⟨M, hM, -⟩ := Live.exists_run (L := Live.init 1 8 (fun _ => true) 0) rfl
    (show height 0 besideUntracked = some 1 from rfl)
  refine saturated_profile_eq_erased oneFunction (fun _ => 0) 0 (fun _ => true) 0
    (show height 0 besideUntracked = some 1 from rfl) (fun _ => endAt 7)
    ((hcreate.startsMeet_eq hidle [] hM).trans (by decide +kernel))

/-- `f` calls `g`, which the full table does not know, and `g` calls `f`. -/
def insideUntracked : List TracerOp :=
  [callAt "f" 0, callAt "g" 1, callAt "f" 2, .closing (endAt 5), .closing (endAt 6)]

/-- The statistics a profile ends with, computed by the abstract machine. -/
theorem exists_tracerProfile_exc {ops : List TracerOp} {n : ℕ} (hops : height 0 ops = some n)
    (inputs : ℕ → HookInput) {f : PhpFunction} {x : ℚ}
    (h : (Live.run (ops ++ Live.closings n inputs) (Live.init 1 8 (fun _ => true) 0)).toOption.map
      (fun L => (decide (f ∈ L.functions), (L.stats f).exc .wallTime)) = some (true, x)) :
    ∃ q s, tracerProfile (spxProfilerTracerCreate oneFunction (fun _ => 0) 0 (fun _ => true) 0) ops
        inputs = .ok q ∧ q.statsOf f = some s ∧ s.exc .wallTime = x := by
  obtain ⟨q, L, hq, hL, href, -, -⟩ :=
    tracerProfile_refines oneFunction (fun _ => 0) 0 (fun _ => true) 0 hops inputs
  have hL' : Live.run (ops ++ Live.closings n inputs) (Live.init 1 8 (fun _ => true) 0) = .ok L := hL
  rw [hL'] at h
  obtain ⟨hmem, hexc⟩ := Prod.mk.inj (Option.some.inj h)
  refine ⟨q, L.stats f, hq, ?_, hexc⟩
  rw [href.statsOf f]
  exact if_pos (of_decide_eq_true hmem)

/-- **The cost of the inner `f` is counted twice.**  It is charged to no frame,
because the frame directly below it is that of `g`, but its exclusive cost is
credited to the outer `f`: `10` units of `f`'s own in a run of `7`. -/
theorem saturated_profile_counted_twice :
    let p := spxProfilerTracerCreate oneFunction (fun _ => 0) 0 (fun _ => true) 0
    let erased := eraseUntracked p insideUntracked
    ∃ q q' s s', tracerProfile p insideUntracked (fun _ => endAt 7) = .ok q
      ∧ tracerProfile p erased.1 (keptInputs erased.2 fun _ => endAt 7) = .ok q'
      ∧ q.statsOf ⟨"f", ""⟩ = some s ∧ q'.statsOf ⟨"f", ""⟩ = some s'
      ∧ s.exc .wallTime = 10 ∧ s'.exc .wallTime = 7 := by
  intro p erased
  obtain ⟨hcreate, hidle⟩ := refines_create oneFunction (fun _ => 0) 0 (fun _ => true) 0
  obtain ⟨M, hM, -⟩ := Live.exists_run (L := Live.init 1 8 (fun _ => true) 0) rfl
    (show height 0 insideUntracked = some 1 from rfl)
  have herased : erased = ([callAt "f" 0, callAt "f" 2, .closing (endAt 5)], [false]) :=
    (hcreate.eraseBy_eq hidle [] hM).trans rfl
  obtain ⟨q, s, hq, hs, hexc⟩ := exists_tracerProfile_exc (f := ⟨"f", ""⟩) (x := 10)
    (show height 0 insideUntracked = some 1 from rfl) (fun _ => endAt 7) (by decide +kernel)
  obtain ⟨q', s', hq', hs', hexc'⟩ := exists_tracerProfile_exc (f := ⟨"f", ""⟩) (x := 7)
    (show height 0 [callAt "f" 0, callAt "f" 2, .closing (endAt 5)] = some 1 from rfl)
    (keptInputs [false] fun _ => endAt 7) (by decide +kernel)
  refine ⟨q, q', s, s', hq, ?_, hs, hs', hexc, hexc'⟩
  rw [herased]
  exact hq'

end PhpSpx
