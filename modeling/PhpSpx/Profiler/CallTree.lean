import PhpSpx.Profiler.Refinement

/-!
# The statistics of a call tree

A run of properly nested calls is the word of a forest of calls, and what the
tracing profiler makes of it is a function of that forest cut at the depth
limit.

* `creditAll`, `settleForest` — what the calls of a forest do to the costs of
  the calls open around them.
* `FuncStats.addForest` — what they do to the statistics of a function.
* `Follows` — the state after a forest in terms of the state before it;
  `run_forest` is the induction on the forest.
-/

namespace PhpSpx

open Lib

/-- The function of a call. -/
abbrev callFunction : CallStart → PhpFunction := CallStart.function

/-- The cost of a call: its end reading less its start reading. -/
def callCost (call : CallStart) (last : HookInput) : MetricValues :=
  last.reading - call.input.reading

/-- A forest of calls, with their readings. -/
abbrev CallForest := Forest CallStart HookInput

/-! ## The effect on the open calls -/

/-- Credit the innermost open call of every function. -/
def creditAll : (PhpFunction → MetricValues) → OpenCalls → OpenCalls
  | _, [] => []
  | e, none :: calls => none :: creditAll e calls
  | e, some c :: calls =>
      some { c with children := c.children - e c.function }
        :: creditAll (Function.update e c.function 0) calls

theorem creditAll_zero (calls : OpenCalls) : creditAll 0 calls = calls := by
  induction calls with
  | nil => rfl
  | cons x calls ih =>
    cases x with
    | none => rw [creditAll, ih]
    | some c =>
      have hzero : Function.update (0 : PhpFunction → MetricValues) c.function 0 = 0 :=
        Function.update_eq_self c.function 0
      rw [creditAll, hzero, ih, Pi.zero_apply, sub_zero]

theorem creditAll_creditAll (e e' : PhpFunction → MetricValues) (calls : OpenCalls) :
    creditAll e (creditAll e' calls) = creditAll (e' + e) calls := by
  induction calls generalizing e e' with
  | nil => rfl
  | cons x calls ih =>
    cases x with
    | none => rw [creditAll, creditAll, creditAll, ih]
    | some c =>
      have hupdate : Function.update e' c.function 0 + Function.update e c.function 0
          = Function.update (e' + e) c.function 0 := by
        rw [← Function.update_add, add_zero]
      rw [creditAll, creditAll, creditAll, ih, hupdate, Pi.add_apply, sub_sub]

theorem creditFirst_eq_creditAll (f : PhpFunction) (exc : MetricValues) (calls : OpenCalls) :
    creditFirst f exc calls = creditAll (Pi.single f exc) calls := by
  induction calls with
  | nil => rfl
  | cons x calls ih =>
    cases x with
    | none => rw [creditFirst, creditAll, ih]
    | some c =>
      rw [creditFirst, creditAll]
      by_cases hf : c.function = f
      · subst hf
        have hzero : Function.update (Pi.single c.function exc) c.function 0
            = (0 : PhpFunction → MetricValues) := by
          rw [Pi.single, Function.update_idem, Function.update_eq_self_iff]
          rfl
        rw [if_pos rfl, hzero, creditAll_zero, Pi.single_eq_same]
      · have hsame : Function.update (Pi.single f exc) c.function 0
            = (Pi.single f exc : PhpFunction → MetricValues) := by
          rw [Function.update_eq_self_iff, Pi.single_eq_of_ne hf]
        rw [if_neg hf, ih, hsame, Pi.single_eq_of_ne hf, sub_zero]

@[simp] theorem length_creditAll (e : PhpFunction → MetricValues) (calls : OpenCalls) :
    (creditAll e calls).length = calls.length := by
  induction calls generalizing e with
  | nil => rfl
  | cons x calls ih => cases x <;> simp [creditAll, ih]

@[simp] theorem openFunctions_creditAll (e : PhpFunction → MetricValues) (calls : OpenCalls) :
    openFunctions (creditAll e calls) = openFunctions calls := by
  induction calls generalizing e with
  | nil => rfl
  | cons x calls ih => cases x <;> simp [creditAll, ih]

theorem chargeHead_chargeHead (a b : MetricValues) (calls : OpenCalls) :
    chargeHead a (chargeHead b calls) = chargeHead (b + a) calls := by
  rcases calls with _ | ⟨_ | c, calls⟩
  · rfl
  · rfl
  · simp [chargeHead, add_assoc]

theorem chargeHead_zero (calls : OpenCalls) : chargeHead 0 calls = calls := by
  rcases calls with _ | ⟨_ | c, calls⟩
  · rfl
  · rfl
  · simp [chargeHead]

/-- Charging and crediting commute. -/
theorem chargeHead_creditAll (inc : MetricValues) (e : PhpFunction → MetricValues)
    (calls : OpenCalls) :
    chargeHead inc (creditAll e calls) = creditAll e (chargeHead inc calls) := by
  rcases calls with _ | ⟨_ | c, calls⟩
  · rfl
  · rfl
  · simp [chargeHead, creditAll, sub_add_eq_add_sub]

/-- The exclusive cost of the calls of each function in a forest. -/
def forestCredit (F : CallForest) : PhpFunction → MetricValues :=
  fun f => F.excCost callFunction callCost f

/-- What a forest of calls does to the open calls around it. -/
def settleForest (F : CallForest) (calls : OpenCalls) : OpenCalls :=
  creditAll (forestCredit F) (chargeHead (F.rootCost callCost) calls)

@[simp] theorem settleForest_nil (calls : OpenCalls) : settleForest .nil calls = calls := by
  have hzero : forestCredit .nil = 0 := rfl
  rw [settleForest, hzero, creditAll_zero]
  exact chargeHead_zero calls

@[simp] theorem length_settleForest (F : CallForest) (calls : OpenCalls) :
    (settleForest F calls).length = calls.length := by
  simp [settleForest]

@[simp] theorem openFunctions_settleForest (F : CallForest) (calls : OpenCalls) :
    openFunctions (settleForest F calls) = openFunctions calls := by
  simp [settleForest]

/-- The frame of a call, after the calls it made. -/
theorem settleForest_cons (F : CallForest) (f : PhpFunction) (r : MetricValues)
    (calls : OpenCalls) :
    settleForest F (some ⟨f, r, 0⟩ :: calls)
      = some ⟨f, r, F.rootCost callCost - forestCredit F f⟩
        :: creditAll (Function.update (forestCredit F) f 0) calls := by
  simp [settleForest, chargeHead, creditAll]

/-- The effect of a tree and its siblings is that of its children, of its root,
and of its siblings, one after the other. -/
theorem settleForest_node (a : CallStart) (b : HookInput) (c s : CallForest) (calls : OpenCalls) :
    settleForest s
        (creditFirst a.function (callCost a b - (c.rootCost callCost - forestCredit c a.function))
          (chargeHead (callCost a b)
            (creditAll (Function.update (forestCredit c) a.function 0) calls)))
      = settleForest (.node a b c s) calls := by
  have hcredit : Function.update (forestCredit c) a.function 0
      + (Pi.single a.function (callCost a b - (c.rootCost callCost - forestCredit c a.function))
        + forestCredit s) = forestCredit (.node a b c s) := by
    funext g
    by_cases hg : g = a.function
    · subst hg
      simp [forestCredit, Forest.excCost, sub_add]
    · simp [forestCredit, Forest.excCost, hg, Ne.symm hg]
  rw [creditFirst_eq_creditAll, settleForest, chargeHead_creditAll, chargeHead_creditAll,
    chargeHead_creditAll, chargeHead_chargeHead, creditAll_creditAll, creditAll_creditAll,
    hcredit]
  rfl

/-! ## The effect on the statistics -/

/-- The statistics of `f` after a forest of calls made while `k` calls of `f`
are open. -/
def FuncStats.addForest (stats : FuncStats) (k : ℕ) (f : PhpFunction) (F : CallForest) :
    FuncStats where
  called := stats.called + F.count callFunction f
  maxCycleDepth := max stats.maxCycleDepth (F.maxCycle callFunction f k)
  inc := if k = 0 then stats.inc + F.incCost callFunction callCost f else stats.inc
  exc := if k = 0 then stats.exc + F.excCost callFunction callCost f else stats.exc

@[simp] theorem addForest_nil (stats : FuncStats) (k : ℕ) (f : PhpFunction) :
    stats.addForest k f .nil = stats := by
  ext <;> simp [FuncStats.addForest, Forest.count, Forest.maxCycle, Forest.incCost, Forest.excCost]

/-- The statistics of another function than the root's. -/
theorem addForest_node_of_ne {a : CallStart} {f : PhpFunction} (h : a.function ≠ f)
    (stats : FuncStats) (k : ℕ) (b : HookInput) (c s : CallForest) :
    (stats.addForest k f c).addForest k f s = stats.addForest k f (.node a b c s) := by
  ext1
  · simp [FuncStats.addForest, Forest.count, h, add_assoc]
  · simp [FuncStats.addForest, Forest.maxCycle, h, max_assoc]
  · by_cases hk : k = 0 <;> simp [FuncStats.addForest, Forest.incCost, h, hk, add_assoc]
  · by_cases hk : k = 0 <;> simp [FuncStats.addForest, Forest.excCost, h, hk, add_assoc]

theorem recordCall_maxCycleDepth (stats : FuncStats) (k : ℕ) (inc exc : MetricValues) :
    (stats.recordCall k inc exc).maxCycleDepth = max stats.maxCycleDepth k := by
  unfold FuncStats.recordCall
  dsimp only
  split <;> omega

/-- The statistics of the root's function. -/
theorem addForest_node_self (a : CallStart) (stats : FuncStats) (k : ℕ) (b : HookInput)
    (c s : CallForest) :
    ((stats.addForest (k + 1) a.function c).recordCall k (callCost a b)
        (callCost a b - (c.rootCost callCost - forestCredit c a.function))).addForest k a.function s
      = stats.addForest k a.function (.node a b c s) := by
  ext1
  · simp only [FuncStats.addForest, FuncStats.recordCall, Forest.count, if_true]
    omega
  · show max (FuncStats.recordCall _ k _ _).maxCycleDepth _ = _
    rw [recordCall_maxCycleDepth]
    simp only [FuncStats.addForest, Forest.maxCycle, if_true]
    omega
  · by_cases hk : k = 0 <;>
      simp [FuncStats.addForest, FuncStats.recordCall, Forest.incCost, hk, add_assoc]
  · by_cases hk : k = 0
    · simp only [FuncStats.addForest, FuncStats.recordCall, Forest.excCost, hk, if_true,
        metricValuesAdd_eq, forestCredit, Nat.succ_ne_zero, if_false]
      abel
    · simp [FuncStats.addForest, FuncStats.recordCall, hk]

/-! ## The log -/

/-- What a report says of an event: its type, the index of its function and the
cumulated values. -/
structure LogEntry where
  type : EventType
  idx : Option ℕ
  cum : MetricValues
  deriving DecidableEq

/-- The log entry of an event. -/
def Event.logEntry (event : Event) : LogEntry :=
  ⟨event.type, event.callee, event.cum⟩

/-- The log of a forest of calls, for a table of functions and the values `z` at
the origin of the profile. -/
def forestLog (functions : List PhpFunction) (z : MetricValues) : CallForest → List LogEntry
  | .nil => []
  | .node a b c s =>
      ⟨.callStart, some (functions.idxOf a.function), a.input.reading - z⟩
        :: (forestLog functions z c
          ++ ⟨.callEnd, some (functions.idxOf a.function), b.reading - z⟩
            :: forestLog functions z s)

theorem idxOf_of_prefix {fs fs' : List PhpFunction} (h : fs <+: fs') {f : PhpFunction}
    (hf : f ∈ fs) : fs.idxOf f = fs'.idxOf f := by
  obtain ⟨rest, rfl⟩ := h
  rw [List.idxOf_append_of_mem hf]

/-- Extending the table does not change the log of a forest whose functions it
has. -/
theorem forestLog_congr {functions functions' : List PhpFunction} (h : functions <+: functions')
    (z : MetricValues) {F : CallForest} (hF : ∀ f ∈ F.labels.map callFunction, f ∈ functions) :
    forestLog functions' z F = forestLog functions z F := by
  induction F with
  | nil => rfl
  | node a b c s ihc ihs =>
    obtain ⟨rest, rfl⟩ := h
    have ha : a.function ∈ functions := hF _ (by simp)
    simp only [Forest.labels_node, List.map_cons, List.map_append, List.mem_cons,
      List.mem_append] at hF
    have hc := ihc fun f hf => hF f (Or.inr (Or.inl hf))
    have hs := ihs fun f hf => hF f (Or.inr (Or.inr hf))
    simp only [forestLog, hc, hs, List.idxOf_append_of_mem ha]

/-! ## Runs of forests -/

/-- The state `L'` is `L` after the calls of the forest `F`, none of which is
beyond the depth limit.  `z` are the values at the origin of the profile. -/
structure Follows (z : MetricValues) (L L' : Live) (F : CallForest) : Prop where
  finalized : L'.finalized = false
  hidden : L'.hidden = 0
  capacity : L'.capacity = L.capacity
  maxDepth : L'.maxDepth = L.maxDepth
  frames : L'.frames = settleForest F L.frames
  functions : L.functions <+: L'.functions
  mem_functions : ∀ f, f ∈ L'.functions ↔ f ∈ L.functions ∨ f ∈ F.labels.map callFunction
  stats : ∀ f, L'.stats f = (L.stats f).addForest (openCount f L.frames) f F
  first : L'.called ≠ 0 → L'.first = z
  log : L'.notified.map Event.logEntry
    = L.notified.map Event.logEntry ++ forestLog L'.functions z F

/-- Calls made beyond the depth limit leave no trace. -/
theorem run_hidden {L : Live} (hfin : L.finalized = false) (hd : L.maxDepth ≤ L.depth)
    (F : CallForest) : Live.run F.word L = .ok L := by
  induction F generalizing L with
  | nil => rfl
  | node a b c s ihc ihs =>
    have hstart : L.callStart a.function a.input.reading = { L with hidden := L.hidden + 1 } := by
      simp [Live.callStart, hfin, hd]
    have hc := ihc (L := { L with hidden := L.hidden + 1 }) hfin (Nat.le_succ_of_le hd)
    have hend : ({ L with hidden := L.hidden + 1 } : Live).callEnd b.reading = .ok L := by
      rw [Live.callEnd, if_neg (by simp [hfin])]
    rw [Forest.word_node, Live.run_cons]
    show Live.run (c.word ++ .closing b :: s.word) (L.callStart a.function a.input.reading) = _
    rw [hstart, Live.run_append, hc]
    show Live.run (.closing b :: s.word) { L with hidden := L.hidden + 1 } = _
    rw [Live.run_cons]
    exact (congrArg (Except.bind · (Live.run s.word)) hend).trans (ihs hfin hd)

/-- The call `c` as its end finds it, after the calls of the forest `F`. -/
def calledBack (a : CallStart) (F : CallForest) : OpenCall :=
  ⟨a.function, a.input.reading, F.rootCost callCost - forestCredit F a.function⟩

/-- The state between the start and the end of a call. -/
abbrev Live.opened (L : Live) (a : CallStart) : Live :=
  ((L.sample a.input.reading).lookup a.function).follow a.function a.input.reading

/-- The open calls around a call after the calls it made. -/
theorem Follows.frames_opened {z : MetricValues} {L M : Live} {a : CallStart} {F : CallForest}
    (h : Follows z (L.opened a) M F) :
    M.frames = some (calledBack a F)
      :: creditAll (Function.update (forestCredit F) a.function 0) L.frames :=
  h.frames.trans (settleForest_cons F a.function a.input.reading L.frames)

/-- The state after the end of a call, in terms of the state before its start. -/
abbrev Live.closed (M L : Live) (a : CallStart) (b : HookInput) (F : CallForest) : Live :=
  (M.collect (creditAll (Function.update (forestCredit F) a.function 0) L.frames)
    b.reading).settle (calledBack a F) b.reading

/-- **A tree followed by its siblings**, from its children and its siblings. -/
theorem Follows.node {z : MetricValues} {L M L' : Live} {a : CallStart} {b : HookInput}
    {c s : CallForest} (hmem : a.function ∈ recordFunction L.capacity L.functions a.function)
    (hz : L.called ≠ 0 → L.first = z) (hz₀ : L.called = 0 → a.input.reading = z)
    (hc : Follows z (L.opened a) M c) (hs : Follows z (M.closed L a b c) L' s)
    (hM : M.called ≠ 0) : Follows z L L' (.node a b c s) := by
  have hframes : openFunctions (M.closed L a b c).frames = openFunctions L.frames := by
    simp [Live.settle, Live.collect]
  have hprefix : M.functions <+: L'.functions := hs.functions
  refine ⟨hs.finalized, hs.hidden, hs.capacity.trans hc.capacity, hs.maxDepth.trans hc.maxDepth,
    ?_, ((prefix_recordFunction _ _ _).trans hc.functions).trans hs.functions, fun f => ?_,
    fun f => ?_, hs.first, ?_⟩
  · rw [hs.frames, ← settleForest_node]
    rfl
  · have h₁ : f ∈ L'.functions ↔ f ∈ M.functions ∨ f ∈ s.labels.map callFunction :=
      hs.mem_functions f
    have h₂ : f ∈ M.functions ↔ f ∈ recordFunction L.capacity L.functions a.function
        ∨ f ∈ c.labels.map callFunction := hc.mem_functions f
    rw [h₁, h₂, mem_recordFunction_iff hmem, Forest.labels_node, List.map_cons, List.map_append,
      List.mem_cons, List.mem_append]
    simp only [or_assoc]
  · have h₁ : L'.stats f = ((M.closed L a b c).stats f).addForest (openCount f L.frames) f s := by
      rw [hs.stats f, openCount, hframes, openCount]
    have h₂ : M.stats f = (L.stats f).addForest
        (openCount f (some ⟨a.function, a.input.reading, 0⟩ :: L.frames)) f c := hc.stats f
    rw [h₁]
    by_cases hf : f = a.function
    · subst hf
      have hclosed : (M.closed L a b c).stats a.function = (M.stats a.function).recordCall
          (openCount a.function L.frames) (callCost a b)
          (callCost a b - (c.rootCost callCost - forestCredit c a.function)) := by
        apply (Function.update_self (calledBack a c).function _ M.stats).trans
        simp only [Live.collect, openCount, openFunctions_creditAll]
        rfl
      have hcount : openCount a.function (some ⟨a.function, a.input.reading, 0⟩ :: L.frames)
          = openCount a.function L.frames + 1 := by
        simp only [openCount, openFunctions_some, List.count_cons_self]
      rw [hclosed, h₂, hcount, addForest_node_self]
    · have hclosed : (M.closed L a b c).stats f = M.stats f := Function.update_of_ne hf ..
      have hcount : openCount f (some ⟨a.function, a.input.reading, 0⟩ :: L.frames)
          = openCount f L.frames := by
        simp only [openCount, openFunctions_some, List.count_cons_of_ne (Ne.symm hf)]
      rw [hclosed, h₂, hcount, addForest_node_of_ne (Ne.symm hf)]
  · have hidx : (recordFunction L.capacity L.functions a.function).idxOf a.function
        = L'.functions.idxOf a.function :=
      idxOf_of_prefix (hc.functions.trans hprefix) hmem
    have hidx' : M.functions.idxOf a.function = L'.functions.idxOf a.function :=
      idxOf_of_prefix hprefix (hc.functions.subset hmem)
    have hfirst : (if L.called = 0 then a.input.reading else L.first) = z := by
      split
      · exact hz₀ ‹_›
      · exact hz ‹_›
    have hopened : (L.opened a).notified.map Event.logEntry = L.notified.map Event.logEntry
        ++ [⟨.callStart, some (L'.functions.idxOf a.function), a.input.reading - z⟩] := by
      rw [← hidx, ← hfirst]
      exact List.map_append
    have hclosed : (M.closed L a b c).notified.map Event.logEntry
        = M.notified.map Event.logEntry
          ++ [⟨.callEnd, some (L'.functions.idxOf a.function), b.reading - z⟩] := by
      rw [← hidx', ← hc.first hM]
      exact List.map_append
    have hchildren : forestLog M.functions z c = forestLog L'.functions z c :=
      (forestLog_congr hprefix z fun f hf => (hc.mem_functions f).2 (Or.inr hf)).symm
    rw [hs.log, hclosed, hc.log, hopened, hchildren, forestLog]
    simp

theorem Follows.nil {z : MetricValues} {L : Live} (hfin : L.finalized = false)
    (hz : L.hidden = 0) (hfirst : L.called ≠ 0 → L.first = z) : Follows z L L .nil where
  finalized := hfin
  hidden := hz
  capacity := rfl
  maxDepth := rfl
  frames := (settleForest_nil L.frames).symm
  functions := List.prefix_refl _
  mem_functions := fun f => by simp
  stats := fun f => (addForest_nil _ _ f).symm
  first := hfirst
  log := by simp [forestLog]

/-- **The run of a forest of calls**, cut at the depth limit, on a table with
room for its functions. -/
theorem run_forest {S : Finset PhpFunction} {z : MetricValues} (F : CallForest) {L : Live} {m : ℕ}
    (ok : L.Ok) (hfin : L.finalized = false) (hhid : L.hidden = 0)
    (hm : L.frames.length + m = L.maxDepth) (hS : S.card ≤ L.capacity)
    (hL : ∀ g ∈ L.functions, g ∈ S)
    (hF : ∀ f ∈ (F.truncate m).labels.map callFunction, f ∈ S)
    (hz : L.called ≠ 0 → L.first = z)
    (hz₀ : L.called = 0 → ∀ a b c s, F = .node a b c s → a.input.reading = z) :
    ∃ L', Live.run F.word L = .ok L' ∧ Follows z L L' (F.truncate m) := by
  induction F generalizing L m with
  | nil => exact ⟨L, rfl, by simpa using Follows.nil hfin hhid hz⟩
  | node a b c s ihc ihs =>
    cases m with
    | zero =>
      have hd : L.maxDepth ≤ L.depth := by simp only [Live.depth]; omega
      exact ⟨L, run_hidden hfin hd _, by simpa using Follows.nil hfin hhid hz⟩
    | succ m =>
      rw [Forest.truncate_succ_node] at hF ⊢
      simp only [Forest.labels_node, List.map_cons, List.map_append, List.mem_cons,
        List.mem_append] at hF
      have hmem := mem_recordFunction_of_room ok.nodup hS hL (hF a.function (Or.inl rfl))
      have hd : L.depth < L.maxDepth := by simp only [Live.depth]; omega
      have hstart : L.callStart a.function a.input.reading = L.opened a := by
        have hmem' : a.function ∈ ((L.sample a.input.reading).lookup a.function).functions := hmem
        simp only [Live.callStart, hfin, Bool.false_eq_true, if_false, not_le.2 hd, hmem', if_true]
      have hz₀' : L.called = 0 → a.input.reading = z := fun h0 => hz₀ h0 a b c s rfl
      have hfirst : (if L.called = 0 then a.input.reading else L.first) = z := by
        split
        · exact hz₀' ‹_›
        · exact hz ‹_›
      -- the calls made by the call
      have ok₁ : (L.opened a).Ok := hstart ▸ ok.callStart a.function a.input.reading
      have hL₁ : ∀ g ∈ (L.opened a).functions, g ∈ S := by
        intro g hg
        rcases (mem_recordFunction_iff hmem).1 hg with hg | rfl
        · exact hL g hg
        · exact hF _ (Or.inl rfl)
      have hm₁ : (L.opened a).frames.length + m = (L.opened a).maxDepth := by
        show L.frames.length + 1 + m = L.maxDepth
        omega
      obtain ⟨M, hM, hc⟩ := ihc ok₁ hfin hhid hm₁ hS hL₁
        (fun f hf => hF f (Or.inr (Or.inl hf))) (fun _ => hfirst)
        (fun h0 => absurd h0 (Nat.succ_ne_zero _))
      have okM : M.Ok := ok₁.run hM
      have hMframes := hc.frames_opened
      have hMcalled := okM.called_ne_zero hMframes
      -- its end
      have hend : M.callEnd b.reading = .ok (M.closed L a b (c.truncate m)) := by
        rw [Live.callEnd, if_neg (by simp [hc.finalized]), hc.hidden, hMframes]
      -- its siblings
      have ok₃ := okM.callEnd hend
      have hm₃ : (M.closed L a b (c.truncate m)).frames.length + (m + 1)
          = (M.closed L a b (c.truncate m)).maxDepth := by
        have hlen : (M.closed L a b (c.truncate m)).frames.length = L.frames.length := by
          simp [Live.settle, Live.collect]
        have hmax : (M.closed L a b (c.truncate m)).maxDepth = L.maxDepth := hc.maxDepth
        rw [hlen, hmax]
        omega
      have hL₃ : ∀ g ∈ M.functions, g ∈ S := by
        intro g hg
        rcases (hc.mem_functions g).1 hg with hg | hg
        · exact hL₁ g hg
        · exact hF g (Or.inr (Or.inl hg))
      obtain ⟨L', hL', hs⟩ := ihs ok₃ hc.finalized hc.hidden hm₃ (hc.capacity ▸ hS) hL₃
        (fun f hf => hF f (Or.inr (Or.inr hf))) (fun _ => hc.first hMcalled)
        (fun h0 => absurd h0 hMcalled)
      refine ⟨L', ?_, hc.node hmem hz hz₀' hs hMcalled⟩
      rw [Forest.word_node, Live.run_cons]
      show Live.run (c.word ++ .closing b :: s.word) (L.callStart a.function a.input.reading) = _
      rw [hstart, Live.run_append, hM]
      show Live.run (.closing b :: s.word) M = _
      rw [Live.run_cons]
      exact (congrArg (Except.bind · (Live.run s.word)) hend).trans hL'

end PhpSpx
