import PhpSpx.Profiler.Live

/-!
# The tracing profiler refines its abstract machine

The faithful profiler and the machine of open calls run in lock step.

* `FramesAgree` — the array of frames holds the open calls, the innermost one
  on top.
* `chargeParents_spec` — the loop over the parent frames is `chargeHead`
  followed by `creditFirst`.
* `Calibrating` — what a calibration leaves alone.
* `Refines` — the relation between the two states, kept by every operation
  (`Refines.step`), by runs and by the finalization (`Refines.profile`).
-/

namespace PhpSpx

open Lib

/-! ## Frames -/

/-- A frame of the array holds an open call. -/
def FrameAgree (functions : List PhpFunction) (frame : Frame) : Option OpenCall → Prop
  | none => frame.funcTableEntry = none
  | some c =>
      c.function ∈ functions ∧ frame.funcTableEntry = some (functions.idxOf c.function)
      ∧ frame.startMetricValues = c.start ∧ frame.childrenMetricValues = c.children

/-- The array of frames holds the open calls. -/
def FramesAgree (functions : List PhpFunction) (frames : ℕ → Frame) : OpenCalls → Prop
  | [] => True
  | x :: calls =>
      FrameAgree functions (frames calls.length) x ∧ FramesAgree functions frames calls

/-- The caller is the innermost open call. -/
theorem FramesAgree.caller {functions : List PhpFunction} {s : TracerStack} {calls : OpenCalls}
    (h : FramesAgree functions s.frames calls) (hdepth : s.depth = calls.length) :
    s.caller = calls.head?.join.map fun c => functions.idxOf c.function := by
  unfold TracerStack.caller
  rw [hdepth]
  rcases calls with _ | ⟨_ | c, calls⟩
  · rfl
  · exact h.1
  · exact h.1.2.1

/-- Only the frames of open calls matter. -/
theorem FramesAgree.congr {functions : List PhpFunction} {frames frames' : ℕ → Frame}
    {calls : OpenCalls} (h : FramesAgree functions frames calls)
    (heq : ∀ j < calls.length, frames' j = frames j) : FramesAgree functions frames' calls := by
  induction calls with
  | nil => trivial
  | cons x calls ih =>
    obtain ⟨hx, hcalls⟩ := h
    refine ⟨?_, ih hcalls fun j hj => heq j (Nat.lt_succ_of_lt hj)⟩
    rwa [heq calls.length (Nat.lt_succ_self _)]

theorem FrameAgree.recordFunction {functions : List PhpFunction} {frame : Frame}
    {x : Option OpenCall} (h : FrameAgree functions frame x) (capacity : ℕ) (f : PhpFunction) :
    FrameAgree (recordFunction capacity functions f) frame x := by
  cases x with
  | none => exact h
  | some c =>
    obtain ⟨hmem, hidx, hrest⟩ := h
    refine ⟨mem_recordFunction_of_mem hmem, ?_, hrest⟩
    rw [hidx]
    unfold PhpSpx.recordFunction
    split
    · rfl
    · rw [List.idxOf_append_of_mem hmem]

/-- Recording a function does not move the entries of the others. -/
theorem FramesAgree.recordFunction {functions : List PhpFunction} {frames : ℕ → Frame}
    {calls : OpenCalls} (h : FramesAgree functions frames calls) (capacity : ℕ)
    (f : PhpFunction) : FramesAgree (recordFunction capacity functions f) frames calls := by
  induction calls with
  | nil => trivial
  | cons x calls ih => exact ⟨h.1.recordFunction capacity f, ih h.2⟩

/-- Two stacks differ at most in the frames below `i`. -/
structure SameAbove (i : ℕ) (s s' : TracerStack) : Prop where
  depth : s'.depth = s.depth
  capacity : s'.capacity = s.capacity
  frames : ∀ j, i ≤ j → s'.frames j = s.frames j
  accesses : ∀ a ∈ s'.accesses, a ∈ s.accesses ∨ a < i

theorem SameAbove.refl (i : ℕ) (s : TracerStack) : SameAbove i s s :=
  ⟨rfl, rfl, fun _ _ => rfl, fun _ ha => Or.inl ha⟩

/-- A bound on the accesses that is no lower than the frames touched still holds. -/
theorem SameAbove.accesses_lt {i b : ℕ} {s s' : TracerStack} (h : SameAbove i s s')
    (hs : ∀ a ∈ s.accesses, a < b) (hi : i ≤ b) : ∀ a ∈ s'.accesses, a < b := by
  intro a ha
  rcases h.accesses a ha with ha | ha
  · exact hs a ha
  · exact ha.trans_le hi

theorem SameAbove.mono {i j : ℕ} {s s' : TracerStack} (h : SameAbove i s s') (hij : i ≤ j) :
    SameAbove j s s' :=
  ⟨h.depth, h.capacity, fun k hk => h.frames k (hij.trans hk),
    fun a ha => (h.accesses a ha).imp_right fun hai => lt_of_lt_of_le hai hij⟩

theorem SameAbove.trans {i : ℕ} {s s' s'' : TracerStack} (h : SameAbove i s s')
    (h' : SameAbove i s' s'') : SameAbove i s s'' where
  depth := h'.depth.trans h.depth
  capacity := h'.capacity.trans h.capacity
  frames := fun k hk => (h'.frames k hk).trans (h.frames k hk)
  accesses := fun a ha => (h'.accesses a ha).elim (h.accesses a) Or.inr

theorem sameAbove_touch (s : TracerStack) (i : ℕ) : SameAbove (i + 1) s (s.touch i) where
  depth := rfl
  capacity := rfl
  frames := fun _ _ => rfl
  accesses := fun a ha => by
    simp only [TracerStack.touch, List.mem_append, List.mem_singleton] at ha
    exact ha.imp_right fun hai => by omega

theorem sameAbove_modifyFrame (s : TracerStack) (i : ℕ) (g : Frame → Frame) :
    SameAbove (i + 1) s (s.modifyFrame i g) where
  depth := rfl
  capacity := rfl
  frames := fun j hj => Function.update_of_ne (by omega) ..
  accesses := fun a ha => by
    simp only [TracerStack.modifyFrame, List.mem_append, List.mem_singleton] at ha
    exact ha.imp_right fun hai => by omega

@[simp] theorem touch_frames (s : TracerStack) (i : ℕ) : (s.touch i).frames = s.frames := rfl

@[simp] theorem modifyFrame_frames_self (s : TracerStack) (i : ℕ) (g : Frame → Frame) :
    (s.modifyFrame i g).frames i = g (s.frames i) := Function.update_self ..

/-- Writing the frame above some calls leaves their frames alone. -/
theorem FramesAgree.modifyFrame {functions : List PhpFunction} {s : TracerStack}
    {calls : OpenCalls} (h : FramesAgree functions s.frames calls) (g : Frame → Frame) :
    FramesAgree functions (s.modifyFrame calls.length g).frames calls :=
  h.congr fun _ hj => Function.update_of_ne hj.ne ..

@[simp] theorem touchEvent_frames (s : TracerStack) : s.touchEvent.frames = s.frames := by
  unfold TracerStack.touchEvent
  split <;> rfl

@[simp] theorem touchEvent_depth (s : TracerStack) : s.touchEvent.depth = s.depth := by
  unfold TracerStack.touchEvent
  split <;> rfl

@[simp] theorem touchEvent_caller (s : TracerStack) : s.touchEvent.caller = s.caller := by
  unfold TracerStack.caller
  rw [touchEvent_depth, touchEvent_frames]

theorem sameAbove_touchEvent {s : TracerStack} {d : ℕ} (h : s.depth = d) :
    SameAbove (d + 1) s s.touchEvent := by
  subst h
  unfold TracerStack.touchEvent
  split
  · exact ((sameAbove_touch s (s.depth - 1)).mono (by omega)).trans
      (sameAbove_touch (s.touch (s.depth - 1)) s.depth)
  · exact sameAbove_touch s s.depth

/-- The loop touches the frames below its index only. -/
theorem chargeParents_sameAbove (depth entry : ℕ) (inc exc : MetricValues) (i cycleDepth : ℕ)
    (s : TracerStack) :
    SameAbove i s (chargeParents depth entry inc exc i cycleDepth s).2 := by
  induction i generalizing cycleDepth s with
  | zero => exact SameAbove.refl 0 s
  | succ i ih =>
    have hstep : ∀ {s' : TracerStack} (k : ℕ), SameAbove (i + 1) s s' →
        SameAbove (i + 1) s (chargeParents depth entry inc exc i k s').2 :=
      fun k h => h.trans ((ih k _).mono (Nat.le_succ i))
    have hcharge : ∀ g, SameAbove (i + 1) s
        (if i + 1 = depth then s.modifyFrame i g else s.touch i) := by
      intro g
      split
      · exact sameAbove_modifyFrame s i g
      · exact sameAbove_touch s i
    unfold chargeParents
    split
    · exact hstep _ (sameAbove_touch s i)
    · dsimp only
      split
      · split
        · exact hstep _ ((hcharge _).trans (sameAbove_modifyFrame _ i _))
        · exact hstep _ (hcharge _)
      · exact hstep _ (hcharge _)

/-- The frame directly below the ended call is charged, another one only read. -/
def TracerStack.chargeFrame (s : TracerStack) (depth i : ℕ) (inc : MetricValues) : TracerStack :=
  if i + 1 = depth then
    s.modifyFrame i fun frame =>
      { frame with childrenMetricValues := metricValuesAdd frame.childrenMetricValues inc }
  else s.touch i

theorem FramesAgree.chargeFrame {functions : List PhpFunction} {s : TracerStack}
    {calls : OpenCalls} (h : FramesAgree functions s.frames calls) (depth : ℕ)
    (inc : MetricValues) :
    FramesAgree functions (s.chargeFrame depth calls.length inc).frames calls := by
  rw [TracerStack.chargeFrame]
  split
  · exact h.modifyFrame _
  · exact h

theorem FrameAgree.chargeFrame {functions : List PhpFunction} {s : TracerStack} {i : ℕ}
    {c : OpenCall} (h : FrameAgree functions (s.frames i) (some c)) (depth : ℕ)
    (inc : MetricValues) :
    FrameAgree functions ((s.chargeFrame depth i inc).frames i)
      (some (if i + 1 = depth then { c with children := c.children + inc } else c)) := by
  obtain ⟨hmem, hentry, hstart, hchildren⟩ := h
  rw [TracerStack.chargeFrame]
  split
  · rw [modifyFrame_frames_self]
    exact ⟨hmem, hentry, hstart, by simp [hchildren]⟩
  · exact ⟨hmem, hentry, hstart, hchildren⟩

/-- One turn of the loop at the frame of a followed call. -/
theorem chargeParents_succ {s : TracerStack} {i parentEntry : ℕ}
    (h : (s.frames i).funcTableEntry = some parentEntry) (depth entry : ℕ)
    (inc exc : MetricValues) (cycleDepth : ℕ) :
    chargeParents depth entry inc exc (i + 1) cycleDepth s =
      if parentEntry = entry then
        chargeParents depth entry inc exc i (cycleDepth + 1)
          (if cycleDepth = 0 then
            (s.chargeFrame depth i inc).modifyFrame i fun frame =>
              { frame with
                childrenMetricValues := metricValuesSub frame.childrenMetricValues exc }
          else s.chargeFrame depth i inc)
      else chargeParents depth entry inc exc i cycleDepth (s.chargeFrame depth i inc) := by
  rw [chargeParents]
  simp only [h]
  rfl

/-- The credit of the ended call, written to a frame. -/
theorem FrameAgree.credit {functions : List PhpFunction} {s : TracerStack} {i : ℕ} {c : OpenCall}
    (h : FrameAgree functions (s.frames i) (some c)) (exc : MetricValues) :
    FrameAgree functions
      ((s.modifyFrame i fun frame =>
        { frame with
          childrenMetricValues := metricValuesSub frame.childrenMetricValues exc }).frames i)
      (some { c with children := c.children - exc }) := by
  obtain ⟨hmem, hentry, hstart, hchildren⟩ := h
  rw [modifyFrame_frames_self]
  exact ⟨hmem, hentry, hstart, by simp [hchildren]⟩

/-- The loop over the frames below a frame leaves it alone. -/
theorem FramesAgree.cons_chargeParents {functions : List PhpFunction} {depth entry i k : ℕ}
    {inc exc : MetricValues} {s : TracerStack} {calls : OpenCalls} {x : Option OpenCall}
    (h : FramesAgree functions (chargeParents depth entry inc exc i k s).2.frames calls)
    (hlen : calls.length = i) (hx : FrameAgree functions (s.frames i) x) :
    FramesAgree functions (chargeParents depth entry inc exc i k s).2.frames (x :: calls) := by
  refine ⟨?_, h⟩
  rw [hlen, (chargeParents_sameAbove depth entry inc exc i k s).frames i le_rfl]
  exact hx

/-- **The loop over the parent frames** counts the open calls of the ended
call's function, charges the ended call to the one around it and credits the
innermost open call of the same function. -/
theorem chargeParents_spec {functions : List PhpFunction} {f : PhpFunction} (depth : ℕ)
    (inc exc : MetricValues) (calls : OpenCalls)
    (cycleDepth : ℕ) (s : TracerStack) (hlen : calls.length ≤ depth)
    (agree : FramesAgree functions s.frames calls) :
    let charged := if calls.length = depth then chargeHead inc calls else calls
    (chargeParents depth (functions.idxOf f) inc exc calls.length cycleDepth s).1
        = cycleDepth + openCount f calls
    ∧ FramesAgree functions
        (chargeParents depth (functions.idxOf f) inc exc calls.length cycleDepth s).2.frames
        (if cycleDepth = 0 then creditFirst f exc charged else charged) := by
  induction calls generalizing cycleDepth s with
  | nil => simp [chargeParents, openCount, FramesAgree, chargeHead, creditFirst]
  | cons x calls ih =>
    obtain ⟨hx, hrest⟩ := agree
    have hlt : calls.length < depth := hlen
    -- one turn of the loop, whatever it made of the frame it looked at
    have hturn : ∀ (k : ℕ) (s' : TracerStack) (y : Option OpenCall),
        FrameAgree functions (s'.frames calls.length) y → FramesAgree functions s'.frames calls →
        (chargeParents depth (functions.idxOf f) inc exc calls.length k s').1
            = k + openCount f calls
        ∧ FramesAgree functions
            (chargeParents depth (functions.idxOf f) inc exc calls.length k s').2.frames
            (y :: if k = 0 then creditFirst f exc calls else calls) := by
      intro k s' y hy hcalls
      obtain ⟨hcount, hagree⟩ := ih k s' hlt.le hcalls
      rw [if_neg hlt.ne] at hagree
      refine ⟨hcount, hagree.cons_chargeParents ?_ hy⟩
      split <;> simp
    cases x with
    | none =>
      have hnone : (s.frames calls.length).funcTableEntry = none := hx
      have h := hturn cycleDepth (s.touch calls.length) none hx hrest
      simp only [List.length_cons, chargeParents, hnone, chargeHead, ite_self, creditFirst]
      refine ⟨by simpa [openCount] using h.1, ?_⟩
      split <;> simp_all
    | some c =>
      have hmem : c.function ∈ functions := hx.1
      have hidx : (s.frames calls.length).funcTableEntry = some (functions.idxOf c.function) :=
        hx.2.1
      set c₁ : OpenCall :=
        if calls.length + 1 = depth then { c with children := c.children + inc } else c with hc₁
      have hcharged : (if calls.length + 1 = depth then chargeHead inc (some c :: calls)
          else some c :: calls) = some c₁ :: calls := by
        rw [hc₁]
        split <;> rfl
      have hfun : c₁.function = c.function := by
        rw [hc₁]
        split <;> rfl
      have hx₁ := hx.chargeFrame depth inc
      have hrest₁ := hrest.chargeFrame depth inc
      rw [← hc₁] at hx₁
      have hentry : functions.idxOf c.function = functions.idxOf f ↔ c.function = f :=
        List.idxOf_inj hmem
      simp only [List.length_cons, chargeParents_succ hidx, hcharged, hentry]
      by_cases hcf : c.function = f
      · have hcf₁ : c₁.function = f := hfun.trans hcf
        have hcount : cycleDepth + openCount f (some c :: calls)
            = cycleDepth + 1 + openCount f calls := by
          simp only [openCount, openFunctions_some, hcf, List.count_cons_self]
          omega
        rw [if_pos hcf, hcount]
        by_cases hz : cycleDepth = 0
        · -- the innermost open call of the function: it gets the credit
          simp only [hz, if_true, creditFirst]
          rw [if_pos hcf₁]
          simpa using hturn 1 _ _ (hx₁.credit exc) (hrest₁.modifyFrame _)
        · simpa [hz] using hturn (cycleDepth + 1) _ (some c₁) hx₁ hrest₁
      · have hcf₁ : c₁.function ≠ f := fun h => hcf (hfun.symm.trans h)
        have hcount : openCount f (some c :: calls) = openCount f calls := by
          simp only [openCount, openFunctions_some, List.count_cons_of_ne hcf]
        rw [if_neg hcf, hcount]
        have h := hturn cycleDepth _ (some c₁) hx₁ hrest₁
        refine ⟨h.1, ?_⟩
        by_cases hz : cycleDepth = 0
        · simpa [hz, creditFirst, hcf₁] using h.2
        · simpa [hz] using h.2

/-! ## The tail of the hooks -/

/-- A hook's tail changes the log of the collector and the notified events. -/
theorem notifyAndCompensate_eq (p : Tracer) (event : Event) (cost : ReporterCost)
    (noise : MetricValues) :
    ∃ calls, p.notifyAndCompensate event cost noise =
      { p with
        metricCollector := calls
        notified := if p.reporter = .given then p.notified ++ [event] else p.notified } := by
  obtain ⟨_, _, _, _, _, _, _, reporter⟩ := p
  cases reporter <;> cases cost <;> exact ⟨_, rfl⟩

/-- Writing statistics keeps the table's invariant. -/
theorem FuncTable.Ok.modifyStats {t : FuncTable} (ok : t.Ok) (idx : ℕ)
    (g : FuncStats → FuncStats) : (t.modifyStats idx g).Ok := by
  have hfun : (t.modifyStats idx g).functions = t.functions := by
    apply List.ext_getElem (by simp [FuncTable.modifyStats, FuncTable.functions])
    intro i hi hi'
    simp only [FuncTable.modifyStats, FuncTable.functions, List.getElem_map,
      List.getElem_modify]
    split <;> rfl
  refine ⟨ok.capacity_pos, ok.hmap_size, ?_, ok.wf, ok.filled, ok.cmp_eq, ?_, ?_, ?_⟩
  · simpa [FuncTable.modifyStats, FuncTable.size] using ok.size_le
  · rw [hfun]
    exact ok.nodup
  · intro i hi
    have hlt : i < t.entries.length := by simpa [FuncTable.modifyStats] using hi
    have hidx := ok.idx_eq i hlt
    simp only [FuncTable.modifyStats, List.getElem_modify]
    split <;> simpa using hidx
  · rw [hfun]
    exact ok.get_eq

/-- Opening a frame whose function found no room. -/
theorem openFrame_none {p : Tracer} {f : PhpFunction} (input : HookInput)
    (h : (p.funcTable.getEntry f).1 = none) :
    p.openFrame f input =
      { p with
        called := p.called + 1
        funcTable := (p.funcTable.getEntry f).2
        stack := p.stack.modifyFrame p.stack.depth fun frame =>
          { frame with funcTableEntry := none } } := by
  simp only [Tracer.openFrame, h]

/-- Opening a frame whose function was found. -/
theorem openFrame_some {p : Tracer} {f : PhpFunction} (input : HookInput) {idx : ℕ}
    (h : (p.funcTable.getEntry f).1 = some idx) :
    ∃ calls, p.openFrame f input =
      { p with
        metricCollector := calls
        called := p.called + 1
        funcTable := (p.funcTable.getEntry f).2
        stack :=
          ((p.stack.modifyFrame p.stack.depth fun frame =>
              { frame with funcTableEntry := some idx }).modifyFrame p.stack.depth fun _ =>
            ⟨some idx, input.reading, metricValuesZero, input.reading⟩).touchEvent
        notified :=
          if p.reporter = .given then
            p.notified ++ [fillEvent
              { p with
                called := p.called + 1
                funcTable := (p.funcTable.getEntry f).2 }
              .callStart p.stack.caller (some idx) none none]
          else p.notified } := by
  simp only [Tracer.openFrame, h]
  set s := ((p.stack.modifyFrame p.stack.depth fun frame =>
      { frame with funcTableEntry := some idx }).modifyFrame p.stack.depth fun _ =>
    ⟨some idx, input.reading, metricValuesZero, input.reading⟩) with hs
  have hframes : s.touchEvent.frames = s.frames := touchEvent_frames s
  have hcallee : (s.touchEvent.frames p.stack.depth).funcTableEntry = some idx := by
    rw [hframes, hs, modifyFrame_frames_self]
  have hcaller : s.touchEvent.caller = p.stack.caller := by
    unfold TracerStack.caller
    rw [touchEvent_depth, hframes]
    by_cases hd : p.stack.depth > 0
    · have hne : p.stack.depth - 1 ≠ p.stack.depth := by omega
      simp only [hs, TracerStack.modifyFrame, Function.update_of_ne hne]
    · simp only [hs, TracerStack.modifyFrame, hd, if_false]
  obtain ⟨calls, hc⟩ := notifyAndCompensate_eq
    { p with
      called := p.called + 1
      funcTable := (p.funcTable.getEntry f).2
      stack := s.touchEvent }
    (fillEvent
      { p with
        called := p.called + 1
        funcTable := (p.funcTable.getEntry f).2
        stack := s.touchEvent }
      .callStart s.touchEvent.caller (s.touchEvent.frames p.stack.depth).funcTableEntry none none)
    input.cost p.callStartNoise
  refine ⟨calls, hc.trans ?_⟩
  rw [hcallee, hcaller]
  simp only [fillEvent, touchEvent_depth]
  rfl

/-- The loop over the parent frames touches the frames up to the ended one. -/
theorem charged_sameAbove (p : Tracer) (entry : ℕ) (input : HookInput) :
    SameAbove (p.stack.depth + 1) p.stack (p.charged entry input).2 :=
  (sameAbove_modifyFrame p.stack p.stack.depth _).trans
    ((chargeParents_sameAbove ..).mono (Nat.le_succ _))

theorem openFrame_calibrated (p : Tracer) (f : PhpFunction) (input : HookInput) :
    (p.openFrame f input).calibrated = p.calibrated := by
  cases hfound : (p.funcTable.getEntry f).1 with
  | none => rw [openFrame_none input hfound]
  | some idx =>
    obtain ⟨calls, hc⟩ := openFrame_some input hfound
    rw [hc]

/-- Closing a frame. -/
theorem closeFrame_eq (p : Tracer) (entry : ℕ) (input : HookInput) :
    ∃ calls, p.closeFrame entry input =
      { p with
        metricCollector := calls
        stack := (p.charged entry input).2.touchEvent
        funcTable := p.funcTable.modifyStats entry fun stats =>
          stats.recordCall (p.charged entry input).1 (p.incMetricValues input)
            (p.excMetricValues input)
        notified :=
          if p.reporter = .given then
            p.notified ++ [fillEvent
              { p with
                stack := (p.charged entry input).2.touchEvent
                funcTable := p.funcTable.modifyStats entry fun stats =>
                  stats.recordCall (p.charged entry input).1 (p.incMetricValues input)
                    (p.excMetricValues input) }
              .callEnd (p.charged entry input).2.caller
              ((p.charged entry input).2.frames p.stack.depth).funcTableEntry
              (some (p.incMetricValues input)) (some (p.excMetricValues input))]
          else p.notified } := by
  obtain ⟨calls, hc⟩ := notifyAndCompensate_eq _ _ input.cost p.callEndNoise
  refine ⟨calls, hc.trans ?_⟩
  simp only [touchEvent_caller, touchEvent_frames, touchEvent_depth,
    (charged_sameAbove p entry input).depth]

/-! ## Calibration -/

/-- What a calibrating profiler keeps of the profiler `p₀` it calibrates. -/
structure Calibrating (p₀ p : Tracer) : Prop where
  finalized : p.finalized = false
  calibrated : p.calibrated = true
  reporter : p.reporter = .null
  enabledMetrics : p.enabledMetrics = p₀.enabledMetrics
  maxDepth : p.maxDepth = p₀.maxDepth
  stackCapacity : p.stack.capacity = p₀.stack.capacity
  notified : p.notified = p₀.notified
  table : p.funcTable.Ok
  tableCapacity : p.funcTable.capacity = p₀.funcTable.capacity
  accesses : ∀ a ∈ p.stack.accesses, a < p₀.maxDepth

/-- Opening a frame touches the frames up to it. -/
theorem openFrame_sameAbove (p : Tracer) (f : PhpFunction) (input : HookInput) :
    SameAbove (p.stack.depth + 1) p.stack (p.openFrame f input).stack := by
  cases hfound : (p.funcTable.getEntry f).1 with
  | none =>
    rw [openFrame_none input hfound]
    dsimp only
    exact sameAbove_modifyFrame ..
  | some idx =>
    obtain ⟨calls, hc⟩ := openFrame_some input hfound
    rw [hc]
    dsimp only
    exact ((sameAbove_modifyFrame ..).trans (sameAbove_modifyFrame ..)).trans
      (sameAbove_touchEvent rfl)

/-- Closing a frame touches the frames up to it. -/
theorem closeFrame_sameAbove (p : Tracer) (entry : ℕ) (input : HookInput) :
    SameAbove (p.stack.depth + 1) p.stack (p.closeFrame entry input).stack := by
  obtain ⟨calls, hc⟩ := closeFrame_eq p entry input
  have hup := charged_sameAbove p entry input
  rw [hc]
  exact hup.trans (sameAbove_touchEvent hup.depth)

theorem Calibrating.openFrame {p₀ p : Tracer} (h : Calibrating p₀ p)
    (hd : p.stack.depth < p₀.maxDepth) (f : PhpFunction) (input : HookInput) :
    Calibrating p₀ (p.openFrame f input) := by
  obtain ⟨htable, hcap, -⟩ := FuncTable.getEntry_spec h.table f
  have hstack := openFrame_sameAbove p f input
  have haccess : ∀ a ∈ (p.openFrame f input).stack.accesses, a < p₀.maxDepth :=
    hstack.accesses_lt h.accesses hd
  cases hfound : (p.funcTable.getEntry f).1 with
  | none =>
    rw [openFrame_none input hfound] at hstack haccess ⊢
    exact ⟨h.finalized, h.calibrated, h.reporter, h.enabledMetrics, h.maxDepth, h.stackCapacity,
      h.notified, htable, hcap.trans h.tableCapacity, haccess⟩
  | some idx =>
    obtain ⟨calls, hc⟩ := openFrame_some input hfound
    rw [hc] at hstack haccess ⊢
    refine ⟨h.finalized, h.calibrated, h.reporter, h.enabledMetrics, h.maxDepth,
      hstack.capacity.trans h.stackCapacity, ?_, htable, hcap.trans h.tableCapacity, haccess⟩
    simp [h.reporter, h.notified]

theorem Calibrating.closeFrame {p₀ p : Tracer} (h : Calibrating p₀ p)
    (hd : p.stack.depth < p₀.maxDepth) (entry : ℕ) (input : HookInput) :
    Calibrating p₀ (p.closeFrame entry input) := by
  have hstack := closeFrame_sameAbove p entry input
  have haccess : ∀ a ∈ (p.closeFrame entry input).stack.accesses, a < p₀.maxDepth :=
    hstack.accesses_lt h.accesses hd
  obtain ⟨calls, hc⟩ := closeFrame_eq p entry input
  rw [hc] at hstack haccess ⊢
  have htable := h.table.modifyStats entry fun stats =>
    stats.recordCall (p.charged entry input).1 (p.incMetricValues input) (p.excMetricValues input)
  refine ⟨h.finalized, h.calibrated, h.reporter, h.enabledMetrics, h.maxDepth,
    hstack.capacity.trans h.stackCapacity, ?_, htable, h.tableCapacity, haccess⟩
  simp [h.reporter, h.notified]

theorem Calibrating.callStart {p₀ p : Tracer} (h : Calibrating p₀ p)
    (hact : p.active = true → p.stack.depth < p₀.maxDepth) (f : PhpFunction) (input : HookInput) :
    ∃ q, callStartWith .ok p f input = .ok q ∧ Calibrating p₀ q
      ∧ q.stack.depth = p.stack.depth + 1 ∧ (q.active = true → q.stack.depth < p₀.maxDepth) := by
  have hpush : ∀ {r : Tracer}, Calibrating p₀ r → Calibrating p₀ r.pushed
      ∧ (r.pushed.active = true → r.pushed.stack.depth < p₀.maxDepth) := by
    intro r hr
    refine ⟨⟨hr.finalized, hr.calibrated, hr.reporter, hr.enabledMetrics, hr.maxDepth,
      hr.stackCapacity, hr.notified, hr.table, hr.tableCapacity, hr.accesses⟩, fun hact => ?_⟩
    rw [← hr.maxDepth]
    exact of_decide_eq_true hact
  unfold callStartWith
  rw [if_neg (by simp [h.finalized])]
  cases hactive : p.active with
  | false =>
    obtain ⟨hcal, hdepth⟩ := hpush h
    exact ⟨p.pushed, rfl, hcal, rfl, hdepth⟩
  | true =>
    have hrec : Calibrating p₀ ((p.recordFirst input.reading).record input.reading) := by
      unfold Tracer.recordFirst
      split <;>
        exact ⟨h.finalized, h.calibrated, h.reporter, h.enabledMetrics, h.maxDepth,
          h.stackCapacity, h.notified, h.table, h.tableCapacity, h.accesses⟩
    have hdepth : ((p.recordFirst input.reading).record input.reading).stack.depth
        = p.stack.depth := by
      unfold Tracer.recordFirst
      split <;> rfl
    have hopen := hrec.openFrame (by rw [hdepth]; exact hact hactive) f input
    obtain ⟨hcal, hlt⟩ := hpush hopen
    refine ⟨_, by rw [if_neg (by simp), ite_self]; rfl, hcal, ?_, hlt⟩
    show (Tracer.openFrame _ f input).stack.depth + 1 = p.stack.depth + 1
    rw [(openFrame_sameAbove _ f input).depth, hdepth]

theorem Calibrating.callEnd {p₀ p : Tracer} (h : Calibrating p₀ p) (hd : 0 < p.stack.depth)
    (input : HookInput) :
    ∃ q, tracingProfilerCallEnd p input = .ok q ∧ Calibrating p₀ q
      ∧ q.stack.depth = p.stack.depth - 1 := by
  unfold tracingProfilerCallEnd
  rw [if_neg (by simp [h.finalized]), if_neg (by omega)]
  have hpop : Calibrating p₀ p.popped :=
    ⟨h.finalized, h.calibrated, h.reporter, h.enabledMetrics, h.maxDepth, h.stackCapacity,
      h.notified, h.table, h.tableCapacity, h.accesses⟩
  cases hactive : p.popped.active with
  | false => exact ⟨p.popped, by simp [hactive], hpop, rfl⟩
  | true =>
    have hlt : p.stack.depth - 1 < p₀.maxDepth := by
      rw [← h.maxDepth]
      exact of_decide_eq_true hactive
    have hrec : Calibrating p₀ (p.popped.record input.reading) :=
      ⟨h.finalized, h.calibrated, h.reporter, h.enabledMetrics, h.maxDepth, h.stackCapacity,
        h.notified, h.table, h.tableCapacity, h.accesses⟩
    dsimp only
    rw [if_neg (by simp [hactive])]
    split
    · refine ⟨_, rfl, ⟨h.finalized, h.calibrated, h.reporter, h.enabledMetrics, h.maxDepth,
        h.stackCapacity, h.notified, h.table, h.tableCapacity, ?_⟩, rfl⟩
      exact (sameAbove_touch _ _).accesses_lt h.accesses hlt
    · exact ⟨_, rfl, hrec.closeFrame hlt _ input, (closeFrame_sameAbove ..).depth⟩

theorem Calibrating.setDepth {p₀ p : Tracer} (h : Calibrating p₀ p) (d : ℕ) :
    Calibrating p₀ { p with stack := { p.stack with depth := d } } :=
  ⟨h.finalized, h.calibrated, h.reporter, h.enabledMetrics, h.maxDepth, h.stackCapacity,
    h.notified, h.table, h.tableCapacity, h.accesses⟩

theorem calibrateStarts_spec {p₀ p : Tracer} (h : Calibrating p₀ p)
    (hact : p.active = true → p.stack.depth < p₀.maxDepth) (f : PhpFunction)
    (readings : ℕ → MetricValues) (n : ℕ) :
    ∃ q, calibrateStarts f readings n p = .ok q ∧ Calibrating p₀ q
      ∧ (q.active = true → q.stack.depth < p₀.maxDepth) ∧ (0 < n → 0 < q.stack.depth) := by
  induction n with
  | zero => exact ⟨p, rfl, h, hact, fun h0 => absurd h0 (lt_irrefl 0)⟩
  | succ n ih =>
    obtain ⟨q, hq, hcal, hlt, -⟩ := ih
    obtain ⟨r, hr, hcal', hdepth, hlt'⟩ := hcal.callStart hlt f ⟨readings n, .light⟩
    refine ⟨{ r with
      stack := { r.stack with depth := if r.stack.depth > 5 then 5 else r.stack.depth } },
      ?_, hcal'.setDepth _, fun hactive => ?_, fun _ => ?_⟩
    · simp only [calibrateStarts, hq, Except.bind, hr, Except.map]
    · have hle := hlt' hactive
      dsimp only
      split <;> omega
    · dsimp only
      split <;> omega

theorem calibrateEnds_spec {p₀ p : Tracer} (h : Calibrating p₀ p) (hd : 0 < p.stack.depth)
    (readings : ℕ → MetricValues) (n : ℕ) :
    ∃ q, calibrateEnds readings n p = .ok q ∧ Calibrating p₀ q ∧ 0 < q.stack.depth := by
  induction n with
  | zero => exact ⟨p, rfl, h, hd⟩
  | succ n ih =>
    obtain ⟨q, hq, hcal, hpos⟩ := ih
    obtain ⟨r, hr, hcal', hdepth⟩ := hcal.callEnd hpos ⟨readings n, .light⟩
    refine ⟨{ r with stack := { r.stack with depth := r.stack.depth + 1 } }, ?_,
      hcal'.setDepth _, Nat.succ_pos _⟩
    simp only [calibrateEnds, hq, Except.bind, hr, Except.map]

/-- What a calibration leaves: an empty profile, with the noise measured. -/
structure Calibrated (p q : Tracer) : Prop where
  finalized : q.finalized = false
  calibrated : q.calibrated = true
  reporter : q.reporter = p.reporter
  enabledMetrics : q.enabledMetrics = p.enabledMetrics
  maxDepth : q.maxDepth = p.maxDepth
  stackCapacity : q.stack.capacity = p.stack.capacity
  notified : q.notified = p.notified
  table : q.funcTable.Ok
  tableCapacity : q.funcTable.capacity = p.funcTable.capacity
  entries : q.funcTable.entries = []
  accesses : ∀ a ∈ q.stack.accesses, a < p.maxDepth
  called : q.called = 0
  depth : q.stack.depth = 0

/-- **A calibration** never fails, notifies nothing and leaves no trace in the
profile. -/
theorem calibrateFor_spec (n : ℕ) {p : Tracer} (hfin : p.finalized = false)
    (htable : p.funcTable.Ok) (hact : p.active = true → p.stack.depth < p.maxDepth)
    (haccess : ∀ a ∈ p.stack.accesses, a < p.maxDepth) (f : PhpFunction)
    (input : CalibrationInput) :
    ∃ q, calibrateFor n f input p = .ok q ∧ Calibrated p q := by
  have h₀ : Calibrating p { p with calibrated := true, reporter := .null } :=
    ⟨hfin, rfl, rfl, rfl, rfl, rfl, rfl, htable, rfl, haccess⟩
  obtain ⟨q, hq, hcal, -, hpos⟩ := calibrateStarts_spec h₀ hact f input.startReading n
  have hcal' : Calibrating p { q with
      callStartNoise := timeNoise q.callStartNoise
        ((input.cpuStarted - input.cpuStart) / UInt64.ofNat n) } :=
    ⟨hcal.finalized, hcal.calibrated, hcal.reporter, hcal.enabledMetrics, hcal.maxDepth,
      hcal.stackCapacity, hcal.notified, hcal.table, hcal.tableCapacity, hcal.accesses⟩
  have hends : ∃ r, calibrateEnds input.endReading n { q with
      callStartNoise := timeNoise q.callStartNoise
        ((input.cpuStarted - input.cpuStart) / UInt64.ofNat n) } = .ok r ∧ Calibrating p r := by
    rcases Nat.eq_zero_or_pos n with rfl | hn
    · exact ⟨_, rfl, hcal'⟩
    · obtain ⟨r, hr, hcal'', -⟩ := calibrateEnds_spec hcal' (hpos hn) input.endReading n
      exact ⟨r, hr, hcal''⟩
  obtain ⟨r, hr, hcal''⟩ := hends
  have ht := hcal''.table
  refine ⟨_, by simp only [calibrateFor, hq, Except.bind, hr, Except.map]; rfl, ?_⟩
  exact
    { finalized := hcal''.finalized
      calibrated := hcal''.calibrated
      reporter := rfl
      enabledMetrics := hcal''.enabledMetrics
      maxDepth := hcal''.maxDepth
      stackCapacity := hcal''.stackCapacity
      notified := hcal''.notified
      table := FuncTable.ok_reset ht.capacity_pos ht.hmap_size ht.wf ht.filled ht.cmp_eq
      tableCapacity := hcal''.tableCapacity
      entries := rfl
      accesses := hcal''.accesses
      called := rfl
      depth := rfl }

/-! ## The relation -/

/-- A profiler shows the state of the abstract machine. -/
structure Refines (p : Tracer) (L : Live) : Prop where
  ok : L.Ok
  finalized : p.finalized = L.finalized
  enabledMetrics : p.enabledMetrics = L.enabledMetrics
  reporter : p.reporter = .given
  maxDepth : p.maxDepth = L.maxDepth
  stackCapacity : p.maxDepth ≤ p.stack.capacity
  accesses : ∀ a ∈ p.stack.accesses, a < p.maxDepth
  depth : p.stack.depth = L.depth
  frames : FramesAgree L.functions p.stack.frames L.frames
  table : p.funcTable.Ok
  tableCapacity : p.funcTable.capacity = L.capacity
  entries : p.funcTable.entries = L.entries
  called : p.called = L.called
  first : p.firstMetricValues = L.first
  cum : p.cumMetricValues = L.cum
  max : p.maxMetricValues = L.max
  notified : p.notified = L.notified

/-- Between two hooks of a profiler that is not finalized, the flag `active`
tells whether the next call is followed. -/
def Tracer.Poised (p : Tracer) : Prop :=
  p.finalized = false → p.active = decide (p.stack.depth < p.maxDepth)

/-- Between two hooks of a profiler that is not finalized, the flag `active`
tells whether the next call is followed, and exactly the profilers that have
been used are calibrated. -/
structure Idle (p : Tracer) : Prop where
  active : p.finalized = false → p.active = decide (p.stack.depth < p.maxDepth)
  calibrated : p.calibrated = true ↔ p.called ≠ 0

theorem Refines.functions {p : Tracer} {L : Live} (h : Refines p L) :
    p.funcTable.functions = L.functions := by
  rw [FuncTable.functions, h.entries, Live.entries]
  refine List.ext_getElem (by simp) fun i hi hi' => by simp

/-- What an event shows of the two states. -/
theorem fillEvent_eq {p : Tracer} {L : Live} {type : EventType} {caller caller' : Option ℕ}
    {callee : Option ℕ} {inc exc : Option MetricValues}
    (henabled : p.enabledMetrics = L.enabledMetrics) (hcalled : p.called = L.called)
    (hmax : p.maxMetricValues = L.max) (hcum : p.cumMetricValues = L.cum)
    (hcap : p.funcTable.capacity = L.capacity) (hentries : p.funcTable.entries = L.entries)
    (hdepth : p.stack.depth = L.depth) (hcaller : caller = caller') :
    fillEvent p type caller callee inc exc = L.event type caller' callee inc exc := by
  have hsize : L.entries.length = L.functions.length := List.length_mapIdx
  simp only [fillEvent, Live.event, henabled, hcalled, hmax, hcum, FuncTable.size, hcap, hentries,
    hdepth, hcaller, hsize]

theorem maxDepth_create_le (limits : Limits) (zendInlineHashFunc : String → UInt64)
    (maxDepth : ℕ) (enabledMetrics : Metric → Bool) (junk : MetricValues) :
    (spxProfilerTracerCreate limits zendInlineHashFunc maxDepth enabledMetrics junk).maxDepth
      ≤ limits.maxStackDepth := by
  simp only [spxProfilerTracerCreate]
  split <;> omega

/-- A new profiler is the initial state of the machine. -/
theorem refines_create (limits : Limits) (zendInlineHashFunc : String → UInt64) (maxDepth : ℕ)
    (enabledMetrics : Metric → Bool) (junk : MetricValues) :
    let p := spxProfilerTracerCreate limits zendInlineHashFunc maxDepth enabledMetrics junk
    Refines p (Live.init limits.maxFunctionTableSize p.maxDepth enabledMetrics junk) ∧ Idle p := by
  have hpos : 0 < (spxProfilerTracerCreate limits zendInlineHashFunc maxDepth enabledMetrics
      junk).maxDepth := by
    have := limits.maxStackDepth_pos
    simp only [spxProfilerTracerCreate]
    split <;> omega
  have hle := maxDepth_create_le limits zendInlineHashFunc maxDepth enabledMetrics junk
  refine ⟨⟨Live.ok_init _ hpos _ _, rfl, rfl, rfl, rfl, hle, fun a ha => absurd ha
    List.not_mem_nil, rfl, trivial, ok_funcTableCreate _ limits.maxFunctionTableSize_pos, rfl, rfl,
    rfl, rfl, rfl, rfl, rfl⟩, fun _ => ?_, ?_⟩
  · exact (decide_eq_true hpos).symm
  · simp [spxProfilerTracerCreate]

/-! ## A call starts -/

/-- The entries after a lookup: a new entry has the statistics `zero`. -/
theorem entries_recordFunction {L : Live} (ok : L.Ok) (f : PhpFunction) :
    ({ L with functions := recordFunction L.capacity L.functions f } : Live).entries
      = if f ∈ L.functions ∨ L.functions.length = L.capacity then L.entries
        else L.entries ++ [⟨L.functions.length, f, FuncStats.zero⟩] := by
  unfold recordFunction
  split
  · rfl
  · rename_i hnew
    rw [Live.entries, List.mapIdx_append]
    simp [Live.entries, ok.unrecorded f (not_or.1 hnew).1]

/-- What a lookup answers for a recorded function. -/
theorem findIdx?_recordFunction {capacity : ℕ} {fs : List PhpFunction} {f : PhpFunction} :
    (recordFunction capacity fs f).findIdx? (· = f)
      = if f ∈ recordFunction capacity fs f then
          some ((recordFunction capacity fs f).idxOf f) else none := by
  split
  · rename_i h
    exact findIdx?_eq_some_of_mem h
  · rename_i h
    exact findIdx?_eq_none_of_notMem h

theorem Refines.sample {p : Tracer} {L : Live} (h : Refines p L) (reading : MetricValues) :
    Refines ((p.recordFirst reading).record reading) (L.sample reading) := by
  have hok : (L.sample reading).Ok := ⟨h.ok.maxDepth_pos, h.ok.visible, h.ok.hidden_eq, h.ok.nodup,
    h.ok.length_le, h.ok.open_mem, h.ok.unrecorded, h.ok.fresh⟩
  unfold Tracer.recordFirst
  by_cases hc : p.called = 0
  · have hc' : L.called = 0 := h.called ▸ hc
    rw [if_pos hc]
    exact ⟨hok, h.finalized, h.enabledMetrics, h.reporter, h.maxDepth, h.stackCapacity, h.accesses,
      h.depth, h.frames, h.table, h.tableCapacity, h.entries, h.called,
      by simp [Live.sample, hc', Tracer.record], by simp [Live.sample, hc', Tracer.record],
      by simp [Live.sample, hc', Tracer.record], h.notified⟩
  · have hc' : L.called ≠ 0 := h.called ▸ hc
    rw [if_neg hc]
    exact ⟨hok, h.finalized, h.enabledMetrics, h.reporter, h.maxDepth, h.stackCapacity, h.accesses,
      h.depth, h.frames, h.table, h.tableCapacity, h.entries, h.called,
      by simp [Live.sample, hc', Tracer.record, h.first],
      by simp [Live.sample, hc', Tracer.record, h.first],
      by simp [Live.sample, hc', Tracer.record, h.max], h.notified⟩

/-- Filling a frame is opening a call. -/
theorem Refines.openFrame {p : Tracer} {L : Live} (h : Refines p L) (hz : L.hidden = 0)
    (f : PhpFunction) (input : HookInput) (hlt : L.depth < L.maxDepth)
    (hok : (if f ∈ (L.lookup f).functions then (L.lookup f).follow f input.reading
      else (L.lookup f).skip).Ok) :
    Refines (p.openFrame f input).pushed
      (if f ∈ (L.lookup f).functions then (L.lookup f).follow f input.reading
        else (L.lookup f).skip) := by
  obtain ⟨htable, hcap, -, hfound, hentries⟩ := FuncTable.getEntry_spec h.table f
  rw [h.functions, h.tableCapacity, findIdx?_recordFunction] at hfound
  have hdepth : p.stack.depth = L.frames.length := by rw [h.depth, Live.depth, hz, Nat.add_zero]
  have hpushed : p.stack.depth + 1 = L.frames.length + 1 + L.hidden := by omega
  have hentries' : (p.funcTable.getEntry f).2.entries = (L.lookup f).entries := by
    have hsize : p.funcTable.size = L.functions.length := by
      rw [← h.functions, FuncTable.functions, List.length_map, FuncTable.size]
    rw [hentries, h.functions, h.tableCapacity, hsize, h.entries]
    exact (entries_recordFunction h.ok f).symm
  have hframes : FramesAgree (L.lookup f).functions p.stack.frames L.frames :=
    h.frames.recordFunction L.capacity f
  have hstack := openFrame_sameAbove p f input
  have hbelow : p.stack.depth + 1 ≤ p.maxDepth := by
    rw [h.depth, h.maxDepth]
    exact hlt
  have haccess : ∀ a ∈ (p.openFrame f input).stack.accesses, a < p.maxDepth :=
    hstack.accesses_lt h.accesses hbelow
  have hcaller : p.stack.caller = (L.lookup f).caller := hframes.caller hdepth
  by_cases hmem : f ∈ (L.lookup f).functions
  · have hsome : (p.funcTable.getEntry f).1 = some ((L.lookup f).idx f) :=
      hfound.trans (if_pos hmem)
    rw [if_pos hmem] at hok ⊢
    obtain ⟨calls, hc⟩ := openFrame_some input hsome
    rw [hc] at haccess hstack ⊢
    refine ⟨hok, h.finalized, h.enabledMetrics, h.reporter, h.maxDepth,
      hstack.capacity ▸ h.stackCapacity, haccess, ?_, ⟨?_, ?_⟩, htable, hcap.trans h.tableCapacity,
      hentries', congrArg (· + 1) h.called, h.first, h.cum, h.max, ?_⟩
    · dsimp only [Tracer.pushed]
      rw [touchEvent_depth]
      exact hpushed
    · dsimp only [Tracer.pushed, Live.lookup]
      rw [touchEvent_frames, hdepth, modifyFrame_frames_self]
      exact ⟨hmem, rfl, rfl, metricValuesZero_eq⟩
    · dsimp only [Tracer.pushed]
      rw [touchEvent_frames, hdepth]
      exact (hframes.modifyFrame _).modifyFrame _
    · have hevent : fillEvent
          { p with
            called := p.called + 1
            funcTable := (p.funcTable.getEntry f).2 }
          .callStart p.stack.caller (some ((L.lookup f).idx f)) none none
          = (L.lookup f).event .callStart (L.lookup f).caller (some ((L.lookup f).idx f)) none
              none :=
        fillEvent_eq h.enabledMetrics (congrArg (· + 1) h.called) h.max h.cum
          (hcap.trans h.tableCapacity) hentries' h.depth hcaller
      dsimp only [Tracer.pushed]
      rw [if_pos h.reporter, hevent, h.notified]
      rfl
  · have hnone : (p.funcTable.getEntry f).1 = none := hfound.trans (if_neg hmem)
    rw [if_neg hmem] at hok ⊢
    rw [openFrame_none input hnone] at haccess ⊢
    refine ⟨hok, h.finalized, h.enabledMetrics, h.reporter, h.maxDepth, h.stackCapacity, haccess,
      ?_, ⟨?_, ?_⟩, htable, hcap.trans h.tableCapacity, hentries', congrArg (· + 1) h.called, h.first,
      h.cum, h.max, h.notified⟩
    · exact hpushed
    · dsimp only [Tracer.pushed, Live.lookup]
      rw [hdepth, modifyFrame_frames_self]
      rfl
    · dsimp only [Tracer.pushed]
      rw [hdepth]
      exact hframes.modifyFrame _

/-- The body of a call start, on a profiler below its depth limit. -/
theorem Refines.body {p : Tracer} {L : Live} (h : Refines p L) (hfin : L.finalized = false)
    (hd : L.depth < L.maxDepth) (f : PhpFunction) (input : HookInput) :
    Refines (((p.recordFirst input.reading).record input.reading).openFrame f input).pushed
      (L.callStart f input.reading) := by
  have hstart : L.callStart f input.reading
      = if f ∈ ((L.sample input.reading).lookup f).functions then
          ((L.sample input.reading).lookup f).follow f input.reading
        else ((L.sample input.reading).lookup f).skip := by
    simp [Live.callStart, hfin, not_le.2 hd]
  have hok := h.ok.callStart f input.reading
  rw [hstart] at hok ⊢
  exact (h.sample input.reading).openFrame (h.ok.hidden_eq_zero hd) f input hd hok

/-- The profiler with which the body of a call start goes on: the given one, or
the freshly calibrated one. -/
theorem Refines.prepare {p : Tracer} {L : Live} (h : Refines p L) (poised : p.Poised) (n : ℕ)
    (hfin : L.finalized = false) (f : PhpFunction) (calibration : CalibrationInput)
    (r : MetricValues) :
    ∃ q M, (if p.called = 0 ∧ p.calibrated = false then calibrateFor n f calibration p else .ok p)
        = .ok q
      ∧ Refines q M ∧ M.finalized = false ∧ M.depth = L.depth ∧ M.maxDepth = L.maxDepth
      ∧ M.callStart f r = L.callStart f r
      ∧ ((p.called ≠ 0 → p.calibrated = true) → q.calibrated = true) := by
  have hfin' : p.finalized = false := h.finalized.trans hfin
  by_cases hc : p.called = 0 ∧ p.calibrated = false
  · rw [if_pos hc]
    have hc' : L.called = 0 := h.called ▸ hc.1
    obtain ⟨hframes, hz, hfuns⟩ := h.ok.fresh hc'
    have hact : p.active = true → p.stack.depth < p.maxDepth := fun ha => by
      rw [poised hfin'] at ha
      exact of_decide_eq_true ha
    obtain ⟨q, hq, hcal⟩ := calibrateFor_spec n hfin' h.table hact h.accesses f calibration
    have hmem : ∀ a ∈ q.stack.accesses, a < q.maxDepth := fun a ha => by
      rw [hcal.maxDepth]
      exact hcal.accesses a ha
    have hentries : q.funcTable.entries = L.entries := by
      rw [hcal.entries, Live.entries, hfuns]
      rfl
    have hdepth : q.stack.depth = L.depth := by
      rw [hcal.depth, Live.depth, hframes, hz]
      rfl
    have hagree : FramesAgree L.functions q.stack.frames L.frames := by
      rw [hframes]
      trivial
    have hok := h.ok
    refine ⟨q,
      { L with
        first := q.firstMetricValues
        cum := q.cumMetricValues
        max := q.maxMetricValues },
      hq,
      ⟨⟨hok.maxDepth_pos, hok.visible, hok.hidden_eq, hok.nodup, hok.length_le, hok.open_mem,
          hok.unrecorded, hok.fresh⟩,
        hcal.finalized.trans hfin.symm, hcal.enabledMetrics.trans h.enabledMetrics,
        hcal.reporter.trans h.reporter, hcal.maxDepth.trans h.maxDepth, ?_, hmem, hdepth, hagree,
        hcal.table, hcal.tableCapacity.trans h.tableCapacity, hentries,
        hcal.called.trans hc'.symm, rfl, rfl, rfl, hcal.notified.trans h.notified⟩,
      hfin, rfl, rfl, ?_, fun _ => hcal.calibrated⟩
    · rw [hcal.maxDepth, hcal.stackCapacity]
      exact h.stackCapacity
    · -- the first reading overwrites what the calibration left
      have hroom : L.maxDepth ≠ 0 := hok.maxDepth_pos.ne'
      simp [Live.callStart, Live.depth, Live.sample, Live.lookup, hc', hfin, hframes, hz, hroom]
  · rw [if_neg hc]
    refine ⟨p, L, rfl, h, hfin, rfl, rfl, rfl, ?_⟩
    intro hused
    by_cases h0 : p.called = 0
    · exact Bool.not_eq_false _ |>.mp fun hfresh => hc ⟨h0, hfresh⟩
    · exact hused h0

/-- **A call start refines**, with a calibration of any length, and uses the profiler. -/
theorem Refines.callStartFor {p : Tracer} {L : Live} (h : Refines p L) (poised : p.Poised) (n : ℕ)
    (f : PhpFunction) (input : HookInput) (calibration : CalibrationInput) :
    ∃ q, callStartWith (calibrateFor n f calibration) p f input = .ok q
      ∧ Refines q (L.callStart f input.reading) ∧ q.Poised
      ∧ ((p.calibrated = true ↔ p.called ≠ 0) → (q.calibrated = true ↔ q.called ≠ 0)) := by
  unfold callStartWith
  cases hfin : L.finalized with
  | true =>
    have hstart : L.callStart f input.reading = L := by simp [Live.callStart, hfin]
    rw [hstart, if_pos (h.finalized.trans hfin)]
    exact ⟨p, rfl, h, poised, id⟩
  | false =>
    have hfin' : p.finalized = false := h.finalized.trans hfin
    rw [if_neg (by simp [hfin']), poised hfin', h.depth, h.maxDepth]
    by_cases hd : L.maxDepth ≤ L.depth
    · have hstart : L.callStart f input.reading = { L with hidden := L.hidden + 1 } := by
        simp [Live.callStart, hfin, hd]
      have hok := h.ok.callStart f input.reading
      rw [hstart] at hok ⊢
      rw [if_pos (by simpa using hd)]
      refine ⟨p.pushed, rfl, ⟨hok, h.finalized, h.enabledMetrics, h.reporter, h.maxDepth,
        h.stackCapacity, h.accesses, congrArg (· + 1) h.depth, h.frames, h.table, h.tableCapacity,
        h.entries, h.called, h.first, h.cum, h.max, h.notified⟩, fun _ => rfl, id⟩
    · rw [if_neg (by simpa using hd)]
      obtain ⟨q, M, hq, hM, hfinM, hdepth, hmax, hstart, hcal⟩ :=
        h.prepare poised n hfin f calibration input.reading
      rw [hq, ← hstart]
      have hlt : M.depth < M.maxDepth := by omega
      have href := hM.body hfinM hlt f input
      have hcalled : (M.callStart f input.reading).called ≠ 0 := by
        rcases M.callStart_cases f input.reading with ⟨hf, -⟩ | ⟨-, hge, -⟩ | ⟨-, -, -, he⟩
          | ⟨-, -, -, he⟩
        · rw [hfinM] at hf
          cases hf
        · omega
        · rw [he]
          exact Nat.succ_ne_zero _
        · rw [he]
          exact Nat.succ_ne_zero _
      refine ⟨_, rfl, href, fun _ => rfl, ?_⟩
      intro hused
      rw [href.called]
      refine iff_of_true ?_ hcalled
      show (Tracer.openFrame _ f input).calibrated = true
      rw [openFrame_calibrated]
      unfold Tracer.recordFirst
      split <;> exact hcal hused.mpr

theorem Refines.callStart {p : Tracer} {L : Live} (h : Refines p L) (idle : Idle p)
    (f : PhpFunction) (input : HookInput) (calibration : CalibrationInput) :
    ∃ q, tracingProfilerCallStart p f input calibration = .ok q
      ∧ Refines q (L.callStart f input.reading) ∧ Idle q := by
  obtain ⟨q, hq, href, hactive, hcal⟩ :=
    h.callStartFor idle.active calibrationIterCount f input calibration
  exact ⟨q, hq, href, hactive, hcal idle.calibrated⟩

/-! ## A call ends -/

/-- Writing the statistics of a recorded function writes one entry. -/
theorem entries_update {L : Live} (ok : L.Ok) {f : PhpFunction} (hf : f ∈ L.functions)
    (g : FuncStats → FuncStats) :
    ({ L with stats := Function.update L.stats f (g (L.stats f)) } : Live).entries
      = L.entries.modify (L.functions.idxOf f) fun entry =>
          { entry with stats := g entry.stats } := by
  apply List.ext_getElem (by simp [Live.entries])
  intro i hi hi'
  have hi'' : i < L.functions.length := by simpa [Live.entries] using hi
  simp only [Live.entries, List.getElem_mapIdx, List.getElem_modify]
  by_cases hif : L.functions.idxOf f = i
  · subst hif
    simp
  · have hne : L.functions[i] ≠ f := by
      rintro rfl
      exact hif (ok.nodup.idxOf_getElem i hi'')
    simp [hif, Function.update_of_ne hne]

/-- The readings of a call end, with the ended call's frame dropped. -/
theorem Refines.collect {p : Tracer} {L : Live} (h : Refines p L) (hz : L.hidden = 0)
    {x : Option OpenCall} {frames : OpenCalls} (hfr : L.frames = x :: frames) (r : MetricValues) :
    Refines (p.popped.record r) (L.collect frames r) := by
  have hdepth : p.stack.depth - 1 = frames.length + L.hidden := by
    rw [h.depth, Live.depth, hfr, List.length_cons]
    omega
  have hframes := h.frames
  rw [hfr] at hframes
  exact ⟨h.ok.collect hz hfr r, h.finalized, h.enabledMetrics, h.reporter, h.maxDepth,
    h.stackCapacity, h.accesses, hdepth, hframes.2, h.table, h.tableCapacity, h.entries, h.called,
    h.first, by simp [Tracer.record, Tracer.popped, Live.collect, h.first],
    by simp [Tracer.record, Tracer.popped, Live.collect, h.max], h.notified⟩

/-- Closing the frame of a followed call is settling it. -/
theorem Refines.closeFrame {p : Tracer} {L : Live} (h : Refines p L) (hz : L.hidden = 0)
    (hlt : L.depth < L.maxDepth) (hcalled : L.called ≠ 0) {c : OpenCall}
    (hc : FrameAgree L.functions (p.stack.frames p.stack.depth) (some c)) (input : HookInput) :
    Refines (p.closeFrame (L.functions.idxOf c.function) input) (L.settle c input.reading) := by
  obtain ⟨hmem, hentry, hstart, hchildren⟩ := hc
  have hdepth : p.stack.depth = L.frames.length := by rw [h.depth, Live.depth, hz, Nat.add_zero]
  have hinc : p.incMetricValues input = input.reading - c.start := by
    rw [Tracer.incMetricValues, hstart, metricValuesSub_eq]
  have hexc : p.excMetricValues input = input.reading - c.start - c.children := by
    rw [Tracer.excMetricValues, hinc, hchildren, metricValuesSub_eq]
  have hcharged : (p.charged (L.functions.idxOf c.function) input).1
        = openCount c.function L.frames
      ∧ FramesAgree L.functions (p.charged (L.functions.idxOf c.function) input).2.frames
          (creditFirst c.function (input.reading - c.start - c.children)
            (chargeHead (input.reading - c.start) L.frames)) := by
    have hagree : FramesAgree L.functions
        (p.stack.modifyFrame p.stack.depth fun frame =>
          { frame with
            peakMetricValues := metricValuesMax frame.peakMetricValues input.reading }).frames
        L.frames := by
      rw [hdepth]
      exact h.frames.modifyFrame _
    have hspec := chargeParents_spec (f := c.function) p.stack.depth (input.reading - c.start)
      (input.reading - c.start - c.children) L.frames 0 _ hdepth.ge hagree
    rw [← hdepth, Nat.zero_add, if_pos rfl] at hspec
    rw [Tracer.charged, hinc, hexc]
    exact hspec
  have hcallee : ((p.charged (L.functions.idxOf c.function) input).2.frames
      p.stack.depth).funcTableEntry = some (L.idx c.function) := by
    rw [Tracer.charged, (chargeParents_sameAbove ..).frames _ le_rfl, modifyFrame_frames_self]
    exact hentry
  have hup := charged_sameAbove p (L.functions.idxOf c.function) input
  have hlen : (creditFirst c.function (input.reading - c.start - c.children)
      (chargeHead (input.reading - c.start) L.frames)).length = L.frames.length := by
    rw [length_creditFirst, length_chargeHead]
  have hcaller := hcharged.2.caller (hup.depth.trans (hdepth.trans hlen.symm))
  have hentries := entries_update h.ok hmem fun stats =>
    stats.recordCall (openCount c.function L.frames) (input.reading - c.start)
      (input.reading - c.start - c.children)
  have hstack := closeFrame_sameAbove p (L.functions.idxOf c.function) input
  obtain ⟨calls, hclose⟩ := closeFrame_eq p (L.functions.idxOf c.function) input
  rw [hclose] at hstack ⊢
  rw [hcallee, hcharged.1, hinc, hexc]
  have htable := h.table.modifyStats (L.functions.idxOf c.function) fun stats =>
    stats.recordCall (openCount c.function L.frames) (input.reading - c.start)
      (input.reading - c.start - c.children)
  have hsettled : (L.settle c input.reading).depth = L.depth := by
    simp [Live.settle, Live.depth]
  have hentries' : (p.funcTable.modifyStats (L.functions.idxOf c.function) fun stats =>
      stats.recordCall (openCount c.function L.frames) (input.reading - c.start)
        (input.reading - c.start - c.children)).entries = (L.settle c input.reading).entries := by
    rw [FuncTable.modifyStats, h.entries]
    exact hentries.symm
  refine ⟨h.ok.settle hmem hcalled _, h.finalized, h.enabledMetrics, h.reporter, h.maxDepth,
    hstack.capacity ▸ h.stackCapacity, ?_, ?_, ?_, htable, h.tableCapacity, hentries',
    h.called, h.first, h.cum, h.max, ?_⟩
  · have hbelow : p.stack.depth + 1 ≤ p.maxDepth := by
      rw [h.depth, h.maxDepth]
      exact hlt
    exact hstack.accesses_lt h.accesses hbelow
  · rw [hsettled, ← h.depth]
    exact hstack.depth
  · rw [touchEvent_frames]
    exact hcharged.2
  · rw [if_pos h.reporter, h.notified, Live.settle]
    dsimp only
    congr 2
    exact fillEvent_eq h.enabledMetrics h.called h.max h.cum h.tableCapacity hentries'
      ((hstack.depth.trans h.depth).trans hsettled.symm) hcaller

theorem closeFrame_calibrated (p : Tracer) (entry : ℕ) (input : HookInput) :
    (p.closeFrame entry input).calibrated = p.calibrated
    ∧ (p.closeFrame entry input).called = p.called := by
  obtain ⟨calls, hclose⟩ := closeFrame_eq p entry input
  rw [hclose]
  exact ⟨rfl, rfl⟩

theorem Tracer.Poised.closeFrame {p : Tracer} (h : p.Poised) (entry : ℕ) (input : HookInput) :
    (p.closeFrame entry input).Poised := by
  have hdepth := (closeFrame_sameAbove p entry input).depth
  obtain ⟨calls, hclose⟩ := closeFrame_eq p entry input
  have hfin : (p.closeFrame entry input).finalized = p.finalized := by rw [hclose]
  have hact : (p.closeFrame entry input).active = p.active := by rw [hclose]
  have hmax : (p.closeFrame entry input).maxDepth = p.maxDepth := by rw [hclose]
  intro h0
  rw [hact, hdepth, hmax]
  exact h (hfin ▸ h0)

/-- What a call end does with an open call that is not hidden. -/
theorem Refines.callEnd_eq {p : Tracer} {L : Live} (h : Refines p L) (hfin : L.finalized = false)
    (hz : L.hidden = 0) {x : Option OpenCall} {frames : OpenCalls} (hfr : L.frames = x :: frames)
    (input : HookInput) :
    tracingProfilerCallEnd p input =
      .ok (x.elim (p.popped.record input.reading).skipFrame fun c =>
        (p.popped.record input.reading).closeFrame (L.functions.idxOf c.function) input)
    ∧ FrameAgree L.functions (p.popped.stack.frames p.popped.stack.depth) x := by
  have hframes := h.frames
  have hvis := h.ok.visible
  have hdepth := h.depth
  have hmax := h.maxDepth
  rw [hfr] at hframes hvis
  rw [Live.depth, hz, hfr, List.length_cons] at hdepth
  have hlen : p.popped.stack.depth = frames.length := by
    show p.stack.depth - 1 = frames.length
    omega
  have hactive : p.popped.active = true := by
    apply decide_eq_true
    have hlt : frames.length + 1 ≤ L.maxDepth := hvis
    omega
  have hagree : FrameAgree L.functions (p.popped.stack.frames p.popped.stack.depth) x := by
    rw [hlen]
    exact hframes.1
  refine ⟨?_, hagree⟩
  unfold tracingProfilerCallEnd
  rw [if_neg (by simp [h.finalized, hfin]), if_neg (by omega)]
  dsimp only
  rw [if_neg (by simp [hactive])]
  cases x with
  | none =>
    have hnone : (p.popped.stack.frames p.popped.stack.depth).funcTableEntry = none := hagree
    simp only [Tracer.record, hnone, Option.elim]
  | some c =>
    have hsome := hagree.2.1
    simp only [Tracer.record, hsome, Option.elim]

/-- **A call end refines**, and leaves the profiler as calibrated as it was. -/
theorem Refines.callEndKeeps {p : Tracer} {L L' : Live} (h : Refines p L) {input : HookInput}
    (hend : L.callEnd input.reading = .ok L') :
    ∃ q, tracingProfilerCallEnd p input = .ok q ∧ Refines q L' ∧ q.Poised
      ∧ q.calibrated = p.calibrated ∧ q.called = p.called := by
  have hdepth := h.depth
  have hmax := h.maxDepth
  rcases Live.callEnd_cases hend with ⟨hfin, rfl⟩ | ⟨hfin, n, hn, rfl⟩
    | ⟨hfin, hz, frames, hfr, rfl⟩ | ⟨hfin, hz, c, frames, hfr, rfl⟩
  · have hfin' : p.finalized = true := h.finalized.trans hfin
    exact ⟨p, by rw [tracingProfilerCallEnd, if_pos hfin'], h,
      fun h0 => absurd h0 (by simp [hfin']), rfl, rfl⟩
  · -- a call beyond the depth limit
    have hfull := h.ok.hidden_eq (by omega)
    simp only [Live.depth] at hdepth
    have hactive : p.popped.active = false := decide_eq_false (by omega)
    refine ⟨p.popped, ?_, ⟨h.ok.callEnd hend, h.finalized, h.enabledMetrics, h.reporter,
      h.maxDepth, h.stackCapacity, h.accesses, ?_, h.frames, h.table, h.tableCapacity, h.entries,
      h.called, h.first, h.cum, h.max, h.notified⟩, fun _ => rfl, rfl, rfl⟩
    · rw [tracingProfilerCallEnd, if_neg (by simp [h.finalized, hfin]), if_neg (by omega)]
      dsimp only
      rw [if_pos hactive]
    · show p.stack.depth - 1 = L.frames.length + n
      omega
  all_goals
    have hcol := h.collect hz hfr input.reading
    obtain ⟨hq, hagree⟩ := h.callEnd_eq hfin hz hfr input
    have hlt : (L.collect frames input.reading).depth < L.maxDepth := by
      have hvis := h.ok.visible
      rw [hfr] at hvis
      have hlen : frames.length + 1 ≤ L.maxDepth := hvis
      show frames.length + L.hidden < L.maxDepth
      omega
  · -- a call whose function found no room
    have htouch := sameAbove_touch p.popped.stack p.popped.stack.depth
    refine ⟨_, hq, ⟨hcol.ok, hcol.finalized, hcol.enabledMetrics, hcol.reporter, hcol.maxDepth,
      hcol.stackCapacity, ?_, hcol.depth, hcol.frames, hcol.table, hcol.tableCapacity,
      hcol.entries, hcol.called, hcol.first, hcol.cum, hcol.max, hcol.notified⟩, fun _ => rfl,
      rfl, rfl⟩
    have hdepth' : p.popped.stack.depth = (L.collect frames input.reading).depth := hcol.depth
    have hbelow : p.popped.stack.depth + 1 ≤ p.maxDepth := by
      rw [hdepth', hmax]
      exact hlt
    exact htouch.accesses_lt h.accesses hbelow
  · -- a followed call
    have href := hcol.closeFrame hz hlt (h.ok.called_ne_zero hfr) hagree input
    have hpoised : (p.popped.record input.reading).Poised := fun _ => rfl
    exact ⟨_, hq, href, hpoised.closeFrame _ input, closeFrame_calibrated ..⟩

theorem Refines.callEnd {p : Tracer} {L L' : Live} (h : Refines p L)
    (hcal : p.calibrated = true ↔ p.called ≠ 0) {input : HookInput}
    (hend : L.callEnd input.reading = .ok L') :
    ∃ q, tracingProfilerCallEnd p input = .ok q ∧ Refines q L' ∧ Idle q := by
  obtain ⟨q, hq, href, hactive, hcalibrated, hcalled⟩ := h.callEndKeeps hend
  refine ⟨q, hq, href, hactive, ?_⟩
  rw [hcalibrated, hcalled]
  exact hcal

/-! ## Runs -/

/-- **A step refines.** -/
theorem Refines.step {p : Tracer} {L L' : Live} (h : Refines p L) (idle : Idle p) {op : TracerOp}
    (hstep : L.step op = .ok L') :
    ∃ q, tracerStep p op = .ok q ∧ Refines q L' ∧ Idle q := by
  cases op with
  | opening call =>
    cases hstep
    exact h.callStart idle call.function call.input call.calibration
  | closing input => exact h.callEnd idle.calibrated hstep

/-- **A run refines.** -/
theorem Refines.run {p : Tracer} {L L' : Live} (h : Refines p L) (idle : Idle p)
    {ops : List TracerOp} (hrun : Live.run ops L = .ok L') :
    ∃ q, tracerRun ops p = .ok q ∧ Refines q L' ∧ Idle q := by
  induction ops generalizing p L with
  | nil =>
    cases hrun
    exact ⟨p, rfl, h, idle⟩
  | cons op ops ih =>
    obtain ⟨M, hs, hrest⟩ := Live.run_cons_ok hrun
    obtain ⟨q, hq, hM, hidle⟩ := h.step idle hs
    obtain ⟨r, hr, hL', hidle'⟩ := ih hM hidle hrest
    exact ⟨r, by rw [tracerRun, hq]; exact hr, hL', hidle'⟩

/-- **The unwinding loop** closes the open calls. -/
theorem Refines.unwind {p : Tracer} {L : Live} (h : Refines p L) (hfin : L.finalized = false)
    {n : ℕ} (hn : L.depth = n) (inputs : ℕ → HookInput) :
    ∃ q L', unwind n p inputs = .ok q ∧ Live.run (Live.closings n inputs) L = .ok L'
      ∧ Refines q L' := by
  induction n generalizing p L inputs with
  | zero => exact ⟨p, L, rfl, rfl, h⟩
  | succ n ih =>
    have hd : p.stack.depth ≠ 0 := by
      rw [h.depth, hn]
      exact Nat.succ_ne_zero n
    obtain ⟨M, hM⟩ := Live.exists_callEnd (L := L) (fun _ => by omega) (inputs 0).reading
    obtain ⟨hdepth, hfin'⟩ := Live.depth_callEnd hfin hM
    obtain ⟨q, hq, href, -⟩ := h.callEndKeeps hM
    obtain ⟨r, L', hr, hL', hrest⟩ := ih href hfin' (by omega) fun i => inputs (i + 1)
    refine ⟨r, L', ?_, ?_, hrest⟩
    · rw [PhpSpx.unwind, if_neg hd, hq]
      exact hr
    · rw [Live.closings, Live.run_cons]
      exact (congrArg (Except.bind · (Live.run _)) hM).trans hL'

theorem Refines.concluded {p : Tracer} {L : Live} (h : Refines p L) :
    Refines p.concluded L.conclude := by
  have hok := h.ok
  have hevent : fillEvent { p with finalized := true } .finalize none none none none
      = ({ L with finalized := true } : Live).event .finalize none none none none :=
    fillEvent_eq h.enabledMetrics h.called h.max h.cum h.tableCapacity h.entries h.depth rfl
  have hconcluded : p.concluded = { p with
      finalized := true
      notified := p.notified
        ++ [fillEvent { p with finalized := true } .finalize none none none none] } := by
    simp only [Tracer.concluded, Tracer.notify, h.reporter]
  rw [hconcluded, hevent]
  exact ⟨⟨hok.maxDepth_pos, hok.visible, hok.hidden_eq, hok.nodup, hok.length_le, hok.open_mem,
      hok.unrecorded, hok.fresh⟩, rfl, h.enabledMetrics, h.reporter, h.maxDepth, h.stackCapacity,
    h.accesses, h.depth, h.frames, h.table, h.tableCapacity, h.entries, h.called, h.first, h.cum,
    h.max, by simp only [Live.conclude, h.notified]⟩

/-- The active flag is not part of the machine's state. -/
theorem Refines.activated {p : Tracer} {L : Live} (h : Refines p L) :
    Refines { p with active := true } L :=
  ⟨h.ok, h.finalized, h.enabledMetrics, h.reporter, h.maxDepth, h.stackCapacity, h.accesses,
    h.depth, h.frames, h.table, h.tableCapacity, h.entries, h.called, h.first, h.cum, h.max,
    h.notified⟩

/-- **The finalization refines.** -/
theorem Refines.finalize {p : Tracer} {L : Live} (h : Refines p L) (hfin : L.finalized = false)
    (inputs : ℕ → HookInput) :
    ∃ q L', tracingProfilerFinalize p inputs = .ok q
      ∧ Live.run (Live.closings L.depth inputs) L = .ok L' ∧ Refines q L'.conclude := by
  obtain ⟨q, L', hq, hL', hr⟩ := h.activated.unwind hfin rfl inputs
  refine ⟨q.concluded, L', ?_, hL', hr.concluded⟩
  rw [tracingProfilerFinalize, h.depth, hq, Except.map]

/-- **A whole profile refines.**  In a run in which no call ends at depth `0`
nothing fails, and finalizing closes the open calls. -/
theorem tracerProfile_refines (limits : Limits) (zendInlineHashFunc : String → UInt64)
    (maxDepth : ℕ) (enabledMetrics : Metric → Bool) (junk : MetricValues) {ops : List TracerOp}
    {n : ℕ} (hops : height 0 ops = some n) (inputs : ℕ → HookInput) :
    let p := spxProfilerTracerCreate limits zendInlineHashFunc maxDepth enabledMetrics junk
    ∃ q L, tracerProfile p ops inputs = .ok q
      ∧ Live.run (ops ++ Live.closings n inputs)
          (Live.init limits.maxFunctionTableSize p.maxDepth enabledMetrics junk) = .ok L
      ∧ Refines q L.conclude ∧ L.depth = 0 ∧ L.finalized = false := by
  intro p
  obtain ⟨href, hidle⟩ :=
    refines_create limits zendInlineHashFunc maxDepth enabledMetrics junk
  obtain ⟨M, hM, hMdepth, hMfin⟩ := Live.exists_run (L := Live.init limits.maxFunctionTableSize
    p.maxDepth enabledMetrics junk) rfl hops
  obtain ⟨q, hq, hqM, -⟩ := href.run hidle hM
  obtain ⟨r, L, hr, hL, hrL⟩ := hqM.finalize hMfin inputs
  have hheight : height M.depth (Live.closings M.depth inputs) = some 0 :=
    Live.height_closings_depth _ inputs
  obtain ⟨L', hL', hdepth, hfin⟩ := Live.exists_run hMfin hheight
  rw [hL] at hL'
  cases hL'
  refine ⟨r, L, ?_, ?_, hrL, hdepth, hfin⟩
  · rw [tracerProfile, hq]
    exact hr
  · rw [Live.run_append, hM, ← hMdepth]
    exact hL

end PhpSpx
