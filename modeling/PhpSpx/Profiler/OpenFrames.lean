import PhpSpx.Profiler.Refinement

/-!
# The open frames of the tracing profiler

Which calls the stack of the tracing profiler stands for, however often the depth
limit was crossed: a call beyond the limit takes no frame, and the frames below it
are those of the calls that are really open.

* `Live.Opens` — the abstract machine is in these calls; kept by a call's start and
  by its end.
* `Tracer.HasOpen` — the same for the array of frames and the flag `active`.
-/

namespace PhpSpx

open Lib

/-! ## The machine of open calls -/

/-- What the machine holds of an open call: its function, or nothing when the full
table has no entry of it. -/
def OpenCall.Of (capacity : ℕ) (functions : List PhpFunction) : Option OpenCall → PhpFunction → Prop
  | some c, f => c.function = f
  | none, f => f ∉ functions ∧ functions.length = capacity

/-- The machine is in these calls, innermost first: the innermost ones are hidden when
there are more of them than the depth limit. -/
structure Live.Opens (calls : List PhpFunction) (L : Live) : Prop where
  depth : L.depth = calls.length
  frames : List.Forall₂ (OpenCall.Of L.capacity L.functions) L.frames (calls.drop L.hidden)

/-- Recording a function keeps what is held of the open calls. -/
theorem forall₂_of_recordFunction {capacity : ℕ} {functions : List PhpFunction} {frames : OpenCalls}
    {calls : List PhpFunction} (h : List.Forall₂ (OpenCall.Of capacity functions) frames calls)
    (f : PhpFunction) :
    List.Forall₂ (OpenCall.Of capacity (recordFunction capacity functions f)) frames calls := by
  apply h.imp
  intro x g hx
  cases x with
  | some c => exact hx
  | none => rwa [recordFunction_of_full hx.2]

theorem forall₂_of_chargeHead {capacity : ℕ} {functions : List PhpFunction} {frames : OpenCalls}
    {calls : List PhpFunction} (h : List.Forall₂ (OpenCall.Of capacity functions) frames calls)
    (inc : MetricValues) :
    List.Forall₂ (OpenCall.Of capacity functions) (chargeHead inc frames) calls := by
  cases h with
  | nil => exact .nil
  | @cons x f frames calls hx hrest =>
    cases x with
    | none => exact .cons hx hrest
    | some c => exact .cons hx hrest

theorem forall₂_of_creditFirst {capacity : ℕ} {functions : List PhpFunction} {frames : OpenCalls}
    {calls : List PhpFunction} (h : List.Forall₂ (OpenCall.Of capacity functions) frames calls)
    (f : PhpFunction) (exc : MetricValues) :
    List.Forall₂ (OpenCall.Of capacity functions) (creditFirst f exc frames) calls := by
  induction h with
  | nil => exact .nil
  | @cons x g frames calls hx hrest ih =>
    cases x with
    | none => exact .cons hx ih
    | some c =>
      rw [creditFirst]
      split
      · exact .cons hx hrest
      · exact .cons hx ih

namespace Live

theorem opens_init (capacity maxDepth : ℕ) (enabledMetrics : Metric → Bool) (junk : MetricValues) :
    (init capacity maxDepth enabledMetrics junk).Opens [] := ⟨rfl, .nil⟩

/-- **A call starts.** -/
theorem Opens.callStart {calls : List PhpFunction} {L : Live} (h : L.Opens calls) (ok : L.Ok)
    (hfin : L.finalized = false) (f : PhpFunction) (reading : MetricValues) :
    (L.callStart f reading).Opens (f :: calls) := by
  have hdepth : (L.callStart f reading).depth = (f :: calls).length := by
    rw [(L.depth_callStart hfin f reading).1, h.depth]
    rfl
  refine ⟨hdepth, ?_⟩
  rcases L.callStart_cases f reading with ⟨hfin', -⟩ | ⟨-, -, hstart⟩ | ⟨-, hlt, -, hstart⟩
    | ⟨-, hlt, hf, hstart⟩
  · rw [hfin] at hfin'
    cases hfin'
  · -- beyond the limit one more call is hidden
    rw [hstart]
    exact h.frames
  · have hframes := h.frames
    rw [ok.hidden_eq_zero hlt] at hframes
    rw [hstart]
    show List.Forall₂ _ (some _ :: L.frames) ((f :: calls).drop L.hidden)
    rw [ok.hidden_eq_zero hlt]
    exact .cons rfl (forall₂_of_recordFunction hframes f)
  · have hframes := h.frames
    rw [ok.hidden_eq_zero hlt] at hframes
    obtain ⟨hsame, hfull⟩ := recordFunction_of_notMem hf
    rw [hstart]
    show List.Forall₂ _ (none :: L.frames) ((f :: calls).drop L.hidden)
    rw [ok.hidden_eq_zero hlt]
    refine .cons ⟨hf, ?_⟩ (forall₂_of_recordFunction hframes f)
    show (recordFunction L.capacity L.functions f).length = L.capacity
    rw [hsame, hfull]

/-- **A call ends.** -/
theorem Opens.callEnd {f : PhpFunction} {calls : List PhpFunction} {L M : Live}
    (h : L.Opens (f :: calls)) (hfin : L.finalized = false) {reading : MetricValues}
    (hend : L.callEnd reading = .ok M) : M.Opens calls := by
  have hdepth : M.depth = calls.length := by
    have hM := (L.depth_callEnd hfin hend).1
    rw [h.depth, List.length_cons] at hM
    exact Nat.succ.inj hM
  have hframes := h.frames
  rcases callEnd_cases hend with ⟨hfin', -⟩ | ⟨-, n, hn, rfl⟩ | ⟨-, hz, frames, hfr, rfl⟩
    | ⟨-, hz, c, frames, hfr, rfl⟩
  · rw [hfin] at hfin'
    cases hfin'
  · rw [hn] at hframes
    exact ⟨hdepth, hframes⟩
  · rw [hz, hfr] at hframes
    cases hframes with
    | cons _ hrest =>
      refine ⟨hdepth, ?_⟩
      show List.Forall₂ _ frames (calls.drop L.hidden)
      rw [hz]
      exact hrest
  · rw [hz, hfr] at hframes
    cases hframes with
    | cons _ hrest =>
      refine ⟨hdepth, ?_⟩
      show List.Forall₂ _ (creditFirst _ _ (chargeHead _ frames)) (calls.drop L.hidden)
      rw [hz]
      exact forall₂_of_creditFirst (forall₂_of_chargeHead hrest _) _ _

end Live

/-! ## The array of frames -/

/-- The frame is that of a call of `f`: it has the table entry of `f`, or none when the
full table has no entry of it. -/
def Frame.Holds (capacity : ℕ) (functions : List PhpFunction) (frame : Frame) (f : PhpFunction) :
    Prop :=
  match frame.funcTableEntry with
  | some idx => functions[idx]? = some f
  | none => f ∉ functions ∧ functions.length = capacity

/-- The tracing profiler has these calls open, outermost first: it is as deep, it
follows the next call exactly when that is within its depth limit, and each frame
below the limit is that of its call. -/
structure Tracer.HasOpen (calls : List PhpFunction) (p : Tracer) : Prop where
  depth : p.stack.depth = calls.length
  active : p.active = decide (calls.length < p.maxDepth)
  frames : ∀ i < p.maxDepth, ∀ f, calls[i]? = some f →
    (p.stack.frames i).Holds p.funcTable.capacity p.funcTable.functions f

/-- The frames of the array are those of the calls the machine is in. -/
theorem FramesAgree.holds {capacity : ℕ} {functions : List PhpFunction} {frames : ℕ → Frame}
    {opened : OpenCalls} {calls : List PhpFunction} (h : FramesAgree functions frames opened)
    (hopened : List.Forall₂ (OpenCall.Of capacity functions) opened calls) {i : ℕ} {f : PhpFunction}
    (hi : calls.reverse[i]? = some f) : (frames i).Holds capacity functions f := by
  induction hopened with
  | nil => cases hi
  | @cons x g opened calls hx hrest ih =>
    obtain ⟨hframe, hframes⟩ := h
    rw [List.reverse_cons] at hi
    have hlen : opened.length = calls.reverse.length := by
      rw [hrest.length_eq, List.length_reverse]
    rcases Nat.lt_or_ge i calls.reverse.length with hlt | hge
    · rw [List.getElem?_append_left hlt] at hi
      exact ih hframes hi
    · rw [List.getElem?_append_right hge] at hi
      have hz : i - calls.reverse.length = 0 := by
        obtain ⟨hlt, -⟩ := List.getElem?_eq_some_iff.mp hi
        rw [List.length_singleton] at hlt
        omega
      rw [hz, List.getElem?_cons_zero] at hi
      obtain rfl : g = f := Option.some.inj hi
      obtain rfl : i = opened.length := by omega
      cases x with
      | none =>
        have hnone : (frames opened.length).funcTableEntry = none := hframe
        rw [Frame.Holds, hnone]
        exact hx
      | some c =>
        obtain ⟨hmem, hentry, -⟩ := hframe
        rw [Frame.Holds, hentry]
        obtain rfl : c.function = _ := hx
        exact List.getElem?_idxOf hmem

/-- A tracing profiler that refines the machine has open what the machine is in. -/
theorem Refines.hasOpen {p : Tracer} {L : Live} (h : Refines p L) (idle : Idle p)
    (hfin : L.finalized = false) {calls : List PhpFunction} (hopens : L.Opens calls) :
    p.HasOpen calls.reverse := by
  have hdepth : p.stack.depth = calls.reverse.length := by
    rw [h.depth, hopens.depth, List.length_reverse]
  refine ⟨hdepth, ?_, ?_⟩
  · rw [idle.active (h.finalized.trans hfin), hdepth]
  · intro i hi f hf
    obtain ⟨hlt, -⟩ := List.getElem?_eq_some_iff.mp hf
    -- the calls that are not hidden fill the array from its bottom
    have hlen : i < (calls.drop L.hidden).reverse.length := by
      rw [List.length_reverse, ← hopens.frames.length_eq]
      rw [h.maxDepth] at hi
      rw [List.length_reverse, ← hopens.depth, Live.depth] at hlt
      by_cases hz : L.hidden = 0
      · omega
      · rw [h.ok.hidden_eq hz]
        exact hi
    rw [h.tableCapacity, h.functions]
    apply h.frames.holds hopens.frames
    rw [← List.take_append_drop L.hidden calls, List.reverse_append,
      List.getElem?_append_left hlen] at hf
    exact hf

end PhpSpx
