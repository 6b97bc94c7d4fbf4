import PhpSpx.Lib.Forest
import PhpSpx.Profiler.Event

/-!
# The sampling profiler

`spx_profiler_sampler.c`: a profiler that shows another one the call stack at
some of the hooks only.  At each hook the flag set by the heartbeat thread,
`ready`, decides whether a sample is taken; it is an input of the hook.  What
the sampled profiler is told is kept in the state, in order.

A stack is the list of its frames in index order.  Its capacity bounds every
size, so the indices of the loops fit in an `int`.

* `commonStackTop_spec` — how far two stacks have the same hash codes.
* `Sampler.Ok` — the sampled profiler is always shown the previous sample.
* `sampler_open_calls` — after every hook.
-/

namespace PhpSpx

open Lib

/-- `STACK_CAPACITY`. -/
def samplerStackCapacity : ℕ := 2048

/-- `sampling_profiler_t`, and the calls it made to the sampled profiler. -/
structure Sampler where
  previous : List PhpFunction
  current : List PhpFunction
  sampledProfiler : List (Paren PhpFunction Unit)

/-- `spx_profiler_sampler_create`. -/
def spxProfilerSamplerCreate : Sampler where
  previous := []
  current := []
  sampledProfiler := []

/-- A hook of the sampling profiler, and whether the flag `ready` was set. -/
structure SampledStart where
  function : PhpFunction
  ready : Bool

/-- A call of one of the two hooks. -/
abbrev SamplerOp := Paren SampledStart Bool

/-- Whether the flag `ready` was set at a hook. -/
def SamplerOp.ready : SamplerOp → Bool
  | .opening call => call.ready
  | .closing ready => ready

section Sampler

variable (hashCode : PhpFunction → UInt64)

/-- The first loop of `sampling_profiler_handle_sample`, from an index on.
There are `n` frames of the previous stack left. -/
def commonStackTopFrom (previous current : List PhpFunction) : ℕ → ℕ → ℕ
  | 0, top => top
  | n + 1, top =>
      match previous[top]?, current[top]? with
      | some f, some g =>
          if hashCode f ≠ hashCode g then top else commonStackTopFrom previous current n (top + 1)
      | _, _ => top

/-- `common_stack_top`. -/
def commonStackTop (previous current : List PhpFunction) : ℕ :=
  commonStackTopFrom hashCode previous current previous.length 0

namespace Sampler

/-- Calls to the sampled profiler. -/
def tell (p : Sampler) (calls : List (Paren PhpFunction Unit)) : Sampler :=
  { p with sampledProfiler := p.sampledProfiler ++ calls }

/-- The part of `sampling_profiler_handle_sample` up to the copy of the current
stack. -/
def showCurrent (p : Sampler) : Sampler :=
  let top := commonStackTop hashCode p.previous p.current
  let p := p.tell (List.replicate (p.previous.length - top) (.closing ()))
  let p := p.tell ((p.current.drop top).map .opening)
  { p with previous := p.current }

/-- `sampling_profiler_handle_sample`. -/
def handleSample (callEnd ready : Bool) (p : Sampler) : Sampler :=
  if ready = false then p
  else
    let p := p.showCurrent hashCode
    if callEnd then { p.tell [.closing ()] with previous := p.previous.dropLast } else p

end Sampler

/-- `sampling_profiler_call_start`. -/
def samplingProfilerCallStart (p : Sampler) (function : PhpFunction) (ready : Bool) :
    Except Die Sampler :=
  if p.current.length = samplerStackCapacity then .error .samplerStackCapacityExceeded
  else .ok (({ p with current := p.current ++ [function] } : Sampler).handleSample hashCode false ready)

/-- `sampling_profiler_call_end`.  It is never called while the stack is empty:
its size would wrap around. -/
def samplingProfilerCallEnd (p : Sampler) (ready : Bool) : Sampler :=
  let p := p.handleSample hashCode true ready
  { p with current := p.current.dropLast }

/-- One hook. -/
def samplerStep (p : Sampler) : SamplerOp → Except Die Sampler
  | .opening call => samplingProfilerCallStart hashCode p call.function call.ready
  | .closing ready => .ok (samplingProfilerCallEnd hashCode p ready)

/-- A sequence of hooks. -/
def samplerRun : List SamplerOp → Sampler → Except Die Sampler
  | [], p => .ok p
  | op :: ops, p => (samplerStep hashCode p op).bind (samplerRun ops)

/-! ## Common frames -/

theorem commonStackTopFrom_spec {previous current : List PhpFunction} {n top : ℕ}
    (hn : top + n = previous.length) (htop : top ≤ current.length)
    (h : (previous.take top).map hashCode = (current.take top).map hashCode) :
    let k := commonStackTopFrom hashCode previous current n top
    k ≤ previous.length ∧ k ≤ current.length
      ∧ (previous.take k).map hashCode = (current.take k).map hashCode := by
  induction n generalizing top with
  | zero => exact ⟨by simp only [commonStackTopFrom]; omega, htop, h⟩
  | succ n ih =>
    have hprevious : top < previous.length := by omega
    by_cases hcurrent : top < current.length
    · have hget : previous[top]? = some previous[top] := List.getElem?_eq_getElem hprevious
      have hget' : current[top]? = some current[top] := List.getElem?_eq_getElem hcurrent
      simp only [commonStackTopFrom, hget, hget']
      by_cases hhash : hashCode previous[top] = hashCode current[top]
      · simp only [ne_eq, hhash, not_true_eq_false, if_false]
        apply ih (by omega) hcurrent
        rw [List.take_add_one, List.take_add_one, hget, hget', List.map_append, List.map_append, h]
        simp [hhash]
      · simp only [ne_eq, hhash, not_false_eq_true, if_true]
        exact ⟨by omega, htop, h⟩
    · have hget : previous[top]? = some previous[top] := List.getElem?_eq_getElem hprevious
      have hget' : current[top]? = none := List.getElem?_eq_none (by omega)
      simp only [commonStackTopFrom, hget, hget']
      exact ⟨by omega, htop, h⟩

/-- The two stacks have the same hash codes up to the common top. -/
theorem commonStackTop_spec (previous current : List PhpFunction) :
    let k := commonStackTop hashCode previous current
    k ≤ previous.length ∧ k ≤ current.length
      ∧ (previous.take k).map hashCode = (current.take k).map hashCode :=
  commonStackTopFrom_spec hashCode (Nat.zero_add _) (Nat.zero_le _) rfl

/-! ## The invariant -/

/-- The calls made to the sampled profiler never end one it has not open, and
those it has open, innermost first, have the hash codes of the previous
stack. -/
def Sampler.Shown (p : Sampler) : Prop :=
  ∃ calls, pending [] p.sampledProfiler = some calls
    ∧ calls.map hashCode = (p.previous.map hashCode).reverse

theorem shown_create : spxProfilerSamplerCreate.Shown hashCode := ⟨[], rfl, rfl⟩

variable {hashCode}

/-- After the copy of the current stack, the sampled profiler has been shown
it. -/
theorem Sampler.Shown.showCurrent {p : Sampler} (h : p.Shown hashCode) :
    (p.showCurrent hashCode).Shown hashCode := by
  obtain ⟨calls, hcalls, hhash⟩ := h
  obtain ⟨hk, -, htake⟩ := commonStackTop_spec hashCode p.previous p.current
  set k := commonStackTop hashCode p.previous p.current with hkdef
  have hlen : calls.length = p.previous.length := by
    have hlength := congrArg List.length hhash
    simpa using hlength
  refine ⟨(p.current.drop k).reverse ++ calls.drop (p.previous.length - k), ?_, ?_⟩
  · show pending [] (p.sampledProfiler ++ List.replicate (p.previous.length - k) (.closing ())
      ++ (p.current.drop k).map .opening) = _
    rw [pending_append, pending_append, hcalls, Option.bind_some,
      pending_replicate_closing (by omega), Option.bind_some, pending_map_opening]
  · -- what is left of the open calls are the common frames
    have hleft : (calls.drop (p.previous.length - k)).map hashCode
        = ((p.current.take k).map hashCode).reverse := by
      rw [← htake, List.map_drop, hhash, List.map_take, List.reverse_take, List.length_map]
    show _ = (p.current.map hashCode).reverse
    rw [List.map_append, hleft, List.map_reverse, ← List.reverse_append, ← List.map_append,
      List.take_append_drop]

theorem Sampler.Shown.handleSample {p : Sampler} (h : p.Shown hashCode) {callEnd : Bool}
    (hcurrent : callEnd = true → p.current ≠ []) (ready : Bool) :
    (p.handleSample hashCode callEnd ready).Shown hashCode := by
  unfold Sampler.handleSample
  cases ready with
  | false => exact h
  | true =>
    cases callEnd with
    | false => exact h.showCurrent
    | true =>
      obtain ⟨calls, hcalls, hhash⟩ := h.showCurrent
      have hprevious : (p.showCurrent hashCode).previous ≠ [] := hcurrent rfl
      cases calls with
      | nil =>
        rw [List.map_nil, eq_comm, List.reverse_eq_nil_iff, List.map_eq_nil_iff] at hhash
        exact absurd hhash hprevious
      | cons c calls =>
        refine ⟨calls, ?_, ?_⟩
        · show pending [] ((p.showCurrent hashCode).sampledProfiler ++ [.closing ()]) = _
          rw [pending_append, hcalls, Option.bind_some, pending_closing_cons, pending_nil]
        · show _ = ((p.showCurrent hashCode).previous.dropLast.map hashCode).reverse
          rw [List.map_dropLast, ← List.tail_reverse, ← hhash, List.map_cons, List.tail_cons]

/-- When a sample is taken the previous stack becomes the current one, without
the call that ends. -/
theorem Sampler.previous_handleSample (p : Sampler) (callEnd : Bool) :
    (p.handleSample hashCode callEnd true).previous
      = if callEnd then p.current.dropLast else p.current := by
  cases callEnd <;> rfl

theorem Sampler.current_handleSample (p : Sampler) (callEnd ready : Bool) :
    (p.handleSample hashCode callEnd ready).current = p.current := by
  cases ready <;> cases callEnd <;> rfl

/-- **One hook** keeps the invariant, and leaves the current stack sampled when
it takes a sample.  `calls` are the calls open around it, innermost first. -/
theorem Sampler.Shown.step {p : Sampler} (h : p.Shown hashCode) {calls calls' : List SampledStart}
    (hcurrent : p.current = (calls.map SampledStart.function).reverse) {op : SamplerOp}
    (hop : pending calls [op] = some calls') (hcap : calls'.length ≤ samplerStackCapacity) :
    ∃ q, samplerStep hashCode p op = .ok q ∧ q.Shown hashCode
      ∧ q.current = (calls'.map SampledStart.function).reverse
      ∧ (op.ready = true → q.previous = q.current) := by
  cases op with
  | opening call =>
    obtain rfl : call :: calls = calls' := by simpa using hop
    have hlen : p.current.length = calls.length := by simp [hcurrent]
    have hroom : p.current.length ≠ samplerStackCapacity := by
      rw [List.length_cons] at hcap
      omega
    set pushed : Sampler := { p with current := p.current ++ [call.function] } with hpushed
    have hshown : pushed.Shown hashCode := h
    refine ⟨pushed.handleSample hashCode false call.ready, ?_,
      hshown.handleSample (fun hend => by cases hend) _, ?_, fun hready => ?_⟩
    · rw [samplerStep, samplingProfilerCallStart, if_neg hroom]
    · rw [pushed.current_handleSample, hpushed, hcurrent, List.map_cons, List.reverse_cons]
    · have hready' : call.ready = true := hready
      rw [hready', pushed.previous_handleSample, pushed.current_handleSample]
      rfl
  | closing ready =>
    cases calls with
    | nil => cases hop
    | cons call calls =>
      obtain rfl : calls = calls' := by simpa using hop
      have hne : p.current ≠ [] := by simp [hcurrent]
      refine ⟨samplingProfilerCallEnd hashCode p ready, rfl, h.handleSample (fun _ => hne) ready,
        ?_, fun hready => ?_⟩
      · show (p.handleSample hashCode true ready).current.dropLast = _
        rw [p.current_handleSample, hcurrent, List.map_cons, List.reverse_cons,
          List.dropLast_concat]
      · have hready' : ready = true := hready
        subst hready'
        show (p.handleSample hashCode true true).previous
          = (p.handleSample hashCode true true).current.dropLast
        rw [p.previous_handleSample, p.current_handleSample]
        rfl

/-! ## Runs -/

theorem samplerRun_append (ops ops' : List SamplerOp) (p : Sampler) :
    samplerRun hashCode (ops ++ ops') p
      = (samplerRun hashCode ops p).bind (samplerRun hashCode ops') := by
  induction ops generalizing p with
  | nil => rfl
  | cons op ops ih =>
    rw [List.cons_append, samplerRun, samplerRun]
    cases samplerStep hashCode p op with
    | error e => rfl
    | ok q => exact ih q

variable (hashCode)

/-- **Sampling preserves the call stack.**  After any sequence of hooks in which
no call ends on an empty stack and the nesting stays within the capacity, and
whatever the flag `ready` was at each of them, the sampled profiler was never
told to end a call it has not open, its open calls have the hash codes of the
previous stack, and, if the last hook took a sample, those of the calls that
are really open.  The lists of calls have the innermost first. -/
theorem sampler_open_calls {ops : List SamplerOp} {calls : List SampledStart}
    (h : pending [] ops = some calls)
    (hcap : ∀ u st, u <+: ops → pending [] u = some st → st.length ≤ samplerStackCapacity) :
    ∃ q shown, samplerRun hashCode ops spxProfilerSamplerCreate = .ok q
      ∧ q.current = (calls.map SampledStart.function).reverse
      ∧ pending [] q.sampledProfiler = some shown
      ∧ shown.map hashCode = (q.previous.map hashCode).reverse
      ∧ ∀ op, ops.getLast? = some op → op.ready = true →
          shown.map hashCode = (calls.map SampledStart.function).map hashCode := by
  suffices hrun : ∃ q, samplerRun hashCode ops spxProfilerSamplerCreate = .ok q
      ∧ q.Shown hashCode ∧ q.current = (calls.map SampledStart.function).reverse
      ∧ ∀ op, ops.getLast? = some op → op.ready = true → q.previous = q.current by
    obtain ⟨q, hq, ⟨shown, hshown, hhash⟩, hcurrent, hlast⟩ := hrun
    refine ⟨q, shown, hq, hcurrent, hshown, hhash, ?_⟩
    intro op hop hready
    rw [hhash, hlast op hop hready, hcurrent, List.map_reverse, List.reverse_reverse]
  induction ops using List.reverseRecOn generalizing calls with
  | nil =>
    cases h
    exact ⟨_, rfl, shown_create hashCode, rfl, fun op hop => by cases hop⟩
  | append_singleton ops op ih =>
    rw [pending_append] at h
    obtain ⟨before, hbefore, hop⟩ := Option.bind_eq_some_iff.1 h
    obtain ⟨p, hp, hshown, hcurrent, -⟩ := ih hbefore fun u st hu =>
      hcap u st (hu.trans (List.prefix_append _ _))
    obtain ⟨q, hq, hshown', hcurrent', hlast⟩ := hshown.step hcurrent hop
      (hcap _ _ (List.prefix_refl _) (by rw [pending_append, hbefore]; exact hop))
    refine ⟨q, ?_, hshown', hcurrent', ?_⟩
    · rw [samplerRun_append, hp]
      show (samplerStep hashCode p op).bind _ = _
      rw [hq]
      rfl
    · intro op' hop' hready
      rw [List.getLast?_concat] at hop'
      cases hop'
      exact hlast hready

/-- The hooks of `main`, `f` and `g`, with samples at the start of `main` and at
the end of `g`. -/
def skippedStarts : List SamplerOp :=
  [.opening ⟨⟨"main", ""⟩, true⟩, .opening ⟨⟨"f", ""⟩, false⟩, .opening ⟨⟨"g", ""⟩, false⟩,
    .closing true]

/-- At the end of `g` the sampled profiler is left with the calls of `main` and
`f`.  Names are told apart by their lengths here. -/
theorem sampler_open_calls_skipped :
    ∃ q shown, samplerRun (fun f => UInt64.ofNat f.funcName.length) skippedStarts
          spxProfilerSamplerCreate = .ok q
      ∧ q.current = [⟨"main", ""⟩, ⟨"f", ""⟩]
      ∧ pending [] q.sampledProfiler = some shown
      ∧ shown.map (fun f => UInt64.ofNat f.funcName.length) = [1, 4] := by
  have hcap : ∀ u st, u <+: skippedStarts → pending [] u = some st →
      st.length ≤ samplerStackCapacity := by
    intro u st hu hst
    have hlen : u.length ≤ 4 := hu.length_le
    have hle := length_pending_le hst
    simp only [List.length_nil, samplerStackCapacity] at hle ⊢
    omega
  obtain ⟨q, shown, hq, hcurrent, hshown, -, hlast⟩ := sampler_open_calls
    (fun f => UInt64.ofNat f.funcName.length)
    (show pending [] skippedStarts = some [⟨⟨"f", ""⟩, false⟩, ⟨⟨"main", ""⟩, true⟩] from rfl) hcap
  exact ⟨q, shown, hq, hcurrent, hshown, hlast _ rfl rfl⟩

end Sampler

end PhpSpx
