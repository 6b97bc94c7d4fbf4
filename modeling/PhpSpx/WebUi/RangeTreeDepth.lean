import Mathlib.Algebra.Order.Archimedean.Basic
import PhpSpx.Lib.Descent
import PhpSpx.WebUi.CallRangeTree
import PhpSpx.WebUi.CumCosts

/-!
# How deep the call range tree grows

`CallRangeTree.buildAsync` calls itself for a half of its range when 500 calls or more fit in
the half.  The halves get shorter than the distance of any two different times of calls, so
that only calls of length zero at one time can be left together for ever: the recursion ends
unless there are 500 of them.

* `childCall` — the call of `buildAsync` for a half.
* `depth_bounded_iff` — when the depth is bounded.
* `exists_buildAsync_iff` — when `buildAsync` comes to an end.
* `finite_nodes_iff` — when finitely many nodes are reached.
-/

namespace PhpSpx.WebUi

open PhpSpx.Lib

variable {metrics : EnabledMetrics}

/-! ## The recursive calls -/

/-- A half of a range. -/
inductive Half where
  | left
  | right
  deriving DecidableEq

instance : Fintype Half where
  elems := {.left, .right}
  complete half := by cases half <;> decide

/-- The half as a range. -/
def Half.of (range : Range) : Half → Range
  | left => range.left
  | right => range.right

/-- What `buildAsync` is called with. -/
structure BuildCall where
  range : Range
  callRefs : List ℕ

/-- The call that `buildAsync` makes for a half, if it makes one. -/
def childCall (wt : Key metrics) (list : CallList metrics) (call : BuildCall) (half : Half) :
    Option BuildCall := do
  let lRange ← call.range.subRange (1 / 2) 0
  let rRange ← call.range.subRange (1 / 2) 1
  let placed ← placeCalls wt list call.range lRange rRange call.callRefs
  let placed := placed.keepSmall
  match half with
  | .left => if placed.left.length = 0 then none else some ⟨lRange, placed.left⟩
  | .right => if placed.right.length = 0 then none else some ⟨rRange, placed.right⟩

/-- A call goes to a half: to the second one when it does not fit in the first. -/
def CallList.goesTo (wt : Key metrics) (list : CallList metrics) (range : Range) :
    Half → ℕ → Bool
  | .left, idx => list.liesIn wt range.left idx
  | .right, idx => !list.liesIn wt range.left idx && list.liesIn wt range.right idx

/-- The calls that go to a half. -/
def halfCalls (wt : Key metrics) (list : CallList metrics) (call : BuildCall) (half : Half) :
    List ℕ :=
  call.callRefs.filter (list.goesTo wt call.range half)

section Depth

variable {wt : Key metrics} {list : CallList metrics}

/-- The calls of a node can be placed, in the halves they fit in. -/
theorem placeCalls_eq {range : Range} (lRange rRange : Range) {callRefs : List ℕ}
    (hin : CallsIn wt list range callRefs) :
    ∃ placed, placeCalls wt list range lRange rRange callRefs = some placed ∧
      placed.left = callRefs.filter (fun callRef => list.liesIn wt lRange callRef) ∧
      placed.right = callRefs.filter fun callRef =>
        !list.liesIn wt lRange callRef && list.liesIn wt rRange callRef := by
  induction callRefs with
  | nil => exact ⟨_, rfl, rfl, rfl⟩
  | cons callRef callRefs ih =>
    obtain ⟨⟨callTimeRange, hrange, hcontains⟩, hrest⟩ := List.forall_mem_cons.mp hin
    obtain ⟨placed, hplaced, hleft, hright⟩ := ih hrest
    have hlies : ∀ half : Range,
        list.liesIn wt half callRef = decide (half.Contains callTimeRange) := by
      intro half
      rw [CallList.liesIn, hrange, Option.any_some]
    simp only [placeCalls, hrange, hplaced, Option.bind_eq_bind, Option.bind_some,
      if_neg (not_not_intro hcontains), List.filter_cons, hlies]
    by_cases hl : lRange.Contains callTimeRange
    · exact ⟨_, if_pos hl, by simp [hl, hleft], by simp [hl, hright]⟩
    · by_cases hr : rRange.Contains callTimeRange
      · exact ⟨_, by rw [if_neg hl, if_pos hr], by simp [hl, hleft], by simp [hl, hr, hright]⟩
      · exact ⟨_, by rw [if_neg hl, if_neg hr], by simp [hl, hleft], by simp [hl, hr, hright]⟩

/-- The calls placed in a half. -/
def PlacedCalls.of (placed : PlacedCalls) : Half → List ℕ
  | .left => placed.left
  | .right => placed.right

theorem Half.contains_of (half : Half) (range : Range) : range.Contains (half.of range) := by
  cases half with
  | left => exact range.contains_left
  | right => exact range.contains_right

theorem PlacedCalls.mem_all_of {placed : PlacedCalls} {half : Half} {idx : ℕ}
    (h : idx ∈ placed.of half) : idx ∈ placed.all := by
  cases half with
  | left => exact List.mem_append_right _ (List.mem_append_left _ h)
  | right => exact List.mem_append_right _ (List.mem_append_right _ h)

/-- The calls placed in a half lie in it. -/
theorem Split.callsIn_of {range : Range} {callRefs own : List ℕ} {placed : PlacedCalls}
    (h : Split wt list range callRefs own placed.left placed.right) (half : Half) :
    CallsIn wt list (half.of range) (placed.of half) := by
  cases half with
  | left => exact h.left
  | right => exact h.right

theorem childCall_of_placeCalls {call : BuildCall} {placed : PlacedCalls}
    (h : placeCalls wt list call.range call.range.left call.range.right call.callRefs =
      some placed) (half : Half) :
    childCall wt list call half =
      if (placed.keepSmall.of half).length = 0 then none
      else some ⟨half.of call.range, placed.keepSmall.of half⟩ := by
  simp only [childCall, Range.subRange_left, Range.subRange_right, h, Option.bind_eq_bind,
    Option.bind_some]
  cases half with
  | left => rfl
  | right => rfl

/-- A half with few calls is left without any. -/
theorem PlacedCalls.keepSmall_of (placed : PlacedCalls) (half : Half) :
    placed.keepSmall.of half =
      if (placed.of half).length < minCallsPerNode then [] else placed.of half := by
  cases half with
  | left =>
    by_cases hfew : placed.left.length < minCallsPerNode
    · simp [PlacedCalls.keepSmall, PlacedCalls.keep, PlacedCalls.of, hfew]
    · simp [PlacedCalls.keepSmall, PlacedCalls.keep, PlacedCalls.of, hfew]
  | right =>
    by_cases hfew : placed.right.length < minCallsPerNode
    · simp [PlacedCalls.keepSmall, PlacedCalls.keep, PlacedCalls.of, hfew]
    · simp [PlacedCalls.keepSmall, PlacedCalls.keep, PlacedCalls.of, hfew]

theorem minCallsPerNode_pos : 0 < minCallsPerNode := by decide

/-- **A half is built** when at least 500 calls go to it. -/
theorem childCall_eq {call : BuildCall} (hin : CallsIn wt list call.range call.callRefs)
    (half : Half) :
    childCall wt list call half =
      if (halfCalls wt list call half).length < minCallsPerNode then none
      else some ⟨half.of call.range, halfCalls wt list call half⟩ := by
  obtain ⟨placed, hplaced, hleft, hright⟩ :=
    placeCalls_eq call.range.left call.range.right hin
  have hof : placed.of half = halfCalls wt list call half := by
    cases half with
    | left => exact hleft
    | right => exact hright
  rw [childCall_of_placeCalls hplaced, PlacedCalls.keepSmall_of, hof]
  split
  · rw [if_pos List.length_nil]
  · rename_i hmany
    have hpos := minCallsPerNode_pos
    rw [if_neg (by omega)]

/-- The place of a half that enough calls go to. -/
theorem follow_half {range : Range} {callRefs : List ℕ} (hin : CallsIn wt list range callRefs)
    {half : Half} (hmany : minCallsPerNode ≤ callRefs.countP (list.goesTo wt range half)) :
    ∃ halfRefs, follow (childCall wt list) [half] ⟨range, callRefs⟩ =
      some ⟨half.of range, halfRefs⟩ := by
  have hlength : minCallsPerNode ≤ (halfCalls wt list ⟨range, callRefs⟩ half).length :=
    hmany.trans_eq List.countP_eq_length_filter
  refine ⟨halfCalls wt list ⟨range, callRefs⟩ half, ?_⟩
  rw [follow, childCall_eq hin, if_neg (Nat.not_lt.mpr hlength)]
  rfl

theorem callsIn_halfCalls (call : BuildCall) (half : Half) :
    CallsIn wt list (half.of call.range) (halfCalls wt list call half) := by
  intro callRef hmem
  have hgoes := (List.mem_filter.mp hmem).2
  cases half with
  | left => exact CallList.liesIn_eq_true.mp hgoes
  | right =>
    rw [CallList.goesTo, Bool.and_eq_true] at hgoes
    exact CallList.liesIn_eq_true.mp hgoes.2

theorem halfCalls_sublist (call : BuildCall) (half : Half) :
    (halfCalls wt list call half).Sublist call.callRefs := List.filter_sublist

theorem Half.length_of (range : Range) (half : Half) : (half.of range).length = range.length / 2 := by
  cases half with
  | left => exact range.length_left
  | right => exact range.length_right

/-! ## Calls of length zero -/

/-- A call starts and ends at a time. -/
def CallList.EmptyAt (wt : Key metrics) (list : CallList metrics) (t : ℚ) (idx : ℕ) : Prop :=
  (list.entry idx).start wt = t ∧ (list.entry idx).last wt = t

instance (t : ℚ) (idx : ℕ) : Decidable (list.EmptyAt wt t idx) := inferInstanceAs (Decidable (_ ∧ _))

/-- The number of calls that start and end at a time. -/
def CallList.emptyCount (wt : Key metrics) (list : CallList metrics) (t : ℚ) : ℕ :=
  (List.range list.getSize).countP fun idx => list.EmptyAt wt t idx

/-- A call of length zero fits in the ranges that contain its time. -/
theorem CallList.liesIn_of_emptyAt {range half : Range} {callRefs : List ℕ} {t : ℚ} {idx : ℕ}
    (hin : CallsIn wt list range callRefs) (hmem : idx ∈ callRefs) (hempty : list.EmptyAt wt t idx) :
    list.liesIn wt half idx = decide (half.ContainsValue t) := by
  obtain ⟨callTimeRange, hrange, -⟩ := hin idx hmem
  obtain ⟨-, hbegin, hlast⟩ := CallList.timeRange_eq_some hrange
  rw [CallList.liesIn, hrange, Option.any_some]
  apply decide_eq_decide.mpr
  rw [Range.Contains, Range.ContainsValue, hbegin, hlast, hempty.1, hempty.2]

/-- The calls of length zero at a time go to the same half. -/
theorem exists_goesTo_of_emptyAt {range : Range} {callRefs : List ℕ} {t : ℚ}
    (hin : CallsIn wt list range callRefs) :
    ∃ half, ∀ idx ∈ callRefs, list.EmptyAt wt t idx → list.goesTo wt range half idx = true := by
  by_cases hleft : range.left.ContainsValue t
  · refine ⟨.left, ?_⟩
    intro idx hmem hempty
    rw [CallList.goesTo, CallList.liesIn_of_emptyAt hin hmem hempty]
    exact decide_eq_true hleft
  · refine ⟨.right, ?_⟩
    intro idx hmem hempty
    have hrange : range.ContainsValue t := by
      have hlies := CallList.liesIn_eq_true.mpr (hin idx hmem)
      rw [CallList.liesIn_of_emptyAt hin hmem hempty] at hlies
      exact of_decide_eq_true hlies
    have hright := (Range.contains_left_or_right hrange).resolve_left hleft
    rw [CallList.goesTo, CallList.liesIn_of_emptyAt hin hmem hempty,
      CallList.liesIn_of_emptyAt hin hmem hempty, decide_eq_false hleft, decide_eq_true hright]
    rfl

/-- **Enough calls of length zero at a time** make another call of `buildAsync`, with all of
them. -/
theorem exists_childCall_of_emptyAt {t : ℚ} {call : BuildCall}
    (h : CallsIn wt list call.range call.callRefs ∧
      minCallsPerNode ≤ call.callRefs.countP fun idx => list.EmptyAt wt t idx) :
    ∃ half next, childCall wt list call half = some next ∧
      CallsIn wt list next.range next.callRefs ∧
        minCallsPerNode ≤ next.callRefs.countP fun idx => list.EmptyAt wt t idx := by
  obtain ⟨hin, hmany⟩ := h
  obtain ⟨half, hgoes⟩ := exists_goesTo_of_emptyAt (t := t) hin
  have hcount : (halfCalls wt list call half).countP (fun idx => list.EmptyAt wt t idx) =
      call.callRefs.countP fun idx => list.EmptyAt wt t idx := by
    rw [halfCalls, List.countP_filter]
    apply List.countP_congr
    intro idx hmem
    rw [Bool.and_eq_true, decide_eq_true_eq]
    exact ⟨fun h => h.1, fun h => ⟨h, hgoes idx hmem h⟩⟩
  have hlength : ¬(halfCalls wt list call half).length < minCallsPerNode := by
    have hle := List.countP_le_length (p := fun idx => decide (list.EmptyAt wt t idx))
      (l := halfCalls wt list call half)
    omega
  refine ⟨half, _, (childCall_eq hin half).trans (if_neg hlength), callsIn_halfCalls call half, ?_⟩
  exact hmany.trans hcount.ge

/-! ## Short ranges -/

/-- Among finitely many numbers the positive ones do not get arbitrarily small. -/
theorem exists_pos_le (ds : List ℚ) : ∃ ε > 0, ∀ d ∈ ds, 0 < d → ε ≤ d := by
  induction ds with
  | nil => exact ⟨1, one_pos, fun _ hmem => absurd hmem List.not_mem_nil⟩
  | cons d ds ih =>
    obtain ⟨ε, hε, hle⟩ := ih
    by_cases hd : 0 < d
    · refine ⟨min d ε, lt_min hd hε, ?_⟩
      rw [List.forall_mem_cons]
      exact ⟨fun _ => min_le_left _ _, fun e hmem he => (min_le_right _ _).trans (hle e hmem he)⟩
    · exact ⟨ε, hε, List.forall_mem_cons.mpr ⟨fun h => absurd h hd, hle⟩⟩

/-- The distance from the start of a call to the end of another one is not positive, or it is
at least some positive number. -/
theorem exists_gap (wt : Key metrics) (list : CallList metrics) :
    ∃ ε > 0, ∀ a < list.getSize, ∀ b < list.getSize,
      (list.entry b).start wt < (list.entry a).last wt →
        ε ≤ (list.entry a).last wt - (list.entry b).start wt := by
  obtain ⟨ε, hε, hle⟩ := exists_pos_le
    ((List.range list.getSize).flatMap fun a =>
      (List.range list.getSize).map fun b => (list.entry a).last wt - (list.entry b).start wt)
  refine ⟨ε, hε, ?_⟩
  intro a ha b hb hlt
  apply hle _ _ (sub_pos.mpr hlt)
  exact List.mem_flatMap.mpr ⟨a, List.mem_range.mpr ha,
    List.mem_map.mpr ⟨b, List.mem_range.mpr hb, rfl⟩⟩

/-- The calls in a range shorter than all distances have length zero, at one time. -/
theorem emptyAt_of_short {ε : ℚ}
    (hε : ∀ a < list.getSize, ∀ b < list.getSize,
      (list.entry b).start wt < (list.entry a).last wt →
        ε ≤ (list.entry a).last wt - (list.entry b).start wt)
    {range : Range} {callRefs : List ℕ} (hin : CallsIn wt list range callRefs)
    (hsize : ∀ idx ∈ callRefs, idx < list.getSize) (hshort : range.length < ε) {a b : ℕ}
    (ha : a ∈ callRefs) (hb : b ∈ callRefs) : list.EmptyAt wt ((list.entry a).start wt) b := by
  have hle : ∀ x ∈ callRefs, ∀ y ∈ callRefs, (list.entry x).last wt ≤ (list.entry y).start wt := by
    intro x hx y hy
    by_contra hlt
    have hgap := hε x (hsize x hx) y (hsize y hy) (not_le.mp hlt)
    obtain ⟨xRange, hxRange, hxIn⟩ := hin x hx
    obtain ⟨yRange, hyRange, hyIn⟩ := hin y hy
    obtain ⟨-, -, hxLast⟩ := CallList.timeRange_eq_some hxRange
    obtain ⟨-, hyBegin, -⟩ := CallList.timeRange_eq_some hyRange
    have hlast := hxIn.2
    have hbegin := hyIn.1
    rw [hxLast] at hlast
    rw [hyBegin] at hbegin
    rw [Range.length] at hshort
    linarith
  have hordered : ∀ x ∈ callRefs, (list.entry x).start wt ≤ (list.entry x).last wt := by
    intro x hx
    obtain ⟨xRange, hxRange, -⟩ := hin x hx
    obtain ⟨-, hbegin, hlast⟩ := CallList.timeRange_eq_some hxRange
    rw [← hbegin, ← hlast]
    exact xRange.ordered
  have hab := hle a ha b hb
  have hba := hle b hb a ha
  exact ⟨le_antisymm ((hordered b hb).trans hba) ((hordered a ha).trans hab),
    le_antisymm hba (((hordered a ha).trans hab).trans (hordered b hb))⟩

/-- Halving a length gets it below every positive number. -/
theorem exists_halved_lt (len : ℚ) {ε : ℚ} (hε : 0 < ε) : ∃ n : ℕ, len / 2 ^ n < ε := by
  obtain ⟨n, hn⟩ := pow_unbounded_of_one_lt (len / ε) (one_lt_two (α := ℚ))
  refine ⟨n, ?_⟩
  rwa [div_lt_iff₀ (by positivity), mul_comm, ← div_lt_iff₀ hε]

/-- What the calls of `buildAsync` have in common, by their depth. -/
structure ReachedAt (wt : Key metrics) (list : CallList metrics) (range : Range) (n : ℕ)
    (call : BuildCall) : Prop where
  callsIn : CallsIn wt list call.range call.callRefs
  sublist : call.callRefs.Sublist (List.range list.getSize)
  length : call.range.length = range.length / 2 ^ n
  many : 0 < n → minCallsPerNode ≤ call.callRefs.length

theorem ReachedAt.child {range : Range} {n : ℕ} {call : BuildCall} {half : Half} {next : BuildCall}
    (h : ReachedAt wt list range n call) (hnext : childCall wt list call half = some next) :
    ReachedAt wt list range (n + 1) next := by
  rw [childCall_eq h.callsIn] at hnext
  split at hnext
  · exact nomatch hnext
  · rename_i hmany
    cases hnext
    refine ⟨callsIn_halfCalls call half, (halfCalls_sublist call half).trans h.sublist, ?_,
      fun _ => Nat.not_lt.mp hmany⟩
    dsimp only
    rw [Half.length_of, h.length, pow_succ, div_div]

/-- The depth is bounded exactly when no 500 calls of length zero share their time. -/
theorem depth_bounded_iff {range : Range}
    (hin : CallsIn wt list range (List.range list.getSize)) :
    (∃ n, ∀ place, place.length = n →
        follow (childCall wt list) place ⟨range, List.range list.getSize⟩ = none) ↔
      ∀ t, list.emptyCount wt t < minCallsPerNode := by
  constructor
  · rintro ⟨n, hn⟩ t
    by_contra hmany
    obtain ⟨place, call, hlen, hplace⟩ := exists_follow_of_progress
      (fun _ h => exists_childCall_of_emptyAt (t := t) h)
      (s := ⟨range, List.range list.getSize⟩) ⟨hin, Nat.not_lt.mp hmany⟩ n
    rw [hn place hlen] at hplace
    exact nomatch hplace
  · intro hfew
    obtain ⟨ε, hε, hgap⟩ := exists_gap wt list
    obtain ⟨n, hn⟩ := exists_halved_lt range.length hε
    refine ⟨n + 1, ?_⟩
    intro place hlen
    by_contra hreached
    obtain ⟨call, hcall⟩ := Option.ne_none_iff_exists'.mp hreached
    have hroot : ReachedAt wt list range 0 ⟨range, List.range list.getSize⟩ :=
      ⟨hin, .refl _, by rw [pow_zero, div_one], fun h => absurd h (lt_irrefl _)⟩
    have h := follow_induction (fun _ _ _ _ h hnext => ReachedAt.child h hnext) hroot hcall
    have hmany := h.many (by omega)
    have hshort : call.range.length < ε := by
      have hle : range.length / 2 ^ (n + 1) ≤ range.length / 2 ^ n :=
        div_le_div_of_nonneg_left range.length_nonneg (by positivity)
          (pow_le_pow_right₀ one_le_two n.le_succ)
      rw [h.length, zero_add, hlen]
      exact hle.trans_lt hn
    -- all calls left have length zero, at the time of the first of them
    obtain ⟨a, ha⟩ := List.exists_mem_of_length_pos (lt_of_lt_of_le (by decide) hmany)
    have hempty : ∀ b ∈ call.callRefs, list.EmptyAt wt ((list.entry a).start wt) b :=
      fun b hb => emptyAt_of_short hgap h.callsIn
        (fun idx hidx => List.mem_range.mp (h.sublist.subset hidx)) hshort ha hb
    have hcount : call.callRefs.length ≤ list.emptyCount wt ((list.entry a).start wt) := by
      rw [CallList.emptyCount,
        ← List.countP_eq_length.mpr fun b hb => decide_eq_true (hempty b hb)]
      exact h.sublist.countP_le
    have hlt := hfew ((list.entry a).start wt)
    omega

/-! ## What the depth means for `buildAsync` -/

variable {metricValuesList : MetricValuesList metrics}

/-- **The recursive call for a half** has a tree when `buildAsync` has one, and its nodes are nodes
of it. -/
theorem exists_child_of_buildAsync {fuel : ℕ} {call next : BuildCall} {half : Half}
    {tree : CallRangeTree metrics} (hnext : childCall wt list call half = some next)
    (h : buildAsync wt list metricValuesList (fuel + 1) call.range call.callRefs = some tree) :
    ∃ child, buildAsync wt list metricValuesList fuel next.range next.callRefs = some child ∧
      child.nodes ⊆ tree.nodes := by
  simp only [buildAsync, Range.subRange_left, Range.subRange_right, Option.bind_eq_bind,
    Option.bind_some] at h
  obtain ⟨placed, hplaced, h⟩ := Option.bind_eq_some_iff.mp h
  obtain ⟨stats, -, h⟩ := Option.bind_eq_some_iff.mp h
  obtain ⟨left, hleft, h⟩ := Option.bind_eq_some_iff.mp h
  obtain ⟨right, hright, h⟩ := Option.bind_eq_some_iff.mp h
  cases h
  rw [childCall_of_placeCalls hplaced] at hnext
  split at hnext
  · cases hnext
  · rename_i hne
    cases hnext
    have hhalf : ∀ built, buildHalf wt metricValuesList (buildAsync wt list metricValuesList fuel)
        (half.of call.range) (placed.keepSmall.of half) = some built →
          buildAsync wt list metricValuesList fuel (half.of call.range)
            (placed.keepSmall.of half) = some built.1 := by
      intro built hbuilt
      rw [buildHalf, if_neg hne] at hbuilt
      obtain ⟨child, hchild, rfl⟩ := Option.map_eq_some_iff.mp hbuilt
      exact hchild
    -- the children stand in the order in which they return
    have hnodes : ∀ node, node ∈ left.1.nodes ∨ node ∈ right.1.nodes →
        node ∈ (joinHalves call.range (sortCalls wt list placed.keepSmall.own) stats
          (asyncCallCount ≤ call.callRefs.length) left right).nodes := by
      intro node hnode
      rw [joinHalves, CallRangeTree.nodes]
      apply List.mem_cons_of_mem
      rw [List.mem_append]
      split
      · exact hnode
      · exact hnode.symm
    cases half with
    | left => exact ⟨left.1, hhalf left hleft, fun node hnode => hnodes node (.inl hnode)⟩
    | right => exact ⟨right.1, hhalf right hright, fun node hnode => hnodes node (.inr hnode)⟩

/-- **Every place has a node**: the tree that `buildAsync` returns has a node for every range it is
called with, at most as deep as there are levels. -/
theorem exists_node_of_follow {place : List Half} {fuel : ℕ} {range : Range} {callRefs : List ℕ}
    {call : BuildCall} {tree : CallRangeTree metrics}
    (h : follow (childCall wt list) place ⟨range, callRefs⟩ = some call)
    (hbuild : buildAsync wt list metricValuesList fuel range callRefs = some tree) :
    place.length < fuel ∧ ∃ node ∈ tree.nodes, node.range? = some call.range := by
  induction place generalizing fuel range callRefs tree with
  | nil =>
    cases h
    obtain ⟨-, hrange⟩ := built_buildAsync hbuild
    cases fuel with
    | zero => exact nomatch hbuild
    | succ fuel =>
      refine ⟨fuel.succ_pos, tree, ?_, hrange⟩
      cases tree with
      | absent => exact nomatch hrange
      | node => exact List.mem_cons_self
  | cons half place ih =>
    obtain ⟨next, hnext, hrest⟩ := Option.bind_eq_some_iff.mp h
    cases fuel with
    | zero => exact nomatch hbuild
    | succ fuel =>
      obtain ⟨child, hchild, hnodes⟩ := exists_child_of_buildAsync hnext hbuild
      obtain ⟨hlen, node, hnode, hrange⟩ := ih hrest hchild
      exact ⟨Nat.succ_lt_succ hlen, node, hnodes hnode, hrange⟩

/-- **`buildAsync` comes to an end** where the depth is bounded, when nothing it uses throws. -/
theorem exists_buildAsync_of_depth {n : ℕ} {call : BuildCall}
    (hdepth : ∀ place, place.length = n → follow (childCall wt list) place call = none)
    (hin : CallsIn wt list call.range call.callRefs)
    (hcycle : ∀ idx ∈ call.callRefs, (list.getCycleDepth idx).isSome = true)
    (hcum : ∀ range, call.range.Contains range →
      (metricValuesList.getCumCostStats wt range).isSome = true) :
    ∃ tree, buildAsync wt list metricValuesList n call.range call.callRefs = some tree := by
  induction n generalizing call with
  | zero => exact nomatch hdepth [] rfl
  | succ n ih =>
    obtain ⟨placed, hplaced, -⟩ :=
      placeCalls_eq call.range.left call.range.right hin
    have hsplit := split_keep hplaced hin (placed.left.length < minCallsPerNode)
      (placed.right.length < minCallsPerNode)
    have hsub : ∀ idx ∈ placed.keepSmall.all, (list.getCycleDepth idx).isSome = true := by
      intro idx hidx
      have hmem := ((placed.all_keep_perm _ _).trans (placeCalls_spec hplaced hin).1).subset hidx
      exact hcycle idx hmem
    have hstats := new_eq_some_iff.mpr
      ⟨fun idx hidx => hsub idx (List.mem_append_left _
        ((sortCalls_perm wt list placed.keepSmall.own).subset hidx)), rfl⟩
    have hhalf : ∀ half : Half, ∃ built,
        buildHalf wt metricValuesList (buildAsync wt list metricValuesList n)
          (half.of call.range) (placed.keepSmall.of half) = some built := by
      intro half
      have hcontains := half.contains_of call.range
      rw [buildHalf]
      split
      · obtain ⟨cum, hcum'⟩ := Option.isSome_iff_exists.mp (hcum _ hcontains)
        exact ⟨_, by rw [hcum']; rfl⟩
      · rename_i hne
        have hnext := (childCall_of_placeCalls hplaced half).trans (if_neg hne)
        have hchild : ∃ tree, buildAsync wt list metricValuesList n (half.of call.range)
            (placed.keepSmall.of half) = some tree := by
          let next : BuildCall := ⟨half.of call.range, placed.keepSmall.of half⟩
          apply @ih next
          · intro place hlen
            have hnone := hdepth (half :: place) (congrArg Nat.succ hlen)
            rwa [follow, hnext] at hnone
          · exact hsplit.callsIn_of half
          · exact fun idx hidx => hsub idx (PlacedCalls.mem_all_of hidx)
          · exact fun range hrange => hcum range (hcontains.trans hrange)
        obtain ⟨tree, htree⟩ := hchild
        exact ⟨_, by rw [htree]; rfl⟩
    obtain ⟨left, hleft⟩ := hhalf .left
    obtain ⟨right, hright⟩ := hhalf .right
    change buildHalf wt metricValuesList (buildAsync wt list metricValuesList n) call.range.left
      placed.keepSmall.left = some left at hleft
    change buildHalf wt metricValuesList (buildAsync wt list metricValuesList n) call.range.right
      placed.keepSmall.right = some right at hright
    rw [← Option.isSome_iff_exists]
    simp only [buildAsync, Range.subRange_left, Range.subRange_right, hplaced, Option.bind_eq_bind,
      Option.bind_some, hstats, hleft, hright, Option.isSome_some]

/-- **`buildAsync` comes to an end** exactly when no 500 calls of length zero share their time,
where nothing it uses throws. -/
theorem exists_buildAsync_iff {range : Range}
    (hin : CallsIn wt list range (List.range list.getSize))
    (hcycle : ∀ idx < list.getSize, (list.getCycleDepth idx).isSome = true)
    (hcum : ∀ range', range.Contains range' →
      (metricValuesList.getCumCostStats wt range').isSome = true) :
    (∃ fuel tree, buildAsync wt list metricValuesList fuel range (List.range list.getSize) =
        some tree) ↔ ∀ t, list.emptyCount wt t < minCallsPerNode := by
  rw [← depth_bounded_iff hin]
  constructor
  · rintro ⟨fuel, tree, htree⟩
    refine ⟨fuel, ?_⟩
    intro place hlen
    by_contra hreached
    obtain ⟨call, hcall⟩ := Option.ne_none_iff_exists'.mp hreached
    obtain ⟨hlt, -⟩ := exists_node_of_follow hcall htree
    exact absurd hlen hlt.ne
  · rintro ⟨n, hn⟩
    exact ⟨n, exists_buildAsync_of_depth hn hin
      (fun idx hidx => hcycle idx (List.mem_range.mp hidx)) hcum⟩

end Depth

/-! ## A tree of two nodes -/

theorem eightLong_ordered : (0 : ℚ) ≤ 8 := by norm_num

theorem earlyCall_ordered : (1 : ℚ) ≤ 3 := by norm_num

theorem middleCall_ordered : (2 : ℚ) ≤ 6 := by norm_num

/-- The time from 0 to 8. -/
def eightLong : Range := ⟨0, 8, eightLong_ordered⟩

/-- A time in its first half. -/
def earlyCall : Range := ⟨1, 3, earlyCall_ordered⟩

/-- A time over its middle. -/
def middleCall : Range := ⟨2, 6, middleCall_ordered⟩

/-- As many calls in the first half as a node needs, and one over the middle. -/
def twoNodeTimes : List (ℚ × ℚ) := List.replicate minCallsPerNode (1, 3) ++ [(2, 6)]

/-- Their call list. -/
@[irreducible] def twoNodeList : CallList wallTimeMetrics := .topLevel twoNodeTimes

theorem getSize_twoNodeList : twoNodeList.getSize = minCallsPerNode + 1 := by
  simp [twoNodeList, CallList.topLevel, CallList.getSize, twoNodeTimes]

theorem timeRange_twoNodeList {idx : ℕ} (hidx : idx < minCallsPerNode) :
    twoNodeList.timeRange wallTimeKey idx = some earlyCall := by
  rw [twoNodeList]
  apply timeRange_topLevel
  rw [twoNodeTimes, List.getElem?_append_left (hidx.trans_eq List.length_replicate.symm),
    List.getElem?_replicate, if_pos hidx]
  rfl

theorem timeRange_twoNodeList_last :
    twoNodeList.timeRange wallTimeKey minCallsPerNode = some middleCall := by
  rw [twoNodeList]
  apply timeRange_topLevel
  rw [twoNodeTimes, List.getElem?_append_right List.length_replicate.le, List.length_replicate,
    Nat.sub_self]
  rfl

/-- Every call of the list has one of the two times. -/
theorem forall_timeRange_twoNodeList {P : Range → Prop} (hearly : P earlyCall)
    (hmiddle : P middleCall) :
    ∀ idx < twoNodeList.getSize, ∃ callTimeRange,
      twoNodeList.timeRange wallTimeKey idx = some callTimeRange ∧ P callTimeRange := by
  intro idx hidx
  rw [getSize_twoNodeList] at hidx
  rcases Nat.lt_succ_iff_lt_or_eq.mp hidx with hidx | rfl
  · exact ⟨_, timeRange_twoNodeList hidx, hearly⟩
  · exact ⟨_, timeRange_twoNodeList_last, hmiddle⟩

theorem getCycleDepth_twoNodeList (idx : ℕ) : twoNodeList.getCycleDepth idx = some 0 := by
  rw [twoNodeList]
  exact getCycleDepth_topLevel _ idx

theorem callsIn_twoNodeList :
    CallsIn wallTimeKey twoNodeList eightLong (List.range twoNodeList.getSize) := by
  have hearly : eightLong.Contains earlyCall := by
    norm_num [Range.Contains, eightLong, earlyCall]
  have hmiddle : eightLong.Contains middleCall := by
    norm_num [Range.Contains, eightLong, middleCall]
  intro idx hidx
  exact forall_timeRange_twoNodeList hearly hmiddle idx (List.mem_range.mp hidx)

theorem covers_twoNodeList :
    MetricValuesList.Covers wallTimeKey (.ofTimes [0, 8]) ([0, 8].map fun t _ => t) eightLong :=
  MetricValuesList.covers_ofTimes (List.cons_ne_nil _ _) (List.pairwise_pair.mpr eightLong_ordered)
    le_rfl le_rfl

/-- No call of the list has length zero. -/
theorem emptyCount_twoNodeList (t : ℚ) :
    twoNodeList.emptyCount wallTimeKey t < minCallsPerNode := by
  rw [CallList.emptyCount, List.countP_eq_zero.mpr]
  · exact minCallsPerNode_pos
  · intro idx hidx hempty
    obtain ⟨hstart, hlast⟩ := of_decide_eq_true hempty
    obtain ⟨callTimeRange, hrange, hlong⟩ := forall_timeRange_twoNodeList
      (P := fun range => range.begin < range.last) (by norm_num [earlyCall])
      (by norm_num [middleCall]) idx (List.mem_range.mp hidx)
    obtain ⟨-, hbegin, hend⟩ := CallList.timeRange_eq_some hrange
    rw [hbegin, hend, hstart, hlast] at hlong
    exact lt_irrefl t hlong

/-- Its calls in the first half get a node. -/
theorem follow_twoNodeList :
    ∃ callRefs, follow (childCall wallTimeKey twoNodeList) [.left]
      ⟨eightLong, List.range twoNodeList.getSize⟩ = some ⟨eightLong.left, callRefs⟩ := by
  have hearly : (List.range minCallsPerNode).countP
      (twoNodeList.goesTo wallTimeKey eightLong .left) = minCallsPerNode := by
    have hleft : eightLong.left.Contains earlyCall := by
      norm_num [Range.Contains, Range.left, Range.center, eightLong, earlyCall]
    rw [List.countP_eq_length.mpr, List.length_range]
    intro idx hidx
    have hrange := timeRange_twoNodeList (List.mem_range.mp hidx)
    exact CallList.liesIn_eq_true.mpr ⟨_, hrange, hleft⟩
  apply follow_half callsIn_twoNodeList
  rw [getSize_twoNodeList, List.range_succ, List.countP_append, hearly]
  exact Nat.le_add_right _ _

/-- **A tree of two nodes**, one for the first half. -/
theorem exists_twoNodeTree :
    ∃ fuel tree, buildAsync wallTimeKey twoNodeList (.ofTimes [0, 8]) fuel eightLong
        (List.range twoNodeList.getSize) = some tree ∧
      ∃ node ∈ tree.nodes, node.range? = some eightLong.left := by
  obtain ⟨fuel, tree, htree⟩ := (exists_buildAsync_iff callsIn_twoNodeList
    (fun idx _ => Option.isSome_iff_exists.mpr ⟨0, getCycleDepth_twoNodeList idx⟩)
    (fun range hrange => Option.isSome_iff_exists.mpr
      ⟨_, (covers_twoNodeList.mono hrange).getCumCostStats⟩)).mpr
    emptyCount_twoNodeList
  obtain ⟨callRefs, hleft⟩ := follow_twoNodeList
  obtain ⟨-, hnode⟩ := exists_node_of_follow hleft htree
  exact ⟨fuel, tree, htree, hnode⟩

/-- The calls of both nodes. -/
theorem call_range_tree_partitions_two :
    ∃ fuel tree, buildAsync wallTimeKey twoNodeList (.ofTimes [0, 8]) fuel eightLong
        (List.range twoNodeList.getSize) = some tree ∧
      (∃ node ∈ tree.nodes, node.range? = some eightLong.left) ∧
      (∃ node ∈ tree.nodes, minCallsPerNode ∈ node.callRefs ∧
        node.range? ≠ some eightLong.left) ∧
      FunctionsStats.ofAllCalls twoNodeList = some tree.functionsStats := by
  obtain ⟨fuel, tree, htree, hleft⟩ := exists_twoNodeTree
  obtain ⟨hcalls, -, hstats⟩ :=
    call_range_tree_partitions wallTimeKey twoNodeList _ callsIn_twoNodeList htree
  obtain ⟨before, node, after, hnodes, hown, -, range, callTimeRange, hrange, hcall, hcontains⟩ :=
    hcalls minCallsPerNode (Nat.lt_of_lt_of_eq (Nat.lt_succ_self _) getSize_twoNodeList.symm)
  refine ⟨fuel, tree, htree, hleft, ⟨node, ?_, hown, ?_⟩, hstats⟩
  · rw [hnodes]
    exact List.mem_append_right _ List.mem_cons_self
  · -- the call over the middle does not fit in the first half
    intro hhalf
    obtain rfl : range = eightLong.left := Option.some.inj (hrange.symm.trans hhalf)
    obtain rfl : middleCall = callTimeRange :=
      Option.some.inj (timeRange_twoNodeList_last.symm.trans hcall)
    norm_num [Range.Contains, Range.left, Range.center, eightLong, middleCall] at hcontains

/-! ## Finitely many nodes -/

/-- **Termination of `buildAsync`**: over calls inside the range it reaches finitely many nodes
exactly when no 500 calls of length zero share their time.  The recursion does not depend on the
call trees of the nodes; a name for which their constructor throws stops it at the first node. -/
theorem finite_nodes_iff (wt : Key metrics) (list : CallList metrics) {range : Range}
    (hin : CallsIn wt list range (List.range list.getSize)) :
    {place | (follow (childCall wt list) place
        ⟨range, List.range list.getSize⟩).isSome}.Finite ↔
      ∀ t, list.emptyCount wt t < minCallsPerNode := by
  rw [finite_places_iff, depth_bounded_iff hin]

/-- The two nodes. -/
theorem finite_nodes_two :
    {place | (follow (childCall wallTimeKey twoNodeList) place
        ⟨eightLong, List.range twoNodeList.getSize⟩).isSome}.Finite ∧
      (follow (childCall wallTimeKey twoNodeList) [.left]
        ⟨eightLong, List.range twoNodeList.getSize⟩).isSome := by
  obtain ⟨callRefs, hleft⟩ := follow_twoNodeList
  refine ⟨?_, Option.isSome_iff_exists.mpr ⟨_, hleft⟩⟩
  exact (finite_nodes_iff wallTimeKey twoNodeList callsIn_twoNodeList).mpr emptyCount_twoNodeList

theorem emptyCount_replicate (wt : Key metrics) (n : ℕ) (t : ℚ) :
    (CallList.topLevel (List.replicate n (t, t))).emptyCount wt t = n := by
  rw [CallList.emptyCount, List.countP_eq_length.mpr]
  · exact List.length_range.trans List.length_replicate
  · intro idx hidx
    have hlt : idx < (List.replicate n (t, t)).length := List.mem_range.mp hidx
    apply decide_eq_true
    simp only [CallList.EmptyAt, CallList.entry, CallList.topLevel, List.getD_eq_getElem _ _ hlt,
      List.getElem_replicate, and_self]

/-- Many calls at time 0 that take no time. -/
theorem infinite_nodes_replicate {n : ℕ} (hn : minCallsPerNode ≤ n) :
    ¬{place | (follow (childCall wallTimeKey (.topLevel (List.replicate n (0, 0)))) place
        ⟨⟨0, 1, zero_le_one⟩, List.range n⟩).isSome}.Finite := by
  have hsize : (CallList.topLevel (List.replicate n (0, 0)) : CallList wallTimeMetrics).getSize =
      n := List.length_replicate
  have hin : CallsIn wallTimeKey (.topLevel (List.replicate n (0, 0))) ⟨0, 1, zero_le_one⟩
      (List.range (List.replicate n ((0 : ℚ), (0 : ℚ))).length) := by
    apply callsIn_topLevel
    intro time htime
    rw [List.eq_of_mem_replicate htime]
    exact ⟨le_rfl, le_rfl, zero_le_one⟩
  intro hfinite
  rw [finite_places_iff] at hfinite
  have hbounded := depth_bounded_iff hin
  rw [hsize] at hbounded
  have hfew := hbounded.mp hfinite 0
  rw [emptyCount_replicate] at hfew
  exact absurd hn (Nat.not_le.mpr hfew)

/-- Five hundred calls at time 0 that take no time. -/
theorem infinite_nodes_zero_length :
    ¬{place | (follow (childCall wallTimeKey (.topLevel (List.replicate 500 (0, 0)))) place
        ⟨⟨0, 1, zero_le_one⟩, List.range 500⟩).isSome}.Finite :=
  infinite_nodes_replicate le_rfl

end PhpSpx.WebUi
