import PhpSpx.WebUi.CallGraph
import PhpSpx.WebUi.CallTreeStats

/-!
# The flame graph

`FlameGraph.render` of `widget.js`: the call tree of the statistics as bars, one row for each depth,
the callers below the calls they made.  A bar is as wide as its share of the largest cumulated
value, less 1, and bars too narrow are left out with all above them.

* `CallTreeStats.getRoot` — the nodes as `getChildren` sorts them.
* `CallTreeStatsNode.getMaxCumInc` — the value the widths are shares of.
* `renderNode` — the bars.
* `flame_graph_layout` — the bars of a row do not overlap, and none leaves the view.
* `nested_renderFlameGraph` — the bars of calls are above that of their caller.
-/

namespace PhpSpx.WebUi

open Lib (Trie)

variable {metrics : EnabledMetrics}

/-! ## Nodes -/

/-- `getInc().getValue(metric)`, 0 for a metric that is not enabled. -/
def incByKey (inc : MetricValueSet metrics) (metric : String) : ℚ :=
  ((metrics.list.attach.find? fun m => m.1.key = metric).map inc).getD 0

/-- The sort of `CallTreeStatsNode.getChildren`. -/
def sortByMinTime (nodes : List (ℚ × CallTreeStatsNode)) : List CallTreeStatsNode :=
  (nodes.mergeSort fun a b => a.1 ≤ b.1).map Prod.snd

/-- The nodes of a tree, each with its `minTime`. -/
def nodesByMinTime : Trie String (CallTreeTotals metrics) → List (ℚ × CallTreeStatsNode)
  | .leaf => []
  | .branch key node children siblings =>
    (node.minTime, .mk (some key) node.called (incByKey node.inc)
      (sortByMinTime (nodesByMinTime children))) :: nodesByMinTime siblings

/-- `CallTreeStats.getRoot`. -/
def CallTreeStats.getRoot (stats : CallTreeStats metrics) : CallTreeStatsNode :=
  .mk none stats.root.called (incByKey stats.root.inc) (sortByMinTime (nodesByMinTime stats.children))

namespace CallTreeStatsNode

/-- `getFunctionName`. -/
def functionName : CallTreeStatsNode → Option String
  | mk functionName _ _ _ => functionName

/-- `getInc`. -/
def inc : CallTreeStatsNode → String → ℚ
  | mk _ _ inc _ => inc

/-- `getChildren`. -/
def children : CallTreeStatsNode → List CallTreeStatsNode
  | mk _ _ _ children => children

mutual

/-- `CallTreeStatsNode.getMaxCumInc`, for one metric. -/
def getMaxCumInc (metric : String) : CallTreeStatsNode → ℚ
  | .mk _ _ inc children =>
    max (if children.length = 0 then -numberMaxValue else sumMaxCumInc metric children) (inc metric)

/-- The loop over the children. -/
def sumMaxCumInc (metric : String) : List CallTreeStatsNode → ℚ
  | [] => 0
  | child :: children => child.getMaxCumInc metric + sumMaxCumInc metric children

end

end CallTreeStatsNode

/-! ## Bars -/

/-- The size of a `ViewPort`. -/
structure ViewPort where
  width : ℚ
  height : ℚ

/-- A rectangle of the flame graph, with the names from the top of the tree to its node. -/
structure FlameRect where
  path : List (Option String)
  x : ℚ
  y : ℚ
  width : ℚ
  height : ℚ

mutual

/-- `renderNode`, for a node under the nodes of the given names: the rectangles it draws and the
place behind them. -/
def renderNode (viewPort : ViewPort) (metric : String) (maxCumInc : ℚ)
    (ancestors : List (Option String)) (x : ℚ) (y : Option ℚ) :
    CallTreeStatsNode → List FlameRect × ℚ
  | .mk functionName _ inc children =>
    let y := orDefault y viewPort.height
    let w := viewPort.width * inc metric / maxCumInc - 1
    if w < 3 / 10 then ([], x)
    else
      let path := ancestors ++ [functionName]
      let h := bound (y / (path.length + 1)) (some 2) (some 12)
      let y := y - (h + 1 / 2)
      let (rects, childrenX) := renderNodes viewPort metric maxCumInc path x (some y) children
      (rects ++ [⟨path, x, y, w, h⟩], max (x + w) childrenX)

/-- The loops over the children, and over those of the root. -/
def renderNodes (viewPort : ViewPort) (metric : String) (maxCumInc : ℚ)
    (ancestors : List (Option String)) (x : ℚ) (y : Option ℚ) :
    List CallTreeStatsNode → List FlameRect × ℚ
  | [] => ([], x)
  | child :: children =>
    let (rects, childX) := renderNode viewPort metric maxCumInc ancestors x y child
    let (rects', childrenX) := renderNodes viewPort metric maxCumInc ancestors childX y children
    (rects ++ rects', childrenX)

end

/-- `FlameGraph.render`: the rectangles of the nodes. -/
def renderFlameGraph (viewPort : ViewPort) (metric : String) (cgRoot : CallTreeStatsNode) :
    List FlameRect :=
  (renderNodes viewPort metric (cgRoot.getMaxCumInc metric) [] 0 none cgRoot.children).1

/-! ## Rows -/

/-- Bars from left to right between two places, in rows of at least some depth: in a row no bar
begins before the one before it ends. -/
structure Drawn (depth : ℕ) (x x' : ℚ) (rects : List FlameRect) : Prop where
  le : x ≤ x'
  deep : ∀ r ∈ rects, depth < r.path.length
  wide : ∀ r ∈ rects, 3 / 10 ≤ r.width
  within : ∀ r ∈ rects, x ≤ r.x ∧ r.x + r.width ≤ x'
  apart : rects.Pairwise fun r r' => r.path.length = r'.path.length → r.x + r.width ≤ r'.x

theorem drawn_nil (depth : ℕ) (x : ℚ) : Drawn depth x x [] := by
  constructor <;> simp

/-- Bars side by side. -/
theorem Drawn.append {depth : ℕ} {x x' x'' : ℚ} {rects rects' : List FlameRect}
    (h : Drawn depth x x' rects) (h' : Drawn depth x' x'' rects') :
    Drawn depth x x'' (rects ++ rects') where
  le := h.le.trans h'.le
  deep := List.forall_mem_append.mpr ⟨h.deep, h'.deep⟩
  wide := List.forall_mem_append.mpr ⟨h.wide, h'.wide⟩
  within := by
    rw [List.forall_mem_append]
    constructor
    · intro r hr
      exact ⟨(h.within r hr).1, (h.within r hr).2.trans h'.le⟩
    · intro r hr
      exact ⟨h.le.trans (h'.within r hr).1, (h'.within r hr).2⟩
  apart := by
    rw [List.pairwise_append]
    refine ⟨h.apart, h'.apart, ?_⟩
    intro r hr r' hr' _
    exact (h.within r hr).2.trans (h'.within r' hr').1

/-- A bar below others. -/
theorem Drawn.below {depth : ℕ} {x x' : ℚ} {rects : List FlameRect}
    (bar : FlameRect) (h : Drawn bar.path.length x x' rects) (hdepth : bar.path.length = depth + 1) (hx : bar.x = x)
    (hwidth : 3 / 10 ≤ bar.width) :
    Drawn depth x (max (x + bar.width) x') (rects ++ [bar]) where
  le := h.le.trans (le_max_right _ _)
  deep := by
    rw [List.forall_mem_append, List.forall_mem_singleton]
    have hlt : depth < bar.path.length := by omega
    exact ⟨fun r hr => hlt.trans (h.deep r hr), hlt⟩
  wide := List.forall_mem_append.mpr ⟨h.wide, List.forall_mem_singleton.mpr hwidth⟩
  within := by
    rw [List.forall_mem_append, List.forall_mem_singleton]
    refine ⟨fun r hr => ⟨(h.within r hr).1, (h.within r hr).2.trans (le_max_right _ _)⟩, hx.ge, ?_⟩
    rw [hx]
    exact le_max_left _ _
  apart := by
    rw [List.pairwise_append]
    refine ⟨h.apart, List.pairwise_singleton _ _, ?_⟩
    intro r hr r' hr' hsame
    -- what is above the bar is in other rows
    rw [List.mem_singleton.mp hr'] at hsame
    exact absurd hsame (h.deep r hr).ne'

section Bars

variable {viewPort : ViewPort} {metric : String} {maxCumInc : ℚ}

/-- The width of the bar of a node. -/
def barWidth (viewPort : ViewPort) (metric : String) (maxCumInc : ℚ) (node : CallTreeStatsNode) :
    ℚ := viewPort.width * node.inc metric / maxCumInc - 1

/-- The top and the height of a row, of which the begin is passed. -/
def rowOf (viewPort : ViewPort) (depth : ℕ) (y : Option ℚ) : ℚ × ℚ :=
  let y := orDefault y viewPort.height
  let h := bound (y / (depth + 1)) (some 2) (some 12)
  (y - (h + 1 / 2), h)

variable (viewPort metric maxCumInc) in
/-- **What is drawn for a node**: nothing when it is narrow, else its bar below those of its
children. -/
theorem renderNode_cases (ancestors : List (Option String)) (x : ℚ) (y : Option ℚ)
    (node : CallTreeStatsNode) :
    (barWidth viewPort metric maxCumInc node < 3 / 10 ∧
      renderNode viewPort metric maxCumInc ancestors x y node = ([], x)) ∨
    (3 / 10 ≤ barWidth viewPort metric maxCumInc node ∧
      let path := ancestors ++ [node.functionName]
      let row := rowOf viewPort path.length y
      let above := renderNodes viewPort metric maxCumInc path x (some row.1) node.children
      renderNode viewPort metric maxCumInc ancestors x y node =
        (above.1 ++ [⟨path, x, row.1, barWidth viewPort metric maxCumInc node, row.2⟩],
          max (x + barWidth viewPort metric maxCumInc node) above.2)) := by
  cases node with
  | mk functionName called inc children =>
    rw [renderNode]
    by_cases h : viewPort.width * inc metric / maxCumInc - 1 < 3 / 10
    · exact .inl ⟨h, if_pos h⟩
    · exact .inr ⟨not_lt.mp h, if_neg h⟩

theorem renderNodes_cons (ancestors : List (Option String)) (x : ℚ) (y : Option ℚ)
    (child : CallTreeStatsNode) (children : List CallTreeStatsNode) :
    let first := renderNode viewPort metric maxCumInc ancestors x y child
    let rest := renderNodes viewPort metric maxCumInc ancestors first.2 y children
    renderNodes viewPort metric maxCumInc ancestors x y (child :: children) =
      (first.1 ++ rest.1, rest.2) := by
  rw [renderNodes]

mutual

/-- **The bars of a node.** -/
theorem drawn_renderNode (ancestors : List (Option String)) (x : ℚ) (y : Option ℚ) :
    (node : CallTreeStatsNode) →
      Drawn ancestors.length x (renderNode viewPort metric maxCumInc ancestors x y node).2
        (renderNode viewPort metric maxCumInc ancestors x y node).1
  | .mk functionName called inc children => by
    rcases renderNode_cases viewPort metric maxCumInc
      ancestors x y (.mk functionName called inc children) with ⟨-, h⟩ | ⟨hwide, h⟩
    · rw [h]
      exact drawn_nil _ _
    · have habove := drawn_renderNodes (ancestors ++ [functionName]) x
        (some (rowOf viewPort (ancestors ++ [functionName]).length y).1) children
      rw [h]
      exact .below ⟨_, x, _, barWidth viewPort metric maxCumInc _, _⟩ habove List.length_append rfl hwide

/-- The bars of siblings. -/
theorem drawn_renderNodes (ancestors : List (Option String)) (x : ℚ) (y : Option ℚ) :
    (children : List CallTreeStatsNode) →
      Drawn ancestors.length x (renderNodes viewPort metric maxCumInc ancestors x y children).2
        (renderNodes viewPort metric maxCumInc ancestors x y children).1
  | [] => drawn_nil _ _
  | child :: children => by
    rw [renderNodes_cons]
    exact (drawn_renderNode ancestors x y child).append (drawn_renderNodes ancestors _ y children)

end

end Bars

/-! ## Heights -/

/-- The row of depth `k + 1`: its top and its height. -/
def rowAt (viewPort : ViewPort) : ℕ → ℚ × ℚ
  | 0 => rowOf viewPort 1 none
  | k + 1 => rowOf viewPort (k + 2) (some (rowAt viewPort k).1)

/-- What is passed to the row of depth `k + 1`. -/
def rowStart (viewPort : ViewPort) : ℕ → Option ℚ
  | 0 => none
  | k + 1 => some (rowAt viewPort k).1

theorem rowAt_eq (viewPort : ViewPort) (k : ℕ) :
    rowAt viewPort k = rowOf viewPort (k + 1) (rowStart viewPort k) := by
  cases k <;> rfl

/-- A row is half a point above where the one below it begins. -/
theorem rowAt_succ {viewPort : ViewPort} {k : ℕ} (h : (rowAt viewPort k).1 ≠ 0) :
    (rowAt viewPort (k + 1)).1 + (rowAt viewPort (k + 1)).2 + 1 / 2 = (rowAt viewPort k).1 := by
  have hstart : orDefault (some (rowAt viewPort k).1) viewPort.height = (rowAt viewPort k).1 :=
    if_neg h
  rw [rowAt_eq, rowStart, rowOf, hstart]
  ring

theorem rowAt_height_pos (viewPort : ViewPort) (k : ℕ) : 0 < (rowAt viewPort k).2 := by
  have hlow : orDefault (some 2) 0 = (2 : ℚ) := by rw [orDefault, if_neg two_ne_zero]
  rw [rowAt_eq, rowOf, bound, hlow]
  exact two_pos.trans_le (le_max_left _ _)

/-- Rows are apart, unless one between them has its top at 0: the next one begins at the bottom
of the view again. -/
theorem rowAt_lt {viewPort : ViewPort} {k n : ℕ} (hlt : k < n)
    (h : ∀ i, k ≤ i → i < n → (rowAt viewPort i).1 ≠ 0) :
    (rowAt viewPort n).1 + (rowAt viewPort n).2 < (rowAt viewPort k).1 := by
  induction n with
  | zero => exact absurd hlt (Nat.not_lt_zero k)
  | succ n ih =>
    have hstep := rowAt_succ (h n (Nat.lt_succ_iff.mp hlt) (Nat.lt_succ_self n))
    rcases Nat.lt_succ_iff_lt_or_eq.mp hlt with hkn | rfl
    · have hbelow := ih hkn fun i hi hin => h i hi (hin.trans (Nat.lt_succ_self n))
      have hheight := rowAt_height_pos viewPort n
      linarith
    · linarith

section Heights

variable {viewPort : ViewPort} {metric : String} {maxCumInc : ℚ}

/-- A bar in the row of its depth. -/
def InRow (viewPort : ViewPort) (r : FlameRect) : Prop :=
  ∃ k, r.path.length = k + 1 ∧ r.y = (rowAt viewPort k).1 ∧ r.height = (rowAt viewPort k).2

mutual

theorem inRow_renderNode (ancestors : List (Option String)) (x : ℚ) :
    (node : CallTreeStatsNode) → ∀ r ∈ (renderNode viewPort metric maxCumInc ancestors x
      (rowStart viewPort ancestors.length) node).1, InRow viewPort r
  | .mk functionName called inc children => by
    rcases renderNode_cases viewPort metric maxCumInc
      ancestors x (rowStart viewPort ancestors.length) (.mk functionName called inc children) with
      ⟨-, h⟩ | ⟨-, h⟩
    · simp [h]
    · have hlen : (ancestors ++ [functionName]).length = ancestors.length + 1 := by simp
      have hrow : rowOf viewPort (ancestors ++ [functionName]).length
          (rowStart viewPort ancestors.length) = rowAt viewPort ancestors.length := by
        rw [rowAt_eq, hlen]
      have hstart : some (rowAt viewPort ancestors.length).1 =
          rowStart viewPort (ancestors ++ [functionName]).length := by
        rw [hlen]
        rfl
      have habove := inRow_renderNodes (ancestors ++ [functionName]) x children
      rw [h]
      simp only [CallTreeStatsNode.functionName, CallTreeStatsNode.children, hrow]
      rw [hstart, List.forall_mem_append, List.forall_mem_singleton]
      exact ⟨habove, ancestors.length, hlen, rfl, rfl⟩

theorem inRow_renderNodes (ancestors : List (Option String)) (x : ℚ) :
    (children : List CallTreeStatsNode) → ∀ r ∈ (renderNodes viewPort metric maxCumInc ancestors x
      (rowStart viewPort ancestors.length) children).1, InRow viewPort r
  | [] => fun _ hr => absurd hr List.not_mem_nil
  | child :: children => by
    rw [renderNodes_cons, List.forall_mem_append]
    exact ⟨inRow_renderNode ancestors x child, inRow_renderNodes ancestors _ children⟩

end

end Heights

/-! ## Widths -/

namespace CallTreeStatsNode

mutual

/-- A property of a node and of all below it. -/
def All (p : CallTreeStatsNode → Prop) : CallTreeStatsNode → Prop
  | .mk functionName called inc children =>
    p (.mk functionName called inc children) ∧ AllIn p children

/-- A property of some nodes and of all below them. -/
def AllIn (p : CallTreeStatsNode → Prop) : List CallTreeStatsNode → Prop
  | [] => True
  | child :: children => child.All p ∧ AllIn p children

end

/-- The values of a node are not negative. -/
def Nonneg (metric : String) (node : CallTreeStatsNode) : Prop := 0 ≤ node.inc metric

/-- The children of a node have no more than it has. -/
def Additive (metric : String) (node : CallTreeStatsNode) : Prop :=
  (node.children.map fun child => child.inc metric).sum ≤ node.inc metric

variable {metric : String}

variable (metric) in
theorem inc_le_getMaxCumInc (node : CallTreeStatsNode) :
    node.inc metric ≤ node.getMaxCumInc metric := by
  cases node with
  | mk functionName called inc children =>
    rw [getMaxCumInc]
    exact le_max_right _ _

theorem getMaxCumInc_nonneg (node : CallTreeStatsNode) (h : node.All (Nonneg metric)) :
    0 ≤ node.getMaxCumInc metric := by
  refine le_trans ?_ (node.inc_le_getMaxCumInc metric)
  cases node with
  | mk functionName called inc children => exact h.1

theorem sumMaxCumInc_nonneg {children : List CallTreeStatsNode} (h : AllIn (Nonneg metric) children) :
    0 ≤ sumMaxCumInc metric children := by
  induction children with
  | nil => exact le_rfl
  | cons child children ih =>
    obtain ⟨hchild, hrest⟩ := h
    exact add_nonneg (child.getMaxCumInc_nonneg hchild) (ih hrest)

/-- A node has at least what its children have, when it has not less than nothing. -/
theorem sumMaxCumInc_le {node : CallTreeStatsNode} (h : 0 ≤ node.inc metric) :
    sumMaxCumInc metric node.children ≤ node.getMaxCumInc metric := by
  cases node with
  | mk functionName called inc children =>
    rw [getMaxCumInc, CallTreeStatsNode.children]
    cases children with
    | nil => exact h.trans (le_max_right _ _)
    | cons child children => exact le_max_left _ _

mutual

/-- Where no children have more than their node, the values are those of the nodes. -/
theorem getMaxCumInc_eq : (node : CallTreeStatsNode) → node.All (Nonneg metric) →
    node.All (Additive metric) → node.getMaxCumInc metric = node.inc metric
  | .mk functionName called inc children => by
    rintro ⟨hnonneg, hrest⟩ ⟨hadditive, hrest'⟩
    rw [getMaxCumInc]
    apply max_eq_right
    split
    · refine le_trans ?_ hnonneg
      unfold numberMaxValue
      norm_num
    · rw [sumMaxCumInc_eq children hrest hrest']
      exact hadditive

theorem sumMaxCumInc_eq : (children : List CallTreeStatsNode) → AllIn (Nonneg metric) children →
    AllIn (Additive metric) children →
      sumMaxCumInc metric children = (children.map fun child => child.inc metric).sum
  | [] => fun _ _ => rfl
  | child :: children => by
    rintro ⟨hchild, hrest⟩ ⟨hchild', hrest'⟩
    rw [sumMaxCumInc, getMaxCumInc_eq child hchild hchild', sumMaxCumInc_eq children hrest hrest',
      List.map_cons, List.sum_cons]

end

end CallTreeStatsNode

section Widths

open CallTreeStatsNode (AllIn Nonneg Additive)

variable {viewPort : ViewPort} {metric : String} {maxCumInc : ℚ}

/-- The room that some cumulated value needs. -/
def room (viewPort : ViewPort) (maxCumInc cumInc : ℚ) : ℚ :=
  max 0 (viewPort.width * cumInc / maxCumInc - 1)

theorem room_mono (hwidth : 0 ≤ viewPort.width) (hmax : 0 < maxCumInc) {a b : ℚ} (h : a ≤ b) :
    room viewPort maxCumInc a ≤ room viewPort maxCumInc b := by
  have hle : viewPort.width * a / maxCumInc ≤ viewPort.width * b / maxCumInc := by gcongr
  exact max_le_max le_rfl (by linarith)

/-- What is side by side needs no more room than what it adds up to. -/
theorem room_add (hwidth : 0 ≤ viewPort.width) (hmax : 0 < maxCumInc) {a b : ℚ} (ha : 0 ≤ a)
    (hb : 0 ≤ b) :
    room viewPort maxCumInc a + room viewPort maxCumInc b ≤ room viewPort maxCumInc (a + b) := by
  have hsum : viewPort.width * (a + b) / maxCumInc =
      viewPort.width * a / maxCumInc + viewPort.width * b / maxCumInc := by ring
  have ha' : 0 ≤ viewPort.width * a / maxCumInc := by positivity
  have hb' : 0 ≤ viewPort.width * b / maxCumInc := by positivity
  unfold room
  rw [hsum]
  rcases max_cases 0 (viewPort.width * a / maxCumInc - 1) with ⟨ha1, -⟩ | ⟨ha1, -⟩ <;>
    rcases max_cases 0 (viewPort.width * b / maxCumInc - 1) with ⟨hb1, -⟩ | ⟨hb1, -⟩ <;>
      rw [ha1, hb1, le_max_iff]
  · exact .inl (by linarith)
  · exact .inr (by linarith)
  · exact .inr (by linarith)
  · exact .inr (by linarith)

mutual

/-- **The room of a node** is that of its cumulated value. -/
theorem renderNode_le (hwidth : 0 ≤ viewPort.width) (hmax : 0 < maxCumInc)
    (ancestors : List (Option String)) (x : ℚ) (y : Option ℚ) :
    (node : CallTreeStatsNode) → node.All (Nonneg metric) →
      (renderNode viewPort metric maxCumInc ancestors x y node).2 ≤
        x + room viewPort maxCumInc (node.getMaxCumInc metric)
  | .mk functionName called inc children => by
    rintro ⟨hnonneg, hrest⟩
    rcases renderNode_cases viewPort metric maxCumInc
      ancestors x y (.mk functionName called inc children) with ⟨-, h⟩ | ⟨-, h⟩
    · rw [h]
      exact le_add_of_nonneg_right (le_max_left _ _)
    · rw [h]
      apply max_le
      · have hinc := room_mono hwidth hmax
          (CallTreeStatsNode.inc_le_getMaxCumInc metric
            (.mk functionName called inc children))
        have hbar : barWidth viewPort metric maxCumInc (.mk functionName called inc children) ≤
            room viewPort maxCumInc (inc metric) := le_max_right _ _
        exact add_le_add le_rfl (hbar.trans hinc)
      · refine (renderNodes_le hwidth hmax _ x _ children hrest).trans ?_
        exact add_le_add le_rfl (room_mono hwidth hmax (CallTreeStatsNode.sumMaxCumInc_le hnonneg))

/-- The room of siblings. -/
theorem renderNodes_le (hwidth : 0 ≤ viewPort.width) (hmax : 0 < maxCumInc)
    (ancestors : List (Option String)) (x : ℚ) (y : Option ℚ) :
    (children : List CallTreeStatsNode) → AllIn (Nonneg metric) children →
      (renderNodes viewPort metric maxCumInc ancestors x y children).2 ≤
        x + room viewPort maxCumInc (CallTreeStatsNode.sumMaxCumInc metric children)
  | [] => fun _ => le_add_of_nonneg_right (le_max_left _ _)
  | child :: children => by
    rintro ⟨hchild, hrest⟩
    rw [renderNodes_cons, CallTreeStatsNode.sumMaxCumInc]
    have hfirst := renderNode_le hwidth hmax ancestors x y child hchild
    have hothers := renderNodes_le hwidth hmax ancestors
      (renderNode viewPort metric maxCumInc ancestors x y child).2 y children hrest
    have hadd := room_add hwidth hmax (CallTreeStatsNode.getMaxCumInc_nonneg child hchild)
      (CallTreeStatsNode.sumMaxCumInc_nonneg hrest)
    dsimp only
    linarith

end

/-! ## Bars above bars -/

/-- A bar that is above none is in the lowest row, and one that is above another is within it. -/
def Nested (ancestors : List (Option String)) (rects : List FlameRect) (r : FlameRect) : Prop :=
  (∃ name, r.path = ancestors ++ [name]) ∨
    ∃ caller ∈ rects, caller.path = r.path.dropLast ∧ caller.x ≤ r.x ∧
      r.x + r.width ≤ caller.x + caller.width

theorem Nested.mono {ancestors : List (Option String)} {rects rects' : List FlameRect}
    {r : FlameRect} (h : Nested ancestors rects r) (hsub : rects ⊆ rects') :
    Nested ancestors rects' r :=
  h.imp_right fun ⟨caller, hmem, hcaller⟩ => ⟨caller, hsub hmem, hcaller⟩

mutual

theorem nested_renderNode (hwidth : 0 ≤ viewPort.width) (hmax : 0 < maxCumInc)
    (ancestors : List (Option String)) (x : ℚ) (y : Option ℚ) :
    (node : CallTreeStatsNode) → node.All (Nonneg metric) → node.All (Additive metric) →
      ∀ r ∈ (renderNode viewPort metric maxCumInc ancestors x y node).1,
        Nested ancestors (renderNode viewPort metric maxCumInc ancestors x y node).1 r
  | .mk functionName called inc children => by
    rintro ⟨hnonneg, hrest⟩ ⟨hadditive, hrest'⟩
    rcases renderNode_cases viewPort metric maxCumInc
      ancestors x y (.mk functionName called inc children) with ⟨-, h⟩ | ⟨hwide, h⟩
    · simp [h]
    · set node := CallTreeStatsNode.mk functionName called inc children with hnode
      set path := ancestors ++ [node.functionName] with hpath
      set top := some (rowOf viewPort path.length y).1
      have habove := nested_renderNodes hwidth hmax path x top children hrest hrest'
      have hdrawn : Drawn path.length x _ (renderNodes viewPort metric maxCumInc path x top
          children).1 := drawn_renderNodes path x top children
      -- the bars above end where this one does
      have hend : (renderNodes viewPort metric maxCumInc path x top children).2 ≤
          x + barWidth viewPort metric maxCumInc node := by
        refine (renderNodes_le hwidth hmax path x top children hrest).trans ?_
        rw [CallTreeStatsNode.sumMaxCumInc_eq children hrest hrest']
        refine add_le_add le_rfl ((room_mono hwidth hmax hadditive).trans ?_)
        exact max_le (by linarith) le_rfl
      rw [h, List.forall_mem_append, List.forall_mem_singleton]
      refine ⟨?_, .inl ⟨_, rfl⟩⟩
      intro r hr
      rcases habove r hr with ⟨name, hname⟩ | hcaller
      · refine .inr ⟨_, List.mem_append_right _ (List.mem_singleton_self _), ?_, ?_⟩
        · rw [hname, List.dropLast_concat]
        · exact ⟨(hdrawn.within r hr).1, (hdrawn.within r hr).2.trans hend⟩
      · exact Nested.mono (.inr hcaller) (List.subset_append_left _ _)

theorem nested_renderNodes (hwidth : 0 ≤ viewPort.width) (hmax : 0 < maxCumInc)
    (ancestors : List (Option String)) (x : ℚ) (y : Option ℚ) :
    (children : List CallTreeStatsNode) → AllIn (Nonneg metric) children →
      AllIn (Additive metric) children →
      ∀ r ∈ (renderNodes viewPort metric maxCumInc ancestors x y children).1,
        Nested ancestors (renderNodes viewPort metric maxCumInc ancestors x y children).1 r
  | [] => fun _ _ _ hr => absurd hr List.not_mem_nil
  | child :: children => by
    rintro ⟨hchild, hrest⟩ ⟨hchild', hrest'⟩
    rw [renderNodes_cons, List.forall_mem_append]
    constructor
    · intro r hr
      exact (nested_renderNode hwidth hmax ancestors x y child hchild hchild' r hr).mono
        (List.subset_append_left _ _)
    · intro r hr
      exact (nested_renderNodes hwidth hmax ancestors _ y children hrest hrest' r hr).mono
        (List.subset_append_right _ _)

end

end Widths

/-- **The layout of the flame graph**: every bar is in the view from left to right and in the row
of its depth, in which it ends before the next bar begins.  A bar that is deeper than another is
above it, unless the top of a row between them is exactly at 0. -/
theorem flame_graph_layout (viewPort : ViewPort) (metric : String) (cgRoot : CallTreeStatsNode)
    (hwidth : 0 ≤ viewPort.width) (hmax : 0 < cgRoot.getMaxCumInc metric)
    (hnonneg : cgRoot.All (CallTreeStatsNode.Nonneg metric)) :
    let rects := renderFlameGraph viewPort metric cgRoot
    (∀ r ∈ rects, 0 ≤ r.x ∧ 3 / 10 ≤ r.width ∧ r.x + r.width ≤ viewPort.width ∧
        InRow viewPort r) ∧
      (rects.Pairwise fun r r' => r.path.length = r'.path.length → r.x + r.width ≤ r'.x) ∧
      ∀ r ∈ rects, ∀ r' ∈ rects, r.path.length < r'.path.length →
        (∀ k, r.path.length ≤ k + 1 → k + 1 < r'.path.length → (rowAt viewPort k).1 ≠ 0) →
        r'.y + r'.height < r.y := by
  intro rects
  have hroot : 0 ≤ cgRoot.inc metric ∧
      CallTreeStatsNode.AllIn (CallTreeStatsNode.Nonneg metric) cgRoot.children := by
    cases cgRoot with
    | mk functionName called inc children => exact hnonneg
  have hdrawn : Drawn 0 0 _ rects := drawn_renderNodes [] 0 none cgRoot.children
  have hrows : ∀ r ∈ rects, InRow viewPort r := inRow_renderNodes [] 0 cgRoot.children
  have hend : (renderNodes viewPort metric (cgRoot.getMaxCumInc metric) [] 0 none
      cgRoot.children).2 ≤ viewPort.width := by
    refine (renderNodes_le hwidth hmax [] 0 none cgRoot.children hroot.2).trans ?_
    rw [zero_add]
    refine (room_mono hwidth hmax (CallTreeStatsNode.sumMaxCumInc_le hroot.1)).trans ?_
    rw [room, mul_div_cancel_right₀ _ hmax.ne']
    exact max_le hwidth (by linarith)
  refine ⟨?_, hdrawn.apart, ?_⟩
  · intro r hr
    obtain ⟨hbegin, hlast⟩ := hdrawn.within r hr
    exact ⟨hbegin, hdrawn.wide r hr, hlast.trans hend, hrows r hr⟩
  · intro r hr r' hr' hdeeper htops
    obtain ⟨k, hk, hy, -⟩ := hrows r hr
    obtain ⟨k', hk', hy', hheight'⟩ := hrows r' hr'
    rw [hy, hy', hheight']
    refine rowAt_lt (by omega) ?_
    intro i hi hik'
    exact htops i (by omega) (by omega)

/-- The bars of `main`, which costs 10, and of `f`, on which it spends 4. -/
theorem flame_graph_layout_main :
    let main := CallTreeStatsNode.mk (some "main") 1 (fun _ => 10) [.mk (some "f") 1 (fun _ => 4) []]
    let rects := renderFlameGraph ⟨300, 100⟩ "wt" (.mk none 1 (fun _ => 10) [main])
    (∀ r ∈ rects, 0 ≤ r.x ∧ 3 / 10 ≤ r.width ∧ r.x + r.width ≤ 300 ∧ InRow ⟨300, 100⟩ r) ∧
      (rects.Pairwise fun r r' => r.path.length = r'.path.length → r.x + r.width ≤ r'.x) ∧
      ∀ r ∈ rects, ∀ r' ∈ rects, r.path.length < r'.path.length →
        (∀ k, r.path.length ≤ k + 1 → k + 1 < r'.path.length → (rowAt ⟨300, 100⟩ k).1 ≠ 0) →
        r'.y + r'.height < r.y :=
  flame_graph_layout ⟨300, 100⟩ "wt" _ (by decide +kernel) (by decide +kernel)
    (by simp [CallTreeStatsNode.All, CallTreeStatsNode.AllIn, CallTreeStatsNode.Nonneg,
      CallTreeStatsNode.inc])

/-- **Bars nest** where no children have more than their node: every bar but those of the lowest
row is above one of its caller, which reaches as far to both sides. -/
theorem nested_renderFlameGraph (viewPort : ViewPort) {metric : String} {cgRoot : CallTreeStatsNode}
    (hwidth : 0 ≤ viewPort.width) (hmax : 0 < cgRoot.getMaxCumInc metric)
    (hnonneg : cgRoot.All (CallTreeStatsNode.Nonneg metric))
    (hadditive : cgRoot.All (CallTreeStatsNode.Additive metric)) :
    let rects := renderFlameGraph viewPort metric cgRoot
    ∀ r ∈ rects, r.path.length = 1 ∨
      ∃ caller ∈ rects, caller.path = r.path.dropLast ∧ caller.x ≤ r.x ∧
        r.x + r.width ≤ caller.x + caller.width := by
  intro rects r hr
  cases cgRoot with
  | mk functionName called inc children =>
    rcases nested_renderNodes hwidth hmax [] 0 none children hnonneg.2 hadditive.2 r hr with
      ⟨name, hname⟩ | hcaller
    · left
      rw [hname]
      rfl
    · exact .inr hcaller

end PhpSpx.WebUi
