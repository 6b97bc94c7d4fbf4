import PhpSpx.Profiler.CostBounds
import PhpSpx.Request.MetricList
import PhpSpx.WebUi.FlameGraph
import PhpSpx.WebUi.FlatProfile

/-!
# The call tree of a run

The call tree that the web UI makes of the events of a run of the tracing profiler: it has the
stacks of the calls, by the names of the functions.  With readings that never decrease, the calls a
call makes cost no more than it does itself, and so the bars of its flame graph nest.

* `forestCost`, `costOf_records` — what the calls of a kind cost, in the forest and in the list.
* `StacksNested` — the calls on top of a stack cost no more than those of the stack.
* `all_additive_getRoot` — with it, no children of a node have more than the node.
* `run_flame_graph_nests` — the flame graph of a run.
-/

namespace PhpSpx.WebUi

open Lib

variable {metrics : EnabledMetrics}

/-! ## Costs of stacks -/

/-- What the calls of a kind cost. -/
def costOf (m : Key metrics) (calls : List (CallListEntry metrics))
    (kind : CallListEntry metrics → Prop) [DecidablePred kind] : ℚ :=
  (calls.map fun call => if kind call then call.last m - call.start m else 0).sum

/-- A call made directly by one with the stack. -/
def IsOnTop (list : CallList metrics) (path : List String) (call : CallListEntry metrics) : Prop :=
  list.names call.idx ≠ [] ∧ (list.names call.idx).dropLast = path

instance (list : CallList metrics) (path : List String) : DecidablePred (IsOnTop list path) :=
  fun _ => inferInstanceAs (Decidable (_ ∧ _))

/-- The calls on top of a stack cost no more than those of the stack. -/
def StacksNested (m : Key metrics) (list : CallList metrics)
    (calls : List (CallListEntry metrics)) : Prop :=
  ∀ path, path ≠ [] →
    costOf m calls (IsOnTop list path) ≤ costOf m calls fun call => list.names call.idx = path

section Costs

variable {m wt : Key metrics} {list : CallList metrics} {calls : List (CallListEntry metrics)}

theorem costOf_eq_sum_filter (kind : CallListEntry metrics → Prop) [DecidablePred kind] :
    ((calls.filter kind).map fun call => call.last - call.start).sum m = costOf m calls kind := by
  induction calls with
  | nil => rfl
  | cons call calls ih =>
    rw [costOf, List.map_cons, List.sum_cons, ← costOf, ← ih]
    rw [List.filter_cons]
    by_cases h : kind call
    · rw [if_pos (decide_eq_true h), if_pos h]
      rfl
    · rw [if_neg (by simpa using h), if_neg h, zero_add]

/-- The value of a node, 0 without one. -/
def incAt (m : Key metrics) (node : WithZero (CallTreeTotals metrics)) : ℚ :=
  WithZero.recZeroCoe 0 (fun totals => totals.inc m) node

/-- The node under a stack costs what the calls of the stack cost. -/
theorem incAt_node {stats : CallTreeStats metrics} (h : CallTreeStats.new wt list calls = some stats)
    {path : List String} (hpath : path ≠ []) :
    incAt m (stats.node path) = costOf m calls fun call => list.names call.idx = path := by
  obtain ⟨hnode, -⟩ := CallTreeStats.new_spec h
  rw [hnode, sum_callNodes calls hpath]
  split
  · obtain ⟨-, hinc, -⟩ := sum_ofCall
      (calls.filter fun call => list.names call.idx = path)
    rw [← costOf_eq_sum_filter, ← hinc]
    rfl
  · rename_i hnone
    have hfilter : calls.filter (fun call => list.names call.idx = path) = [] := by
      rw [List.filter_eq_nil_iff]
      intro call hcall hnames
      exact hnone ⟨call, hcall, (of_decide_eq_true hnames) ▸ List.prefix_rfl⟩
    rw [← costOf_eq_sum_filter, hfilter]
    rfl

/-- A cost counted under one name at most. -/
theorem sum_ite_eq_le {names : List String} (h : names.Nodup) (name : String) {cost : ℚ}
    (hcost : 0 ≤ cost) : (names.map fun other => if name = other then cost else 0).sum ≤ cost := by
  induction names with
  | nil => simpa using hcost
  | cons first names ih =>
    obtain ⟨hfirst, hnodup⟩ := List.nodup_cons.mp h
    rw [List.map_cons, List.sum_cons]
    by_cases heq : name = first
    · have hzero : (names.map fun other => if name = other then cost else 0).sum = 0 := by
        apply List.sum_eq_zero
        intro x hx
        obtain ⟨other, hother, rfl⟩ := List.mem_map.mp hx
        have hne : name ≠ other := fun h => hfirst (heq ▸ h ▸ hother)
        exact if_neg hne
      rw [if_pos heq, hzero, add_zero]
    · rw [if_neg heq, zero_add]
      exact ih hnodup

/-- Different names on top of one stack. -/
theorem sum_costOf_le (hnonneg : ∀ call ∈ calls, 0 ≤ call.last m - call.start m)
    (path : List String) {names : List String} (hnames : names.Nodup) :
    (names.map fun name => costOf m calls fun call => list.names call.idx = path ++ [name]).sum ≤
      costOf m calls (IsOnTop list path) := by
  induction calls with
  | nil => simp [costOf]
  | cons call calls ih =>
    obtain ⟨hcall, hrest⟩ := List.forall_mem_cons.mp hnonneg
    have hone : (names.map fun name => if list.names call.idx = path ++ [name] then
        call.last m - call.start m else 0).sum ≤
          if IsOnTop list path call then call.last m - call.start m else 0 := by
      rcases List.eq_nil_or_concat (list.names call.idx) with hnil | ⟨above, name, hname⟩
      · simp [hnil, IsOnTop]
      · rw [List.concat_eq_append] at hname
        have hon : IsOnTop list path call ↔ above = path := by
          rw [IsOnTop, hname, List.dropLast_concat]
          simp
        rw [hname]
        by_cases hpath : above = path
        · rw [if_pos (hon.mpr hpath)]
          simpa [hpath] using sum_ite_eq_le hnames name hcall
        · rw [if_neg (hon.not.mpr hpath)]
          simp [hpath]
    have hsplit : (fun name => costOf m (call :: calls) fun c => list.names c.idx = path ++ [name]) =
        fun name => (if list.names call.idx = path ++ [name] then call.last m - call.start m
          else 0) + costOf m calls fun c => list.names c.idx = path ++ [name] := by
      funext name
      rw [costOf, List.map_cons, List.sum_cons, ← costOf]
    rw [hsplit, List.sum_map_add, costOf, List.map_cons, List.sum_cons, ← costOf]
    exact add_le_add hone (ih hrest)

end Costs

/-! ## Nodes of additive trees -/

section Nodes

variable {m wt : Key metrics} {list : CallList metrics} {calls : List (CallListEntry metrics)}

/-- A node under which the nodes have no more than it has, which is not negative. -/
def AdditiveTotals (m : Key metrics) (totals : CallTreeTotals metrics)
    (below : Trie String (CallTreeTotals metrics)) : Prop :=
  (below.values.map fun t => t.inc m).sum ≤ totals.inc m ∧ 0 ≤ totals.inc m

theorem sum_values_eq {t : Trie String (CallTreeTotals metrics)} (h : t.Distinct) :
    (t.values.map fun totals => totals.inc m).sum = (t.keys.map fun k => incAt m (t.find [k])).sum := by
  have hmap := congrArg (List.map (incAt m)) (Trie.map_values_eq h)
  rw [List.map_map, List.map_map] at hmap
  exact congrArg List.sum hmap

theorem costOf_nonneg (hnonneg : ∀ call ∈ calls, 0 ≤ call.last m - call.start m)
    (kind : CallListEntry metrics → Prop) [DecidablePred kind] : 0 ≤ costOf m calls kind := by
  apply List.sum_nonneg
  intro cost hcost
  obtain ⟨call, hcall, rfl⟩ := List.mem_map.mp hcost
  split
  · exact hnonneg call hcall
  · exact le_rfl

/-- The root has what the calls without a caller cost. -/
theorem inc_root {stats : CallTreeStats metrics} (h : CallTreeStats.new wt list calls = some stats) :
    stats.root.inc m = costOf m calls (IsOnTop list []) := by
  obtain ⟨-, -, -, hroot⟩ := CallTreeStats.new_spec h
  rw [hroot, rootInc, costOf_eq_sum_filter]
  have hiff : ∀ call : CallListEntry metrics,
      (list.names call.idx).length = 1 ↔ IsOnTop list [] call := by
    intro call
    rw [IsOnTop]
    rcases list.names call.idx with _ | ⟨name, _ | ⟨name', names⟩⟩ <;> simp
  simp only [costOf, hiff]

/-- A tree in which no nodes have more than the node they are on top of. -/
def AdditiveTree (m : Key metrics) (stats : CallTreeStats metrics) : Prop :=
  AdditiveTotals m stats.root stats.children ∧ stats.children.Everywhere (AdditiveTotals m)

/-- **Every node** of the tree of nested stacks has at least what the nodes on top of it have. -/
theorem additiveTree_new {stats : CallTreeStats metrics}
    (h : CallTreeStats.new wt list calls = some stats) (hnested : StacksNested m list calls)
    (hnonneg : ∀ call ∈ calls, 0 ≤ call.last m - call.start m) : AdditiveTree m stats := by
  constructor
  · have hkeys : ∀ k, incAt m (stats.children.find [k]) =
        costOf m calls fun call => list.names call.idx = [] ++ [k] :=
      fun k => incAt_node h (List.cons_ne_nil k [])
    rw [AdditiveTotals, inc_root h, sum_values_eq stats.distinct, funext hkeys]
    exact ⟨sum_costOf_le hnonneg [] stats.distinct.nodup_keys, costOf_nonneg hnonneg _⟩
  · refine Trie.everywhere_of_find stats.distinct ?_
    intro path totals htotals
    have hpath : path ≠ [] := by
      rintro rfl
      rw [Trie.find_nil] at htotals
      exact WithZero.zero_ne_coe htotals
    have hinc : totals.inc m = costOf m calls fun call => list.names call.idx = path := by
      rw [← incAt_node h hpath, CallTreeStats.node, htotals]
      rfl
    have hkeys : ∀ k, incAt m ((stats.children.subtrieAt path).find [k]) =
        costOf m calls fun call => list.names call.idx = path ++ [k] := by
      intro k
      rw [← Trie.find_append _ _ (List.cons_ne_nil k []), ← incAt_node h (by simp)]
      rfl
    rw [AdditiveTotals, sum_values_eq (stats.distinct.subtrieAt path), hinc, funext hkeys]
    exact ⟨(sum_costOf_le hnonneg path (stats.distinct.subtrieAt path).nodup_keys).trans
      (hnested path hpath), costOf_nonneg hnonneg _⟩

theorem nonneg_values {t : Trie String (CallTreeTotals metrics)}
    (h : t.Everywhere (AdditiveTotals m)) : ∀ totals ∈ t.values, 0 ≤ totals.inc m := by
  induction t with
  | leaf => exact fun _ hmem => absurd hmem List.not_mem_nil
  | branch key totals c s _ ihs => exact List.forall_mem_cons.mpr ⟨h.1.2, ihs h.2.2⟩

/-- What pruning leaves below a node has no more than what was there. -/
theorem AdditiveTotals.prune {totals : CallTreeTotals metrics}
    {below : Trie String (CallTreeTotals metrics)} (h : AdditiveTotals m totals below)
    (hbelow : below.Everywhere (AdditiveTotals m)) (keep : CallTreeTotals metrics → Bool) :
    AdditiveTotals m totals (below.prune keep) := by
  refine ⟨le_trans ?_ h.1, h.2⟩
  refine ((Trie.values_prune_sublist keep below).map _).sum_le_sum ?_
  intro inc hinc
  obtain ⟨t, ht, rfl⟩ := List.mem_map.mp hinc
  exact nonneg_values hbelow t ht

theorem everywhere_prune {t : Trie String (CallTreeTotals metrics)}
    (h : t.Everywhere (AdditiveTotals m)) (keep : CallTreeTotals metrics → Bool) :
    (t.prune keep).Everywhere (AdditiveTotals m) := by
  induction t with
  | leaf => trivial
  | branch key totals c s ihc ihs =>
    obtain ⟨htotals, hc, hs⟩ := h
    rw [Trie.prune]
    split
    · exact ⟨htotals.prune hc keep, ihc hc, ihs hs⟩
    · exact ihs hs

/-- Pruning keeps a tree additive. -/
theorem AdditiveTree.prune {stats : CallTreeStats metrics} (h : AdditiveTree m stats)
    (minDuration : ℚ) : AdditiveTree m (stats.prune wt minDuration) :=
  ⟨h.1.prune h.2 _, everywhere_prune h.2 _⟩

theorem incByKey_key (inc : MetricValueSet metrics) : incByKey inc m.1.key = inc m := by
  have hfind : metrics.list.attach.find? (fun m' => m'.1.key = m.1.key) = some m := by
    cases h : metrics.list.attach.find? (fun m' => m'.1.key = m.1.key) with
    | none => exact absurd (decide_eq_true rfl) (List.find?_eq_none.mp h m (List.mem_attach _ _))
    | some m' =>
      have hkey : m'.1.key = m.1.key := by simpa using List.find?_some h
      rw [Subtype.ext (Metric.eq_of_key_eq (congrArg String.toList hkey))]
  rw [incByKey, hfind]
  rfl

theorem CallTreeStatsNode.allIn_iff {p : CallTreeStatsNode → Prop}
    {nodes : List CallTreeStatsNode} :
    AllIn p nodes ↔ ∀ node ∈ nodes, node.All p := by
  induction nodes with
  | nil => simp [AllIn]
  | cons node nodes ih => rw [AllIn, ih, List.forall_mem_cons]

theorem sortByMinTime_perm (nodes : List (ℚ × CallTreeStatsNode)) :
    (sortByMinTime nodes).Perm (nodes.map Prod.snd) :=
  (List.mergeSort_perm _ _).map _

/-- The nodes have what the values at the top have. -/
theorem sum_nodesByMinTime (t : Trie String (CallTreeTotals metrics)) :
    ((sortByMinTime (nodesByMinTime t)).map fun node => node.inc m.1.key).sum =
      (t.values.map fun totals => totals.inc m).sum := by
  rw [((sortByMinTime_perm _).map _).sum_eq]
  induction t with
  | leaf => rfl
  | branch key totals c s _ ihs =>
    rw [nodesByMinTime, Trie.values, List.map_cons, List.map_cons, List.map_cons, List.sum_cons,
      List.sum_cons, ihs]
    congr 1
    exact incByKey_key totals.inc

open CallTreeStatsNode (AllIn Additive Nonneg)

/-- Additive values make additive nodes. -/
theorem allIn_nodesByMinTime {t : Trie String (CallTreeTotals metrics)}
    (h : t.Everywhere (AdditiveTotals m)) :
    AllIn (fun node => Additive m.1.key node ∧ Nonneg m.1.key node)
      (sortByMinTime (nodesByMinTime t)) := by
  rw [CallTreeStatsNode.allIn_iff]
  intro node hnode
  replace hnode := (sortByMinTime_perm _).subset hnode
  induction t generalizing node with
  | leaf => exact absurd hnode List.not_mem_nil
  | branch key totals c s ihc ihs =>
    obtain ⟨⟨hsum, hinc⟩, hc, hs⟩ := h
    rw [nodesByMinTime, List.map_cons, List.mem_cons] at hnode
    rcases hnode with rfl | hnode
    · refine ⟨⟨?_, ?_⟩, CallTreeStatsNode.allIn_iff.mpr fun child hchild =>
        ihc hc child ((sortByMinTime_perm _).subset hchild)⟩
      · rw [← incByKey_key totals.inc] at hsum
        exact (sum_nodesByMinTime c).trans_le hsum
      · rw [← incByKey_key totals.inc] at hinc
        exact hinc
    · exact ihs hs node hnode

mutual

theorem CallTreeStatsNode.All.imp {p q : CallTreeStatsNode → Prop} (hpq : ∀ node, p node → q node) :
    (node : CallTreeStatsNode) → node.All p → node.All q
  | .mk _ _ _ children => fun h =>
    ⟨hpq _ h.1, CallTreeStatsNode.AllIn.imp hpq children h.2⟩

theorem CallTreeStatsNode.AllIn.imp {p q : CallTreeStatsNode → Prop}
    (hpq : ∀ node, p node → q node) :
    (nodes : List CallTreeStatsNode) → AllIn p nodes → AllIn q nodes
  | [] => fun _ => trivial
  | node :: nodes => fun h => ⟨CallTreeStatsNode.All.imp hpq node h.1,
    CallTreeStatsNode.AllIn.imp hpq nodes h.2⟩

end

/-- **The root and all below it** have at least what their children have. -/
theorem all_additive_getRoot {stats : CallTreeStats metrics} (h : AdditiveTree m stats) :
    stats.getRoot.All (Additive m.1.key) ∧ stats.getRoot.All (Nonneg m.1.key) := by
  obtain ⟨⟨hsum, hinc⟩, hbelow⟩ := h
  have hall := allIn_nodesByMinTime hbelow
  rw [← incByKey_key stats.root.inc] at hsum hinc
  exact ⟨⟨(sum_nodesByMinTime stats.children).trans_le hsum,
      CallTreeStatsNode.AllIn.imp (fun _ => And.left) _ hall⟩,
    hinc, CallTreeStatsNode.AllIn.imp (fun _ => And.right) _ hall⟩

end Nodes

/-! ## Forests in order -/

section Forests

variable {m : Metric}

/-- The readings of a forest of calls never decrease, between two of them. -/
def InOrder (m : Metric) : ℚ → CallForest → ℚ → Prop
  | lower, .nil, upper => lower ≤ upper
  | lower, .node a b c s, upper =>
    lower ≤ a.input.reading m ∧ InOrder m (a.input.reading m) c (b.reading m) ∧
      InOrder m (b.reading m) s upper

theorem InOrder.le {lower upper : ℚ} {F : CallForest} (h : InOrder m lower F upper) :
    lower ≤ upper := by
  induction F generalizing lower upper with
  | nil => exact h
  | node a b c s ihc ihs =>
    obtain ⟨ha, hc, hs⟩ := h
    exact ha.trans ((ihc hc).trans (ihs hs))

theorem InOrder.truncate {lower upper : ℚ} {F : CallForest} (h : InOrder m lower F upper) (k : ℕ) :
    InOrder m lower (F.truncate k) upper := by
  induction F generalizing lower upper k with
  | nil =>
    rw [Forest.truncate_nil]
    exact h
  | node a b c s ihc ihs =>
    cases k with
    | zero =>
      rw [Forest.truncate_zero]
      exact h.le
    | succ k =>
      obtain ⟨ha, hc, hs⟩ := h
      exact ⟨ha, ihc hc k, ihs hs (k + 1)⟩

/-- A word of readings that never decrease. -/
theorem inOrder_of_pairwise {lower upper : ℚ} {F : CallForest}
    (hmono : F.word.Pairwise fun op op' => TracerOp.reading op m ≤ TracerOp.reading op' m)
    (hbounds : ∀ op ∈ F.word, lower ≤ TracerOp.reading op m ∧ TracerOp.reading op m ≤ upper)
    (hle : lower ≤ upper) : InOrder m lower F upper := by
  induction F generalizing lower upper with
  | nil => exact hle
  | node a b c s ihc ihs =>
    rw [Forest.word_node] at hmono hbounds
    obtain ⟨hfirst, hrest⟩ := List.pairwise_cons.mp hmono
    obtain ⟨hc, hlast, hacross⟩ := List.pairwise_append.mp hrest
    obtain ⟨hafter, hs⟩ := List.pairwise_cons.mp hlast
    obtain ⟨ha, hbounds'⟩ := List.forall_mem_cons.mp hbounds
    obtain ⟨-, hbs⟩ := List.forall_mem_append.mp hbounds'
    obtain ⟨hb, hbounds''⟩ := List.forall_mem_cons.mp hbs
    have hab := hfirst _ (List.mem_append_right _ List.mem_cons_self)
    refine ⟨ha.1, ihc hc ?_ hab, ihs hs ?_ hb.2⟩
    · intro op hop
      exact ⟨hfirst op (List.mem_append_left _ hop), hacross op hop _ List.mem_cons_self⟩
    · intro op hop
      exact ⟨hafter op hop, (hbounds'' op hop).2⟩

theorem callCost_nonneg {a : CallStart} {b : HookInput} {c : CallForest}
    (h : InOrder m (a.input.reading m) c (b.reading m)) : 0 ≤ callCost a b m :=
  sub_nonneg.mpr h.le

/-- The outermost calls cost no more than the time between. -/
theorem InOrder.rootCost_le {lower upper : ℚ} {F : CallForest} (h : InOrder m lower F upper) :
    F.rootCost callCost m ≤ upper - lower := by
  induction F generalizing lower with
  | nil => exact sub_nonneg.mpr h
  | node a b c s _ ihs =>
    obtain ⟨ha, -, hs⟩ := h
    have hcost : callCost a b m = b.reading m - a.input.reading m := rfl
    have hrest := ihs hs
    rw [Forest.rootCost, Pi.add_apply, hcost]
    linarith

/-- What the calls with a stack of a kind cost, under the given names. -/
def forestCost (m : Metric) (nameOf : PhpFunction → String) (kind : List String → Prop)
    [DecidablePred kind] : List String → CallForest → ℚ
  | _, .nil => 0
  | above, .node a b c s =>
    (if kind (above ++ [nameOf a.function]) then callCost a b m else 0) +
      (forestCost m nameOf kind (above ++ [nameOf a.function]) c +
        forestCost m nameOf kind above s)

/-- **What is on top of a stack** costs no more than the stack itself, when the readings never
decrease. -/
theorem forestCost_onTop_le (nameOf : PhpFunction → String) (path : List String)
    {lower upper : ℚ} {F : CallForest} (h : InOrder m lower F upper) (above : List String) :
    forestCost m nameOf (fun names => names ≠ [] ∧ names.dropLast = path) above F ≤
      forestCost m nameOf (fun names => names = path) above F +
        if above = path then F.rootCost callCost m else 0 := by
  induction F generalizing lower upper above with
  | nil => simp [forestCost, Forest.rootCost]
  | node a b c s ihc ihs =>
    obtain ⟨-, hc, hs⟩ := h
    have hchildren := ihc hc (above ++ [nameOf a.function])
    have hsiblings := ihs hs above
    have hroot : c.rootCost callCost m ≤ callCost a b m := hc.rootCost_le
    have hon : (above ++ [nameOf a.function] ≠ [] ∧
        (above ++ [nameOf a.function]).dropLast = path) ↔ above = path := by simp
    rw [forestCost, forestCost, Forest.rootCost, Pi.add_apply, if_congr hon rfl rfl]
    split_ifs at hchildren hsiblings ⊢ <;> linarith

variable (m) in
/-- No call is on top of a stack that is shorter than that of its caller. -/
theorem forestCost_below (nameOf : PhpFunction → String) (F : CallForest) {path above : List String}
    (h : path.length < above.length) :
    forestCost m nameOf (fun names => names ≠ [] ∧ names.dropLast = path) above F = 0 := by
  induction F generalizing above with
  | nil => rfl
  | node a b c s ihc ihs =>
    have hlen : path.length < (above ++ [nameOf a.function]).length := by
      rw [List.length_append]
      exact Nat.lt_add_right _ h
    have hne : ¬(above ++ [nameOf a.function] ≠ [] ∧
        (above ++ [nameOf a.function]).dropLast = path) := by
      rintro ⟨-, heq⟩
      rw [List.dropLast_concat] at heq
      exact h.ne (congrArg List.length heq).symm
    rw [forestCost, ihc hlen, ihs h, if_neg hne, zero_add, zero_add]

/-- The calls on top of a stack are the roots of a forest there. -/
theorem forestCost_roots (nameOf : PhpFunction → String) (F : CallForest) (path : List String) :
    forestCost m nameOf (fun names => names ≠ [] ∧ names.dropLast = path) path F =
      F.rootCost callCost m := by
  induction F with
  | nil => rfl
  | node a b c s _ ihs =>
    have hlen : path.length < (path ++ [nameOf a.function]).length := by simp
    have hbelow := forestCost_below m nameOf c hlen
    rw [forestCost, hbelow, ihs, if_pos (by simp), zero_add]
    rfl

end Forests

/-! ## The calls of the list -/

section Records

variable {functions : List PhpFunction} {z : MetricValues} {list : CallList metrics}

/-- The calls above a parent link, nearest first. -/
def Above (list : CallList metrics) : ℤ → List ℕ → Prop
  | parent, [] => parent = -1
  | parent, idx :: above =>
    parent = idx ∧ idx < list.getSize ∧ Above list (list.array.element idx).parentIdx above

theorem ancestorsLoop_eq {parent : ℤ} {above : List ℕ} (h : Above list parent above) {fuel : ℕ}
    (hfuel : above.length ≤ fuel) : list.ancestorsLoop fuel parent = some above := by
  induction above generalizing parent fuel with
  | nil =>
    cases h
    unfold CallList.ancestorsLoop
    rw [if_pos (by decide)]
  | cons idx above ih =>
    obtain ⟨rfl, hidx, hrest⟩ := h
    cases fuel with
    | zero => simp at hfuel
    | succ fuel =>
      unfold CallList.ancestorsLoop
      rw [if_neg (by omega)]
      dsimp only
      rw [Int.toNat_natCast, CallList.getCall, if_pos hidx, Option.bind_some]
      exact congrArg (Option.map _) (ih hrest (Nat.le_of_succ_le_succ hfuel))

/-- The names of a stack, from the outermost call. -/
theorem stackNames_eq {idx : ℕ} {above : List ℕ}
    (h : Above list (list.array.element idx).parentIdx above) (hlen : above.length ≤ list.getSize) :
    list.stackNames idx = some ((above.reverse ++ [idx]).map list.nameKey) := by
  rw [CallList.stackNames, CallList.getStack, CallList.getAncestors, ancestorsLoop_eq h hlen]
  rfl

/-- The name that the list has for a function. -/
def keyOf (functions : List PhpFunction) (list : CallList metrics) (f : PhpFunction) : String :=
  (list.functionNames (functions.idxOf f)).getD "undefined"

theorem nameKey_of_record {idx : ℕ} {parent : ℤ} {a : CallStart} {b : HookInput} {c : CallForest}
    (h : list.array.element idx = callRecord functions z parent a b c) :
    list.nameKey idx = keyOf functions list a.function := by
  rw [CallList.nameKey, CallList.getFunctionName, CallList.getFunctionIdx, h]
  rfl

/-- The calls of a part of the list. -/
def entriesFrom (list : CallList metrics) (base n : ℕ) : List (CallListEntry metrics) :=
  (List.range' base n).map list.entry

theorem entriesFrom_succ (list : CallList metrics) (base n k : ℕ) :
    entriesFrom list base (n + k + 1) =
      list.entry base :: (entriesFrom list (base + 1) n ++ entriesFrom list (base + 1 + n) k) := by
  rw [entriesFrom, entriesFrom, entriesFrom, List.range'_succ, ← List.range'_append_1,
    List.map_cons, List.map_append]

theorem costOf_append (m : Key metrics) (calls calls' : List (CallListEntry metrics))
    (kind : CallListEntry metrics → Prop) [DecidablePred kind] :
    costOf m (calls ++ calls') kind = costOf m calls kind + costOf m calls' kind := by
  rw [costOf, List.map_append, List.sum_append]
  rfl

/-- **The calls of the list cost what those of the forest cost**, stack by stack. -/
theorem costOf_records (m : Key metrics) (kind : List String → Prop) [DecidablePred kind]
    {F : CallForest} {base : ℕ} {parent : ℤ}
    (hrecords : Records functions z list.array.element base parent F) {above : List ℕ}
    (habove : Above list parent above) (hlen : above.length ≤ base)
    (hsize : base + F.labels.length ≤ list.getSize) :
    costOf m (entriesFrom list base F.labels.length) (fun call => kind (list.names call.idx)) =
      forestCost m.1 (keyOf functions list) kind (above.reverse.map list.nameKey) F := by
  induction F generalizing base parent above with
  | nil => rfl
  | node a b c s ihc ihs =>
    simp only [Forest.labels_node, List.length_cons, List.length_append] at hsize ⊢
    obtain ⟨hroot, hc, hs⟩ := hrecords
    have hparent : (list.array.element base).parentIdx = parent :=
      congrArg CallRecord.parentIdx hroot
    have habove' : Above list base (base :: above) := ⟨rfl, by omega, hparent ▸ habove⟩
    have hname := nameKey_of_record hroot
    have hnames : list.names base =
        above.reverse.map list.nameKey ++ [keyOf functions list a.function] := by
      rw [CallList.names, stackNames_eq (hparent ▸ habove) (by omega), Option.getD_some,
        List.map_append, ← hname]
      rfl
    have hcost : (list.entry base).last m - (list.entry base).start m = callCost a b m.1 := by
      rw [CallList.entry, hroot]
      exact sub_sub_sub_cancel_right _ _ _
    have hchildren := ihc hc habove' (Nat.succ_le_succ hlen) (by omega)
    have hsiblings := ihs hs habove (by omega) (by omega)
    rw [List.reverse_cons, List.map_append, List.map_singleton, hname] at hchildren
    rw [entriesFrom_succ, costOf, List.map_cons, List.sum_cons, ← costOf, costOf_append, hchildren,
      hsiblings, forestCost, hcost, ← hnames]
    rfl

/-- A property of the calls of a part of the list. -/
theorem forall_entriesFrom {p : CallListEntry metrics → Prop} {base n k : ℕ}
    (hfirst : p (list.entry base)) (hn : ∀ call ∈ entriesFrom list (base + 1) n, p call)
    (hk : ∀ call ∈ entriesFrom list (base + 1 + n) k, p call) :
    ∀ call ∈ entriesFrom list base (n + k + 1), p call := by
  rw [entriesFrom_succ, List.forall_mem_cons, List.forall_mem_append]
  exact ⟨hfirst, hn, hk⟩

/-- Calls with readings that never decrease cost nothing below 0. -/
theorem cost_nonneg_records (m : Key metrics) {F : CallForest} {base : ℕ} {parent : ℤ}
    (hrecords : Records functions z list.array.element base parent F) {lower upper : ℚ}
    (h : InOrder m.1 lower F upper) :
    ∀ call ∈ entriesFrom list base F.labels.length, 0 ≤ call.last m - call.start m := by
  induction F generalizing base parent lower upper with
  | nil => exact fun _ hcall => absurd hcall List.not_mem_nil
  | node a b c s ihc ihs =>
    obtain ⟨hroot, hrecordsC, hrecordsS⟩ := hrecords
    obtain ⟨-, hc, hs⟩ := h
    rw [Forest.labels_node, List.length_cons, List.length_append]
    refine forall_entriesFrom ?_ (ihc hrecordsC hc) (ihs hrecordsS hs)
    have hcost : (list.entry base).last m - (list.entry base).start m = callCost a b m.1 := by
      rw [CallList.entry, hroot]
      exact sub_sub_sub_cancel_right _ _ _
    rw [hcost]
    exact callCost_nonneg hc

/-- Calls of functions whose names no object has by itself. -/
theorem nameable_records {F : CallForest} {base : ℕ} {parent : ℤ}
    (hrecords : Records functions z list.array.element base parent F) {above : List ℕ}
    (habove : Above list parent above) (hlen : above.length ≤ base)
    (hsize : base + F.labels.length ≤ list.getSize)
    (hnames : ∀ idx, list.nameKey idx ∉ inheritedNames) :
    ∀ call ∈ entriesFrom list base F.labels.length, list.Nameable call.idx := by
  induction F generalizing base parent above with
  | nil => exact fun _ hcall => absurd hcall List.not_mem_nil
  | node a b c s ihc ihs =>
    simp only [Forest.labels_node, List.length_cons, List.length_append] at hsize ⊢
    obtain ⟨hroot, hc, hs⟩ := hrecords
    have hparent : (list.array.element base).parentIdx = parent :=
      congrArg CallRecord.parentIdx hroot
    have habove' : Above list base (base :: above) := ⟨rfl, by omega, hparent ▸ habove⟩
    refine forall_entriesFrom ⟨_, stackNames_eq (hparent ▸ habove) (by omega), ?_⟩
      (ihc hc habove' (Nat.succ_le_succ hlen) (by omega)) (ihs hs habove (by omega) (by omega))
    intro name hname
    obtain ⟨idx, -, rfl⟩ := List.mem_map.mp hname
    exact hnames idx

variable (list) in
/-- **The call tree of a forest** whose readings never decrease. -/
theorem exists_callTree (m wt : Key metrics) {T : CallForest}
    (hrecords : Records functions z list.array.element 0 (-1) T)
    (hsize : list.getSize = T.labels.length) (hnames : ∀ idx, list.nameKey idx ∉ inheritedNames)
    {lower upper : ℚ} (h : InOrder m.1 lower T upper) :
    ∃ stats, CallTreeStats.new wt list (entriesFrom list 0 list.getSize) = some stats ∧
      AdditiveTree m stats ∧ stats.root.inc m = T.rootCost callCost m.1 := by
  have hbound : 0 + T.labels.length ≤ list.getSize := by omega
  have htop : Above list (-1) [] := rfl
  have hcosts := fun (kind : List String → Prop) [DecidablePred kind] =>
    costOf_records m kind hrecords htop le_rfl hbound
  rw [hsize]
  obtain ⟨stats, hstats⟩ := Option.isSome_iff_exists.mp
    ((CallTreeStats.foldlM_addCall_isSome_iff wt list CallTreeStats.empty _).mpr
      (nameable_records hrecords htop le_rfl hbound hnames))
  have hnonneg := cost_nonneg_records m hrecords h
  refine ⟨stats, hstats, additiveTree_new hstats ?_ hnonneg, ?_⟩
  · intro path hpath
    have hle := forestCost_onTop_le (keyOf functions list) path h []
    rw [if_neg hpath.symm, add_zero] at hle
    exact (hcosts fun names => names ≠ [] ∧ names.dropLast = path).trans_le
      (hle.trans (hcosts fun names => names = path).ge)
  · rw [inc_root hstats]
    exact (hcosts fun names => names ≠ [] ∧ names.dropLast = []).trans (forestCost_roots _ T [])

end Records

/-! ## Runs -/

theorem exists_bounds (l : List ℚ) :
    ∃ lower upper, lower ≤ upper ∧ ∀ x ∈ l, lower ≤ x ∧ x ≤ upper := by
  induction l with
  | nil => exact ⟨0, 0, le_rfl, fun _ h => absurd h List.not_mem_nil⟩
  | cons x l ih =>
    obtain ⟨lower, upper, hle, hl⟩ := ih
    refine ⟨min lower x, max upper x, (min_le_left _ _).trans (hle.trans (le_max_left _ _)), ?_⟩
    rw [List.forall_mem_cons]
    refine ⟨⟨min_le_right _ _, le_max_right _ _⟩, ?_⟩
    intro y hy
    exact ⟨(min_le_left _ _).trans (hl y hy).1, (hl y hy).2.trans (le_max_left _ _)⟩

/-- The calls of a run are in order when its readings never decrease. -/
theorem exists_inOrder {m : Metric} {ops : List TracerOp} {n : ℕ} (hops : height 0 ops = some n)
    (inputs : ℕ → HookInput)
    (hmono : (ops ++ Live.closings n inputs).Pairwise fun op op' => op.reading m ≤ op'.reading m) :
    ∃ lower upper, InOrder m lower (callForest ops inputs) upper := by
  have hbalanced : WellNested (ops ++ Live.closings n inputs) := by
    rw [WellNested, height_append, hops]
    exact Live.height_closings_depth n inputs
  have hword : (callForest ops inputs).word = ops ++ Live.closings n inputs := by
    rw [callForest, hops]
    exact word_forestOf hbalanced
  rw [← hword] at hmono
  obtain ⟨lower, upper, hle, hbounds⟩ :=
    exists_bounds ((callForest ops inputs).word.map fun op => TracerOp.reading op m)
  refine ⟨lower, upper, inOrder_of_pairwise hmono ?_ hle⟩
  intro op hop
  exact hbounds _ (List.mem_map.mpr ⟨op, hop, rfl⟩)

/-- The key of a function, named or not. -/
theorem nameKey_notMem {functionNames : ℕ → Option String}
    (h : ∀ idx name, functionNames idx = some name → name ∉ inheritedNames) (idx : ℕ) :
    (functionNames idx).getD "undefined" ∉ inheritedNames := by
  cases hname : functionNames idx with
  | none => decide
  | some name => exact h idx name hname

section Runs

variable (limits : Limits) (zendInlineHashFunc : String → UInt64) (maxDepth : ℕ)
  (enabledMetrics : Metric → Bool) (junk : MetricValues)

/-- **The flame graph of a run.**  The events of a finalized profile whose readings of a metric
never decrease build a list of calls that has a call tree, and however this is pruned, the bars of
its flame graph nest: a bar that is not in the lowest row is above one of its caller, which reaches
as far to both sides. -/
theorem run_flame_graph_nests {ops : List TracerOp} {n : ℕ} (hops : height 0 ops = some n)
    (inputs : ℕ → HookInput) (calledFunctionCount : ℕ)
    (m wt : Key (enabledMetricsOf enabledMetrics)) (functionNames : ℕ → Option String)
    (hnames : ∀ idx name, functionNames idx = some name → name ∉ inheritedNames)
    (viewPort : ViewPort) (hwidth : 0 ≤ viewPort.width) (minDuration : ℚ) :
    let p := spxProfilerTracerCreate limits zendInlineHashFunc maxDepth enabledMetrics junk
    let T := (callForest ops inputs).truncate p.maxDepth
    (T.labels.map callFunction).toFinset.card ≤ limits.maxFunctionTableSize →
    (ops ++ Live.closings n inputs).Pairwise
      (fun op op' => op.reading m.1 ≤ op'.reading m.1) →
    0 < T.rootCost callCost m.1 →
    ∃ (q : Tracer) (builder : ProfileDataBuilder (enabledMetricsOf enabledMetrics))
      (stats : CallTreeStats (enabledMetricsOf enabledMetrics)),
      tracerProfile p ops inputs = .ok q ∧
      ProfileDataBuilder.addEvents (reportEvents q.notified) (.setMetadata calledFunctionCount)
          = some builder ∧
      let list := { builder.callList with functionNames := functionNames }
      CallTreeStats.new wt list ((List.range' 0 list.getSize).map list.entry) = some stats ∧
      stats.root.inc m = T.rootCost callCost m.1 ∧
      let rects := renderFlameGraph viewPort m.1.key (stats.prune wt minDuration).getRoot
      ∀ r ∈ rects, r.path.length = 1 ∨
        ∃ caller ∈ rects, caller.path = r.path.dropLast ∧ caller.x ≤ r.x ∧
          r.x + r.width ≤ caller.x + caller.width := by
  intro p T hT hmono hcost
  obtain ⟨q, L, hq, href, hfollows⟩ := tracerProfile_follows limits zendInlineHashFunc maxDepth
    enabledMetrics junk hops inputs hT
  have hF : ∀ f ∈ T.labels.map callFunction, f ∈ L.functions :=
    fun f hf => (hfollows.mem_functions f).mpr (.inr hf)
  -- the list of calls
  have hstack : StackShows L.functions
      (.setMetadata calledFunctionCount :
        ProfileDataBuilder (enabledMetricsOf enabledMetrics)).stack [] := .nil
  obtain ⟨B, hB, hbuilt⟩ := exists_built (originOf (callForest ops inputs)) T hF hstack
  have hsize : B.callList.getSize = T.labels.length := hbuilt.size_callList rfl rfl
  -- its call tree
  have hkeys : ∀ idx, ({ B.callList with functionNames := functionNames } :
      CallList (enabledMetricsOf enabledMetrics)).nameKey idx ∉ inheritedNames :=
    fun _ => nameKey_notMem hnames _
  obtain ⟨lower, upper, horder⟩ := exists_inOrder hops inputs hmono
  obtain ⟨stats, hstats, htree, hroot⟩ := exists_callTree
    { B.callList with functionNames := functionNames } m wt hbuilt.calls hsize hkeys
    (horder.truncate p.maxDepth)
  refine ⟨q, B, stats, hq, ?_, hstats, hroot, ?_⟩
  · rw [href.notified, reportEvents_conclude L hfollows.log]
    exact hB
  · -- the largest cumulated value is that of the root
    obtain ⟨hadditive, hnonneg⟩ := all_additive_getRoot (htree.prune minDuration)
    refine nested_renderFlameGraph viewPort hwidth ?_ hnonneg hadditive
    rw [CallTreeStatsNode.getMaxCumInc_eq _ hnonneg hadditive]
    exact (hcost.trans_eq hroot.symm).trans_eq (incByKey_key stats.root.inc).symm

end Runs

theorem wallTime_mem : Metric.wallTime ∈ (enabledMetricsOf (· = .wallTime)).list := by decide

theorem notMem_inheritedNames (idx : ℕ) (name : String) (h : ["f", "g"][idx]? = some name) :
    name ∉ inheritedNames := by
  have hall : ∀ name ∈ ["f", "g"], name ∉ inheritedNames := by decide
  exact hall name (List.mem_of_getElem? h)

/-- `f` calls `g`, which calls `f`: the bars of a view of 300 points. -/
theorem run_flame_graph_recursion :
    ∃ (q : Tracer) (builder : ProfileDataBuilder (enabledMetricsOf (· = .wallTime)))
      (stats : CallTreeStats (enabledMetricsOf (· = .wallTime))),
      tracerProfile
          (spxProfilerTracerCreate (limitsInit fun _ => none) (fun _ => 0) 0 (· = .wallTime) 0)
          [callAt "f" 0, callAt "g" 1, callAt "f" 3, .closing (endAt 6)] (fun _ => endAt 10) = .ok q ∧
      ProfileDataBuilder.addEvents (reportEvents q.notified) (.setMetadata 2) = some builder ∧
      let list := { builder.callList with functionNames := fun idx => ["f", "g"][idx]? }
      CallTreeStats.new ⟨.wallTime, wallTime_mem⟩ list
        ((List.range' 0 list.getSize).map list.entry) = some stats ∧
      stats.root.inc ⟨.wallTime, wallTime_mem⟩ = 10 - 0 + 0 ∧
      let rects := renderFlameGraph ⟨300, 100⟩ Metric.wallTime.key
        (stats.prune ⟨.wallTime, wallTime_mem⟩ 1).getRoot
      ∀ r ∈ rects, r.path.length = 1 ∨
        ∃ caller ∈ rects, caller.path = r.path.dropLast ∧ caller.x ≤ r.x ∧
          r.x + r.width ≤ caller.x + caller.width :=
  run_flame_graph_nests (limitsInit fun _ => none) (fun _ => 0) 0 (· = .wallTime) 0
    (show height 0 [callAt "f" 0, callAt "g" 1, callAt "f" 3, .closing (endAt 6)] = some 2
      from rfl) (fun _ => endAt 10) 2 ⟨.wallTime, wallTime_mem⟩ ⟨.wallTime, wallTime_mem⟩
    (fun idx => ["f", "g"][idx]?) notMem_inheritedNames ⟨300, 100⟩ (by decide +kernel) 1 (by decide)
    (by decide +kernel) (by decide +kernel)

end PhpSpx.WebUi
