import PhpSpx.Lib.Trie
import PhpSpx.WebUi.FunctionsStats

/-!
# The call tree of the statistics

`CallTreeStats` of `profileData.js`: what the calls add up to under each stack of function names.
Like the statistics of the functions they are sums, so that neither the order of the calls matters
nor how they are cut into parts that are merged.

The children of a node are the properties of an object `{}`, which has those of `Object.prototype`
as well: a function that has the name of one of these makes the constructor throw.

* `CallTreeTotals` — what a node counts.
* `CallTreeStats.new`, `CallTreeStats.merge`, `CallTreeStats.prune` — the operations.
* `call_tree_of_calls` — what the constructor counts, and when it throws.
* `call_tree_of_parts` — cutting the calls into parts and merging them.
* `node_prune` — what pruning leaves.
-/

namespace PhpSpx.WebUi

open Lib (Trie)

variable {metrics : EnabledMetrics}

/-! ## Stacks -/

/-- The loop of `CallListEntry.getAncestors`, cut after `fuel` iterations. -/
def CallList.ancestorsLoop (list : CallList metrics) : ℕ → ℤ → Option (List ℕ)
  | fuel, parentIdx =>
    if parentIdx < 0 then some []
    else
      match fuel with
      | 0 => none
      | fuel + 1 =>
        (list.getCall parentIdx.toNat).bind fun parent =>
          (list.ancestorsLoop fuel (list.array.element parent.idx).parentIdx).map (parent.idx :: ·)

/-- `CallListEntry.getAncestors`, none when it throws or the parents go round in circles. -/
def CallList.getAncestors (list : CallList metrics) (idx : ℕ) : Option (List ℕ) :=
  list.ancestorsLoop list.getSize (list.array.element idx).parentIdx

/-- `CallListEntry.getStack`. -/
def CallList.getStack (list : CallList metrics) (idx : ℕ) : Option (List ℕ) :=
  (list.getAncestors idx).map fun ancestors => ancestors.reverse ++ [idx]

/-- The name of the function of a call as the key of a property. -/
def CallList.nameKey (list : CallList metrics) (idx : ℕ) : String :=
  (list.getFunctionName idx).getD "undefined"

/-- The names of the functions of a stack. -/
def CallList.stackNames (list : CallList metrics) (idx : ℕ) : Option (List String) :=
  (list.getStack idx).map fun stack => stack.map list.nameKey

/-- The properties of `Object.prototype`. -/
def inheritedNames : List String :=
  ["constructor", "__defineGetter__", "__defineSetter__", "hasOwnProperty", "__lookupGetter__",
    "__lookupSetter__", "isPrototypeOf", "propertyIsEnumerable", "toString", "valueOf",
    "__proto__", "toLocaleString"]

/-! ## Nodes -/

/-- What a `CallTreeStatsNode` counts.  `minTime` never exceeds `Number.MAX_VALUE`. -/
@[ext] structure CallTreeTotals (metrics : EnabledMetrics) where
  minTime : ℚ
  called : ℕ
  inc : MetricValueSet metrics
  minTime_le : minTime ≤ numberMaxValue

namespace CallTreeTotals

instance : Zero (CallTreeTotals metrics) where
  zero := ⟨numberMaxValue, 0, .createFromMetricsAndValue 0, le_rfl⟩

instance : Add (CallTreeTotals metrics) where
  add a b := ⟨min a.minTime b.minTime, a.called + b.called, a.inc.add b.inc,
    (min_le_left _ _).trans a.minTime_le⟩

@[simp] theorem minTime_zero : (0 : CallTreeTotals metrics).minTime = numberMaxValue := rfl

@[simp] theorem called_zero : (0 : CallTreeTotals metrics).called = 0 := rfl

@[simp] theorem inc_zero : (0 : CallTreeTotals metrics).inc = 0 := rfl

@[simp] theorem minTime_add (a b : CallTreeTotals metrics) :
    (a + b).minTime = min a.minTime b.minTime := rfl

@[simp] theorem called_add (a b : CallTreeTotals metrics) :
    (a + b).called = a.called + b.called := rfl

@[simp] theorem inc_add (a b : CallTreeTotals metrics) : (a + b).inc = a.inc + b.inc := rfl

instance : AddCommMonoid (CallTreeTotals metrics) where
  add_assoc a b c := by ext <;> simp [min_assoc, add_assoc]
  add_comm a b := by ext <;> simp [min_comm, add_comm]
  zero_add a := by ext <;> simp [a.minTime_le]
  add_zero a := by ext <;> simp [a.minTime_le]
  nsmul := nsmulRec

/-- `CallTreeStatsNode.addCallStats`: what a call adds to its node. -/
def ofCall (wt : Key metrics) (call : CallListEntry metrics) : CallTreeTotals metrics where
  minTime := min numberMaxValue (call.start wt)
  called := 1
  inc := call.last.sub call.start
  minTime_le := min_le_left _ _

end CallTreeTotals

/-! ## Trees -/

/-- `CallTreeStats`: its root, and the nodes below by their names. -/
structure CallTreeStats (metrics : EnabledMetrics) where
  root : CallTreeTotals metrics
  children : Trie String (CallTreeTotals metrics)
  distinct : children.Distinct

namespace CallTreeStats

/-- The tree without calls. -/
def empty : CallTreeStats metrics where
  root := { (0 : CallTreeTotals metrics) with called := 1 }
  children := .leaf
  distinct := trivial

/-- The loop body of the constructor of `CallTreeStats`, none when it throws. -/
def addCall (wt : Key metrics) (list : CallList metrics) (stats : CallTreeStats metrics)
    (call : CallListEntry metrics) : Option (CallTreeStats metrics) :=
  (list.stackNames call.idx).bind fun names =>
    if names.any (· ∈ inheritedNames) then none
    else
      some
        { root :=
            if names.length = 1 then
              { stats.root with inc := stats.root.inc.add (call.last.sub call.start) }
            else stats.root
          children := stats.children.insert names (.ofCall wt call)
          distinct := stats.distinct.insert names _ }

/-- The constructor of `CallTreeStats`. -/
def new (wt : Key metrics) (list : CallList metrics) (calls : List (CallListEntry metrics)) :
    Option (CallTreeStats metrics) :=
  calls.foldlM (addCall wt list) empty

/-- `CallTreeStats.merge`. -/
def merge (stats other : CallTreeStats metrics) : CallTreeStats metrics where
  root := stats.root + other.root
  children := stats.children.merge other.children
  distinct := stats.distinct.merge other.children

/-- A node that `CallTreeStatsNode.prune` does not delete. -/
def keeps (wt : Key metrics) (minDuration : ℚ) (node : CallTreeTotals metrics) : Bool :=
  ¬(node.called > 0 ∧ node.inc wt < minDuration)

/-- `CallTreeStats.prune`. -/
def prune (wt : Key metrics) (minDuration : ℚ) (stats : CallTreeStats metrics) :
    CallTreeStats metrics where
  root := stats.root
  children := stats.children.prune (keeps wt minDuration)
  distinct := stats.distinct.prune

/-- The node under a stack of names, 0 when there is none. -/
def node (stats : CallTreeStats metrics) (path : List String) : WithZero (CallTreeTotals metrics) :=
  stats.children.find path

end CallTreeStats

/-! ## The calls one by one -/

/-- The names of the stack of a call, none of them when there is no stack. -/
def CallList.names (list : CallList metrics) (idx : ℕ) : List String :=
  (list.stackNames idx).getD []

/-- A call has a stack, of names that no object has by itself. -/
def CallList.Nameable (list : CallList metrics) (idx : ℕ) : Prop :=
  ∃ names, list.stackNames idx = some names ∧ ∀ name ∈ names, name ∉ inheritedNames

/-- What a call adds to the nodes. -/
def callNodes (wt : Key metrics) (list : CallList metrics) (call : CallListEntry metrics) :
    List String → WithZero (CallTreeTotals metrics) :=
  Trie.single (list.names call.idx) (.ofCall wt call)

/-- What the calls add to the root: the inclusive values of those without a caller. -/
def rootInc (list : CallList metrics) (calls : List (CallListEntry metrics)) :
    MetricValueSet metrics :=
  ((calls.filter fun call => (list.names call.idx).length = 1).map fun call =>
    call.last - call.start).sum

namespace CallTreeStats

section Calls

variable {wt : Key metrics} {list : CallList metrics}

/-- A call is added exactly when it is nameable. -/
theorem addCall_isSome_iff (stats : CallTreeStats metrics) (call : CallListEntry metrics) :
    (addCall wt list stats call).isSome = true ↔ list.Nameable call.idx := by
  rw [addCall, CallList.Nameable]
  cases list.stackNames call.idx with
  | none => simp
  | some names =>
    by_cases h : names.any (· ∈ inheritedNames) = true
    · simp only [Option.bind_some, if_pos h, Option.isSome_none, Bool.false_eq_true, false_iff]
      rintro ⟨_, hnames, hall⟩
      cases hnames
      obtain ⟨name, hname, hinherited⟩ := List.any_eq_true.mp h
      exact hall name hname (of_decide_eq_true hinherited)
    · simp only [Option.bind_some, if_neg h, Option.isSome_some, true_iff]
      refine ⟨names, rfl, fun name hname hinherited => h ?_⟩
      exact List.any_eq_true.mpr ⟨name, hname, decide_eq_true hinherited⟩

/-- **Adding a call.** -/
theorem addCall_spec {stats stats' : CallTreeStats metrics} {call : CallListEntry metrics}
    (h : addCall wt list stats call = some stats') :
    stats'.node = stats.node + callNodes wt list call ∧
      stats'.root.minTime = stats.root.minTime ∧ stats'.root.called = stats.root.called ∧
      stats'.root.inc = stats.root.inc + rootInc list [call] := by
  rw [addCall] at h
  obtain ⟨names, hnames, h⟩ := Option.bind_eq_some_iff.mp h
  have hget : list.names call.idx = names := by rw [CallList.names, hnames, Option.getD_some]
  split at h
  · cases h
  · cases h
    refine ⟨?_, ?_⟩
    · funext path
      simp only [node, callNodes, hget, Pi.add_apply]
      exact Trie.find_insert _ _ _ _
    · by_cases htop : names.length = 1
      · simp only [htop, if_true, rootInc, hget, List.filter_cons, List.filter_nil, List.map_cons,
          List.map_nil, List.sum_cons, List.sum_nil, add_zero, decide_true, true_and]
        rfl
      · simp [htop, rootInc, hget]

theorem rootInc_append (calls calls' : List (CallListEntry metrics)) :
    rootInc list (calls ++ calls') = rootInc list calls + rootInc list calls' := by
  simp [rootInc]

theorem rootInc_perm {calls calls' : List (CallListEntry metrics)} (h : calls.Perm calls') :
    rootInc list calls = rootInc list calls' := ((h.filter _).map _).sum_eq

variable (wt list) in
theorem foldlM_addCall_isSome_iff (stats : CallTreeStats metrics)
    (calls : List (CallListEntry metrics)) :
    (calls.foldlM (addCall wt list) stats).isSome = true ↔
      ∀ call ∈ calls, list.Nameable call.idx := by
  induction calls generalizing stats with
  | nil => simp
  | cons call calls ih =>
    rw [List.foldlM_cons, List.forall_mem_cons, ← addCall_isSome_iff stats call]
    cases addCall wt list stats call with
    | none => simp
    | some next => simpa using ih next

theorem foldlM_addCall_spec {stats stats' : CallTreeStats metrics}
    {calls : List (CallListEntry metrics)} (h : calls.foldlM (addCall wt list) stats = some stats') :
    stats'.node = stats.node + (calls.map (callNodes wt list)).sum ∧
      stats'.root.minTime = stats.root.minTime ∧ stats'.root.called = stats.root.called ∧
      stats'.root.inc = stats.root.inc + rootInc list calls := by
  induction calls generalizing stats with
  | nil =>
    cases h
    simp [rootInc]
  | cons call calls ih =>
    rw [List.foldlM_cons] at h
    obtain ⟨next, hnext, hrest⟩ := Option.bind_eq_some_iff.mp h
    obtain ⟨hnode, hmin, hcalled, hinc⟩ := addCall_spec hnext
    obtain ⟨hnode', hmin', hcalled', hinc'⟩ := ih hrest
    refine ⟨?_, hmin'.trans hmin, hcalled'.trans hcalled, ?_⟩
    · rw [hnode', hnode, List.map_cons, List.sum_cons, add_assoc]
    · rw [hinc', hinc, add_assoc, ← rootInc_append, List.singleton_append]

theorem node_empty : (empty : CallTreeStats metrics).node = 0 := rfl

/-- **The tree of the calls.** -/
theorem new_spec {stats : CallTreeStats metrics} {calls : List (CallListEntry metrics)}
    (h : new wt list calls = some stats) :
    stats.node = (calls.map (callNodes wt list)).sum ∧
      stats.root.minTime = numberMaxValue ∧ stats.root.called = 1 ∧
      stats.root.inc = rootInc list calls := by
  obtain ⟨hnode, hmin, hcalled, hinc⟩ := foldlM_addCall_spec h
  refine ⟨?_, hmin, hcalled, ?_⟩
  · rw [hnode, node_empty, zero_add]
  · exact hinc.trans (zero_add _)

/-- **Merging adds up.** -/
theorem node_merge (stats other : CallTreeStats metrics) :
    (stats.merge other).node = stats.node + other.node :=
  funext fun path => Trie.find_merge _ other.distinct path

end Calls

end CallTreeStats

/-! ## Sums -/

section Sums

variable {wt : Key metrics} {list : CallList metrics}

theorem sum_ofCall (calls : List (CallListEntry metrics)) :
    (calls.map (CallTreeTotals.ofCall wt)).sum.called = calls.length ∧
      (calls.map (CallTreeTotals.ofCall wt)).sum.inc =
        (calls.map fun call => call.last - call.start).sum ∧
      (calls.map (CallTreeTotals.ofCall wt)).sum.minTime =
        (calls.map fun call => call.start wt).foldr min numberMaxValue := by
  induction calls with
  | nil => exact ⟨rfl, rfl, rfl⟩
  | cons call calls ih =>
    obtain ⟨hcalled, hinc, hmin⟩ := ih
    have hle := (calls.map (CallTreeTotals.ofCall wt)).sum.minTime_le
    simp only [List.map_cons, List.sum_cons, CallTreeTotals.called_add, CallTreeTotals.inc_add,
      CallTreeTotals.minTime_add, hcalled, hinc, hmin, List.foldr_cons, List.length_cons] at hle ⊢
    refine ⟨Nat.add_comm _ _, rfl, ?_⟩
    rw [CallTreeTotals.ofCall, min_assoc, min_eq_right]
    exact (min_le_right _ _).trans hle

/-- The node under a path. -/
theorem sum_callNodes (calls : List (CallListEntry metrics)) {path : List String}
    (hpath : path ≠ []) :
    (calls.map (callNodes wt list)).sum path =
      if ∃ call ∈ calls, path <+: list.names call.idx then
        ((((calls.filter fun call => list.names call.idx = path).map
          (CallTreeTotals.ofCall wt)).sum : CallTreeTotals metrics) : WithZero _)
      else 0 :=
  Trie.sum_single calls (fun call => list.names call.idx) (CallTreeTotals.ofCall wt) hpath

end Sums

namespace CallTreeStats

/-- **What the call tree counts.**  The constructor throws exactly when a call has no stack, or a
name in it is one that every object has by itself.  Otherwise there is a node for each beginning of
the stack of a call, which counts the calls with exactly this stack. -/
theorem call_tree_of_calls (wt : Key metrics) (list : CallList metrics)
    (calls : List (CallListEntry metrics)) :
    ((new wt list calls).isSome = true ↔ ∀ call ∈ calls, list.Nameable call.idx) ∧
      ∀ stats, new wt list calls = some stats →
        stats.root.called = 1 ∧ stats.root.inc = rootInc list calls ∧
        ∀ path, path ≠ [] →
          (stats.node path ≠ 0 ↔ ∃ call ∈ calls, path <+: list.names call.idx) ∧
          ∀ totals : CallTreeTotals metrics, stats.node path = totals →
            let same := calls.filter fun call => list.names call.idx = path
            totals.called = same.length ∧
              totals.inc = (same.map fun call => call.last - call.start).sum ∧
              totals.minTime = (same.map fun call => call.start wt).foldr min numberMaxValue := by
  refine ⟨foldlM_addCall_isSome_iff wt list _ _, ?_⟩
  intro stats hnew
  obtain ⟨hnode, -, hcalled, hinc⟩ := new_spec hnew
  refine ⟨hcalled, hinc, ?_⟩
  intro path hpath
  rw [hnode, sum_callNodes calls hpath]
  split
  · rename_i hsome
    refine ⟨by simpa using hsome, ?_⟩
    intro totals htotals
    rw [← WithZero.coe_inj.mp htotals]
    exact sum_ofCall _
  · rename_i hnone
    refine ⟨by simpa using hnone, ?_⟩
    intro totals htotals
    exact absurd htotals WithZero.zero_ne_coe

/-- The trees of some parts, merged one after the other. -/
theorem foldl_merge_spec {wt : Key metrics} {list : CallList metrics}
    {parts : List (List (CallListEntry metrics))} {trees : List (CallTreeStats metrics)}
    (h : parts.mapM (new wt list) = some trees) (stats : CallTreeStats metrics) :
    (trees.foldl merge stats).node = stats.node + (parts.flatten.map (callNodes wt list)).sum ∧
      (trees.foldl merge stats).root.inc = stats.root.inc + rootInc list parts.flatten ∧
      (trees.foldl merge stats).root.called = stats.root.called + parts.length := by
  induction parts generalizing trees stats with
  | nil =>
    cases h
    simp [rootInc]
  | cons part parts ih =>
    rw [List.mapM_cons] at h
    obtain ⟨tree, htree, h⟩ := Option.bind_eq_some_iff.mp h
    obtain ⟨rest, hrest, h⟩ := Option.bind_eq_some_iff.mp h
    cases h
    obtain ⟨hnode, -, hcalled, hinc⟩ := new_spec htree
    obtain ⟨hnode', hinc', hcalled'⟩ := ih hrest (stats.merge tree)
    rw [List.foldl_cons, hnode', hinc', hcalled', node_merge, hnode]
    refine ⟨?_, ?_, ?_⟩
    · simp [add_assoc]
    · rw [List.flatten_cons, rootInc_append, ← hinc, ← add_assoc]
      rfl
    · show stats.root.called + tree.root.called + parts.length = _
      rw [hcalled, List.length_cons]
      omega

/-- The parts have trees when all their calls are nameable. -/
theorem mapM_new_isSome_iff (wt : Key metrics) (list : CallList metrics)
    (parts : List (List (CallListEntry metrics))) :
    (parts.mapM (new wt list)).isSome = true ↔
      ∀ call ∈ parts.flatten, list.Nameable call.idx := by
  induction parts with
  | nil => simp
  | cons part parts ih =>
    have hpart := foldlM_addCall_isSome_iff wt list empty part
    rw [List.mapM_cons, List.flatten_cons, List.forall_mem_append, ← ih, ← hpart]
    cases hnew : new wt list part with
    | none =>
      rw [new] at hnew
      simp [hnew]
    | some tree =>
      rw [new] at hnew
      cases parts.mapM (new wt list) <;> simp [hnew]

/-- **Cutting the calls into parts**, in any order, and merging the trees of the parts gives the
same nodes; only the root counts the trees. -/
theorem call_tree_of_parts (wt : Key metrics) (list : CallList metrics)
    {calls : List (CallListEntry metrics)} {parts : List (List (CallListEntry metrics))}
    (h : parts.flatten.Perm calls) :
    (new wt list calls = none ∧ parts.mapM (new wt list) = none) ∨
      ∃ stats trees, new wt list calls = some stats ∧ parts.mapM (new wt list) = some trees ∧
        (trees.foldl merge empty).node = stats.node ∧
        (trees.foldl merge empty).root.inc = stats.root.inc ∧
        (trees.foldl merge empty).root.called = parts.length + 1 := by
  have hcalls := foldlM_addCall_isSome_iff wt list empty calls
  have hparts := mapM_new_isSome_iff wt list parts
  have hsame : (∀ call ∈ parts.flatten, list.Nameable call.idx) ↔
      ∀ call ∈ calls, list.Nameable call.idx :=
    forall_congr' fun call => imp_congr_left h.mem_iff
  cases hnew : new wt list calls with
  | none =>
    left
    refine ⟨rfl, ?_⟩
    rw [← new, hnew, ← hsame, ← hparts] at hcalls
    cases hmap : parts.mapM (new wt list) with
    | none => rfl
    | some trees =>
      rw [hmap] at hcalls
      simp at hcalls
  | some stats =>
    right
    rw [← new, hnew, ← hsame, ← hparts] at hcalls
    obtain ⟨trees, htrees⟩ := Option.isSome_iff_exists.mp (hcalls.mp rfl)
    obtain ⟨hnode, -, -, hinc⟩ := new_spec hnew
    obtain ⟨hnode', hinc', hcalled'⟩ := foldl_merge_spec htrees empty
    refine ⟨stats, trees, rfl, htrees, ?_, ?_, ?_⟩
    · rw [hnode', hnode, node_empty, zero_add, (h.map _).sum_eq]
    · rw [hinc', hinc, rootInc_perm h]
      exact zero_add _
    · rw [hcalled']
      exact Nat.add_comm 1 _

/-- A function that calls itself, for 2 of its 8 units of time. -/
def selfCalling : CallList wallTimeMetrics :=
  ((CallList.new 1).setRawCallData 0 0 (-1) 0 (fun _ => 8) fun _ => 6).setRawCallData 1 0 0
    (fun _ => 1) (fun _ => 3) fun _ => 2

/-- The call and the one it makes, merged in the other order. -/
theorem call_tree_of_swapped :
    ∃ stats trees, new wallTimeKey selfCalling [selfCalling.entry 0, selfCalling.entry 1] =
        some stats ∧
      [[selfCalling.entry 1], [selfCalling.entry 0]].mapM (new wallTimeKey selfCalling) =
        some trees ∧
      (trees.foldl merge empty).node = stats.node ∧
      (trees.foldl merge empty).root.inc = stats.root.inc ∧
      (trees.foldl merge empty).root.called = 3 :=
  (call_tree_of_parts wallTimeKey selfCalling
    (show [[selfCalling.entry 1], [selfCalling.entry 0]].flatten.Perm
      [selfCalling.entry 0, selfCalling.entry 1] from List.Perm.swap _ _ [])).resolve_left
    fun h => absurd h.1 (by decide +kernel)

/-- **What pruning leaves**: a node is as before, and there exactly when it was there and no node
on the way to it, itself included, has been called for less than the duration. -/
theorem node_prune (wt : Key metrics) (minDuration : ℚ) (stats : CallTreeStats metrics)
    (path : List String) (totals : CallTreeTotals metrics) :
    (stats.prune wt minDuration).node path = totals ↔
      stats.node path = totals ∧ ∀ upTo, upTo ≠ [] → upTo <+: path →
        ∃ t : CallTreeTotals metrics, stats.node upTo = t ∧
            (t.called = 0 ∨ minDuration ≤ t.inc wt) := by
  refine (Trie.find_prune stats.distinct path totals).trans (and_congr_right fun _ => ?_)
  refine forall_congr' fun upTo => imp_congr_right fun _ => imp_congr_right fun _ => ?_
  refine exists_congr fun t => and_congr_right fun _ => ?_
  rw [keeps, decide_eq_true_eq, not_and, not_lt, gt_iff_lt, Nat.pos_iff_ne_zero,
    or_iff_not_imp_left]

end CallTreeStats

end PhpSpx.WebUi
