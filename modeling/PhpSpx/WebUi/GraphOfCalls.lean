import PhpSpx.WebUi.FlameGraph
import PhpSpx.WebUi.RangeCallTree

/-!
# The graph of the calls

What `CallGraphData.build` of `callGraph.js` makes of the call tree of a time range.  Functions of
one name have one node, with the values of the first of them that the traversal meets.  An edge is
found by the names of its ends with an arrow between, so that two edges may be taken for one when
names have an arrow themselves.

* `visits` — what the traversal meets, in order.
* `CallGraphData.Shows` — the graph after some visits.
* `CallGraphData.Shows.traverseAndBuildGraph` — the traversal.
* `mem_visits_getRoot` — what it meets in the call tree of the statistics.
* `range_call_graph` — the graph of a time range.
-/

namespace PhpSpx.WebUi

open Lib (Trie)

variable {metrics : EnabledMetrics}

/-! ## Visits -/

/-- A node that `traverseAndBuildGraph` meets, with the name of the node above it. -/
structure GraphVisit where
  parent : Option String
  functionName : String
  called : ℕ
  inc : String → ℚ

mutual

/-- The visits of a node and of those below it. -/
def visits (parent : Option String) : CallTreeStatsNode → List GraphVisit
  | .mk none _ _ children => visitsBelow none children
  | .mk (some functionName) called inc children =>
    ⟨parent, functionName, called, inc⟩ :: visitsBelow (some functionName) children

/-- The visits of some children. -/
def visitsBelow (parent : Option String) : List CallTreeStatsNode → List GraphVisit
  | [] => []
  | child :: children => visits parent child ++ visitsBelow parent children

end

/-- One of the visits comes from a name to a name. -/
def Pairs (vs : List GraphVisit) (parent functionName : String) : Prop :=
  ∃ visit ∈ vs, visit.parent = some parent ∧ visit.functionName = functionName

theorem Pairs.append_left {vs : List GraphVisit} {u v : String} (h : Pairs vs u v)
    (rest : List GraphVisit) : Pairs (vs ++ rest) u v :=
  h.imp fun _ hvisit => ⟨List.mem_append_left _ hvisit.1, hvisit.2⟩

/-! ## One visit -/

namespace CallGraphData

variable {g : CallGraphData} {functionName u v : String}

/-- `node.parents`. -/
def parents (g : CallGraphData) (functionName : String) : List String :=
  ((g.node functionName).map CallGraphNode.parents).getD []

theorem mem_names_iff : v ∈ g.names ↔ ∃ node, g.node v = some node := by
  rw [names, List.mem_map, node, ← Option.isSome_iff_exists, List.find?_isSome]
  simp

theorem node_modifyNode {f : CallGraphNode → CallGraphNode}
    (hf : ∀ node, (f node).functionName = node.functionName) (v : String) :
    (g.modifyNode functionName f).node v =
      (g.node v).map fun node => if v = functionName then f node else node := by
  have hsame : ((fun node : CallGraphNode => decide (node.functionName = v)) ∘
      fun node => if node.functionName = functionName then f node else node) =
      fun node => decide (node.functionName = v) := by
    funext node
    simp only [Function.comp_apply, apply_ite CallGraphNode.functionName, hf, ite_self]
  rw [node, modifyNode, List.find?_map, hsame]
  change (g.node v).map _ = _
  cases hnode : g.node v with
  | none => rfl
  | some node =>
    obtain ⟨-, rfl⟩ := mem_nodes_of_node_eq_some hnode
    rfl

theorem node_addNode (inc : String → ℚ) (v : String) :
    (g.addNode functionName inc).node v =
      (g.node v).or (if v = functionName then some ⟨functionName, inc, [], []⟩ else none) := by
  rw [addNode]
  split
  · rename_i hmem
    by_cases hv : v = functionName
    · subst hv
      obtain ⟨node, hnode⟩ := mem_names_iff.mp hmem
      rw [hnode, Option.some_or]
    · rw [if_neg hv, Option.or_none]
  · rw [node, List.find?_append, List.find?_singleton]
    by_cases hv : v = functionName
    · subst hv
      simp [node]
    · simp [node, hv, Ne.symm hv]

theorem children_addNode (inc : String → ℚ) (v : String) :
    (g.addNode functionName inc).children v = g.children v := by
  rw [children, children, node_addNode]
  cases g.node v with
  | none => split <;> rfl
  | some node => rfl

theorem parents_addNode (inc : String → ℚ) (v : String) :
    (g.addNode functionName inc).parents v = g.parents v := by
  rw [parents, parents, node_addNode]
  cases g.node v with
  | none => split <;> rfl
  | some node => rfl

theorem mem_children_addChild_iff {child : String} {node : CallGraphNode} :
    v ∈ (node.addChild child).children ↔ v = child ∨ v ∈ node.children := by
  rw [CallGraphNode.addChild]
  split
  · rename_i hmem
    exact ⟨.inr, fun h => h.elim (fun heq => heq ▸ hmem) id⟩
  · rw [List.mem_append, List.mem_singleton, or_comm]

theorem mem_parents_addParent_iff {parent : String} {node : CallGraphNode} :
    v ∈ (node.addParent parent).parents ↔ v = parent ∨ v ∈ node.parents := by
  rw [CallGraphNode.addParent]
  split
  · rename_i hmem
    exact ⟨.inr, fun h => h.elim (fun heq => heq ▸ hmem) id⟩
  · rw [List.mem_append, List.mem_singleton, or_comm]

theorem parents_addChild (child : String) (node : CallGraphNode) :
    (node.addChild child).parents = node.parents := by
  rw [CallGraphNode.addChild]
  split <;> rfl

theorem inc_addChild (child : String) (node : CallGraphNode) :
    (node.addChild child).inc = node.inc := by
  rw [CallGraphNode.addChild]
  split <;> rfl

theorem inc_addParent (parent : String) (node : CallGraphNode) :
    (node.addParent parent).inc = node.inc := by
  rw [CallGraphNode.addParent]
  split <;> rfl

theorem mem_names_addNode (inc : String → ℚ) :
    v ∈ (g.addNode functionName inc).names ↔ v = functionName ∨ v ∈ g.names := by
  rw [mem_names_iff, mem_names_iff, node_addNode]
  cases g.node v <;> by_cases hv : v = functionName <;> simp [hv]

theorem edges_addNode (inc : String → ℚ) : (g.addNode functionName inc).edges = g.edges := by
  rw [addNode]
  split <;> rfl

theorem rootNodes_addNode (inc : String → ℚ) :
    (g.addNode functionName inc).rootNodes = g.rootNodes := by
  rw [addNode]
  split <;> rfl

theorem nodes_addRoot : (g.addRoot functionName).nodes = g.nodes := by
  rw [addRoot]
  split <;> rfl

theorem edges_addRoot : (g.addRoot functionName).edges = g.edges := by
  rw [addRoot]
  split <;> rfl

theorem mem_rootNodes_addRoot :
    v ∈ (g.addRoot functionName).rootNodes ↔ v = functionName ∨ v ∈ g.rootNodes := by
  rw [addRoot]
  split
  · rename_i hmem
    exact ⟨.inr, fun h => h.elim (fun heq => heq ▸ hmem) id⟩
  · rw [List.mem_append, List.mem_singleton, or_comm]

theorem rootNodes_addEdge (parent : String) (called : ℕ) (inc : String → ℚ) :
    (g.addEdge parent functionName called inc).rootNodes = g.rootNodes := by
  rw [addEdge]
  split <;> rfl

section NewEdge

variable {parent : String}

theorem edges_addEdge (hnew : g.edges.lookup (edgeKey parent functionName) = none) (called : ℕ)
    (inc : String → ℚ) :
    (g.addEdge parent functionName called inc).edges =
      g.edges ++ [(edgeKey parent functionName, ⟨parent, functionName, called, inc⟩)] := by
  rw [addEdge, hnew]
  rfl

theorem node_addEdge (hnew : g.edges.lookup (edgeKey parent functionName) = none) (called : ℕ)
    (inc : String → ℚ) (v : String) :
    (g.addEdge parent functionName called inc).node v = (g.node v).map fun node =>
      let node := if v = parent then node.addChild functionName else node
      if v = functionName then node.addParent parent else node := by
  rw [addEdge, hnew, if_neg (by simp)]
  dsimp only
  rw [node_modifyNode (functionName_addParent parent),
    node_modifyNode (functionName_addChild functionName), Option.map_map]
  rfl

theorem mem_children_addEdge (hnew : g.edges.lookup (edgeKey parent functionName) = none)
    (hparent : parent ∈ g.names) (called : ℕ) (inc : String → ℚ) :
    v ∈ (g.addEdge parent functionName called inc).children u ↔
      u = parent ∧ v = functionName ∨ v ∈ g.children u := by
  rw [children, children, node_addEdge hnew]
  cases hnode : g.node u with
  | none =>
    have hne : u ≠ parent := by
      rintro rfl
      obtain ⟨node, hsome⟩ := mem_names_iff.mp hparent
      rw [hnode] at hsome
      cases hsome
    simp [hne]
  | some node =>
    simp only [Option.map_some, Option.getD_some, apply_ite CallGraphNode.children,
      children_addParent, ite_self]
    by_cases hu : u = parent
    · simp [hu, mem_children_addChild_iff]
    · simp [hu]

theorem mem_parents_addEdge (hnew : g.edges.lookup (edgeKey parent functionName) = none)
    (hmem : functionName ∈ g.names) (called : ℕ) (inc : String → ℚ) :
    u ∈ (g.addEdge parent functionName called inc).parents v ↔
      u = parent ∧ v = functionName ∨ u ∈ g.parents v := by
  rw [parents, parents, node_addEdge hnew]
  cases hnode : g.node v with
  | none =>
    have hne : v ≠ functionName := by
      rintro rfl
      obtain ⟨node, hsome⟩ := mem_names_iff.mp hmem
      rw [hnode] at hsome
      cases hsome
    simp [hne]
  | some node =>
    simp only [Option.map_some, Option.getD_some]
    by_cases hv : v = functionName
    · rw [if_pos hv, mem_parents_addParent_iff, apply_ite CallGraphNode.parents, parents_addChild,
        ite_self]
      simp [hv]
    · rw [if_neg hv, apply_ite CallGraphNode.parents, parents_addChild, ite_self]
      simp [hv]

end NewEdge

/-! ## Many visits -/

/-- **The graph after some visits.** -/
structure Shows (g : CallGraphData) (vs : List GraphVisit) : Prop where
  names : ∀ v, v ∈ g.names ↔ ∃ visit ∈ vs, visit.functionName = v
  rootNodes : ∀ v, v ∈ g.rootNodes ↔ ∃ visit ∈ vs, visit.parent = none ∧ visit.functionName = v
  inc : ∀ v node, g.node v = some node →
    ∃ visit ∈ vs, visit.functionName = v ∧ visit.inc = node.inc
  child : ∀ u v, g.Child u v → Pairs vs u v
  parents : ∀ u v, u ∈ g.parents v ↔ g.Child u v
  edge : ∀ u v, Pairs vs u v → (g.edges.lookup (edgeKey u v)).isSome = true
  ends : ∀ key edge, g.edges.lookup key = some edge →
    key = edgeKey edge.caller edge.callee ∧ g.Child edge.caller edge.callee

theorem shows_empty : empty.Shows [] where
  names v := by simp [CallGraphData.names, empty]
  rootNodes v := by simp [empty]
  inc v node h := by simp [CallGraphData.node, empty] at h
  child u v h := by simp [Child, children, CallGraphData.node, empty] at h
  parents u v := by simp [Child, children, CallGraphData.parents, CallGraphData.node, empty]
  edge u v h := by simp [Pairs] at h
  ends key edge h := by simp [empty] at h

section Shows

variable {vs : List GraphVisit}

theorem exists_append_singleton_iff {α : Type*} {l : List α} {a : α} {p : α → Prop} :
    (∃ x ∈ l ++ [a], p x) ↔ p a ∨ ∃ x ∈ l, p x := by
  simp only [List.mem_append, List.mem_singleton]
  constructor
  · rintro ⟨x, hmem | rfl, hx⟩
    · exact .inr ⟨x, hmem, hx⟩
    · exact .inl hx
  · rintro (ha | ⟨x, hmem, hx⟩)
    · exact ⟨a, .inr rfl, ha⟩
    · exact ⟨x, .inl hmem, hx⟩

/-- What adding a node keeps and adds. -/
theorem Shows.inc_addNode (h : g.Shows vs) (visit : GraphVisit) {node : CallGraphNode}
    (hnode : (g.addNode visit.functionName visit.inc).node v = some node) :
    ∃ x ∈ vs ++ [visit], x.functionName = v ∧ x.inc = node.inc := by
  rw [node_addNode] at hnode
  rw [exists_append_singleton_iff]
  cases hold : g.node v with
  | none =>
    rw [hold, Option.none_or] at hnode
    split at hnode
    · rename_i hv
      cases hnode
      exact .inl ⟨hv.symm, rfl⟩
    · cases hnode
  | some old =>
    rw [hold, Option.some_or] at hnode
    cases hnode
    exact .inr (h.inc v _ hold)

/-- A visit without a name above. -/
theorem Shows.addCall_none (h : g.Shows vs) (functionName : String) (called : ℕ)
    (inc : String → ℚ) :
    (g.addCall none functionName called inc).Shows (vs ++ [⟨none, functionName, called, inc⟩]) := by
  have hnode : ∀ v, (g.addCall none functionName called inc).node v =
      (g.addNode functionName inc).node v := by
    intro v
    rw [CallGraphData.addCall, CallGraphData.node, nodes_addRoot]
    rfl
  have hchildren : ∀ v, (g.addCall none functionName called inc).children v = g.children v := by
    intro v
    rw [children, hnode, ← children, children_addNode]
  have hparents : ∀ v, (g.addCall none functionName called inc).parents v = g.parents v := by
    intro v
    rw [CallGraphData.parents, hnode, ← CallGraphData.parents, parents_addNode]
  have hedges : (g.addCall none functionName called inc).edges = g.edges := by
    rw [CallGraphData.addCall, edges_addRoot, edges_addNode]
  have hpairs : ∀ u v, Pairs (vs ++ [⟨none, functionName, called, inc⟩]) u v ↔ Pairs vs u v := by
    intro u v
    simp [Pairs]
  constructor
  · intro v
    rw [mem_names_iff, hnode, ← mem_names_iff, mem_names_addNode, h.names,
      exists_append_singleton_iff, eq_comm]
  · intro v
    rw [CallGraphData.addCall, mem_rootNodes_addRoot, rootNodes_addNode, h.rootNodes,
      exists_append_singleton_iff]
    simp [eq_comm]
  · intro v node hv
    rw [hnode] at hv
    exact h.inc_addNode ⟨none, functionName, called, inc⟩ hv
  · intro u v hchild
    rw [Child, hchildren] at hchild
    exact (hpairs u v).mpr (h.child u v hchild)
  · intro u v
    rw [Child, hchildren, hparents]
    exact h.parents u v
  · intro u v hpair
    rw [hedges]
    exact h.edge u v ((hpairs u v).mp hpair)
  · intro key edge hkey
    rw [hedges] at hkey
    rw [Child, hchildren]
    exact h.ends key edge hkey

/-- A visit with a name above, of a node. -/
theorem Shows.addCall_some (h : g.Shows vs) {parent : String} (hparent : parent ∈ g.names)
    (functionName : String) (called : ℕ) (inc : String → ℚ) :
    (g.addCall (some parent) functionName called inc).Shows
      (vs ++ [⟨some parent, functionName, called, inc⟩]) := by
  have hpairs : ∀ u v, Pairs (vs ++ [⟨some parent, functionName, called, inc⟩]) u v ↔
      u = parent ∧ v = functionName ∨ Pairs vs u v := by
    intro u v
    rw [Pairs, exists_append_singleton_iff, Option.some_inj, eq_comm, @eq_comm _ functionName]
    rfl
  have hadded : ∀ v, v ∈ (g.addNode functionName inc).names ↔ v = functionName ∨ v ∈ g.names :=
    fun v => mem_names_addNode inc
  have hnames : ∀ v, (v = functionName ∨ v ∈ g.names) ↔
      ∃ visit ∈ vs ++ [⟨some parent, functionName, called, inc⟩], visit.functionName = v := by
    intro v
    rw [exists_append_singleton_iff, h.names, eq_comm]
  have hroots : ∀ v, v ∈ g.rootNodes ↔ ∃ visit ∈ vs ++ [⟨some parent, functionName, called, inc⟩],
      visit.parent = none ∧ visit.functionName = v := by
    intro v
    rw [exists_append_singleton_iff, h.rootNodes]
    simp
  rw [CallGraphData.addCall]
  cases hlookup : g.edges.lookup (edgeKey parent functionName) with
  | some edge =>
    -- there is an edge of the key
    have hskip : (g.addNode functionName inc).addEdge parent functionName called inc =
        g.addNode functionName inc := by
      rw [addEdge, edges_addNode, hlookup]
      rfl
    rw [hskip]
    constructor
    · exact fun v => (hadded v).trans (hnames v)
    · intro v
      rw [rootNodes_addNode]
      exact hroots v
    · exact fun v node hv => h.inc_addNode ⟨some parent, functionName, called, inc⟩ hv
    · intro u v hchild
      rw [Child, children_addNode] at hchild
      exact (hpairs u v).mpr (.inr (h.child u v hchild))
    · intro u v
      rw [Child, children_addNode, parents_addNode]
      exact h.parents u v
    · intro u v hpair
      rw [edges_addNode]
      rcases (hpairs u v).mp hpair with ⟨rfl, rfl⟩ | hold
      · rw [hlookup]
        rfl
      · exact h.edge u v hold
    · intro key edge hkey
      rw [edges_addNode] at hkey
      rw [Child, children_addNode]
      exact h.ends key edge hkey
  | none =>
    -- the edge is new
    have hnew : (g.addNode functionName inc).edges.lookup (edgeKey parent functionName) = none := by
      rw [edges_addNode, hlookup]
    have hmem : functionName ∈ (g.addNode functionName inc).names := (hadded _).mpr (.inl rfl)
    have habove : parent ∈ (g.addNode functionName inc).names := (hadded _).mpr (.inr hparent)
    have hchild : ∀ u v, ((g.addNode functionName inc).addEdge parent functionName called inc).Child
        u v ↔ u = parent ∧ v = functionName ∨ g.Child u v := by
      intro u v
      rw [Child, mem_children_addEdge hnew habove, children_addNode]
      rfl
    constructor
    · intro v
      rw [mem_names_iff, node_addEdge hnew, ← hnames, ← hadded, mem_names_iff]
      simp
    · intro v
      rw [rootNodes_addEdge, rootNodes_addNode]
      exact hroots v
    · intro v node hv
      rw [node_addEdge hnew] at hv
      obtain ⟨before, hbefore, rfl⟩ := Option.map_eq_some_iff.mp hv
      obtain ⟨visit, hvisit, hname, hinc⟩ :=
        h.inc_addNode ⟨some parent, functionName, called, inc⟩ hbefore
      refine ⟨visit, hvisit, hname, hinc.trans ?_⟩
      simp only [apply_ite CallGraphNode.inc, inc_addParent, inc_addChild, ite_self]
    · intro u v huv
      exact (hpairs u v).mpr (((hchild u v).mp huv).imp_right (h.child u v))
    · intro u v
      rw [mem_parents_addEdge hnew hmem, parents_addNode, hchild, h.parents]
    · intro u v hpair
      rw [edges_addEdge hnew, edges_addNode, List.lookup_append]
      rcases (hpairs u v).mp hpair with ⟨rfl, rfl⟩ | hold
      · rw [hlookup, Option.none_or, List.lookup_cons_self]
        rfl
      · obtain ⟨edge, hedge⟩ := Option.isSome_iff_exists.mp (h.edge u v hold)
        rw [hedge]
        rfl
    · intro key edge hkey
      rw [edges_addEdge hnew, edges_addNode, List.lookup_append] at hkey
      rw [hchild]
      cases hold : g.edges.lookup key with
      | some old =>
        rw [hold, Option.some_or, Option.some_inj] at hkey
        subst hkey
        exact (h.ends key old hold).imp_right .inr
      | none =>
        rw [hold, Option.none_or, List.lookup_cons] at hkey
        split at hkey
        · rename_i heq
          cases hkey
          exact ⟨eq_of_beq heq, .inl ⟨rfl, rfl⟩⟩
        · cases hkey

mutual

/-- **The traversal** visits the nodes. -/
theorem Shows.traverseAndBuildGraph {g : CallGraphData} {vs : List GraphVisit} (h : g.Shows vs)
    {parent : Option String} (hparent : ∀ name, parent = some name → name ∈ g.names) :
    (tree : CallTreeStatsNode) →
      (g.traverseAndBuildGraph parent tree).Shows (vs ++ visits parent tree)
  | .mk none called inc children => by
    rw [CallGraphData.traverseAndBuildGraph, visits]
    exact h.traverseChildren (by simp) children
  | .mk (some functionName) called inc children => by
    rw [CallGraphData.traverseAndBuildGraph, visits, List.append_cons]
    have hcall : (g.addCall parent functionName called inc).Shows
        (vs ++ [⟨parent, functionName, called, inc⟩]) := by
      cases parent with
      | none => exact h.addCall_none functionName called inc
      | some above => exact h.addCall_some (hparent above rfl) functionName called inc
    apply hcall.traverseChildren
    intro name hname
    cases hname
    exact (hcall.names _).mpr (exists_append_singleton_iff.mpr (.inl rfl))

theorem Shows.traverseChildren {g : CallGraphData} {vs : List GraphVisit} (h : g.Shows vs)
    {parent : Option String} (hparent : ∀ name, parent = some name → name ∈ g.names) :
    (children : List CallTreeStatsNode) →
      (g.traverseChildren parent children).Shows (vs ++ visitsBelow parent children)
  | [] => by
    rw [CallGraphData.traverseChildren, visitsBelow, List.append_nil]
    exact h
  | child :: children => by
    rw [CallGraphData.traverseChildren, visitsBelow, ← List.append_assoc]
    have hchild := h.traverseAndBuildGraph hparent child
    apply hchild.traverseChildren
    intro name hname
    obtain ⟨visit, hvisit, heq⟩ := (h.names name).mp (hparent name hname)
    exact (hchild.names name).mpr ⟨visit, List.mem_append_left _ hvisit, heq⟩

end

/-- **The graph that is built** shows what the traversal meets. -/
theorem shows_build (root : CallTreeStatsNode) : (build root).Shows (visits none root) :=
  shows_empty.traverseAndBuildGraph (by simp) root

end Shows

end CallGraphData

/-! ## The visits of the call tree -/

theorem mem_visitsBelow {parent : Option String} {children : List CallTreeStatsNode}
    {visit : GraphVisit} :
    visit ∈ visitsBelow parent children ↔ ∃ child ∈ children, visit ∈ visits parent child := by
  induction children with
  | nil => simp [visitsBelow]
  | cons child children ih => simp [visitsBelow, ih]

/-- The order of the children does not matter for what is visited. -/
theorem mem_visitsBelow_sort {parent : Option String} {nodes : List (ℚ × CallTreeStatsNode)}
    {visit : GraphVisit} :
    visit ∈ visitsBelow parent (sortByMinTime nodes) ↔
      ∃ node ∈ nodes, visit ∈ visits parent node.2 := by
  rw [mem_visitsBelow]
  constructor
  · rintro ⟨child, hchild, hvisit⟩
    obtain ⟨node, hnode, rfl⟩ := List.mem_map.mp hchild
    exact ⟨node, List.mem_mergeSort.mp hnode, hvisit⟩
  · rintro ⟨node, hnode, hvisit⟩
    exact ⟨node.2, List.mem_map_of_mem (List.mem_mergeSort.mpr hnode), hvisit⟩

/-- The visit of a node. -/
def visitOf (parent : Option String) (functionName : String) (totals : CallTreeTotals metrics) :
    GraphVisit where
  parent := parent
  functionName := functionName
  called := totals.called
  inc := incByKey totals.inc

/-- **What is visited below a node**: the nodes under the paths from it. -/
theorem mem_visitsBelow_nodes {t : Trie String (CallTreeTotals metrics)} (ht : t.Distinct)
    (parent : Option String) (visit : GraphVisit) :
    visit ∈ visitsBelow parent (sortByMinTime (nodesByMinTime t)) ↔
      ∃ path name, ∃ totals : CallTreeTotals metrics, t.find (path ++ [name]) = totals ∧
        visit = visitOf (path.getLast?.or parent) name totals := by
  induction t generalizing parent with
  | leaf =>
    rw [mem_visitsBelow_sort]
    simp [nodesByMinTime]
  | branch key value c s ihc ihs =>
    obtain ⟨hkey, hc, hs⟩ := ht
    have hsiblings := (@mem_visitsBelow_sort parent (nodesByMinTime s) visit).symm.trans
      (ihs hs parent)
    have hchildren := ihc hc (some key)
    rw [mem_visitsBelow_sort, nodesByMinTime, List.exists_mem_cons_iff, hsiblings, visits,
      List.mem_cons, hchildren]
    constructor
    · rintro ((rfl | ⟨path, name, totals, hfind, rfl⟩) | ⟨path, name, totals, hfind, rfl⟩)
      · exact ⟨[], key, value, if_pos rfl, rfl⟩
      · refine ⟨key :: path, name, totals, ?_, ?_⟩
        · rw [List.cons_append, Trie.find_branch_self, if_neg (by simp), hfind]
        · rw [List.getLast?_cons]
          cases path.getLast? <;> rfl
      · -- a path past the node
        refine ⟨path, name, totals, ?_, rfl⟩
        cases hpath : path ++ [name] with
        | nil => simp at hpath
        | cons k rest =>
          rw [hpath] at hfind
          have hmem : k ∈ s.keys :=
            Trie.mem_keys_of_find_ne_zero (by rw [hfind]; exact WithZero.coe_ne_zero)
          have hne : key ≠ k := fun heq => hkey (heq ▸ hmem)
          rw [Trie.find_branch_of_ne hne, hfind]
    · rintro ⟨path, name, totals, hfind, rfl⟩
      cases path with
      | nil =>
        rw [List.nil_append] at hfind
        by_cases hk : key = name
        · subst hk
          rw [Trie.find_branch_self, if_pos rfl, WithZero.coe_inj] at hfind
          subst hfind
          exact .inl (.inl rfl)
        · rw [Trie.find_branch_of_ne hk] at hfind
          exact .inr ⟨[], name, totals, hfind, rfl⟩
      | cons k path =>
        rw [List.cons_append] at hfind
        by_cases hk : key = k
        · subst hk
          rw [Trie.find_branch_self, if_neg (by simp)] at hfind
          refine .inl (.inr ⟨path, name, totals, hfind, ?_⟩)
          rw [List.getLast?_cons]
          cases path.getLast? <;> rfl
        · rw [Trie.find_branch_of_ne hk] at hfind
          exact .inr ⟨k :: path, name, totals, hfind, rfl⟩

theorem mem_visits_getRoot {stats : CallTreeStats metrics} {visit : GraphVisit} :
    visit ∈ visits none stats.getRoot ↔
      ∃ path name, ∃ totals : CallTreeTotals metrics, stats.node (path ++ [name]) = totals ∧
        visit = visitOf path.getLast? name totals := by
  rw [CallTreeStats.getRoot, visits, mem_visitsBelow_nodes stats.distinct]
  simp only [Option.or_none]
  rfl

/-! ## The graph of the call tree -/

/-- The call graph of the call tree. -/
def CallTreeStats.graph (stats : CallTreeStats metrics) : CallGraphData := .build stats.getRoot

section Graph

variable {stats : CallTreeStats metrics} {u v : String}

theorem mem_names_graph : v ∈ stats.graph.names ↔ ∃ path, stats.node (path ++ [v]) ≠ 0 := by
  rw [CallTreeStats.graph, (CallGraphData.shows_build _).names]
  constructor
  · rintro ⟨visit, hvisit, rfl⟩
    obtain ⟨path, name, totals, hnode, rfl⟩ := mem_visits_getRoot.mp hvisit
    exact ⟨path, hnode ▸ WithZero.coe_ne_zero⟩
  · rintro ⟨path, hpath⟩
    obtain ⟨totals, htotals⟩ := WithZero.ne_zero_iff_exists.mp hpath
    exact ⟨_, mem_visits_getRoot.mpr ⟨path, v, totals, htotals.symm, rfl⟩, rfl⟩

theorem mem_rootNodes_graph : v ∈ stats.graph.rootNodes ↔ stats.node [v] ≠ 0 := by
  rw [CallTreeStats.graph, (CallGraphData.shows_build _).rootNodes]
  constructor
  · rintro ⟨visit, hvisit, hparent, rfl⟩
    obtain ⟨path, name, totals, hnode, rfl⟩ := mem_visits_getRoot.mp hvisit
    obtain rfl := List.getLast?_eq_none_iff.mp hparent
    exact hnode ▸ WithZero.coe_ne_zero
  · intro hnode
    obtain ⟨totals, htotals⟩ := WithZero.ne_zero_iff_exists.mp hnode
    exact ⟨_, mem_visits_getRoot.mpr ⟨[], v, totals, htotals.symm, rfl⟩, rfl, rfl⟩

/-- The edges that the traversal meets. -/
theorem pairs_visits_getRoot :
    Pairs (visits none stats.getRoot) u v ↔ ∃ path, stats.node (path ++ [u, v]) ≠ 0 := by
  constructor
  · rintro ⟨visit, hvisit, hparent, rfl⟩
    obtain ⟨path, name, totals, hnode, rfl⟩ := mem_visits_getRoot.mp hvisit
    obtain ⟨above, rfl⟩ := List.getLast?_eq_some_iff.mp hparent
    refine ⟨above, ?_⟩
    rw [List.append_assoc, List.singleton_append] at hnode
    exact hnode ▸ WithZero.coe_ne_zero
  · rintro ⟨path, hpath⟩
    obtain ⟨totals, htotals⟩ := WithZero.ne_zero_iff_exists.mp hpath
    refine ⟨_, mem_visits_getRoot.mpr ⟨path ++ [u], v, totals, ?_, rfl⟩, ?_, rfl⟩
    · rw [List.append_assoc, List.singleton_append]
      exact htotals.symm
    · exact List.getLast?_concat

end Graph

/-! ## Names without an arrow -/

/-- A name without `->`. -/
def ArrowFree (name : String) : Prop := ¬['-', '>'] <:+: name.toList

instance : DecidablePred ArrowFree := fun _ => inferInstanceAs (Decidable (¬_))

/-- A name without an arrow ends where the first arrow of a key is. -/
theorem arrowFree_append {xs ys xs' ys' : List Char} (h : ¬['-', '>'] <:+: xs)
    (h' : ¬['-', '>'] <:+: xs') (heq : xs ++ '-' :: '>' :: ys = xs' ++ '-' :: '>' :: ys') :
    xs = xs' ∧ ys = ys' := by
  induction xs generalizing xs' with
  | nil =>
    rcases xs' with _ | ⟨x, _ | ⟨x', rest⟩⟩
    · simpa using heq
    · simp at heq
    · simp only [List.nil_append, List.cons_append, List.cons.injEq] at heq
      obtain ⟨rfl, rfl, -⟩ := heq
      exact absurd ⟨[], rest, rfl⟩ h'
  | cons x xs ih =>
    have hrest : ¬['-', '>'] <:+: xs := fun harrow => h (harrow.trans (List.suffix_cons x xs).isInfix)
    cases xs' with
    | nil =>
      rcases xs with _ | ⟨x', xs⟩
      · simp at heq
      · simp only [List.nil_append, List.cons_append, List.cons.injEq] at heq
        obtain ⟨rfl, rfl, -⟩ := heq
        exact absurd ⟨[], xs, rfl⟩ h
    | cons x' xs' =>
      rw [List.cons_append, List.cons_append, List.cons.injEq] at heq
      have hrest' : ¬['-', '>'] <:+: xs' :=
        fun harrow => h' (harrow.trans (List.suffix_cons x' xs').isInfix)
      obtain ⟨rfl, rfl⟩ := ih hrest hrest' heq.2
      exact ⟨by rw [heq.1], rfl⟩

/-- **A key tells its ends** when the callers have no arrow in their names. -/
theorem edgeKey_inj {u v u' v' : String} (h : ArrowFree u) (h' : ArrowFree u')
    (heq : edgeKey u v = edgeKey u' v') : u = u' ∧ v = v' := by
  have hlist := congrArg String.toList heq
  simp only [edgeKey, String.toList_append, List.append_assoc] at hlist
  obtain ⟨hu, hv⟩ := arrowFree_append h h' hlist
  exact ⟨String.toList_inj.mp hu, String.toList_inj.mp hv⟩

section Arrows

variable {stats : CallTreeStats metrics} {u v : String} {path : List String}

/-- There is a node at every beginning of the path to a node. -/
theorem node_ne_zero_of_upTo {upTo : List String} (hne : upTo ≠ []) (hupTo : upTo <+: path)
    (h : stats.node path ≠ 0) : stats.node upTo ≠ 0 := by
  obtain ⟨rest, rfl⟩ := hupTo
  exact Trie.find_ne_zero_of_append hne h

/-- The names on the path to a node are nodes of the graph. -/
theorem mem_names_of_mem_path (h : stats.node path ≠ 0) (hv : v ∈ path) : v ∈ stats.graph.names := by
  obtain ⟨above, below, rfl⟩ := List.mem_iff_append.mp hv
  refine mem_names_graph.mpr ⟨above, node_ne_zero_of_upTo (by simp) ?_ h⟩
  exact ⟨below, List.append_cons above v below ▸ rfl⟩

/-- **An edge of the call tree** is one of the graph when no name has an arrow. -/
theorem child_graph_of_node (hfree : ∀ name ∈ stats.graph.names, ArrowFree name)
    (h : stats.node (path ++ [u, v]) ≠ 0) : stats.graph.Child u v := by
  have hshows := CallGraphData.shows_build stats.getRoot
  obtain ⟨edge, hedge⟩ := Option.isSome_iff_exists.mp
    (hshows.edge u v (pairs_visits_getRoot.mpr ⟨path, h⟩))
  obtain ⟨hkey, hchild⟩ := hshows.ends _ edge hedge
  obtain ⟨path', h'⟩ := pairs_visits_getRoot.mp (hshows.child _ _ hchild)
  have hu : u ∈ stats.graph.names := mem_names_of_mem_path h (by simp)
  have hcaller : edge.caller ∈ stats.graph.names := mem_names_of_mem_path h' (by simp)
  obtain ⟨rfl, rfl⟩ := edgeKey_inj (hfree _ hu) (hfree _ hcaller) hkey
  exact hchild

/-- **The path to a node** is one of the graph, from a root. -/
theorem isChain_graph (hfree : ∀ name ∈ stats.graph.names, ArrowFree name)
    (h : stats.node path ≠ 0) :
    path.IsChain stats.graph.Child ∧ ∀ root ∈ path.head?, root ∈ stats.graph.rootNodes := by
  induction path using List.reverseRecOn with
  | nil => simp
  | append_singleton above v ih =>
    rcases List.eq_nil_or_concat above with rfl | ⟨path, u, habove⟩
    · simpa using mem_rootNodes_graph.mpr h
    · rw [List.concat_eq_append] at habove
      have hne : above ≠ [] := by simp [habove]
      obtain ⟨hchain, hroot⟩ := ih (node_ne_zero_of_upTo hne (List.prefix_append _ _) h)
      constructor
      · rw [List.isChain_append]
        refine ⟨hchain, List.isChain_singleton _, ?_⟩
        intro x hx y hy
        rw [habove, List.getLast?_concat, Option.mem_some_iff] at hx
        rw [List.head?_cons, Option.mem_some_iff] at hy
        subst hx hy
        rw [habove, List.append_assoc] at h
        exact child_graph_of_node hfree h
      · rw [List.head?_append_of_ne_nil _ hne]
        exact hroot

/-- **Every node is reached** from a root when no name has an arrow. -/
theorem exists_root_graph (hfree : ∀ name ∈ stats.graph.names, ArrowFree name)
    (hv : v ∈ stats.graph.names) :
    ∃ root ∈ stats.graph.rootNodes, Relation.ReflTransGen stats.graph.Child root v := by
  obtain ⟨path, hpath⟩ := mem_names_graph.mp hv
  obtain ⟨hchain, hroot⟩ := isChain_graph hfree hpath
  cases hlist : path ++ [v] with
  | nil => simp at hlist
  | cons root rest =>
    rw [hlist] at hchain hroot
    refine ⟨root, hroot root rfl, ?_⟩
    apply List.relationReflTransGen_of_exists_isChain_cons rest hchain
    simp only [← hlist, List.getLast_append_singleton]

end Arrows

/-! ## The graph of a time range -/

section Calls

variable {wt : Key metrics} {list : CallList metrics} {minDuration : ℚ}
  {stats : CallTreeStats metrics} {calls : List (CallListEntry metrics)} {path : List String}

/-- A node of the tree is one of a call. -/
theorem Approximates.exists_call (h : Approximates wt list minDuration stats calls)
    (hpath : path ≠ []) (hnode : stats.node path ≠ 0) :
    ∃ call ∈ calls, path <+: list.names call.idx := by
  obtain ⟨rest, -, hpart⟩ := h.part path
  by_contra hnone
  rw [callsNode, sum_callNodes calls hpath, if_neg hnone] at hpart
  obtain ⟨totals, htotals⟩ := WithZero.ne_zero_iff_exists.mp hnode
  rw [← htotals] at hpart
  cases rest with
  | zero => simp at hpart
  | coe other =>
    rw [← WithZero.coe_add] at hpart
    exact WithZero.zero_ne_coe hpart

/-- A call that is long enough, like all calls of the beginnings of its stack, has its node. -/
theorem Approximates.node_ne_zero (h : Approximates wt list minDuration stats calls)
    {call : CallListEntry metrics} (hcall : call ∈ calls) (hne : list.names call.idx ≠ [])
    (hlong : ∀ other ∈ calls, list.names other.idx <+: list.names call.idx →
      minDuration ≤ list.duration wt other.idx) : stats.node (list.names call.idx) ≠ 0 := by
  rw [h.exact _ hlong, callsNode, sum_callNodes calls hne,
    if_pos ⟨call, hcall, List.prefix_rfl⟩]
  exact WithZero.coe_ne_zero

end Calls

/-- A call that overlaps a range. -/
def CallList.InRange (wt : Key metrics) (list : CallList metrics) (range : Range) (idx : ℕ) : Prop :=
  idx < list.getSize ∧ list.overlapping wt range idx = true

/-- The calls of a range that have the stack of a call, or a beginning of it, last for the
duration. -/
def CallList.StackLasts (wt : Key metrics) (list : CallList metrics) (range : Range)
    (minDuration : ℚ) (idx : ℕ) : Prop :=
  ∀ other, list.InRange wt range other → list.names other <+: list.names idx →
    minDuration ≤ list.duration wt other

/-- **The call graph of a time range**: its nodes are functions of calls that overlap the range, its
roots are at the bottom of their stacks, and its edges lead from callers to what they call.  A node
has the values that the calls have under one of the stacks it is on top of.  When no name has an
arrow, every node is reached from a root, and the stack of a call is a path of the graph from a root
unless it, or a beginning of it, has a call that is shorter than a 150th of the whole time. -/
theorem range_call_graph (wt : Key metrics) (list : CallList metrics)
    (metricValuesList : MetricValuesList metrics) {samples : List (MetricValueSet metrics)}
    {fuel : ℕ} {treeRange range : Range} {tree : CallRangeTree metrics}
    (hin : CallsIn wt list treeRange (List.range list.getSize))
    (hcovers : metricValuesList.Covers wt samples treeRange)
    (hbuild : buildAsync wt list metricValuesList fuel treeRange (List.range list.getSize) =
      some tree) (hrange : treeRange.Contains range)
    (hnames : ∀ idx < list.getSize, list.Nameable idx) :
    ∃ stats, tree.queryCallTree wt list metricValuesList range none none = some stats ∧
      let g := stats.graph
      (∀ v ∈ g.names, ∃ idx, list.InRange wt range idx ∧ v ∈ list.names idx) ∧
      (∀ v ∈ g.rootNodes, ∃ idx, list.InRange wt range idx ∧ (list.names idx).head? = some v) ∧
      (∀ u v, g.Child u v → ∃ idx, list.InRange wt range idx ∧ [u, v] <:+: list.names idx) ∧
      (∀ u v, u ∈ g.parents v ↔ g.Child u v) ∧
      (∀ v ∈ g.names, ∃ path, ∃ totals : CallTreeTotals metrics,
        stats.node (path ++ [v]) = totals ∧
          ∀ metric, g.getInclusiveMetric metric v = incByKey totals.inc metric) ∧
      ((∀ idx < list.getSize, ∀ name ∈ list.names idx, ArrowFree name) →
        (∀ v ∈ g.names, ∃ root ∈ g.rootNodes, Relation.ReflTransGen g.Child root v) ∧
        ∀ idx, list.InRange wt range idx →
          list.StackLasts wt range (treeRange.length / 150) idx →
          (list.names idx).IsChain g.Child ∧ (∀ name ∈ list.names idx, name ∈ g.names) ∧
            ∀ root ∈ (list.names idx).head?, root ∈ g.rootNodes) := by
  obtain ⟨stats, lower, upper, -, hstats, happrox⟩ :=
    exists_queryCallTree hin hcovers hbuild hrange hnames
  have hshows := CallGraphData.shows_build stats.getRoot
  have hcalls : ∀ path, path ≠ [] → stats.node path ≠ 0 →
      ∃ idx, list.InRange wt range idx ∧ path <+: list.names idx := by
    intro path hpath hnode
    obtain ⟨call, hcall, hupTo⟩ := happrox.exists_call hpath hnode
    obtain ⟨idx, hidx, rfl⟩ := List.mem_map.mp hcall
    obtain ⟨hmem, hoverlapping⟩ := List.mem_filter.mp hidx
    exact ⟨idx, ⟨List.mem_range.mp hmem, hoverlapping⟩, hupTo⟩
  have hnodes : ∀ v ∈ stats.graph.names,
      ∃ idx, list.InRange wt range idx ∧ v ∈ list.names idx := by
    intro v hv
    obtain ⟨path, hpath⟩ := mem_names_graph.mp hv
    obtain ⟨idx, hidx, hupTo⟩ := hcalls _ (by simp) hpath
    exact ⟨idx, hidx, hupTo.subset (by simp)⟩
  refine ⟨stats, hstats, hnodes, ?_, ?_, hshows.parents, ?_, ?_⟩
  · intro v hv
    obtain ⟨idx, hidx, rest, hrest⟩ := hcalls [v] (by simp) (mem_rootNodes_graph.mp hv)
    exact ⟨idx, hidx, by rw [← hrest]; rfl⟩
  · intro u v hchild
    obtain ⟨path, hpath⟩ := pairs_visits_getRoot.mp (hshows.child u v hchild)
    obtain ⟨idx, hidx, hupTo⟩ := hcalls _ (by simp) hpath
    exact ⟨idx, hidx, (List.suffix_append path [u, v]).isInfix.trans hupTo.isInfix⟩
  · intro v hv
    obtain ⟨node, hnode⟩ := CallGraphData.mem_names_iff.mp hv
    obtain ⟨visit, hvisit, rfl, hinc⟩ := hshows.inc v node hnode
    obtain ⟨path, name, totals, htotals, rfl⟩ := mem_visits_getRoot.mp hvisit
    refine ⟨path, totals, htotals, ?_⟩
    intro metric
    rw [CallGraphData.getInclusiveMetric, hnode, Option.map_some, Option.getD_some, ← hinc]
    rfl
  · intro hfree
    have hfree' : ∀ name ∈ stats.graph.names, ArrowFree name := by
      intro name hname
      obtain ⟨idx, ⟨hidx, -⟩, hmem⟩ := hnodes name hname
      exact hfree idx hidx name hmem
    refine ⟨fun v hv => exists_root_graph hfree' hv, ?_⟩
    intro idx hidx hlasts
    by_cases hnil : list.names idx = []
    · simp [hnil]
    have hcall : (list.entry idx).truncate wt (some lower) (some upper) ∈
        queryCalls wt list range lower upper (List.range list.getSize) :=
      List.mem_map_of_mem (List.mem_filter.mpr ⟨List.mem_range.mpr hidx.1, hidx.2⟩)
    have hnode : stats.node (list.names idx) ≠ 0 := by
      refine happrox.node_ne_zero hcall hnil ?_
      intro other hother hupTo
      obtain ⟨idx', hidx', rfl⟩ := List.mem_map.mp hother
      obtain ⟨hmem, hoverlapping⟩ := List.mem_filter.mp hidx'
      exact hlasts idx' ⟨List.mem_range.mp hmem, hoverlapping⟩ hupTo
    obtain ⟨hchain, hroot⟩ := isChain_graph hfree' hnode
    exact ⟨hchain, fun name hname => mem_names_of_mem_path hnode hname, hroot⟩

theorem names_twoNodeList (idx : ℕ) : twoNodeList.names idx = ["f"] := by
  rw [CallList.names, stackNames_twoNodeList, Option.getD_some]

/-- The function of the calls of both nodes. -/
theorem range_call_graph_cut :
    ∃ fuel tree stats, buildAsync wallTimeKey twoNodeList (.ofTimes [0, 8]) fuel eightLong
        (List.range twoNodeList.getSize) = some tree ∧
      (∃ node ∈ tree.nodes, node.range? = some eightLong.left) ∧
      tree.queryCallTree wallTimeKey twoNodeList (.ofTimes [0, 8]) cutRange none none =
        some stats ∧
      "f" ∈ stats.graph.rootNodes := by
  obtain ⟨fuel, tree, htree, hleft⟩ := exists_twoNodeTree
  obtain ⟨stats, hstats, -, -, -, -, -, harrows⟩ := range_call_graph wallTimeKey _ _
    callsIn_twoNodeList covers_twoNodeList htree contains_cutRange
    fun idx _ => nameable_twoNodeList idx
  have hfree : ∀ idx < twoNodeList.getSize, ∀ name ∈ twoNodeList.names idx, ArrowFree name := by
    intro idx _
    rw [names_twoNodeList]
    decide +kernel
  obtain ⟨-, hpaths⟩ := harrows hfree
  have hlast : twoNodeList.InRange wallTimeKey cutRange minCallsPerNode := by
    refine ⟨Nat.lt_of_lt_of_eq (Nat.lt_succ_self _) getSize_twoNodeList.symm, ?_⟩
    rw [CallList.overlapping_of_some timeRange_twoNodeList_last, decide_eq_true_eq]
    norm_num [Range.Overlaps, middleCall, cutRange]
  obtain ⟨-, -, hroot⟩ :=
    hpaths minCallsPerNode hlast fun idx hidx _ => duration_twoNodeList hidx.1
  exact ⟨fuel, tree, stats, htree, hleft, hstats, hroot "f" (by rw [names_twoNodeList]; rfl)⟩

end PhpSpx.WebUi
