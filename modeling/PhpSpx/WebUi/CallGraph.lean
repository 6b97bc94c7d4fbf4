import Mathlib.Data.List.Nodup
import Mathlib.Data.Rat.Defs
import Mathlib.Logic.Relation

/-!
# The call graph

`CallGraphData` of `callGraph.js`: the graph that is built from the call tree of the statistics,
with one node for each function name.  A node is referred to by its name.

* `traverseAndBuildGraph` — the graph of a call tree.
* `CallGraphData.Closed` — the roots and the children are nodes of the graph.
* `WellFormed` — what holds of every graph that is built.
-/

namespace PhpSpx.WebUi

/-- `CallTreeStatsNode`, with its children in the order of `getChildren`. -/
inductive CallTreeStatsNode where
  | mk (functionName : Option String) (called : ℕ) (inc : String → ℚ)
      (children : List CallTreeStatsNode)

/-- `CallGraphNode`. -/
structure CallGraphNode where
  functionName : String
  inc : String → ℚ
  children : List String
  parents : List String

/-- `CallGraphEdge`, whose ends the source calls `from` and `to`. -/
structure CallGraphEdge where
  caller : String
  callee : String
  callCount : ℕ
  metrics : String → ℚ

/-- `CallGraphData`, as far as the graph goes. -/
structure CallGraphData where
  nodes : List CallGraphNode
  edges : List (String × CallGraphEdge)
  rootNodes : List String

/-- The key of an edge. -/
def edgeKey (caller callee : String) : String := caller ++ "->" ++ callee

/-- A child pushed, unless it is there. -/
def CallGraphNode.addChild (child : String) (node : CallGraphNode) : CallGraphNode :=
  if child ∈ node.children then node else { node with children := node.children ++ [child] }

/-- A parent pushed, unless it is there. -/
def CallGraphNode.addParent (parent : String) (node : CallGraphNode) : CallGraphNode :=
  if parent ∈ node.parents then node else { node with parents := node.parents ++ [parent] }

namespace CallGraphData

/-- The graph before it is built. -/
def empty : CallGraphData where
  nodes := []
  edges := []
  rootNodes := []

/-- The names of the nodes. -/
def names (g : CallGraphData) : List String := g.nodes.map CallGraphNode.functionName

/-- `this.nodes.get(functionName)`. -/
def node (g : CallGraphData) (functionName : String) : Option CallGraphNode :=
  g.nodes.find? fun node => node.functionName = functionName

/-- `node.children`. -/
def children (g : CallGraphData) (functionName : String) : List String :=
  ((g.node functionName).map CallGraphNode.children).getD []

/-- `CallGraphNode.getInclusiveMetric`. -/
def getInclusiveMetric (g : CallGraphData) (metric : String) (functionName : String) : ℚ :=
  ((g.node functionName).map fun node => node.inc metric).getD 0

/-- `new CallGraphNode`, unless there is a node of the name. -/
def addNode (g : CallGraphData) (functionName : String) (inc : String → ℚ) : CallGraphData :=
  if functionName ∈ g.names then g
  else { g with nodes := g.nodes ++ [⟨functionName, inc, [], []⟩] }

/-- A change to the node of a name. -/
def modifyNode (g : CallGraphData) (functionName : String) (f : CallGraphNode → CallGraphNode) :
    CallGraphData :=
  { g with
    nodes := g.nodes.map fun node => if node.functionName = functionName then f node else node }

/-- `this.edges.set(edgeKey, edge)`. -/
def pushEdge (g : CallGraphData) (edge : CallGraphEdge) : CallGraphData :=
  { g with edges := g.edges ++ [(edgeKey edge.caller edge.callee, edge)] }

/-- The edge from a parent, unless there is one of the key. -/
def addEdge (g : CallGraphData) (parent functionName : String) (called : ℕ) (inc : String → ℚ) :
    CallGraphData :=
  if (g.edges.lookup (edgeKey parent functionName)).isSome then g
  else
    let g := g.pushEdge ⟨parent, functionName, called, inc⟩
    let g := g.modifyNode parent (CallGraphNode.addChild functionName)
    g.modifyNode functionName (CallGraphNode.addParent parent)

/-- A root pushed, unless it is there. -/
def addRoot (g : CallGraphData) (functionName : String) : CallGraphData :=
  if functionName ∈ g.rootNodes then g
  else { g with rootNodes := g.rootNodes ++ [functionName] }

/-- `traverseAndBuildGraph` up to the recursion, for a node with a name. -/
def addCall (g : CallGraphData) (parent : Option String) (functionName : String) (called : ℕ)
    (inc : String → ℚ) : CallGraphData :=
  let g := g.addNode functionName inc
  match parent with
  | some parent => g.addEdge parent functionName called inc
  | none => g.addRoot functionName

mutual

/-- `CallGraphData.traverseAndBuildGraph`. -/
def traverseAndBuildGraph (g : CallGraphData) (parent : Option String) :
    CallTreeStatsNode → CallGraphData
  | .mk none _ _ children => traverseChildren g none children
  | .mk (some functionName) called inc children =>
    traverseChildren (g.addCall parent functionName called inc) (some functionName) children

/-- The recursion into the children. -/
def traverseChildren (g : CallGraphData) (parent : Option String) :
    List CallTreeStatsNode → CallGraphData
  | [] => g
  | child :: children =>
    traverseChildren (g.traverseAndBuildGraph parent child) parent children

end

/-- `CallGraphData.build`, up to the hot path. -/
def build (root : CallTreeStatsNode) : CallGraphData := empty.traverseAndBuildGraph none root

/-- The child relation. -/
def Child (g : CallGraphData) (parent child : String) : Prop := child ∈ g.children parent

/-- No path leads back to where it began. -/
def Acyclic (g : CallGraphData) : Prop := ∀ v, ¬Relation.TransGen g.Child v v

/-- The roots and the children of the nodes are nodes. -/
structure Closed (g : CallGraphData) : Prop where
  rootNodes : ∀ v ∈ g.rootNodes, v ∈ g.names
  children : ∀ node ∈ g.nodes, ∀ v ∈ node.children, v ∈ g.names

theorem mem_nodes_of_node_eq_some {g : CallGraphData} {v : String} {node : CallGraphNode}
    (h : g.node v = some node) : node ∈ g.nodes ∧ node.functionName = v := by
  refine ⟨List.mem_of_find?_eq_some h, ?_⟩
  simpa using List.find?_some h

theorem Closed.mem_names_of_child {g : CallGraphData} (h : g.Closed) {v c : String}
    (hchild : g.Child v c) : c ∈ g.names := by
  rw [Child, CallGraphData.children] at hchild
  cases hnode : g.node v with
  | none =>
    rw [hnode] at hchild
    exact absurd hchild List.not_mem_nil
  | some node =>
    rw [hnode] at hchild
    exact h.children node (mem_nodes_of_node_eq_some hnode).1 c hchild

/-- A number for each node that increases along the edges. -/
def Ranked (g : CallGraphData) (rank : String → ℕ) : Prop :=
  ∀ node ∈ g.nodes, ∀ v ∈ node.children, rank node.functionName < rank v

theorem Ranked.lt_of_child {g : CallGraphData} {rank : String → ℕ} (h : g.Ranked rank)
    {u v : String} (hchild : g.Child u v) : rank u < rank v := by
  rw [Child, CallGraphData.children] at hchild
  cases hnode : g.node u with
  | none =>
    rw [hnode] at hchild
    exact absurd hchild List.not_mem_nil
  | some node =>
    rw [hnode] at hchild
    obtain ⟨hmem, rfl⟩ := mem_nodes_of_node_eq_some hnode
    exact h node hmem v hchild

/-- **A graph that can be ranked** has no cycle. -/
theorem Ranked.acyclic {g : CallGraphData} {rank : String → ℕ} (h : g.Ranked rank) :
    g.Acyclic := by
  have hlt : ∀ u v, Relation.TransGen g.Child u v → rank u < rank v := by
    intro u v hpath
    induction hpath with
    | single hchild => exact h.lt_of_child hchild
    | tail _ hchild ih => exact ih.trans (h.lt_of_child hchild)
  intro v hcycle
  exact lt_irrefl (rank v) (hlt v v hcycle)

/-! ## The graph that is built -/

/-- **A graph that was built**: the names are distinct, and each child has its edge. -/
structure WellFormed (g : CallGraphData) : Prop extends g.Closed where
  nodup : g.names.Nodup
  edge : ∀ node ∈ g.nodes, ∀ child ∈ node.children, ∃ edge,
    g.edges.lookup (edgeKey node.functionName child) = some edge ∧
      edge.caller = node.functionName ∧ edge.callee = child

theorem wellFormed_empty : empty.WellFormed where
  rootNodes _ h := absurd h List.not_mem_nil
  children _ h := absurd h List.not_mem_nil
  nodup := List.nodup_nil
  edge _ h := absurd h List.not_mem_nil

section WellFormed

variable {g : CallGraphData} {functionName : String}

theorem names_modifyNode {f : CallGraphNode → CallGraphNode}
    (hf : ∀ node, (f node).functionName = node.functionName) :
    (g.modifyNode functionName f).names = g.names := by
  rw [names, modifyNode, List.map_map]
  apply List.map_congr_left
  intro node _
  rw [Function.comp_apply]
  split
  · exact hf node
  · rfl

theorem functionName_addChild (child : String) (node : CallGraphNode) :
    (node.addChild child).functionName = node.functionName := by
  rw [CallGraphNode.addChild]
  split <;> rfl

theorem functionName_addParent (parent : String) (node : CallGraphNode) :
    (node.addParent parent).functionName = node.functionName := by
  rw [CallGraphNode.addParent]
  split <;> rfl

theorem mem_children_addChild {child v : String} {node : CallGraphNode}
    (h : v ∈ (node.addChild child).children) : v = child ∨ v ∈ node.children := by
  rw [CallGraphNode.addChild] at h
  split at h
  · exact .inr h
  · rw [List.mem_append, List.mem_singleton] at h
    exact h.symm

theorem children_addParent (parent : String) (node : CallGraphNode) :
    (node.addParent parent).children = node.children := by
  rw [CallGraphNode.addParent]
  split <;> rfl

theorem WellFormed.addNode (h : g.WellFormed) (inc : String → ℚ) :
    (g.addNode functionName inc).WellFormed ∧
      g.names ⊆ (g.addNode functionName inc).names ∧
      functionName ∈ (g.addNode functionName inc).names := by
  rw [CallGraphData.addNode]
  split
  · rename_i hmem
    exact ⟨h, List.Subset.refl _, hmem⟩
  · rename_i hnew
    have hnames : CallGraphData.names
        { g with nodes := g.nodes ++ [⟨functionName, inc, [], []⟩] } =
        g.names ++ [functionName] := by
      rw [names, List.map_append]
      rfl
    refine ⟨⟨⟨?_, ?_⟩, ?_, ?_⟩, ?_, ?_⟩
    · intro v hv
      rw [hnames]
      exact List.mem_append_left _ (h.rootNodes v hv)
    · intro node hnode v hv
      rw [hnames]
      rcases List.mem_append.mp hnode with hnode | hnode
      · exact List.mem_append_left _ (h.children node hnode v hv)
      · cases List.mem_singleton.mp hnode
        exact absurd hv List.not_mem_nil
    · rw [hnames]
      exact List.Nodup.append h.nodup (List.nodup_singleton _) (List.disjoint_singleton.mpr hnew)
    · intro node hnode child hchild
      rcases List.mem_append.mp hnode with hnode | hnode
      · exact h.edge node hnode child hchild
      · cases List.mem_singleton.mp hnode
        exact absurd hchild List.not_mem_nil
    · rw [hnames]
      exact List.subset_append_left _ _
    · rw [hnames]
      exact List.mem_append_right _ (List.mem_singleton_self _)

theorem WellFormed.addRoot (h : g.WellFormed) (hmem : functionName ∈ g.names) :
    (g.addRoot functionName).WellFormed ∧ (g.addRoot functionName).names = g.names := by
  rw [CallGraphData.addRoot]
  split
  · exact ⟨h, rfl⟩
  · refine ⟨⟨⟨?_, h.children⟩, h.nodup, h.edge⟩, rfl⟩
    intro v hv
    rcases List.mem_append.mp hv with hv | hv
    · exact h.rootNodes v hv
    · rw [List.mem_singleton.mp hv]
      exact hmem

/-- A node after an edge was added is a node before with, if it is the parent, one more child. -/
theorem exists_of_mem_nodes_addEdge {parent : String} {edge : CallGraphEdge} {node : CallGraphNode}
    (h : node ∈ (((g.pushEdge edge).modifyNode parent
      (CallGraphNode.addChild functionName)).modifyNode functionName
        (CallGraphNode.addParent parent)).nodes) :
    ∃ before ∈ g.nodes, before.functionName = node.functionName ∧
      ∀ v ∈ node.children, v ∈ before.children ∨
        v = functionName ∧ before.functionName = parent := by
  obtain ⟨middle, hmiddle, rfl⟩ := List.mem_map.mp h
  obtain ⟨before, hbefore, rfl⟩ := List.mem_map.mp hmiddle
  refine ⟨before, hbefore, ?_, ?_⟩
  · split <;> split <;> simp only [functionName_addChild, functionName_addParent]
  · intro v hv
    rw [apply_ite CallGraphNode.children, children_addParent, ite_self] at hv
    split at hv
    · rename_i hparent
      rcases mem_children_addChild hv with rfl | hold
      · exact .inr ⟨rfl, hparent⟩
      · exact .inl hold
    · exact .inl hv

theorem WellFormed.addEdge (h : g.WellFormed) {parent : String} (hmem : functionName ∈ g.names)
    (called : ℕ) (inc : String → ℚ) :
    (g.addEdge parent functionName called inc).WellFormed ∧
      (g.addEdge parent functionName called inc).names = g.names := by
  rw [CallGraphData.addEdge]
  split
  · exact ⟨h, rfl⟩
  · rename_i hnew
    have hnames : (((g.pushEdge ⟨parent, functionName, called, inc⟩).modifyNode parent
        (CallGraphNode.addChild functionName)).modifyNode functionName
          (CallGraphNode.addParent parent)).names = g.names := by
      rw [names_modifyNode (functionName_addParent parent),
        names_modifyNode (functionName_addChild functionName)]
      rfl
    refine ⟨⟨⟨?_, ?_⟩, ?_, ?_⟩, hnames⟩
    · intro v hv
      rw [hnames]
      exact h.rootNodes v hv
    · intro node hnode v hv
      obtain ⟨before, hbefore, -, hchildren⟩ := exists_of_mem_nodes_addEdge hnode
      rw [hnames]
      rcases hchildren v hv with hv | ⟨rfl, -⟩
      · exact h.children before hbefore v hv
      · exact hmem
    · rw [hnames]
      exact h.nodup
    · intro node hnode child hchild
      obtain ⟨before, hbefore, hname, hchildren⟩ := exists_of_mem_nodes_addEdge hnode
      have hedges : ∀ key edge, g.edges.lookup key = some edge →
          (g.pushEdge ⟨parent, functionName, called, inc⟩).edges.lookup key = some edge := by
        intro key edge hedge
        rw [CallGraphData.pushEdge, List.lookup_append, hedge]
        rfl
      rcases hchildren child hchild with hold | ⟨rfl, hparent⟩
      · obtain ⟨edge, hedge, hends⟩ := h.edge before hbefore child hold
        rw [hname] at hedge hends
        exact ⟨edge, hedges _ _ hedge, hends⟩
      · rw [← hname, hparent]
        refine ⟨⟨parent, child, called, inc⟩, ?_, rfl, rfl⟩
        change (g.edges ++ _).lookup _ = _
        rw [List.lookup_append, Option.not_isSome_iff_eq_none.mp hnew, Option.none_or]
        exact List.lookup_cons_self

theorem WellFormed.addCall (h : g.WellFormed) (parent : Option String) (called : ℕ)
    (inc : String → ℚ) : (g.addCall parent functionName called inc).WellFormed := by
  obtain ⟨hnode, -, hmem⟩ := @WellFormed.addNode g functionName h inc
  cases parent with
  | none => exact (hnode.addRoot hmem).1
  | some parent => exact (hnode.addEdge hmem called inc).1

mutual

/-- **The traversal** keeps the graph well formed. -/
theorem WellFormed.traverseAndBuildGraph {g : CallGraphData} (h : g.WellFormed)
    (parent : Option String) :
    (tree : CallTreeStatsNode) → (g.traverseAndBuildGraph parent tree).WellFormed
  | .mk none called inc children => by
    rw [CallGraphData.traverseAndBuildGraph]
    exact h.traverseChildren none children
  | .mk (some functionName) called inc children => by
    rw [CallGraphData.traverseAndBuildGraph]
    exact (h.addCall parent called inc).traverseChildren (some functionName) children

theorem WellFormed.traverseChildren {g : CallGraphData} (h : g.WellFormed)
    (parent : Option String) :
    (children : List CallTreeStatsNode) → (g.traverseChildren parent children).WellFormed
  | [] => by
    rw [CallGraphData.traverseChildren]
    exact h
  | child :: children => by
    rw [CallGraphData.traverseChildren]
    exact (h.traverseAndBuildGraph parent child).traverseChildren parent children

end

/-- **Every graph that is built** is well formed. -/
theorem wellFormed_build (root : CallTreeStatsNode) : (build root).WellFormed :=
  wellFormed_empty.traverseAndBuildGraph none root

end WellFormed

end CallGraphData

end PhpSpx.WebUi
