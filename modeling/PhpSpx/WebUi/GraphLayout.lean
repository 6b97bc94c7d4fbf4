import Mathlib.Data.List.Forall2
import PhpSpx.WebUi.FlameGraph
import PhpSpx.WebUi.GraphOfCalls
import PhpSpx.WebUi.Layers

/-!
# The layout of the call graph

`SugiyamaLayout.compute` of `layouts.js`: after the layers are assigned, their nodes are sorted some
times by where their neighbors are in the next layer, and placed in rows.

* `CallGraphData.sortLayerByBarycenter`, `CallGraphData.minimizeCrossings` — the sorting.
* `LayoutParameters.assignCoordinates`, `CallGraphData.getDimensions` — the places.
* `exists_layers` — the layers of any graph, with cycles or without.
* `minimizeLoop_perm` — the sorting keeps the nodes of each layer.
* `mem_rowsFrom` — where a node is.
* `exists_laidOut` — the layout of any graph.
* `call_graph_layout` — no node is twice, none is on another one, and lower layers are lower.
-/

namespace PhpSpx.WebUi

open Lib

/-! ## Sorting -/

namespace CallGraphData

/-- The barycenter of a node.  The nodes of a layer are distinct. -/
def barycenter (g : CallGraphData) (layer neighborLayer : List String) (useParents : Bool)
    (node : String) : ℚ :=
  let neighbors := if useParents then g.parents node else g.children node
  let relevantNeighbors := neighbors.filter (· ∈ neighborLayer)
  if relevantNeighbors.length = 0 then layer.idxOf node
  else (relevantNeighbors.map fun n => (neighborLayer.idxOf n : ℚ)).sum / relevantNeighbors.length

/-- `SugiyamaLayout.sortLayerByBarycenter`: the layer sorted, and whether the order changed. -/
def sortLayerByBarycenter (g : CallGraphData) (layer neighborLayer : List String)
    (useParents : Bool) : List String × Bool :=
  let barycenters := g.barycenter layer neighborLayer useParents
  let sorted := layer.mergeSort fun a b => barycenters a ≤ barycenters b
  (sorted, sorted ≠ layer)

/-- The forward pass below a layer. -/
def forwardPass (g : CallGraphData) (above : List String) :
    List (List String) → List (List String) × Bool
  | [] => ([], false)
  | layer :: layers =>
    let (sorted, changed) := g.sortLayerByBarycenter layer above true
    let (rest, improved) := g.forwardPass sorted layers
    (sorted :: rest, changed || improved)

/-- The backward pass. -/
def backwardPass (g : CallGraphData) : List (List String) → List (List String) × Bool
  | [] => ([], false)
  | layer :: layers =>
    let (rest, improved) := g.backwardPass layers
    match rest with
    | [] => ([layer], improved)
    | below :: _ =>
      let (sorted, changed) := g.sortLayerByBarycenter layer below false
      (sorted :: rest, changed || improved)

/-- An iteration of `minimizeCrossings`, and whether it improved anything. -/
def minimizeStep (g : CallGraphData) (layers : List (List String)) : List (List String) × Bool :=
  let (forward, improved) :=
    match layers with
    | [] => ([], false)
    | first :: rest =>
      let (rest, improved) := g.forwardPass first rest
      (first :: rest, improved)
  let (backward, improved') := g.backwardPass forward
  (backward, improved || improved')

/-- The loop of `minimizeCrossings`. -/
def minimizeLoop (g : CallGraphData) : ℕ → List (List String) → List (List String)
  | 0, layers => layers
  | n + 1, layers =>
    let (layers, improved) := g.minimizeStep layers
    if improved then g.minimizeLoop n layers else layers

/-- `SugiyamaLayout.minimizeCrossings`. -/
def minimizeCrossings (g : CallGraphData) (layers : List (List String)) : List (List String) :=
  g.minimizeLoop 10 layers

end CallGraphData

/-! ## Places -/

/-- The parameters of `SugiyamaLayout`. -/
structure LayoutParameters where
  nodeWidth : ℚ
  nodeHeight : ℚ
  horizontalSpacing : ℚ
  verticalSpacing : ℚ
  viewportWidth : ℚ
  nodeWidth_pos : 0 < nodeWidth
  nodeHeight_pos : 0 < nodeHeight
  horizontalSpacing_pos : 0 < horizontalSpacing
  verticalSpacing_pos : 0 < verticalSpacing

/-- The parameters of `CallGraphView`. -/
def callGraphViewParameters (viewPort : ViewPort) : LayoutParameters where
  nodeWidth := 150
  nodeHeight := 40
  horizontalSpacing := 30
  verticalSpacing := 80
  viewportWidth := orDefault (some viewPort.width) 1000
  nodeWidth_pos := by norm_num
  nodeHeight_pos := by norm_num
  horizontalSpacing_pos := by norm_num
  verticalSpacing_pos := by norm_num

/-- The `layout` of a node. -/
structure NodeLayout where
  x : ℚ
  y : ℚ
  width : ℚ
  height : ℚ

namespace LayoutParameters

/-- From a node to the next one of its row. -/
def stepX (p : LayoutParameters) : ℚ := p.nodeWidth + p.horizontalSpacing

/-- From a row to the next one. -/
def stepY (p : LayoutParameters) : ℚ := p.nodeHeight + p.verticalSpacing

theorem stepX_pos (p : LayoutParameters) : 0 < p.stepX :=
  add_pos p.nodeWidth_pos p.horizontalSpacing_pos

theorem stepY_pos (p : LayoutParameters) : 0 < p.stepY :=
  add_pos p.nodeHeight_pos p.verticalSpacing_pos

/-- The start of a row. -/
def startX (p : LayoutParameters) (layer : List String) : ℚ :=
  let layerWidth := layer.length * p.stepX - p.horizontalSpacing
  max p.horizontalSpacing ((p.viewportWidth - layerWidth) / 2)

/-- The places of a row, from a place on. -/
def rowFrom (p : LayoutParameters) (y : ℚ) : ℚ → List String → List (String × NodeLayout)
  | _, [] => []
  | x, node :: layer => (node, ⟨x, y, p.nodeWidth, p.nodeHeight⟩) :: p.rowFrom y (x + p.stepX) layer

/-- The places of the rows, from a height on. -/
def rowsFrom (p : LayoutParameters) : ℚ → List (List String) → List (String × NodeLayout)
  | _, [] => []
  | y, layer :: layers =>
    if layer.length = 0 then p.rowsFrom y layers
    else p.rowFrom y (p.startX layer) layer ++ p.rowsFrom (y + p.stepY) layers

/-- `SugiyamaLayout.assignCoordinates`. -/
def assignCoordinates (p : LayoutParameters) (layers : List (List String)) :
    List (String × NodeLayout) :=
  p.rowsFrom (p.verticalSpacing / 2) layers

end LayoutParameters

/-- The `layout` of the nodes after some assignments. -/
def layoutOf (assigned : List (String × NodeLayout)) : String → NodeLayout :=
  assigned.foldl (fun layout entry => Function.update layout entry.1 entry.2) fun _ => ⟨0, 0, 0, 0⟩

/-- What `SugiyamaLayout.compute` computes. -/
structure GraphLayout where
  layers : List (List String)
  layout : String → NodeLayout

namespace CallGraphData

/-- `SugiyamaLayout.compute`. -/
def computeLayout (g : CallGraphData) (p : LayoutParameters) (fuel : ℕ) : Option GraphLayout := do
  let assigned ← g.assignLayers fuel
  let layers := g.minimizeCrossings assigned.layers
  some ⟨layers, layoutOf (p.assignCoordinates layers)⟩

/-- The loop of `getDimensions`, for one dimension. -/
def maxEnd (g : CallGraphData) (nodeEnd : String → ℚ) : ℚ :=
  g.names.foldl (fun maxEnd node => max maxEnd (nodeEnd node)) 0

/-- `SugiyamaLayout.getDimensions`. -/
def getDimensions (g : CallGraphData) (p : LayoutParameters) (layout : String → NodeLayout) :
    ViewPort where
  width := g.maxEnd (fun node => (layout node).x + (layout node).width) + p.horizontalSpacing
  height := g.maxEnd (fun node => (layout node).y + (layout node).height) + p.verticalSpacing

/-! ## The search of any graph -/

/-- A node that some path leads to from a root. -/
def Reached (g : CallGraphData) (v : String) : Prop :=
  ∃ root ∈ g.rootNodes, Relation.ReflTransGen g.Child root v

end CallGraphData

/-- The layers are those of the nodes visited, each of which has one. -/
structure LayerState.Keyed (s : LayerState) : Prop where
  mem_keys : ∀ v, v ∈ s.layerMap.map Prod.fst ↔ v ∈ s.visited
  nodup : (s.layerMap.map Prod.fst).Nodup

/-- What a search adds: nodes that are reached, each with all its children. -/
structure LayerState.Searches (g : CallGraphData) (s s' : LayerState) : Prop where
  keyed : s'.Keyed
  visited : s.visited ⊆ s'.visited
  reached : ∀ v ∈ s'.visited, v ∈ s.visited ∨ g.Reached v
  children : ∀ v ∈ s'.visited, v ∈ s.visited ∨ ∀ child, g.Child v child → child ∈ s'.visited

section Search

variable {g : CallGraphData} {s s' s'' : LayerState} {v : String} {fuel : ℕ}

theorem LayerState.Keyed.enter (h : s.Keyed) (hv : v ∉ s.visited) (layer : ℕ) :
    (s.enter v layer).Keyed where
  mem_keys w := by
    rw [keys_enter, List.mem_append, List.mem_singleton, h.mem_keys]
    exact or_comm.trans List.mem_cons.symm
  nodup := by
    rw [keys_enter]
    apply List.Nodup.append h.nodup (List.nodup_singleton v)
    exact List.disjoint_singleton.mpr fun hmem => hv ((h.mem_keys v).mp hmem)

theorem LayerState.Keyed.meet (h : s.Keyed) (v : String) (layer : ℕ) : (s.meet v layer).Keyed where
  mem_keys w := by
    rw [keys_meet, visited_meet]
    exact h.mem_keys w
  nodup := by
    rw [keys_meet]
    exact h.nodup

theorem LayerState.Searches.refl (h : s.Keyed) : s.Searches g s where
  keyed := h
  visited := List.Subset.refl _
  reached _ := .inl
  children _ := .inl

theorem LayerState.Searches.trans (h : s.Searches g s') (h' : s'.Searches g s'') :
    s.Searches g s'' where
  keyed := h'.keyed
  visited := List.Subset.trans h.visited h'.visited
  reached v hv := (h'.reached v hv).elim (h.reached v) .inr
  children v hv := by
    rcases h'.children v hv with hold | hnew
    · refine (h.children v hold).imp_right fun hchildren child hchild => ?_
      exact h'.visited (hchildren child hchild)
    · exact .inr hnew

theorem CallGraphData.Reached.child {u : String} (h : g.Reached u) (hchild : g.Child u v) :
    g.Reached v := by
  obtain ⟨root, hroot, hpath⟩ := h
  exact ⟨root, hroot, hpath.tail hchild⟩

/-- **The search from a node**, whether it was visited or not. -/
theorem exists_assignLayer_searches (hclosed : g.Closed) (hv : v ∈ g.names) (hreached : g.Reached v)
    (hs : s.Keyed) (hfuel : unvisited g.names s.visited < fuel) (layer : ℕ) :
    ∃ s', g.assignLayer fuel v layer s = some s' ∧ s.Searches g s' ∧ v ∈ s'.visited := by
  induction fuel generalizing v s layer with
  | zero => exact absurd hfuel (Nat.not_lt_zero _)
  | succ fuel ih =>
    rw [CallGraphData.assignLayer]
    by_cases hvisited : v ∈ s.visited
    · rw [if_pos hvisited]
      have hsame := visited_meet s v layer
      refine ⟨_, rfl, ⟨hs.meet v layer, ?_, ?_, ?_⟩, hsame ▸ hvisited⟩
      · exact hsame ▸ List.Subset.refl _
      · exact fun w hw => .inl (hsame ▸ hw)
      · exact fun w hw => .inl (hsame ▸ hw)
    · rw [if_neg hvisited]
      have hless := unvisited_cons_lt hv hvisited
      have hstep : ∀ done child todo (s₁ : LayerState), g.children v = done ++ child :: todo →
          (s.enter v layer).Searches g s₁ ∧ done ⊆ s₁.visited →
          ∃ s₂, g.assignLayer fuel child (layer + 1) s₁ = some s₂ ∧
            (s.enter v layer).Searches g s₂ ∧ done ++ [child] ⊆ s₂.visited := by
        rintro done child todo s₁ hchildren ⟨hsearch, hdone⟩
        have hchild : g.Child v child := by
          rw [CallGraphData.Child, hchildren]
          exact List.mem_append_right _ List.mem_cons_self
        have hmono := @unvisited_mono _ _ g.names _ _ hsearch.visited
        have hentered : (s.enter v layer).visited = v :: s.visited := rfl
        rw [hentered] at hmono
        obtain ⟨s₂, hs₂, hnext, hmem⟩ := ih (hclosed.mem_names_of_child hchild)
          (hreached.child hchild) hsearch.keyed (by omega) (layer + 1)
        refine ⟨s₂, hs₂, hsearch.trans hnext, ?_⟩
        exact List.append_subset.mpr ⟨List.Subset.trans hdone hnext.visited, by simpa using hmem⟩
      obtain ⟨s', hs', hsearch, hchildren⟩ := exists_foldlM_eq_some hstep
        ⟨.refl (hs.enter hvisited layer), List.nil_subset _⟩
      have hmem : v ∈ s'.visited := hsearch.visited List.mem_cons_self
      refine ⟨s', hs', ⟨hsearch.keyed, ?_, ?_, ?_⟩, hmem⟩
      · exact List.Subset.trans (List.subset_cons_self v _) hsearch.visited
      · intro w hw
        rcases hsearch.reached w hw with hold | hnew
        · rcases List.mem_cons.mp hold with rfl | hold
          · exact .inr hreached
          · exact .inl hold
        · exact .inr hnew
      · intro w hw
        rcases hsearch.children w hw with hold | hnew
        · rcases List.mem_cons.mp hold with rfl | hold
          · exact .inr fun child hchild => hchildren hchild
          · exact .inl hold
        · exact .inr hnew

/-- **The layers of any graph**, with cycles or without: each node that is reached is in one of
them. -/
theorem exists_layers (hclosed : g.Closed) (hfuel : g.nodes.length < fuel) :
    ∃ assigned, g.assignLayers fuel = some assigned ∧ assigned.layers.flatten.Nodup ∧
      ∀ v, v ∈ assigned.layers.flatten ↔ g.Reached v := by
  have hempty : LayerState.empty.Keyed := ⟨fun _ => Iff.rfl, List.nodup_nil⟩
  have hlength : g.names.length = g.nodes.length := List.length_map _
  have hstep : ∀ done root todo (s₁ : LayerState), g.rootNodes = done ++ root :: todo →
      LayerState.empty.Searches g s₁ ∧ done ⊆ s₁.visited →
      ∃ s₂, g.assignLayer fuel root 0 s₁ = some s₂ ∧
        LayerState.empty.Searches g s₂ ∧ done ++ [root] ⊆ s₂.visited := by
    rintro done root todo s₁ hroots ⟨hsearch, hdone⟩
    have hroot : root ∈ g.rootNodes := by
      rw [hroots]
      exact List.mem_append_right _ List.mem_cons_self
    have hleft := unvisited_le_length g.names s₁.visited
    obtain ⟨s₂, hs₂, hnext, hmem⟩ := exists_assignLayer_searches hclosed
      (hclosed.rootNodes root hroot) ⟨root, hroot, .refl⟩ hsearch.keyed
      ((hleft.trans_eq hlength).trans_lt hfuel) 0
    refine ⟨s₂, hs₂, hsearch.trans hnext, ?_⟩
    exact List.append_subset.mpr ⟨List.Subset.trans hdone hnext.visited, by simpa using hmem⟩
  obtain ⟨s, hs, hsearch, hroots⟩ := exists_foldlM_eq_some hstep ⟨.refl hempty, List.nil_subset _⟩
  refine ⟨.ofMap s.layerMap, ?_, nodup_flatten_ofMap hsearch.keyed.nodup, ?_⟩
  · rw [CallGraphData.assignLayers, hs]
    rfl
  intro v
  have hvisited : v ∈ (Layers.ofMap s.layerMap).layers.flatten ↔ v ∈ s.visited := by
    rw [mem_flatten_iff, ← hsearch.keyed.mem_keys, List.mem_map]
    constructor
    · rintro ⟨n, hn⟩
      exact ⟨(v, n), inLayer_ofMap.mp hn, rfl⟩
    · rintro ⟨⟨w, n⟩, hentry, rfl⟩
      exact ⟨n, inLayer_ofMap.mpr hentry⟩
  rw [hvisited]
  clear hvisited
  constructor
  · intro hv
    exact (hsearch.reached v hv).resolve_left List.not_mem_nil
  · rintro ⟨root, hroot, hpath⟩
    -- all children of a node visited are visited
    induction hpath with
    | refl => exact hroots hroot
    | tail _ hchild ih =>
      exact (hsearch.children _ ih).resolve_left List.not_mem_nil _ hchild

end Search

/-! ## The sorting keeps the layers -/

section Sorting

variable {g : CallGraphData}

theorem sortLayerByBarycenter_perm (layer neighborLayer : List String) (useParents : Bool) :
    layer.Perm (g.sortLayerByBarycenter layer neighborLayer useParents).1 :=
  (List.mergeSort_perm _ _).symm

theorem forwardPass_perm (above : List String) (layers : List (List String)) :
    layers.Forall₂ List.Perm (g.forwardPass above layers).1 := by
  induction layers generalizing above with
  | nil => exact .nil
  | cons layer layers ih => exact .cons (sortLayerByBarycenter_perm _ _ _) (ih _)

theorem backwardPass_perm (layers : List (List String)) :
    layers.Forall₂ List.Perm (g.backwardPass layers).1 := by
  induction layers with
  | nil => exact .nil
  | cons layer layers ih =>
    rw [CallGraphData.backwardPass]
    dsimp only
    split
    · rename_i hrest
      rw [hrest] at ih
      cases ih
      exact .cons (.refl _) .nil
    · rename_i below rest hrest
      exact .cons (sortLayerByBarycenter_perm _ _ _) (hrest ▸ ih)

theorem forall₂_perm_trans {a b c : List (List String)} (h : a.Forall₂ List.Perm b)
    (h' : b.Forall₂ List.Perm c) : a.Forall₂ List.Perm c := by
  induction h generalizing c with
  | nil => exact h'
  | cons hhead _ ih =>
    cases h' with
    | cons hhead' htail' => exact .cons (hhead.trans hhead') (ih htail')

theorem forall₂_perm_refl (layers : List (List String)) : layers.Forall₂ List.Perm layers :=
  List.forall₂_same.mpr fun _ _ => .refl _

theorem minimizeStep_perm (layers : List (List String)) :
    layers.Forall₂ List.Perm (g.minimizeStep layers).1 := by
  cases layers with
  | nil => exact .nil
  | cons first rest =>
    have hforward : (first :: rest).Forall₂ List.Perm (first :: (g.forwardPass first rest).1) :=
      .cons (.refl _) (forwardPass_perm first rest)
    exact forall₂_perm_trans hforward (backwardPass_perm _)

/-- **Minimizing the crossings** sorts each layer. -/
theorem minimizeLoop_perm (n : ℕ) (layers : List (List String)) :
    layers.Forall₂ List.Perm (g.minimizeLoop n layers) := by
  induction n generalizing layers with
  | zero => exact forall₂_perm_refl layers
  | succ n ih =>
    rw [CallGraphData.minimizeLoop]
    dsimp only
    split
    · exact forall₂_perm_trans (minimizeStep_perm layers) (ih _)
    · exact minimizeStep_perm layers

end Sorting

/-! ## Where the nodes are -/

/-- The place of the node of an index in a row of some height. -/
def LayoutParameters.placeAt (p : LayoutParameters) (x y : ℚ) (i : ℕ) : NodeLayout where
  x := x + i * p.stepX
  y := y
  width := p.nodeWidth
  height := p.nodeHeight

/-- The height of a layer: the layers without nodes take no row. -/
def LayoutParameters.layerY (p : LayoutParameters) (layers : List (List String)) (n : ℕ) : ℚ :=
  ((layers.take n).countP fun layer => layer.length ≠ 0) * p.stepY

section Places

variable {p : LayoutParameters} {v : String} {place : NodeLayout}

theorem mem_rowFrom {y x : ℚ} {layer : List String} :
    (v, place) ∈ p.rowFrom y x layer ↔ ∃ i, layer[i]? = some v ∧ place = p.placeAt x y i := by
  induction layer generalizing x with
  | nil => simp [LayoutParameters.rowFrom]
  | cons node layer ih =>
    rw [LayoutParameters.rowFrom, List.mem_cons, ih, Prod.mk.injEq]
    have hnext : ∀ i : ℕ, p.placeAt (x + p.stepX) y i = p.placeAt x y (i + 1) := by
      intro i
      simp only [LayoutParameters.placeAt, Nat.cast_add, Nat.cast_one, NodeLayout.mk.injEq, and_true]
      ring
    have hfirst : p.placeAt x y 0 = ⟨x, y, p.nodeWidth, p.nodeHeight⟩ := by
      simp [LayoutParameters.placeAt]
    constructor
    · rintro (⟨rfl, rfl⟩ | ⟨i, hi, rfl⟩)
      · exact ⟨0, rfl, hfirst.symm⟩
      · exact ⟨i + 1, hi, hnext i⟩
    · rintro ⟨i, hi, rfl⟩
      cases i with
      | zero =>
        cases hi
        exact .inl ⟨rfl, hfirst⟩
      | succ i => exact .inr ⟨i, hi, (hnext i).symm⟩

/-- **Where a node is**: in the row of its layer. -/
theorem mem_rowsFrom {y : ℚ} {layers : List (List String)} :
    (v, place) ∈ p.rowsFrom y layers ↔ ∃ n layer, layers[n]? = some layer ∧
      ∃ i, layer[i]? = some v ∧ place = p.placeAt (p.startX layer) (y + p.layerY layers n) i := by
  induction layers generalizing y with
  | nil => simp [LayoutParameters.rowsFrom]
  | cons first layers ih =>
    have hzero : p.layerY (first :: layers) 0 = 0 := by simp [LayoutParameters.layerY]
    rw [LayoutParameters.rowsFrom]
    split
    · rename_i hempty
      have hnext : ∀ n, p.layerY (first :: layers) (n + 1) = p.layerY layers n := by
        intro n
        rw [LayoutParameters.layerY, LayoutParameters.layerY, List.take_succ_cons,
          List.countP_cons_of_neg (by simp [hempty])]
      rw [ih]
      constructor
      · rintro ⟨n, layer, hlayer, i, hi, rfl⟩
        exact ⟨n + 1, layer, hlayer, i, hi, by rw [hnext]⟩
      · rintro ⟨n, layer, hlayer, i, hi, rfl⟩
        cases n with
        | zero =>
          cases hlayer
          rw [List.length_eq_zero_iff] at hempty
          simp [hempty] at hi
        | succ n => exact ⟨n, layer, hlayer, i, hi, by rw [hnext]⟩
    · rename_i hne
      have hnext : ∀ n, y + p.layerY (first :: layers) (n + 1) =
          y + p.stepY + p.layerY layers n := by
        intro n
        simp only [LayoutParameters.layerY, List.take_succ_cons, List.countP_cons, ne_eq, hne,
          not_false_eq_true, decide_true, if_true, Nat.cast_add, Nat.cast_one]
        ring
      rw [List.mem_append, mem_rowFrom, ih]
      constructor
      · rintro (⟨i, hi, rfl⟩ | ⟨n, layer, hlayer, i, hi, rfl⟩)
        · exact ⟨0, first, rfl, i, hi, by rw [hzero, add_zero]⟩
        · exact ⟨n + 1, layer, hlayer, i, hi, by rw [hnext]⟩
      · rintro ⟨n, layer, hlayer, i, hi, rfl⟩
        cases n with
        | zero =>
          cases hlayer
          exact .inl ⟨i, hi, by rw [hzero, add_zero]⟩
        | succ n => exact .inr ⟨n, layer, hlayer, i, hi, by rw [hnext]⟩

end Places

/-! ## The layout -/

section Layout

variable {p : LayoutParameters} {v : String} {place : NodeLayout}

theorem keys_rowFrom (y x : ℚ) (layer : List String) :
    (p.rowFrom y x layer).map Prod.fst = layer := by
  induction layer generalizing x with
  | nil => rfl
  | cons node layer ih => rw [LayoutParameters.rowFrom, List.map_cons, ih]

theorem keys_rowsFrom (y : ℚ) (layers : List (List String)) :
    (p.rowsFrom y layers).map Prod.fst = layers.flatten := by
  induction layers generalizing y with
  | nil => rfl
  | cons first layers ih =>
    rw [LayoutParameters.rowsFrom, List.flatten_cons]
    split
    · rename_i hempty
      rw [ih, List.length_eq_zero_iff.mp hempty, List.nil_append]
    · rw [List.map_append, keys_rowFrom, ih]

/-- The assignments leave other nodes as they are. -/
theorem foldl_update_of_notMem {assigned : List (String × NodeLayout)}
    (hv : v ∉ assigned.map Prod.fst) (layout : String → NodeLayout) :
    assigned.foldl (fun layout entry => Function.update layout entry.1 entry.2) layout v =
      layout v := by
  induction assigned generalizing layout with
  | nil => rfl
  | cons entry assigned ih =>
    obtain ⟨hne, hrest⟩ := not_or.mp (List.mem_cons.not.mp hv)
    rw [List.foldl_cons, ih hrest, Function.update_of_ne hne]

theorem layoutOf_eq {assigned : List (String × NodeLayout)}
    (hnodup : (assigned.map Prod.fst).Nodup) (hmem : (v, place) ∈ assigned) :
    layoutOf assigned v = place := by
  rw [layoutOf]
  generalize (fun _ : String => (⟨0, 0, 0, 0⟩ : NodeLayout)) = layout
  induction assigned generalizing layout with
  | nil => exact absurd hmem List.not_mem_nil
  | cons entry assigned ih =>
    obtain ⟨hnew, hrest⟩ := List.nodup_cons.mp hnodup
    rw [List.foldl_cons]
    rcases List.mem_cons.mp hmem with rfl | hmem
    · rw [foldl_update_of_notMem hnew, Function.update_self]
    · exact ih hrest hmem _

/-- A place in the rows of a layout. -/
theorem layoutOf_assignCoordinates {layers : List (List String)} (hnodup : layers.flatten.Nodup)
    {n i : ℕ} {layer : List String} (hlayer : layers[n]? = some layer) (hi : layer[i]? = some v) :
    layoutOf (p.assignCoordinates layers) v =
      p.placeAt (p.startX layer) (p.verticalSpacing / 2 + p.layerY layers n) i := by
  apply layoutOf_eq
  · rwa [LayoutParameters.assignCoordinates, keys_rowsFrom]
  · exact mem_rowsFrom.mpr ⟨n, layer, hlayer, i, hi, rfl⟩

theorem layerY_nonneg (p : LayoutParameters) (layers : List (List String)) (n : ℕ) :
    0 ≤ p.layerY layers n :=
  mul_nonneg (Nat.cast_nonneg _) p.stepY_pos.le

/-- A layer of which a node is known has its row above that of the next layers. -/
theorem layerY_add_le {layers : List (List String)} {m n : ℕ} {layer : List String} (hmn : m < n)
    (hlayer : layers[m]? = some layer) (hne : layer ≠ []) :
    p.layerY layers m + p.stepY ≤ p.layerY layers n := by
  have hcount : (layers.take (m + 1)).countP (fun layer => layer.length ≠ 0) =
      (layers.take m).countP (fun layer => layer.length ≠ 0) + 1 := by
    rw [List.take_add_one, hlayer, Option.toList_some, List.countP_append,
      List.countP_singleton, if_pos (by simpa using hne)]
  have hmono : (layers.take (m + 1)).countP (fun layer => layer.length ≠ 0) ≤
      (layers.take n).countP (fun layer => layer.length ≠ 0) :=
    (List.take_sublist_take_left (Nat.succ_le_of_lt hmn)).countP_le
  rw [LayoutParameters.layerY, LayoutParameters.layerY, ← add_one_mul]
  apply mul_le_mul_of_nonneg_right _ p.stepY_pos.le
  exact_mod_cast hcount ▸ hmono

theorem le_maxEnd {g : CallGraphData} {nodeEnd : String → ℚ} (hv : v ∈ g.names) :
    nodeEnd v ≤ g.maxEnd nodeEnd := by
  have hmax : ∀ (names : List String) (a : ℚ),
      a ≤ names.foldl (fun maxEnd node => max maxEnd (nodeEnd node)) a ∧
        ∀ v ∈ names, nodeEnd v ≤ names.foldl (fun maxEnd node => max maxEnd (nodeEnd node)) a := by
    intro names
    induction names with
    | nil => exact fun a => ⟨le_rfl, by simp⟩
    | cons name names ih =>
      intro a
      obtain ⟨hle, hall⟩ := ih (max a (nodeEnd name))
      rw [List.foldl_cons, List.forall_mem_cons]
      exact ⟨(le_max_left _ _).trans hle, (le_max_right _ _).trans hle, hall⟩
  exact (hmax g.names 0).2 v hv

end Layout

/-- **A graph laid out**: the nodes that are reached have the size of nodes and are in the rows of
their layers, within the dimensions, and no node is on another one. -/
structure LaidOut (g : CallGraphData) (p : LayoutParameters) (assigned : Layers)
    (result : GraphLayout) : Prop where
  layers : assigned.layers.Forall₂ List.Perm result.layers
  nodup : result.layers.flatten.Nodup
  mem_iff : ∀ v, v ∈ result.layers.flatten ↔ g.Reached v
  size : ∀ v, g.Reached v →
    (result.layout v).width = p.nodeWidth ∧ (result.layout v).height = p.nodeHeight
  row : ∀ u v n, assigned.InLayer u n → assigned.InLayer v n → u ≠ v →
    (result.layout u).y = (result.layout v).y ∧
      ((result.layout u).x + p.stepX ≤ (result.layout v).x ∨
        (result.layout v).x + p.stepX ≤ (result.layout u).x)
  below : ∀ u v m n, m < n → assigned.InLayer u m → assigned.InLayer v n →
    (result.layout u).y + p.stepY ≤ (result.layout v).y
  within : ∀ v, g.Reached v →
    let dimensions := g.getDimensions p result.layout
    p.horizontalSpacing ≤ (result.layout v).x ∧ p.verticalSpacing / 2 ≤ (result.layout v).y ∧
      (result.layout v).x + p.stepX ≤ dimensions.width ∧
      (result.layout v).y + p.stepY ≤ dimensions.height

section LaidOut

variable {g : CallGraphData} {p : LayoutParameters} {fuel : ℕ}

/-- A sorted layer has the nodes of the layer. -/
theorem inLayer_of_forall₂ {layers layers' : List (List String)}
    (h : layers.Forall₂ List.Perm layers') {v : String} {n : ℕ} {layer : List String}
    (hlayer : layers[n]? = some layer) (hv : v ∈ layer) :
    ∃ (layer' : List String) (i : ℕ), layers'[n]? = some layer' ∧ layer'[i]? = some v := by
  induction h generalizing n with
  | nil => simp at hlayer
  | cons hhead _ ih =>
    cases n with
    | zero =>
      cases hlayer
      obtain ⟨i, hi⟩ := List.mem_iff_getElem?.mp (hhead.subset hv)
      exact ⟨_, i, rfl, hi⟩
    | succ n => exact ih hlayer

/-- **Any graph** whose children are nodes is laid out. -/
theorem exists_laidOut (hclosed : g.Closed) (hfuel : g.nodes.length < fuel) :
    ∃ assigned result, g.assignLayers fuel = some assigned ∧
      g.computeLayout p fuel = some result ∧ LaidOut g p assigned result := by
  obtain ⟨assigned, hassigned, hnodup, hmem⟩ := exists_layers hclosed hfuel
  set layers := g.minimizeCrossings assigned.layers with hlayers
  have hsorted : assigned.layers.Forall₂ List.Perm layers := minimizeLoop_perm 10 _
  have hflatten : assigned.layers.flatten.Perm layers.flatten := List.Perm.flatten_congr hsorted
  have hnodup' : layers.flatten.Nodup := hflatten.nodup_iff.mp hnodup
  -- where a node of a layer is
  have hplace : ∀ v n, assigned.InLayer v n → ∃ (layer : List String) (i : ℕ),
      layers[n]? = some layer ∧ layer[i]? = some v ∧ layoutOf (p.assignCoordinates layers) v =
        p.placeAt (p.startX layer) (p.verticalSpacing / 2 + p.layerY layers n) i := by
    rintro v n ⟨layer, hlayer, hv⟩
    obtain ⟨layer', i, hlayer', hi⟩ := inLayer_of_forall₂ hsorted hlayer hv
    exact ⟨layer', i, hlayer', hi, layoutOf_assignCoordinates hnodup' hlayer' hi⟩
  have hreached : ∀ v, g.Reached v → v ∈ g.names ∧ ∃ n, assigned.InLayer v n := by
    intro v hv
    refine ⟨?_, mem_flatten_iff.mp ((hmem v).mpr hv)⟩
    obtain ⟨root, hroot, hpath⟩ := hv
    rcases Relation.ReflTransGen.cases_tail hpath with rfl | ⟨u, -, hchild⟩
    · exact hclosed.rootNodes _ hroot
    · exact hclosed.mem_names_of_child hchild
  have hstart : ∀ layer, p.horizontalSpacing ≤ p.startX layer := fun layer => le_max_left _ _
  refine ⟨assigned, ⟨layers, layoutOf (p.assignCoordinates layers)⟩, hassigned, ?_, ?_⟩
  · rw [CallGraphData.computeLayout, hassigned]
    rfl
  refine ⟨hsorted, hnodup', fun v => hflatten.mem_iff.symm.trans (hmem v), ?_, ?_, ?_, ?_⟩
  · intro v hv
    obtain ⟨-, n, hn⟩ := hreached v hv
    obtain ⟨layer, i, -, -, hlayout⟩ := hplace v n hn
    dsimp only
    rw [hlayout]
    exact ⟨rfl, rfl⟩
  · intro u v n hu hv hne
    obtain ⟨layer, i, hlayer, hi, hlayout⟩ := hplace u n hu
    obtain ⟨layer', j, hlayer', hj, hlayout'⟩ := hplace v n hv
    obtain rfl : layer = layer' := Option.some.inj (hlayer.symm.trans hlayer')
    have hstep : ∀ a b : ℕ, a < b →
        p.startX layer + a * p.stepX + p.stepX ≤ p.startX layer + b * p.stepX := by
      intro a b hab
      have hle : ((a : ℚ) + 1) * p.stepX ≤ b * p.stepX :=
        mul_le_mul_of_nonneg_right (by exact_mod_cast hab) p.stepX_pos.le
      linarith
    dsimp only
    rw [hlayout, hlayout']
    refine ⟨rfl, ?_⟩
    rcases lt_trichotomy i j with hlt | rfl | hgt
    · exact .inl (hstep i j hlt)
    · exact absurd (Option.some.inj (hi.symm.trans hj)) hne
    · exact .inr (hstep j i hgt)
  · intro u v m n hmn hu hv
    obtain ⟨layer, i, hlayer, hi, hlayout⟩ := hplace u m hu
    obtain ⟨layer', j, -, -, hlayout'⟩ := hplace v n hv
    have hne : layer ≠ [] := by
      rintro rfl
      simp at hi
    have hle := @layerY_add_le p layers m n layer hmn hlayer hne
    dsimp only
    rw [hlayout, hlayout']
    dsimp only [LayoutParameters.placeAt]
    linarith
  · intro v hv
    obtain ⟨hname, n, hn⟩ := hreached v hv
    obtain ⟨layer, i, -, -, hlayout⟩ := hplace v n hn
    have hx := @le_maxEnd v g (fun node => (layoutOf (p.assignCoordinates layers) node).x +
      (layoutOf (p.assignCoordinates layers) node).width) hname
    have hy := @le_maxEnd v g (fun node => (layoutOf (p.assignCoordinates layers) node).y +
      (layoutOf (p.assignCoordinates layers) node).height) hname
    have hi : 0 ≤ (i : ℚ) * p.stepX := mul_nonneg (Nat.cast_nonneg i) p.stepX_pos.le
    have hn := layerY_nonneg p layers n
    have hleft := hstart layer
    simp only [hlayout, LayoutParameters.placeAt] at hx hy
    simp only [hlayout, LayoutParameters.placeAt, CallGraphData.getDimensions,
      LayoutParameters.stepX, LayoutParameters.stepY] at hi hx ⊢
    refine ⟨by linarith, by linarith, by linarith, by linarith⟩

end LaidOut

/-- **The layout of the call graph** of any call tree, whether functions call themselves or not: no
node is twice or on another one, each is in the row of its layer, lower layers are lower, and all
are within the dimensions.  All functions are laid out when no name has an arrow. -/
theorem call_graph_layout {metrics : EnabledMetrics} (stats : CallTreeStats metrics)
    (p : LayoutParameters) {fuel : ℕ} (hfuel : stats.graph.nodes.length < fuel) :
    ∃ assigned result, stats.graph.assignLayers fuel = some assigned ∧
      stats.graph.computeLayout p fuel = some result ∧ LaidOut stats.graph p assigned result ∧
      (∀ u v, stats.graph.Reached u → stats.graph.Reached v → u ≠ v →
        let a := result.layout u
        let b := result.layout v
        a.x + a.width < b.x ∨ b.x + b.width < a.x ∨ a.y + a.height < b.y ∨ b.y + b.height < a.y) ∧
      ((∀ name ∈ stats.graph.names, ArrowFree name) →
        ∀ v, v ∈ result.layers.flatten ↔ v ∈ stats.graph.names) := by
  have hclosed : stats.graph.Closed := (CallGraphData.wellFormed_build _).toClosed
  obtain ⟨assigned, result, hassigned, hresult, hlaid⟩ := @exists_laidOut _ p _ hclosed hfuel
  refine ⟨assigned, result, hassigned, hresult, hlaid, ?_, ?_⟩
  · intro u v hu hv hne
    have hin : ∀ w, stats.graph.Reached w → ∃ n, assigned.InLayer w n := fun w hw =>
      mem_flatten_iff.mp ((List.Perm.flatten_congr hlaid.layers).mem_iff.mpr ((hlaid.mem_iff w).mpr hw))
    obtain ⟨m, hm⟩ := hin u hu
    obtain ⟨n, hn⟩ := hin v hv
    obtain ⟨hwidth, hheight⟩ := hlaid.size u hu
    obtain ⟨hwidth', hheight'⟩ := hlaid.size v hv
    have hx : p.stepX = p.nodeWidth + p.horizontalSpacing := rfl
    have hy : p.stepY = p.nodeHeight + p.verticalSpacing := rfl
    have hhorizontal := p.horizontalSpacing_pos
    have hvertical := p.verticalSpacing_pos
    rcases lt_trichotomy m n with hlt | rfl | hgt
    · have := hlaid.below u v m n hlt hm hn
      exact .inr (.inr (.inl (by linarith)))
    · rcases (hlaid.row u v m hm hn hne).2 with hleft | hright
      · exact .inl (by linarith)
      · exact .inr (.inl (by linarith))
    · have := hlaid.below v u n m hgt hn hm
      exact .inr (.inr (.inr (by linarith)))
  · intro hfree v
    rw [hlaid.mem_iff]
    constructor
    · rintro ⟨root, hroot, hpath⟩
      rcases Relation.ReflTransGen.cases_tail hpath with rfl | ⟨u, -, hchild⟩
      · exact hclosed.rootNodes _ hroot
      · exact hclosed.mem_names_of_child hchild
    · exact fun hv => exists_root_graph hfree hv

/-- The layout of a function that calls itself. -/
theorem call_graph_layout_selfCalling :
    ∃ stats result, CallTreeStats.new wallTimeKey CallTreeStats.selfCalling
        [CallTreeStats.selfCalling.entry 0, CallTreeStats.selfCalling.entry 1] = some stats ∧
      stats.graph.computeLayout (callGraphViewParameters ⟨800, 600⟩)
        (stats.graph.nodes.length + 1) = some result ∧
      result.layers.flatten.Nodup := by
  obtain ⟨stats, hstats⟩ := Option.isSome_iff_exists.mp
    (show (CallTreeStats.new wallTimeKey CallTreeStats.selfCalling
      [CallTreeStats.selfCalling.entry 0, CallTreeStats.selfCalling.entry 1]).isSome = true
      by decide +kernel)
  obtain ⟨_, result, -, hresult, hlaid, -, -⟩ :=
    call_graph_layout stats (callGraphViewParameters ⟨800, 600⟩) (Nat.lt_succ_self _)
  exact ⟨stats, result, hstats, hresult, hlaid.nodup⟩

end PhpSpx.WebUi
