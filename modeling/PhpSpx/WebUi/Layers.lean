import PhpSpx.Lib.DepthFirst
import PhpSpx.WebUi.CallGraph

/-!
# The layers of the layout

`SugiyamaLayout.assignLayers` of `layouts.js`: a depth-first search gives each node the layer of
its parent plus one.  A node that is met again may get a greater layer, but the search does not go
on from it, so its descendants keep theirs.

* `assignLayer`, `assignLayers` — the search and the groups.
* `LayerState.At` — what the search has done up to a place.
* `layers_respect_edges_iff` — when the layers are those of the longest paths.
-/

namespace PhpSpx.WebUi

open Lib

/-- The variables `visited` and `layerMap` of `assignLayers`; the entries of the map are in the
order in which they were first set. -/
structure LayerState where
  visited : List String
  layerMap : List (String × ℕ)

/-- Before the search. -/
def LayerState.empty : LayerState where
  visited := []
  layerMap := []

/-- The layer of a node. -/
def LayerState.layer (s : LayerState) (node : String) : Option ℕ := s.layerMap.lookup node

/-- `layerMap.set(node, layer)` for a node that has a layer. -/
def LayerState.update (s : LayerState) (node : String) (layer : ℕ) : LayerState :=
  { s with
    layerMap := s.layerMap.map fun entry => if entry.1 = node then (node, layer) else entry }

/-- `assignLayer` for a node visited before.  Nothing is greater than `undefined`. -/
def LayerState.meet (s : LayerState) (node : String) (layer : ℕ) : LayerState :=
  match s.layer node with
  | none => s
  | some currentLayer => if layer > currentLayer then s.update node layer else s

/-- The first visit of a node. -/
def LayerState.enter (s : LayerState) (node : String) (layer : ℕ) : LayerState where
  visited := node :: s.visited
  layerMap := s.layerMap ++ [(node, layer)]

/-- The fields `layers` and `nodeToLayer` of `SugiyamaLayout`. -/
structure Layers where
  layers : List (List String)
  nodeToLayer : List (String × ℕ)

/-- `this.layers[layer].push(node)`. -/
def pushNode (layers : List (List String)) (entry : String × ℕ) : List (List String) :=
  layers.modify entry.2 (· ++ [entry.1])

/-- The groups of `assignLayers`.  No layer is made when there is no node. -/
def Layers.ofMap (layerMap : List (String × ℕ)) : Layers where
  layers :=
    match (layerMap.map Prod.snd).max? with
    | none => []
    | some maxLayer => layerMap.foldl pushNode (List.replicate (maxLayer + 1) [])
  nodeToLayer := layerMap

namespace CallGraphData

/-- `assignLayer`.  The fuel is the number of nested calls. -/
def assignLayer (g : CallGraphData) : ℕ → String → ℕ → LayerState → Option LayerState
  | 0, _, _, _ => none
  | fuel + 1, node, layer, s =>
    if node ∈ s.visited then some (s.meet node layer)
    else
      (g.children node).foldlM (fun s child => g.assignLayer fuel child (layer + 1) s)
        (s.enter node layer)

/-- `SugiyamaLayout.assignLayers`. -/
def assignLayers (g : CallGraphData) (fuel : ℕ) : Option Layers := do
  let s ← g.rootNodes.foldlM (fun s root => g.assignLayer fuel root 0 s) .empty
  some (Layers.ofMap s.layerMap)

/-- The branches of the search: below the start the roots, below a node its children. -/
def branch (g : CallGraphData) : Option String → ℕ → Option (Option String)
  | none, i => g.rootNodes[i]?.map some
  | some node, i => (g.children node)[i]?.map some

/-- A path from a root to a node has a number of edges. -/
def PathLength (g : CallGraphData) (node : String) (n : ℕ) : Prop :=
  ∃ path, follow g.branch path none = some (some node) ∧ path.length = n + 1

/-- The length of the longest path from a root to a node. -/
def IsLongest (g : CallGraphData) (node : String) (n : ℕ) : Prop :=
  IsGreatest {n | g.PathLength node n} n

end CallGraphData

/-! ## The map -/

section Map

variable {s : LayerState} {v w : String} {n : ℕ}

theorem layer_enter (hnew : s.layer v = none) :
    (s.enter v n).layer w = if w = v then some n else s.layer w := by
  rw [LayerState.layer, LayerState.enter, List.lookup_append]
  by_cases hw : w = v
  · subst hw
    rw [if_pos rfl, ← LayerState.layer, hnew, Option.none_or]
    exact List.lookup_cons_self
  · rw [if_neg hw, List.lookup_cons, beq_false_of_ne hw]
    exact Option.or_none

theorem layer_update : (s.update v n).layer w = if w = v then (s.layer v).map fun _ => n
    else s.layer w := by
  obtain ⟨visited, layerMap⟩ := s
  rw [LayerState.layer, LayerState.update, LayerState.layer, LayerState.layer]
  induction layerMap with
  | nil =>
    by_cases hw : w = v
    · rw [if_pos hw]
      rfl
    · rw [if_neg hw]
      rfl
  | cons entry layerMap ih =>
    obtain ⟨key, layer⟩ := entry
    rw [List.map_cons]
    by_cases hkey : key = v
    · subst hkey
      rw [if_pos rfl, List.lookup_cons, List.lookup_cons, List.lookup_cons, beq_self_eq_true]
      by_cases hw : w = key
      · rw [hw, beq_self_eq_true, if_pos rfl]
        rfl
      · rw [beq_false_of_ne hw, if_neg hw]
        rw [if_neg hw] at ih
        exact ih
    · rw [if_neg hkey, List.lookup_cons, List.lookup_cons, List.lookup_cons,
        beq_false_of_ne (Ne.symm hkey)]
      by_cases hw : w = key
      · subst hw
        rw [beq_self_eq_true, if_neg hkey]
      · rw [beq_false_of_ne hw]
        exact ih

theorem keys_update : (s.update v n).layerMap.map Prod.fst = s.layerMap.map Prod.fst := by
  rw [LayerState.update, List.map_map]
  apply List.map_congr_left
  intro entry _
  rw [Function.comp_apply]
  split
  · rename_i hkey
    exact hkey.symm
  · rfl

theorem keys_enter : (s.enter v n).layerMap.map Prod.fst = s.layerMap.map Prod.fst ++ [v] := by
  rw [LayerState.enter, List.map_append]
  rfl

theorem layer_eq_none_iff : s.layer v = none ↔ v ∉ s.layerMap.map Prod.fst := by
  rw [LayerState.layer, List.lookup_eq_none_iff, List.mem_map]
  constructor
  · rintro h ⟨entry, hmem, rfl⟩
    exact bne_iff_ne.mp (h entry hmem) rfl
  · intro h entry hmem
    apply bne_iff_ne.mpr
    rintro rfl
    exact h ⟨entry, hmem, rfl⟩

/-- An entry of a map is what the map gives for its key. -/
theorem lookup_eq_some_iff_mem {layerMap : List (String × ℕ)}
    (hnodup : (layerMap.map Prod.fst).Nodup) :
    layerMap.lookup v = some n ↔ (v, n) ∈ layerMap := by
  induction layerMap with
  | nil => exact iff_of_false (fun h => nomatch h) List.not_mem_nil
  | cons entry layerMap ih =>
    obtain ⟨key, layer⟩ := entry
    obtain ⟨hnew, hrest⟩ := List.nodup_cons.mp hnodup
    rw [List.lookup_cons, List.mem_cons, Prod.mk.injEq]
    by_cases hv : v = key
    · subst hv
      have hnot : (v, n) ∉ layerMap := fun hmem => hnew (List.mem_map.mpr ⟨(v, n), hmem, rfl⟩)
      rw [beq_self_eq_true]
      simp only [Option.some.injEq, true_and, hnot, or_false, eq_comm]
    · rw [beq_false_of_ne hv]
      simp only [hv, false_and, false_or]
      exact ih hrest

end Map

/-! ## The search -/

/-- The layers that the places tried before a bound give a node. -/
def layersBefore (g : CallGraphData) (bound : List ℕ) (v : String) : Set ℕ :=
  {n | ∃ q ∈ callsBefore g.branch none bound (some v), q.length = n + 1}

/-- **The search up to a bound**: the nodes reached are visited, each with the greatest of the
layers that it was given. -/
structure LayerState.At (g : CallGraphData) (bound : List ℕ) (s : LayerState) : Prop where
  visited : ∀ v, v ∈ s.visited ↔ some v ∈ reachedBefore g.branch none bound
  mem_keys : ∀ v, v ∈ s.layerMap.map Prod.fst ↔ v ∈ s.visited
  nodup : (s.layerMap.map Prod.fst).Nodup
  layer : ∀ v n, s.layer v = some n → IsGreatest (layersBefore g bound v) n

section Search

variable {g : CallGraphData} {s : LayerState} {place : List ℕ} {i : ℕ} {u : Option String}
  {v w : String} {fuel : ℕ}

/-- A place that leads back to its state is the state itself. -/
theorem follow_branch_cases {q : List ℕ} {t : Option String} (h : follow g.branch q u = some t) :
    q = [] ∧ t = u ∨ ∃ w, t = some w ∧ ∀ v, u = some v → Relation.TransGen g.Child v w := by
  induction q generalizing u with
  | nil =>
    cases h
    exact .inl ⟨rfl, rfl⟩
  | cons i q ih =>
    obtain ⟨next, hnext, hrest⟩ := Option.bind_eq_some_iff.mp h
    have hedge : ∃ x, next = some x ∧ ∀ v, u = some v → g.Child v x := by
      cases u with
      | none =>
        obtain ⟨x, -, rfl⟩ := Option.map_eq_some_iff.mp hnext
        exact ⟨x, rfl, fun _ hv => nomatch hv⟩
      | some v =>
        obtain ⟨x, hx, rfl⟩ := Option.map_eq_some_iff.mp hnext
        refine ⟨x, rfl, ?_⟩
        intro v' hv'
        cases hv'
        exact List.mem_of_getElem? hx
    obtain ⟨x, rfl, hchild⟩ := hedge
    right
    rcases ih hrest with ⟨-, rfl⟩ | ⟨w, rfl, hpath⟩
    · exact ⟨x, rfl, fun v hv => .single (hchild v hv)⟩
    · exact ⟨w, rfl, fun v hv => .head (hchild v hv) (hpath x rfl)⟩

theorem eq_nil_of_follow_branch (hacyclic : g.Acyclic) (q : List ℕ) (t : Option String)
    (h : follow g.branch q t = some t) : q = [] := by
  rcases follow_branch_cases h with ⟨rfl, -⟩ | ⟨w, rfl, hpath⟩
  · rfl
  · exact absurd (hpath w rfl) (hacyclic w)

/-- A node visited has a layer. -/
theorem LayerState.At.exists_layer (h : s.At g place) (hv : v ∈ s.visited) :
    ∃ n, s.layer v = some n := by
  apply Option.ne_none_iff_exists'.mp
  intro hnone
  exact layer_eq_none_iff.mp hnone ((h.mem_keys v).mpr hv)

/-- One more place gives its node one more layer. -/
theorem mem_layersBefore_of_calls {bound bound' : List ℕ}
    (hcalls : ∀ q, q ∈ callsBefore g.branch none bound' (some w) ↔
      q = place ++ [i] ∧ some w = some v ∨ q ∈ callsBefore g.branch none bound (some w)) {n : ℕ} :
    n ∈ layersBefore g bound' w ↔ w = v ∧ n = place.length ∨ n ∈ layersBefore g bound w := by
  constructor
  · rintro ⟨q, hq, hlen⟩
    rcases (hcalls q).mp hq with ⟨rfl, heq⟩ | hq
    · rw [List.length_append, List.length_singleton] at hlen
      exact .inl ⟨Option.some.inj heq, by omega⟩
    · exact .inr ⟨q, hq, hlen⟩
  · rintro (⟨rfl, rfl⟩ | ⟨q, hq, hlen⟩)
    · exact ⟨place ++ [i], (hcalls _).mpr (.inl ⟨rfl, rfl⟩), List.length_append⟩
    · exact ⟨q, (hcalls q).mpr (.inr hq), hlen⟩

theorem mem_layersBefore_enter (hcall : IsCall g.branch none (place ++ [i]) (some v)) {n : ℕ} :
    n ∈ layersBefore g (place ++ [i] ++ [0]) w ↔
      w = v ∧ n = place.length ∨ n ∈ layersBefore g (place ++ [i]) w :=
  mem_layersBefore_of_calls fun _ => mem_callsBefore_enter hcall

theorem mem_layersBefore_again (hacyclic : g.Acyclic)
    (hcall : IsCall g.branch none (place ++ [i]) (some v))
    (hmet : some v ∈ reachedBefore g.branch none (place ++ [i])) {n : ℕ} :
    n ∈ layersBefore g (place ++ [i + 1]) w ↔
      w = v ∧ n = place.length ∨ n ∈ layersBefore g (place ++ [i]) w :=
  mem_layersBefore_of_calls fun _ =>
    mem_callsBefore_again (eq_nil_of_follow_branch hacyclic) hcall hmet

/-- A node that is not visited was given no layer. -/
theorem LayerState.At.notMem_layersBefore (h : s.At g place) (hnew : v ∉ s.visited) (n : ℕ) :
    n ∉ layersBefore g place v := by
  rintro ⟨q, ⟨hq, hlt⟩, -⟩
  exact hnew ((h.visited v).mpr ⟨q, hlt, hq.follow_eq⟩)

/-- Entering a node gives it its first layer. -/
theorem LayerState.At.enter (h : s.At g (place ++ [i])) (hnew : v ∉ s.visited)
    (hcall : IsCall g.branch none (place ++ [i]) (some v)) :
    (s.enter v place.length).At g (place ++ [i] ++ [0]) := by
  have hnone : s.layer v = none := layer_eq_none_iff.mpr fun hmem => hnew ((h.mem_keys v).mp hmem)
  constructor
  · intro w
    rw [mem_reachedBefore_enter hcall.follow_eq, ← h.visited w, Option.some_inj]
    exact List.mem_cons
  · intro w
    rw [keys_enter, List.mem_append, List.mem_singleton, h.mem_keys]
    exact or_comm.trans List.mem_cons.symm
  · rw [keys_enter]
    apply List.Nodup.append h.nodup (List.nodup_singleton v)
    exact List.disjoint_singleton.mpr fun hmem => hnew ((h.mem_keys v).mp hmem)
  · intro w n hw
    rw [layer_enter hnone] at hw
    split at hw
    · rename_i heq
      subst heq
      cases hw
      refine ⟨(mem_layersBefore_enter hcall).mpr (.inl ⟨rfl, rfl⟩), ?_⟩
      intro m hm
      rcases (mem_layersBefore_enter hcall).mp hm with ⟨-, rfl⟩ | hm
      · exact le_refl _
      · exact absurd hm (h.notMem_layersBefore hnew m)
    · rename_i hne
      obtain ⟨hmem, hle⟩ := h.layer w n hw
      refine ⟨(mem_layersBefore_enter hcall).mpr (.inr hmem), ?_⟩
      intro m hm
      rcases (mem_layersBefore_enter hcall).mp hm with ⟨heq, -⟩ | hm
      · exact absurd heq hne
      · exact hle hm

/-- What meeting a node again does to the layers: its own is the greater of two. -/
theorem layer_meet {current n : ℕ} (hcurrent : s.layer v = some current) :
    (s.meet v n).layer w = if w = v then some (max current n) else s.layer w := by
  rw [LayerState.meet, hcurrent]
  dsimp only
  split
  · rename_i hgt
    rw [layer_update, hcurrent, max_eq_right hgt.le]
    rfl
  · rename_i hgt
    rw [max_eq_left (Nat.not_lt.mp hgt)]
    split
    · rename_i heq
      rw [heq, hcurrent]
    · rfl

theorem visited_meet (s : LayerState) (v : String) (n : ℕ) :
    (s.meet v n).visited = s.visited := by
  rw [LayerState.meet]
  split
  · rfl
  · split <;> rfl

theorem keys_meet (s : LayerState) (v : String) (n : ℕ) :
    (s.meet v n).layerMap.map Prod.fst = s.layerMap.map Prod.fst := by
  rw [LayerState.meet]
  split
  · rfl
  · split
    · exact keys_update
    · rfl

/-- **A node met again** may get a greater layer. -/
theorem LayerState.At.meet (hacyclic : g.Acyclic) (h : s.At g (place ++ [i])) (hv : v ∈ s.visited)
    (hcall : IsCall g.branch none (place ++ [i]) (some v)) :
    (s.meet v place.length).At g (place ++ [i + 1]) := by
  have hmet := (h.visited v).mp hv
  obtain ⟨current, hcurrent⟩ := h.exists_layer hv
  constructor
  · intro w
    rw [visited_meet,
      reachedBefore_again (eq_nil_of_follow_branch hacyclic) hcall.follow_eq hmet]
    exact h.visited w
  · intro w
    rw [keys_meet, visited_meet]
    exact h.mem_keys w
  · rw [keys_meet]
    exact h.nodup
  · intro w n hw
    rw [layer_meet hcurrent] at hw
    split at hw
    · rename_i heq
      subst heq
      cases hw
      obtain ⟨hmem, hle⟩ := h.layer w current hcurrent
      constructor
      · apply (mem_layersBefore_again hacyclic hcall hmet).mpr
        rcases max_choice current place.length with hmax | hmax
        · exact .inr (hmax.symm ▸ hmem)
        · exact .inl ⟨rfl, hmax⟩
      · intro m hm
        rcases (mem_layersBefore_again hacyclic hcall hmet).mp hm with ⟨-, rfl⟩ | hm
        · exact le_max_right current _
        · exact (hle hm).trans (le_max_left current _)
    · rename_i hne
      obtain ⟨hmem, hle⟩ := h.layer w n hw
      refine ⟨(mem_layersBefore_again hacyclic hcall hmet).mpr (.inr hmem), ?_⟩
      intro m hm
      rcases (mem_layersBefore_again hacyclic hcall hmet).mp hm with ⟨heq, -⟩ | hm
      · exact absurd heq hne
      · exact hle hm

/-- Behind the last branch of a node its search is done. -/
theorem LayerState.At.leave {t : Option String} {n : ℕ} (h : s.At g (place ++ [i] ++ [n]))
    (hplace : follow g.branch (place ++ [i]) none = some t)
    (hnone : ∀ j, n ≤ j → g.branch t j = none) : s.At g (place ++ [i + 1]) where
  visited v := by
    rw [← reachedBefore_leave hplace hnone]
    exact h.visited v
  mem_keys := h.mem_keys
  nodup := h.nodup
  layer v n hv := by
    rw [layersBefore, ← callsBefore_leave hplace hnone]
    exact h.layer v n hv

theorem branch_eq_none_of_le {j : ℕ} (h : (g.children v).length ≤ j) :
    g.branch (some v) j = none := by
  rw [CallGraphData.branch, List.getElem?_eq_none h]
  rfl

/-- **The search from a node** goes up to the next branch of its parent. -/
theorem exists_assignLayer (hclosed : g.Closed) (hacyclic : g.Acyclic)
    (hfirst : IsFirst g.branch none place u) (hbranch : g.branch u i = some (some v))
    (hv : v ∈ g.names) (h : s.At g (place ++ [i]))
    (hfuel : unvisited g.names s.visited < fuel) :
    ∃ s', g.assignLayer fuel v place.length s = some s' ∧ s'.At g (place ++ [i + 1]) := by
  induction fuel generalizing place i u v s with
  | zero => exact absurd hfuel (Nat.not_lt_zero _)
  | succ fuel ih =>
    have hcall : IsCall g.branch none (place ++ [i]) (some v) :=
      ⟨place, i, u, rfl, hfirst, hbranch⟩
    rw [CallGraphData.assignLayer]
    by_cases hvisited : v ∈ s.visited
    · rw [if_pos hvisited]
      exact ⟨_, rfl, h.meet hacyclic hvisited hcall⟩
    · rw [if_neg hvisited]
      have hfirst' : IsFirst g.branch none (place ++ [i]) (some v) :=
        isFirst_of_notMem hcall.follow_eq fun hmem => hvisited ((h.visited v).mpr hmem)
      have hless := unvisited_cons_lt hv hvisited
      have hlength : place.length + 1 = (place ++ [i]).length := by
        rw [List.length_append, List.length_singleton]
      have hstep : ∀ done child todo (s₁ : LayerState),
          g.children v = done ++ child :: todo → s₁.At g (place ++ [i] ++ [done.length]) ∧
            v :: s.visited ⊆ s₁.visited →
          ∃ s₂, g.assignLayer fuel child (place.length + 1) s₁ = some s₂ ∧
            s₂.At g (place ++ [i] ++ [(done ++ [child]).length]) ∧
              v :: s.visited ⊆ s₂.visited := by
        rintro done child todo s₁ hchildren ⟨hat, hsubset⟩
        have hchild : (g.children v)[done.length]? = some child := by
          rw [hchildren, List.getElem?_append_right (Nat.le_refl _), Nat.sub_self]
          rfl
        have hmono := @unvisited_mono _ _ g.names _ _ hsubset
        obtain ⟨s₂, hs₂, hnext⟩ := ih hfirst' (congrArg (Option.map some) hchild)
          (hclosed.mem_names_of_child (List.mem_of_getElem? hchild)) hat (by omega)
        rw [hlength]
        refine ⟨s₂, hs₂, ?_, ?_⟩
        · rw [List.length_append, List.length_singleton]
          exact hnext
        · apply List.Subset.trans hsubset
          intro w hw
          apply (hnext.visited w).mpr
          apply reachedBefore_mono _ ((hat.visited w).mp hw)
          exact append_singleton_lt_append_cons (Nat.lt_succ_self _) _ [] []
      obtain ⟨s', hs', hend, -⟩ := exists_foldlM_eq_some hstep
        ⟨h.enter hvisited hcall, List.Subset.refl _⟩
      exact ⟨s', hs', hend.leave hcall.follow_eq fun j => branch_eq_none_of_le⟩

end Search

/-! ## The groups -/

/-- A node is in the layer of an index. -/
def Layers.InLayer (result : Layers) (v : String) (n : ℕ) : Prop :=
  ∃ layer, result.layers[n]? = some layer ∧ v ∈ layer

section Groups

variable {layerMap : List (String × ℕ)} {v : String} {n : ℕ}

theorem getElem?_foldl_pushNode (layers : List (List String)) (n : ℕ) :
    (layerMap.foldl pushNode layers)[n]? =
      layers[n]?.map (· ++ (layerMap.filter fun entry => entry.2 = n).map Prod.fst) := by
  induction layerMap generalizing layers with
  | nil =>
    rw [List.foldl_nil, List.filter_nil, List.map_nil]
    simp only [List.append_nil, Option.map_id']
  | cons entry layerMap ih =>
    rw [List.foldl_cons, ih, pushNode, List.getElem?_modify]
    by_cases hn : entry.2 = n
    · have hfilter : (entry :: layerMap).filter (fun entry => entry.2 = n) =
          entry :: layerMap.filter fun entry => entry.2 = n :=
        List.filter_cons_of_pos (decide_eq_true hn)
      rw [hfilter, List.map_cons]
      cases layers[n]? with
      | none => rfl
      | some layer =>
        simp only [hn, if_true, Option.map_some, Option.map_eq_map, List.append_assoc,
          List.singleton_append]
    · have hfilter : (entry :: layerMap).filter (fun entry => entry.2 = n) =
          layerMap.filter fun entry => entry.2 = n :=
        List.filter_cons_of_neg fun h => hn (of_decide_eq_true h)
      rw [hfilter]
      cases layers[n]? with
      | none => rfl
      | some layer => simp only [hn, if_false, Option.map_some, Option.map_eq_map]

/-- **A layer** holds the nodes of its number. -/
theorem getElem?_layers_ofMap {layer : List String}
    (h : (Layers.ofMap layerMap).layers[n]? = some layer) :
    layer = (layerMap.filter fun entry => entry.2 = n).map Prod.fst := by
  rw [Layers.ofMap] at h
  dsimp only at h
  split at h
  · exact nomatch h
  · rw [getElem?_foldl_pushNode, List.getElem?_replicate] at h
    split at h
    · exact (Option.some.inj h).symm
    · exact nomatch h

theorem inLayer_ofMap : (Layers.ofMap layerMap).InLayer v n ↔ (v, n) ∈ layerMap := by
  constructor
  · rintro ⟨layer, hlayer, hmem⟩
    rw [getElem?_layers_ofMap hlayer] at hmem
    obtain ⟨⟨w, m⟩, hentry, rfl⟩ := List.mem_map.mp hmem
    obtain ⟨hmem, hm⟩ := List.mem_filter.mp hentry
    rw [← of_decide_eq_true hm]
    exact hmem
  · intro hmem
    have hvalue : n ∈ layerMap.map Prod.snd := List.mem_map_of_mem (f := Prod.snd) hmem
    refine ⟨(layerMap.filter fun entry => entry.2 = n).map Prod.fst, ?_, ?_⟩
    · rw [Layers.ofMap]
      cases hmax : (layerMap.map Prod.snd).max? with
      | none =>
        rw [List.max?_eq_none_iff.mp hmax] at hvalue
        exact absurd hvalue List.not_mem_nil
      | some maxLayer =>
        have hle := (List.max?_eq_some_iff.mp hmax).2 n hvalue
        dsimp only
        rw [getElem?_foldl_pushNode, List.getElem?_replicate, if_pos (Nat.lt_succ_of_le hle)]
        rfl
    · exact List.mem_map.mpr
        ⟨(v, n), List.mem_filter.mpr ⟨hmem, decide_eq_true rfl⟩, rfl⟩

theorem mem_flatten_iff {result : Layers} :
    v ∈ result.layers.flatten ↔ ∃ n, result.InLayer v n := by
  rw [List.mem_flatten]
  constructor
  · rintro ⟨layer, hlayer, hv⟩
    obtain ⟨n, hn⟩ := List.mem_iff_getElem?.mp hlayer
    exact ⟨n, layer, hn, hv⟩
  · rintro ⟨n, layer, hn, hv⟩
    exact ⟨layer, List.mem_of_getElem? hn, hv⟩

/-- **No node is twice** in the layers. -/
theorem nodup_flatten_ofMap (hnodup : (layerMap.map Prod.fst).Nodup) :
    (Layers.ofMap layerMap).layers.flatten.Nodup := by
  rw [List.nodup_flatten]
  constructor
  · intro layer hlayer
    obtain ⟨n, hn⟩ := List.mem_iff_getElem?.mp hlayer
    rw [getElem?_layers_ofMap hn]
    exact hnodup.sublist (List.filter_sublist.map Prod.fst)
  · rw [List.pairwise_iff_getElem]
    intro m n hm hn hlt v hv hv'
    have hm' := inLayer_ofMap.mp ⟨_, List.getElem?_eq_getElem hm, hv⟩
    have hn' := inLayer_ofMap.mp ⟨_, List.getElem?_eq_getElem hn, hv'⟩
    rw [← lookup_eq_some_iff_mem hnodup] at hm' hn'
    rw [hm'] at hn'
    exact hlt.ne (Option.some.inj hn')

end Groups

/-! ## The layers -/

section Layers

variable {g : CallGraphData} {v : String}

theorem at_empty : LayerState.empty.At g [0] where
  visited v := by
    refine iff_of_false List.not_mem_nil ?_
    rintro ⟨q, hlt, hq⟩
    cases q with
    | nil => exact nomatch hq
    | cons i q =>
      cases hlt with
      | rel hlt => exact absurd hlt (Nat.not_lt_zero i)
      | cons hlex => exact nomatch hlex
  mem_keys _ := Iff.rfl
  nodup := List.nodup_nil
  layer _ _ h := nomatch h

/-- All places are before the bound behind the last root. -/
theorem lt_of_follow_branch {q : List ℕ} (h : follow g.branch q none = some (some v)) :
    q < [g.rootNodes.length] := by
  cases q with
  | nil => exact nomatch h
  | cons i q =>
    obtain ⟨next, hnext, -⟩ := Option.bind_eq_some_iff.mp h
    obtain ⟨root, hroot, -⟩ := Option.map_eq_some_iff.mp hnext
    obtain ⟨hlt, -⟩ := List.getElem?_eq_some_iff.mp hroot
    exact List.Lex.rel hlt

/-- **The whole search** goes up to behind the last root. -/
theorem exists_assignLayers (hclosed : g.Closed) (hacyclic : g.Acyclic) {fuel : ℕ}
    (hfuel : g.nodes.length < fuel) :
    ∃ s : LayerState, g.assignLayers fuel = some (.ofMap s.layerMap) ∧
      s.At g [g.rootNodes.length] := by
  have hfirst : IsFirst g.branch none [] none := ⟨rfl, fun _ _ hlt => nomatch hlt⟩
  have hlength : g.names.length = g.nodes.length := List.length_map _
  have hstep : ∀ done root todo (s : LayerState), g.rootNodes = done ++ root :: todo →
      s.At g [done.length] →
      ∃ s', g.assignLayer fuel root 0 s = some s' ∧ s'.At g [(done ++ [root]).length] := by
    intro done root todo s hroots hat
    have hroot : g.rootNodes[done.length]? = some root := by
      rw [hroots, List.getElem?_append_right (Nat.le_refl _), Nat.sub_self]
      rfl
    rw [List.length_append, List.length_singleton]
    apply exists_assignLayer hclosed hacyclic hfirst (congrArg (Option.map some) hroot)
      (hclosed.rootNodes root (List.mem_of_getElem? hroot)) hat
    exact ((unvisited_le_length _ _).trans hlength.le).trans_lt hfuel
  obtain ⟨s, hs, hend⟩ := exists_foldlM_eq_some hstep at_empty
  refine ⟨s, ?_, hend⟩
  rw [CallGraphData.assignLayers, hs]
  rfl

/-- A path goes on along an edge. -/
theorem CallGraphData.PathLength.step {u : String} {n : ℕ} (h : g.PathLength u n)
    (hchild : g.Child u v) : g.PathLength v (n + 1) := by
  obtain ⟨path, hpath, hlen⟩ := h
  obtain ⟨i, hi⟩ := List.mem_iff_getElem?.mp hchild
  refine ⟨path ++ [i], ?_, ?_⟩
  · rw [follow_append_singleton hpath, CallGraphData.branch, hi]
    rfl
  · rw [List.length_append, List.length_singleton, hlen]

/-- A longest path from a root to a node is the first path to the node before it, with one more
edge; or it is a root alone. -/
def CallGraphData.LongestIsTried (g : CallGraphData) (v : String) : Prop :=
  ∃ n path, g.IsLongest v n ∧ path.length = n + 1 ∧ IsCall g.branch none path (some v)

/-- What is claimed of the layers: every node is in one of them, its layer is the length of the
longest path from a root to it, and every edge leads to a higher layer. -/
structure Layers.RespectEdges (g : CallGraphData) (result : Layers) : Prop where
  nodup : result.layers.flatten.Nodup
  mem_iff : ∀ v, v ∈ result.layers.flatten ↔ v ∈ g.names
  longest : ∀ v n, result.InLayer v n → g.IsLongest v n
  edge : ∀ u v, g.Child u v → ∀ m n, result.InLayer u m → result.InLayer v n → m < n

section Searched

variable {s : LayerState} {n : ℕ}

/-- Behind the last root every place has been tried. -/
theorem LayerState.At.isGreatest_call (h : s.At g [g.rootNodes.length]) (hv : s.layer v = some n) :
    IsGreatest {n | ∃ path, path.length = n + 1 ∧ IsCall g.branch none path (some v)} n := by
  obtain ⟨⟨q, hq, hlen⟩, hle⟩ := h.layer v n hv
  refine ⟨⟨q, hlen, hq.1⟩, ?_⟩
  rintro m ⟨q', hlen', hq'⟩
  exact hle ⟨q', ⟨hq', lt_of_follow_branch hq'.follow_eq⟩, hlen'⟩

/-- A place leads to nodes of the graph. -/
theorem CallGraphData.Closed.mem_names_of_follow (hclosed : g.Closed) {q : List ℕ}
    (hq : follow g.branch q none = some (some v)) : v ∈ g.names := by
  rcases List.eq_nil_or_concat q with rfl | ⟨place, i, rfl⟩
  · exact nomatch hq
  · rw [List.concat_eq_append, follow_append] at hq
    obtain ⟨u, -, hlast⟩ := Option.bind_eq_some_iff.mp hq
    obtain ⟨next, hnext, hsame⟩ := Option.bind_eq_some_iff.mp hlast
    cases hsame
    cases u with
    | none =>
      obtain ⟨root, hroot, heq⟩ := Option.map_eq_some_iff.mp hnext
      cases heq
      exact hclosed.rootNodes _ (List.mem_of_getElem? hroot)
    | some u =>
      obtain ⟨child, hchild, heq⟩ := Option.map_eq_some_iff.mp hnext
      cases heq
      exact hclosed.mem_names_of_child (List.mem_of_getElem? hchild)

/-- **Every node that is reachable** is visited. -/
theorem LayerState.At.visited_iff (h : s.At g [g.rootNodes.length]) (hclosed : g.Closed)
    (hreach : ∀ v ∈ g.names, ∃ n, g.PathLength v n) (v : String) :
    v ∈ s.visited ↔ v ∈ g.names := by
  rw [h.visited]
  constructor
  · rintro ⟨q, -, hq⟩
    exact hclosed.mem_names_of_follow hq
  · intro hv
    obtain ⟨n, q, hq, -⟩ := hreach v hv
    exact ⟨q, lt_of_follow_branch hq, hq⟩

theorem LayerState.At.inLayer_iff {bound : List ℕ} (h : s.At g bound) :
    (Layers.ofMap s.layerMap).InLayer v n ↔ s.layer v = some n := by
  rw [inLayer_ofMap, ← lookup_eq_some_iff_mem h.nodup, LayerState.layer]

/-- The nodes in the layers are those visited. -/
theorem LayerState.At.mem_flatten_iff {bound : List ℕ} (h : s.At g bound) :
    v ∈ (Layers.ofMap s.layerMap).layers.flatten ↔ v ∈ s.visited := by
  rw [WebUi.mem_flatten_iff]
  constructor
  · rintro ⟨n, hn⟩
    rw [← h.mem_keys]
    by_contra hnot
    rw [h.inLayer_iff, layer_eq_none_iff.mpr hnot] at hn
    exact nomatch hn
  · intro hv
    obtain ⟨n, hn⟩ := h.exists_layer hv
    exact ⟨n, h.inLayer_iff.mpr hn⟩

end Searched

/-- **The layers respect every edge** exactly when for every node a longest path is one that the
search tries. -/
theorem layers_respect_edges_iff (hclosed : g.Closed) (hacyclic : g.Acyclic)
    (hreach : ∀ v ∈ g.names, ∃ n, g.PathLength v n) {fuel : ℕ} (hfuel : g.nodes.length < fuel) :
    ∃ result, g.assignLayers fuel = some result ∧
      (result.RespectEdges g ↔ ∀ v ∈ g.names, g.LongestIsTried v) := by
  obtain ⟨s, hs, hat⟩ := exists_assignLayers hclosed hacyclic hfuel
  have hvisited := hat.visited_iff hclosed hreach
  refine ⟨_, hs, ?_⟩
  constructor
  · intro hrespect v hv
    obtain ⟨n, hn⟩ := hat.exists_layer ((hvisited v).mpr hv)
    obtain ⟨⟨path, hlen, hcall⟩, -⟩ := hat.isGreatest_call hn
    exact ⟨n, path, hrespect.longest v n (hat.inLayer_iff.mpr hn), hlen, hcall⟩
  · intro htried
    have hlongest : ∀ v n, (Layers.ofMap s.layerMap).InLayer v n → g.IsLongest v n := by
      intro v n hn
      have hmem : v ∈ g.names := by
        rw [← hvisited, ← hat.mem_flatten_iff, WebUi.mem_flatten_iff]
        exact ⟨n, hn⟩
      obtain ⟨longest, path, hmax, hlen, hcall⟩ := htried v hmem
      obtain ⟨⟨path', hlen', hcall'⟩, hle⟩ := hat.isGreatest_call (hat.inLayer_iff.mp hn)
      have heq : n = longest :=
        le_antisymm (hmax.2 ⟨path', hcall'.follow_eq, hlen'⟩) (hle ⟨path, hlen, hcall⟩)
      exact heq ▸ hmax
    constructor
    · exact nodup_flatten_ofMap hat.nodup
    · intro v
      rw [hat.mem_flatten_iff, hvisited]
    · exact hlongest
    · intro u v hchild m n hu hv
      have hpath : g.PathLength u m := (hlongest u m hu).1
      exact (hlongest v n hv).2 (hpath.step hchild)

/-- No path is longer than a rank allows. -/
theorem CallGraphData.Ranked.le_of_pathLength {rank : String → ℕ} (h : g.Ranked rank) {n : ℕ}
    (hpath : g.PathLength v n) : n ≤ rank v := by
  obtain ⟨path, hpath, hlen⟩ := hpath
  induction path using List.reverseRecOn generalizing v n with
  | nil => exact nomatch hpath
  | append_singleton place i ih =>
    rw [List.length_append, List.length_singleton] at hlen
    rw [follow_append] at hpath
    obtain ⟨u, hu, hlast⟩ := Option.bind_eq_some_iff.mp hpath
    obtain ⟨next, hnext, hsame⟩ := Option.bind_eq_some_iff.mp hlast
    cases hsame
    cases u with
    | none =>
      rcases follow_branch_cases hu with ⟨rfl, -⟩ | ⟨_, heq, -⟩
      · rw [List.length_nil] at hlen
        omega
      · exact nomatch heq
    | some u =>
      obtain ⟨child, hchild, heq⟩ := Option.map_eq_some_iff.mp hnext
      cases heq
      have hlt := h.lt_of_child (List.mem_of_getElem? hchild)
      have hne : place ≠ [] := by
        rintro rfl
        exact nomatch hu
      have hpos := List.length_pos_iff.mpr hne
      have hle := @ih u (place.length - 1) hu (by omega)
      omega

/-- Two callees of a single root. -/
def twoCallees : CallTreeStatsNode :=
  .mk none 1 (fun _ => 2) [.mk (some "main") 1 (fun _ => 2) [
    .mk (some "a") 1 (fun _ => 1) [], .mk (some "b") 1 (fun _ => 1) []]]

/-- The layers of a graph in which every path is tried. -/
theorem layers_respect_edges_iff_twoCallees :
    ∃ result, (CallGraphData.build twoCallees).assignLayers 4 = some result ∧
      result.RespectEdges (.build twoCallees) := by
  have hranked : (CallGraphData.build twoCallees).Ranked fun v => if v = "main" then 0 else 1 := by
    unfold CallGraphData.Ranked
    decide +kernel
  have hnames : ∀ v ∈ (CallGraphData.build twoCallees).names,
      v = "main" ∨ v = "a" ∨ v = "b" := by decide +kernel
  have hmain : (CallGraphData.build twoCallees).PathLength "main" 0 := ⟨[0], by decide +kernel, rfl⟩
  have ha : (CallGraphData.build twoCallees).PathLength "a" 1 := ⟨[0, 0], by decide +kernel, rfl⟩
  have hb : (CallGraphData.build twoCallees).PathLength "b" 1 := ⟨[0, 1], by decide +kernel, rfl⟩
  have hstart : IsFirst (CallGraphData.build twoCallees).branch none [] none :=
    ⟨rfl, fun _ _ hlt => nomatch hlt⟩
  have hfirst : IsFirst (CallGraphData.build twoCallees).branch none [0] (some "main") := by
    refine ⟨by decide +kernel, ?_⟩
    intro q hq hlt
    rcases (@lt_append_zero_iff [] q).mp hlt with h | rfl
    · exact nomatch h
    · exact nomatch hq
  obtain ⟨result, hresult, hiff⟩ := @layers_respect_edges_iff (.build twoCallees)
    (CallGraphData.wellFormed_build twoCallees).toClosed hranked.acyclic
    (fun v hv => by
      rcases hnames v hv with rfl | rfl | rfl
      · exact ⟨0, hmain⟩
      · exact ⟨1, ha⟩
      · exact ⟨1, hb⟩)
    4 (by decide +kernel)
  refine ⟨result, hresult, hiff.mpr ?_⟩
  intro v hv
  rcases hnames v hv with rfl | rfl | rfl
  · exact ⟨0, [0], ⟨hmain, fun _ => hranked.le_of_pathLength⟩, rfl,
      [], 0, none, rfl, hstart, by decide +kernel⟩
  · exact ⟨1, [0, 0], ⟨ha, fun _ => hranked.le_of_pathLength⟩, rfl,
      [0], 0, some "main", rfl, hfirst, by decide +kernel⟩
  · exact ⟨1, [0, 1], ⟨hb, fun _ => hranked.le_of_pathLength⟩, rfl,
      [0], 1, some "main", rfl, hfirst, by decide +kernel⟩

/-- `a` calls `b`, and later `c`, which calls `b` too. -/
def sharedCallee : CallTreeStatsNode :=
  .mk none 1 (fun _ => 4) [.mk (some "a") 1 (fun _ => 4) [
    .mk (some "b") 1 (fun _ => 2) [.mk (some "d") 1 (fun _ => 1) []],
    .mk (some "c") 1 (fun _ => 2) [.mk (some "b") 1 (fun _ => 1) []]]]

/-- An edge inside a layer: `b` is moved below `c`, and `d` is not moved with it. -/
theorem edge_inside_layer :
    (CallGraphData.build sharedCallee).Closed ∧ (CallGraphData.build sharedCallee).Acyclic ∧
      (∀ v ∈ (CallGraphData.build sharedCallee).names,
        ∃ n, (CallGraphData.build sharedCallee).PathLength v n) ∧
      ∃ result, (CallGraphData.build sharedCallee).assignLayers 5 = some result ∧
        result.layers = [["a"], ["c"], ["b", "d"]] ∧
        ¬result.RespectEdges (.build sharedCallee) := by
  have hranked : (CallGraphData.build sharedCallee).Ranked fun v =>
      ["a", "c", "b", "d"].idxOf v := by
    unfold CallGraphData.Ranked
    decide +kernel
  have hnames : ∀ v ∈ (CallGraphData.build sharedCallee).names,
      v = "a" ∨ v = "b" ∨ v = "c" ∨ v = "d" := by decide +kernel
  refine ⟨(CallGraphData.wellFormed_build sharedCallee).toClosed, hranked.acyclic, ?_, ?_⟩
  · intro v hv
    rcases hnames v hv with rfl | rfl | rfl | rfl
    · exact ⟨0, [0], by decide +kernel, rfl⟩
    · exact ⟨1, [0, 0], by decide +kernel, rfl⟩
    · exact ⟨1, [0, 1], by decide +kernel, rfl⟩
    · exact ⟨2, [0, 0, 0], by decide +kernel, rfl⟩
  · have hlayers : ((CallGraphData.build sharedCallee).assignLayers 5).map Layers.layers =
        some [["a"], ["c"], ["b", "d"]] := by decide +kernel
    obtain ⟨result, hresult, hgroups⟩ := Option.map_eq_some_iff.mp hlayers
    refine ⟨result, hresult, hgroups, ?_⟩
    intro hrespect
    have hb : result.InLayer "b" 2 := by
      rw [Layers.InLayer, hgroups]
      exact ⟨["b", "d"], rfl, List.mem_cons_self⟩
    have hd : result.InLayer "d" 2 := by
      rw [Layers.InLayer, hgroups]
      exact ⟨["b", "d"], rfl, List.mem_cons_of_mem _ List.mem_cons_self⟩
    have hchild : (CallGraphData.build sharedCallee).Child "b" "d" := by
      unfold CallGraphData.Child
      decide +kernel
    exact lt_irrefl 2 (hrespect.edge "b" "d" hchild 2 2 hb hd)

end Layers

end PhpSpx.WebUi
