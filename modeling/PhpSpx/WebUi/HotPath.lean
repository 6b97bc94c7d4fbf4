import Mathlib.Algebra.BigOperators.Group.List.Basic
import Mathlib.Algebra.Order.Ring.Rat
import Mathlib.Data.List.Chain
import Mathlib.Data.Rat.BigOperators
import Mathlib.Tactic.Linarith
import PhpSpx.Lib.DepthFirst
import PhpSpx.WebUi.CallGraph

/-!
# The hot path

`CallGraphData.calculateHotPath` of `callGraph.js`: a depth-first search gives each node the score
of a path from it and the next node of that path.  A child that is still being visited when it is
met has no score yet and is passed over, so a next node is always one that was finished before.

* `computeMaxPath`, `calculateHotPath` — the search and what it records.
* `Linked` — the scores in the order in which they are set.
* `hot_path_sound` — the path is a path of the graph, and the best one when there is no cycle.
-/

namespace PhpSpx.WebUi

open Lib

/-- The `maxChildPath` and the `maxChild` of a loop, or the `maxRootPath` and the `hotRoot`. -/
structure MaxPath where
  path : ℚ
  node : Option String

/-- No path yet. -/
def MaxPath.zero : MaxPath where
  path := 0
  node := none

/-- The body of the loop.  Nothing is greater than `undefined`, nor less. -/
def MaxPath.offer (best : MaxPath) (node : String) : Option ℚ → MaxPath
  | none => best
  | some score => if score > best.path then ⟨score, some node⟩ else best

/-- The variables of `calculateHotPath`, and the `hotPathNext` of the nodes.  The score that was
set last is the first. -/
structure HotPathState where
  visited : List String
  pathScores : List (String × ℚ)
  hotPathNext : String → Option String

/-- Before the search. -/
def HotPathState.empty : HotPathState where
  visited := []
  pathScores := []
  hotPathNext := fun _ => none

/-- `visited.add(node)`. -/
def HotPathState.visit (s : HotPathState) (node : String) : HotPathState :=
  { s with visited := node :: s.visited }

/-- The end of `computeMaxPath`. -/
def HotPathState.finish (s : HotPathState) (node : String) (totalPath : ℚ)
    (maxChild : Option String) : HotPathState :=
  { s with
    pathScores := (node, totalPath) :: s.pathScores
    hotPathNext := if maxChild.isSome then Function.update s.hotPathNext node maxChild
      else s.hotPathNext }

/-- An element of `hotPath` with what is set on it, and the key of the edge that is marked, with
the score of the element. -/
structure HotPathNode where
  functionName : String
  hotPathScore : ℚ
  criticalPathContribution : ℚ
  hotPathRank : ℕ
  hotEdge : Option String
  deriving DecidableEq

/-- What `calculateHotPath` records. -/
structure HotPath where
  hotPath : List HotPathNode
  criticalPathLength : ℚ
  deriving DecidableEq

/-- The names of the nodes on the path. -/
def HotPath.names (result : HotPath) : List String := result.hotPath.map HotPathNode.functionName

namespace CallGraphData

/-- `computeMaxPath`.  The fuel is the number of nested calls. -/
def computeMaxPath (g : CallGraphData) (metric : String) :
    ℕ → String → HotPathState → Option (Option ℚ × HotPathState)
  | 0, _, _ => none
  | fuel + 1, node, s =>
    if node ∈ s.visited then some (s.pathScores.lookup node, s)
    else do
      let (best, s) ← (g.children node).foldlM
        (fun (best, s) child => do
          let (childPath, s) ← g.computeMaxPath metric fuel child s
          some (best.offer child childPath, s))
        (MaxPath.zero, s.visit node)
      let totalPath := g.getInclusiveMetric metric node + best.path
      some (some totalPath, s.finish node totalPath best.node)

/-- The loop over nodes: over the children of a node, or over the roots. -/
def maxPathOf (g : CallGraphData) (metric : String) (fuel : ℕ) (nodes : List String)
    (s : HotPathState) : Option (MaxPath × HotPathState) :=
  nodes.foldlM
    (fun (best, s) node => do
      let (path, s) ← g.computeMaxPath metric fuel node s
      some (best.offer node path, s))
    (MaxPath.zero, s)

/-- What a round of `while (current)` sets. -/
def mark (g : CallGraphData) (metric : String) (maxRootPath : ℚ)
    (hotPathNext : String → Option String) (rank : ℕ) (current : String) : HotPathNode where
  functionName := current
  hotPathScore := g.getInclusiveMetric metric current / max 1 maxRootPath
  criticalPathContribution := g.getInclusiveMetric metric current
  hotPathRank := rank
  hotEdge := ((hotPathNext current).map (edgeKey current)).filter fun key =>
    (g.edges.lookup key).isSome

/-- The loop `while (current)`.  The fuel is the number of rounds. -/
def traceHotPath (g : CallGraphData) (metric : String) (maxRootPath : ℚ)
    (hotPathNext : String → Option String) : ℕ → ℕ → Option String → Option (List HotPathNode)
  | _, _, none => some []
  | 0, _, some _ => none
  | fuel + 1, rank, some current =>
    (g.traceHotPath metric maxRootPath hotPathNext fuel (rank + 1) (hotPathNext current)).map
      (g.mark metric maxRootPath hotPathNext rank current :: ·)

/-- `CallGraphData.calculateHotPath`. -/
def calculateHotPath (g : CallGraphData) (metric : String) (fuel : ℕ) : Option HotPath := do
  let (best, s) ← g.maxPathOf metric fuel g.rootNodes .empty
  let hotPath ← g.traceHotPath metric best.path s.hotPathNext fuel 1 best.node
  some ⟨hotPath, best.path⟩

theorem computeMaxPath_succ (g : CallGraphData) (metric : String) (fuel : ℕ) (node : String)
    (s : HotPathState) :
    g.computeMaxPath metric (fuel + 1) node s =
      if node ∈ s.visited then some (s.pathScores.lookup node, s)
      else (g.maxPathOf metric fuel (g.children node) (s.visit node)).bind fun result =>
        some (some (g.getInclusiveMetric metric node + result.1.path),
          result.2.finish node (g.getInclusiveMetric metric node + result.1.path) result.1.node) :=
  rfl

end CallGraphData

/-! ## Scores -/

/-- The score of a node. -/
def HotPathState.score (s : HotPathState) (v : String) : Option ℚ := s.pathScores.lookup v

/-- A node that is still being visited. -/
def HotPathState.Open (s : HotPathState) (v : String) : Prop := v ∈ s.visited ∧ s.score v = none

/-- **The scores in the order in which they are set**: a node is the only one of its path, or its
path goes on with that of a child that has got its score before. -/
inductive Linked (g : CallGraphData) (metric : String) (next : String → Option String) :
    List (String × ℚ) → Prop
  | nil : Linked g metric next []
  | leaf {v : String} {scores : List (String × ℚ)} (rest : Linked g metric next scores)
      (new : scores.lookup v = none) (last : next v = none) :
      Linked g metric next ((v, g.getInclusiveMetric metric v) :: scores)
  | link {v c : String} {score : ℚ} {scores : List (String × ℚ)} (rest : Linked g metric next scores)
      (new : scores.lookup v = none) (next_eq : next v = some c) (child : g.Child v c)
      (score_eq : scores.lookup c = some score) :
      Linked g metric next ((v, g.getInclusiveMetric metric v + score) :: scores)

/-- The state is sound: the scores are linked, and only finished nodes have a next one. -/
structure HotPathState.Sound (g : CallGraphData) (metric : String) (s : HotPathState) : Prop where
  linked : Linked g metric s.hotPathNext s.pathScores
  visited : ∀ v score, s.score v = some score → v ∈ s.visited
  next_eq_none : ∀ v, s.score v = none → s.hotPathNext v = none

/-- What a search from a node leaves alone: it finishes every node that it begins. -/
structure HotPathState.Extends (s s' : HotPathState) : Prop where
  visited : s.visited ⊆ s'.visited
  score : ∀ v score, s.score v = some score → s'.score v = some score
  open_iff : ∀ v, s'.Open v ↔ s.Open v

/-- The path from a node is at least as good as those through its children. -/
structure HotPathState.Optimal (g : CallGraphData) (metric : String) (s : HotPathState) :
    Prop where
  value : ∀ v score, s.score v = some score → g.getInclusiveMetric metric v ≤ score
  child : ∀ v score, s.score v = some score → ∀ c, g.Child v c →
    ∃ childScore, s.score c = some childScore ∧
      g.getInclusiveMetric metric v + childScore ≤ score

section Scores

variable {g : CallGraphData} {metric : String} {s s' s'' : HotPathState} {v node : String}

theorem HotPathState.Extends.refl (s : HotPathState) : s.Extends s where
  visited := List.Subset.refl _
  score _ _ h := h
  open_iff _ := Iff.rfl

theorem HotPathState.Extends.trans (h : s.Extends s') (h' : s'.Extends s'') : s.Extends s'' where
  visited := List.Subset.trans h.visited h'.visited
  score v score hv := h'.score v score (h.score v score hv)
  open_iff v := (h'.open_iff v).trans (h.open_iff v)

/-- A node that is visited and has no score gets none while the search is at other nodes. -/
theorem HotPathState.Extends.score_eq (h : s.Extends s') (hv : v ∈ s.visited) :
    s'.score v = s.score v := by
  cases hscore : s.score v with
  | none => exact ((h.open_iff v).mpr ⟨hv, hscore⟩).2
  | some score => exact h.score v score hscore

/-- A next node set for a node without a score changes no path. -/
theorem Linked.update {next : String → Option String} {scores : List (String × ℚ)}
    (h : Linked g metric next scores) (hv : scores.lookup v = none) (c : Option String) :
    Linked g metric (Function.update next v c) scores := by
  induction h with
  | nil => exact .nil
  | @leaf w scores rest new last ih =>
    rw [List.lookup_cons] at hv
    split at hv
    · exact nomatch hv
    · rename_i hne
      refine .leaf (ih hv) new ?_
      rw [Function.update_of_ne (Ne.symm (ne_of_beq_false hne))]
      exact last
  | @link w c' score scores rest new next_eq child score_eq ih =>
    rw [List.lookup_cons] at hv
    split at hv
    · exact nomatch hv
    · rename_i hne
      refine .link (ih hv) new ?_ child score_eq
      rw [Function.update_of_ne (Ne.symm (ne_of_beq_false hne))]
      exact next_eq

/-! ## The search -/

theorem HotPathState.score_finish (s : HotPathState) (node : String) (totalPath : ℚ)
    (maxChild : Option String) (v : String) :
    (s.finish node totalPath maxChild).score v = if v = node then some totalPath else s.score v := by
  rw [HotPathState.score, HotPathState.finish, List.lookup_cons]
  by_cases hv : v = node
  · rw [if_pos hv, hv, beq_self_eq_true]
  · rw [if_neg hv, beq_false_of_ne hv]
    rfl

/-- What a search from a node does. -/
structure Visits (g : CallGraphData) (metric : String) (s : HotPathState) (node : String)
    (result : Option ℚ) (s' : HotPathState) : Prop where
  sound : s'.Sound g metric
  extend : s.Extends s'
  visited : node ∈ s'.visited
  result_eq : result = s'.score node
  optimal : g.Acyclic → s.Optimal g metric → s'.Optimal g metric

/-- What a loop has found in the nodes that are done. -/
structure BestOf (g : CallGraphData) (metric : String) (s : HotPathState) (done : List String)
    (best : MaxPath) (s' : HotPathState) : Prop where
  sound : s'.Sound g metric
  extend : s.Extends s'
  nonneg : 0 ≤ best.path
  visited : ∀ c ∈ done, c ∈ s'.visited
  score_le : ∀ c ∈ done, ∀ score, s'.score c = some score → score ≤ best.path
  attained : best.node = none ∧ best.path = 0 ∨
    ∃ c ∈ done, best.node = some c ∧ s'.score c = some best.path
  optimal : g.Acyclic → s.Optimal g metric → s'.Optimal g metric

theorem bestOf_zero (hs : s.Sound g metric) : BestOf g metric s [] .zero s where
  sound := hs
  extend := .refl s
  nonneg := le_refl 0
  visited _ h := absurd h List.not_mem_nil
  score_le _ h := absurd h List.not_mem_nil
  attained := .inl ⟨rfl, rfl⟩
  optimal _ h := h

/-- **One round** of a loop. -/
theorem BestOf.offer {done : List String} {best : MaxPath} {result : Option ℚ}
    (h : BestOf g metric s done best s') (hvisit : Visits g metric s' node result s'') :
    BestOf g metric s (done ++ [node]) (best.offer node result) s'' := by
  have hscore : ∀ c ∈ done, s''.score c = s'.score c := fun c hc =>
    hvisit.extend.score_eq (h.visited c hc)
  have hvisited : ∀ c ∈ done ++ [node], c ∈ s''.visited := by
    intro c hc
    rcases List.mem_append.mp hc with hc | hc
    · exact hvisit.extend.visited (h.visited c hc)
    · rw [List.mem_singleton.mp hc]
      exact hvisit.visited
  have hold : best.node = none ∧ best.path = 0 ∨
      ∃ c ∈ done ++ [node], best.node = some c ∧ s''.score c = some best.path := by
    rcases h.attained with hnone | ⟨c, hc, hbest, hpath⟩
    · exact .inl hnone
    · exact .inr ⟨c, List.mem_append_left _ hc, hbest, (hscore c hc).trans hpath⟩
  have hle : ∀ c ∈ done, ∀ score, s''.score c = some score → score ≤ best.path := by
    intro c hc score hc'
    rw [hscore c hc] at hc'
    exact h.score_le c hc score hc'
  have hresult := hvisit.result_eq
  constructor
  · exact hvisit.sound
  · exact h.extend.trans hvisit.extend
  · cases result with
    | none => exact h.nonneg
    | some score =>
      rw [MaxPath.offer]
      split
      · rename_i hgt
        exact h.nonneg.trans hgt.le
      · exact h.nonneg
  · exact hvisited
  · intro c hc score hc'
    rcases List.mem_append.mp hc with hc | hc
    · have hbest := hle c hc score hc'
      cases result with
      | none => exact hbest
      | some path =>
        rw [MaxPath.offer]
        split
        · rename_i hgt
          exact hbest.trans hgt.le
        · exact hbest
    · rw [List.mem_singleton.mp hc, ← hresult] at hc'
      subst hc'
      rw [MaxPath.offer]
      split
      · exact le_refl score
      · rename_i hle'
        exact not_lt.mp hle'
  · cases result with
    | none => exact hold
    | some path =>
      rw [MaxPath.offer]
      split
      · exact .inr ⟨node, List.mem_append_right _ (List.mem_singleton_self node), rfl, hresult.symm⟩
      · exact hold
  · exact fun hacyclic hoptimal => hvisit.optimal hacyclic (h.optimal hacyclic hoptimal)

/-- **The loop** over nodes, when the calls it makes go through. -/
theorem exists_maxPathOf {fuel : ℕ} {nodes : List String}
    (hcall : ∀ node ∈ nodes, ∀ s' : HotPathState, s'.Sound g metric → s.Extends s' →
      ∃ result s'', g.computeMaxPath metric fuel node s' = some (result, s'') ∧
        Visits g metric s' node result s'')
    (hs : s.Sound g metric) :
    ∃ best s', g.maxPathOf metric fuel nodes s = some (best, s') ∧
      BestOf g metric s nodes best s' := by
  have hstep : ∀ done node todo (state : MaxPath × HotPathState), nodes = done ++ node :: todo →
      BestOf g metric s done state.1 state.2 →
      ∃ state', (do
        let (path, s') ← g.computeMaxPath metric fuel node state.2
        some (state.1.offer node path, s')) = some state' ∧
          BestOf g metric s (done ++ [node]) state'.1 state'.2 := by
    rintro done node todo ⟨best, s'⟩ hnodes hbest
    have hmem : node ∈ nodes := hnodes ▸ List.mem_append_right done List.mem_cons_self
    obtain ⟨result, s'', hresult, hvisit⟩ := hcall node hmem s' hbest.sound hbest.extend
    refine ⟨(best.offer node result, s''), ?_, hbest.offer hvisit⟩
    dsimp only
    rw [hresult]
    rfl
  have hzero : BestOf g metric s [] (MaxPath.zero, s).1 (MaxPath.zero, s).2 := bestOf_zero hs
  obtain ⟨⟨best, s'⟩, hloop, hbest⟩ := exists_foldlM_eq_some hstep hzero
  exact ⟨best, s', hloop, hbest⟩

theorem HotPathState.open_visit (hs : s.Sound g metric) (hnew : node ∉ s.visited) :
    (s.visit node).Open v ↔ s.Open v ∨ v = node := by
  constructor
  · rintro ⟨hv, hscore⟩
    rcases List.mem_cons.mp hv with rfl | hv
    · exact .inr rfl
    · exact .inl ⟨hv, hscore⟩
  · rintro (⟨hv, hscore⟩ | rfl)
    · exact ⟨List.mem_cons_of_mem node hv, hscore⟩
    · refine ⟨List.mem_cons_self, ?_⟩
      cases hscore : s.score v with
      | none => exact hscore
      | some score => exact absurd (hs.visited v score hscore) hnew

/-- The node whose call ends has been open all the time. -/
theorem BestOf.open_node {best : MaxPath} (hs : s.Sound g metric) (hnew : node ∉ s.visited)
    (h : BestOf g metric (s.visit node) (g.children node) best s') : s'.Open node :=
  (h.extend.open_iff node).mpr ((HotPathState.open_visit hs hnew).mpr (.inr rfl))

/-- A node with a score keeps it when an open node gets its own. -/
theorem HotPathState.Open.score_finish (h : s.Open node) (totalPath : ℚ)
    (maxChild : Option String) {score : ℚ} (hv : s.score v = some score) :
    (s.finish node totalPath maxChild).score v = some score := by
  rw [HotPathState.score_finish, if_neg, hv]
  rintro rfl
  rw [h.2] at hv
  exact nomatch hv

theorem BestOf.sound_finish {best : MaxPath}
    (h : BestOf g metric (s.visit node) (g.children node) best s') (hopen : s'.Open node) :
    (s'.finish node (g.getInclusiveMetric metric node + best.path) best.node).Sound g metric := by
  constructor
  · have hnext := h.sound.next_eq_none node hopen.2
    rcases h.attained with ⟨hbest, hpath⟩ | ⟨c, hc, hbest, hpath⟩
    · rw [HotPathState.finish, hbest, hpath, add_zero]
      exact .leaf h.sound.linked hopen.2 hnext
    · rw [HotPathState.finish, hbest]
      exact .link (h.sound.linked.update hopen.2 (some c)) hopen.2 (Function.update_self ..) hc hpath
  · intro v score hv
    rw [HotPathState.score_finish] at hv
    split at hv
    · rename_i heq
      rw [heq]
      exact hopen.1
    · exact h.sound.visited v score hv
  · intro v hv
    rw [HotPathState.score_finish] at hv
    split at hv
    · exact nomatch hv
    · rename_i hne
      rw [HotPathState.finish]
      dsimp only
      split
      · rw [Function.update_of_ne hne]
        exact h.sound.next_eq_none v hv
      · exact h.sound.next_eq_none v hv

theorem HotPathState.Extends.finish (hs : s.Sound g metric) (hnew : node ∉ s.visited)
    (h : (s.visit node).Extends s') (hopen : s'.Open node) (totalPath : ℚ)
    (maxChild : Option String) : s.Extends (s'.finish node totalPath maxChild) where
  visited := List.Subset.trans (List.subset_cons_self node s.visited) h.visited
  score v score hv := hopen.score_finish totalPath maxChild (h.score v score hv)
  open_iff v := by
    have hopenIff := (h.open_iff v).trans (HotPathState.open_visit hs hnew)
    rw [HotPathState.Open, HotPathState.score_finish]
    constructor
    · rintro ⟨hv, hvscore⟩
      split at hvscore
      · exact nomatch hvscore
      · rename_i hne
        exact (hopenIff.mp ⟨hv, hvscore⟩).resolve_right hne
    · intro hv
      obtain ⟨hvisited, hvscore⟩ := hopenIff.mpr (.inl hv)
      refine ⟨hvisited, ?_⟩
      rw [if_neg, hvscore]
      rintro rfl
      exact hnew hv.1

/-- Every child has a score that the best path accounts for, unless it is still open. -/
theorem BestOf.optimal_finish {best : MaxPath}
    (h : BestOf g metric (s.visit node) (g.children node) best s') (hopen : s'.Open node)
    (hclosed : ∀ c, g.Child node c → ¬s'.Open c) (hoptimal : s'.Optimal g metric) :
    (s'.finish node (g.getInclusiveMetric metric node + best.path) best.node).Optimal g metric := by
  constructor
  · intro v score hv
    rw [HotPathState.score_finish] at hv
    split at hv
    · rename_i heq
      cases hv
      rw [heq]
      exact le_add_of_nonneg_right h.nonneg
    · exact hoptimal.value v score hv
  · intro v score hv c hc
    rw [HotPathState.score_finish] at hv
    split at hv
    · rename_i heq
      subst heq
      cases hv
      cases hchild : s'.score c with
      | none => exact absurd ⟨h.visited c hc, hchild⟩ (hclosed c hc)
      | some childScore =>
        refine ⟨childScore, hopen.score_finish _ _ hchild, ?_⟩
        exact add_le_add_right (h.score_le c hc childScore hchild) _
    · obtain ⟨childScore, hchild, hle⟩ := hoptimal.child v score hv c hc
      exact ⟨childScore, hopen.score_finish _ _ hchild, hle⟩

/-- **The end of a call**: the node gets the score of the best path through a child. -/
theorem BestOf.finish {best : MaxPath} (hs : s.Sound g metric) (hnew : node ∉ s.visited)
    (h : BestOf g metric (s.visit node) (g.children node) best s')
    (hopen : g.Acyclic → ∀ v, s.Open v → Relation.TransGen g.Child v node) :
    Visits g metric s node (some (g.getInclusiveMetric metric node + best.path))
      (s'.finish node (g.getInclusiveMetric metric node + best.path) best.node) := by
  have hnode : s'.Open node := h.open_node hs hnew
  refine ⟨h.sound_finish hnode, h.extend.finish hs hnew hnode _ _, hnode.1, ?_, ?_⟩
  · rw [HotPathState.score_finish, if_pos rfl]
  · intro hacyclic hoptimal
    -- a child still open would lead to the node, which would then be on a cycle
    have hclosed : ∀ c, g.Child node c → ¬s'.Open c := by
      intro c hc hopenChild
      rcases (HotPathState.open_visit hs hnew).mp ((h.extend.open_iff c).mp hopenChild) with
        hold | rfl
      · exact hacyclic c ((hopen hacyclic c hold).tail hc)
      · exact hacyclic c (.single hc)
    exact h.optimal_finish hnode hclosed (h.optimal hacyclic ⟨hoptimal.value, hoptimal.child⟩)

/-- **The search** ends when the fuel is more than the nodes that are left. -/
theorem exists_computeMaxPath (hclosed : g.Closed) {fuel : ℕ} (hnode : node ∈ g.names)
    (hs : s.Sound g metric)
    (hopen : g.Acyclic → ∀ v, s.Open v → Relation.TransGen g.Child v node)
    (hfuel : unvisited g.names s.visited < fuel) :
    ∃ result s', g.computeMaxPath metric fuel node s = some (result, s') ∧
      Visits g metric s node result s' := by
  induction fuel generalizing node s with
  | zero => exact absurd hfuel (Nat.not_lt_zero _)
  | succ fuel ih =>
    rw [CallGraphData.computeMaxPath_succ]
    by_cases hvisited : node ∈ s.visited
    · rw [if_pos hvisited]
      exact ⟨_, s, rfl, hs, .refl s, hvisited, rfl, fun _ h => h⟩
    · rw [if_neg hvisited]
      have hvisit : (s.visit node).Sound g metric :=
        ⟨hs.linked, fun v score hv => List.mem_cons_of_mem node (hs.visited v score hv),
          hs.next_eq_none⟩
      have hless := unvisited_cons_lt hnode hvisited
      obtain ⟨best, s', hloop, hbest⟩ := exists_maxPathOf
        (fun c hc s₁ hs₁ hextends => by
          apply ih (hclosed.mem_names_of_child hc) hs₁
          · intro hacyclic v hv
            rcases (HotPathState.open_visit hs hvisited).mp ((hextends.open_iff v).mp hv) with
              hold | rfl
            · exact (hopen hacyclic v hold).tail hc
            · exact .single hc
          · have hmono := @unvisited_mono _ _ g.names _ _ hextends.visited
            have hcons : (s.visit node).visited = node :: s.visited := rfl
            rw [hcons] at hmono
            omega)
        hvisit
      rw [hloop]
      exact ⟨_, _, rfl, hbest.finish hs hvisited hopen⟩

/-! ## The path -/

/-- The nodes that the loop `while (current)` meets. -/
inductive Trail (next : String → Option String) : Option String → List String → Prop
  | stop : Trail next none []
  | step {v : String} {path : List String} (rest : Trail next (next v) path) :
      Trail next (some v) (v :: path)

/-- **The loop** marks the nodes that it meets. -/
theorem Trail.traceHotPath_eq {next : String → Option String} {current : Option String}
    {path : List String} (h : Trail next current path) (maxRootPath : ℚ) {fuel : ℕ}
    (hfuel : path.length ≤ fuel) (rank : ℕ) :
    g.traceHotPath metric maxRootPath next fuel rank current =
      some ((path.zipIdx rank).map fun entry =>
        g.mark metric maxRootPath next entry.2 entry.1) := by
  induction h generalizing fuel rank with
  | stop =>
    cases fuel <;> rfl
  | @step v path rest ih =>
    cases fuel with
    | zero => exact absurd hfuel (Nat.not_succ_le_zero _)
    | succ fuel =>
      rw [CallGraphData.traceHotPath, ih (Nat.le_of_succ_le_succ hfuel)]
      rfl

/-- **The path of a node**: it ends, since a next node got its score before. -/
theorem Linked.exists_trail {next : String → Option String} {scores : List (String × ℚ)}
    (h : Linked g metric next scores) {score : ℚ} (hv : scores.lookup v = some score) :
    ∃ path, Trail next (some v) path ∧ path.head? = some v ∧ path.Nodup ∧
      (∀ w ∈ path, scores.lookup w ≠ none) ∧ path.IsChain g.Child ∧
      (path.map (g.getInclusiveMetric metric)).sum = score := by
  have hold : ∀ {w : String} {value : ℚ} {scores : List (String × ℚ)} {path : List String},
      (∀ u ∈ path, scores.lookup u ≠ none) → ∀ u ∈ path, ((w, value) :: scores).lookup u ≠ none := by
    intro w value scores path hpath u hu
    rw [List.lookup_cons]
    split
    · exact Option.some_ne_none value
    · exact hpath u hu
  induction h generalizing v score with
  | nil => exact nomatch hv
  | @leaf w scores rest new last ih =>
    rw [List.lookup_cons] at hv
    split at hv
    · rename_i heq
      cases eq_of_beq heq
      cases hv
      have hstop : Trail next (next w) [] := by
        rw [last]
        exact .stop
      refine ⟨[w], .step hstop, rfl, List.nodup_singleton w, ?_, List.isChain_singleton w, ?_⟩
      · intro u hu
        rw [List.mem_singleton.mp hu, List.lookup_cons_self]
        exact Option.some_ne_none _
      · rw [List.map_singleton, List.sum_singleton]
    · obtain ⟨path, htrail, hhead, hnodup, hscored, hchain, hsum⟩ := ih hv
      exact ⟨path, htrail, hhead, hnodup, hold hscored, hchain, hsum⟩
  | @link w c childScore scores rest new next_eq child score_eq ih =>
    rw [List.lookup_cons] at hv
    split at hv
    · rename_i heq
      cases eq_of_beq heq
      cases hv
      obtain ⟨path, htrail, hhead, hnodup, hscored, hchain, hsum⟩ := ih score_eq
      rw [← next_eq] at htrail
      refine ⟨w :: path, .step htrail, rfl, ?_, ?_, ?_, ?_⟩
      · exact List.nodup_cons.mpr ⟨fun hmem => hscored w hmem new, hnodup⟩
      · intro u hu
        rcases List.mem_cons.mp hu with rfl | hu
        · rw [List.lookup_cons_self]
          exact Option.some_ne_none _
        · exact hold hscored u hu
      · apply hchain.cons
        intro y hy
        rw [hhead] at hy
        cases hy
        exact child
      · rw [List.map_cons, List.sum_cons, hsum]
    · obtain ⟨path, htrail, hhead, hnodup, hscored, hchain, hsum⟩ := ih hv
      exact ⟨path, htrail, hhead, hnodup, hold hscored, hchain, hsum⟩

/-- A path inside the graph. -/
theorem CallGraphData.Closed.path_subset (h : g.Closed) {path : List String}
    (hchain : path.IsChain g.Child) (hhead : ∀ w ∈ path.head?, w ∈ g.names) : path ⊆ g.names := by
  induction path with
  | nil => exact List.nil_subset _
  | cons v path ih =>
    obtain ⟨hnext, hrest⟩ := List.isChain_cons.mp hchain
    apply List.cons_subset.mpr
    refine ⟨hhead v rfl, ih hrest ?_⟩
    intro w hw
    exact h.mem_names_of_child (hnext w hw)

/-- **No path is better** than the score of the node that it begins at. -/
theorem HotPathState.Optimal.sum_le (h : s.Optimal g metric) {path : List String}
    (hchain : path.IsChain g.Child) {score : ℚ} (hhead : path.head? = some v)
    (hv : s.score v = some score) : (path.map (g.getInclusiveMetric metric)).sum ≤ score := by
  induction path generalizing v score with
  | nil => exact nomatch hhead
  | cons w path ih =>
    cases hhead
    rw [List.map_cons, List.sum_cons]
    cases path with
    | nil =>
      rw [List.map_nil, List.sum_nil, add_zero]
      exact h.value w score hv
    | cons c path =>
      obtain ⟨hnext, hrest⟩ := List.isChain_cons.mp hchain
      obtain ⟨childScore, hchild, hle⟩ := h.child w score hv c (hnext c rfl)
      have hpath := ih hrest rfl hchild
      linarith

end Scores

/-- A path of the graph that begins at a root. -/
def CallGraphData.IsRootPath (g : CallGraphData) (path : List String) : Prop :=
  path.IsChain g.Child ∧ ∃ root ∈ g.rootNodes, path.head? = some root

theorem HotPathState.sound_empty (g : CallGraphData) (metric : String) :
    HotPathState.empty.Sound g metric where
  linked := .nil
  visited _ _ h := nomatch h
  next_eq_none _ _ := rfl

theorem HotPathState.optimal_empty (g : CallGraphData) (metric : String) :
    HotPathState.empty.Optimal g metric where
  value _ _ h := nomatch h
  child _ _ h := nomatch h

/-- After a search from the start no node is open. -/
theorem HotPathState.Extends.not_open {s : HotPathState} (h : HotPathState.empty.Extends s)
    (v : String) : ¬s.Open v :=
  fun hopen => List.not_mem_nil ((h.open_iff v).mp hopen).1

section Roots

variable {g : CallGraphData} {metric : String} {best : MaxPath} {s : HotPathState}

/-- **The loop over the roots** goes through. -/
theorem exists_maxPathOf_roots (hclosed : g.Closed) (metric : String) {fuel : ℕ}
    (hfuel : g.nodes.length < fuel) :
    ∃ best s, g.maxPathOf metric fuel g.rootNodes .empty = some (best, s) ∧
      BestOf g metric .empty g.rootNodes best s := by
  have hlength : g.names.length = g.nodes.length := List.length_map _
  apply exists_maxPathOf
  · intro root hroot s hs hextends
    apply exists_computeMaxPath hclosed (hclosed.rootNodes root hroot) hs
    · exact fun _ v hopen => absurd hopen (hextends.not_open v)
    · exact ((unvisited_le_length _ _).trans hlength.le).trans_lt hfuel
  · exact HotPathState.sound_empty g metric

/-- The path that the next nodes lead along from the best root. -/
theorem BestOf.exists_path (h : BestOf g metric .empty g.rootNodes best s) :
    ∃ path, Trail s.hotPathNext best.node path ∧ path.Nodup ∧ path.IsChain g.Child ∧
      path.head? = best.node ∧ (∀ v ∈ path.head?, v ∈ g.rootNodes) ∧
      (path.map (g.getInclusiveMetric metric)).sum = best.path := by
  rcases h.attained with ⟨hnone, hzero⟩ | ⟨root, hroot, hsome, hscore⟩
  · rw [hnone, hzero]
    refine ⟨[], .stop, List.nodup_nil, List.isChain_nil, rfl, ?_, rfl⟩
    intro v hv
    exact nomatch hv
  · obtain ⟨path, htrail, hhead, hnodup, -, hchain, hsum⟩ := h.sound.linked.exists_trail hscore
    rw [hsome]
    refine ⟨path, htrail, hnodup, hchain, hhead, ?_, hsum⟩
    intro v hv
    rw [hhead] at hv
    cases hv
    exact hroot

/-- Every root has a score, none of which is better than the best. -/
theorem BestOf.exists_score (h : BestOf g metric .empty g.rootNodes best s) {root : String}
    (hroot : root ∈ g.rootNodes) : ∃ score, s.score root = some score ∧ score ≤ best.path := by
  cases hscore : s.score root with
  | none => exact absurd ⟨h.visited root hroot, hscore⟩ (h.extend.not_open root)
  | some score => exact ⟨score, rfl, h.score_le root hroot score hscore⟩

end Roots

/-- **The hot path is sound**: the computation ends, the path repeats no node, begins at a root,
follows child edges and adds up to the length recorded; without a cycle no path from a root is
longer, and some path is that long. -/
theorem hot_path_sound {g : CallGraphData} (hclosed : g.Closed) {metric : String}
    (hnonneg : ∀ v ∈ g.names, 0 ≤ g.getInclusiveMetric metric v) {fuel : ℕ}
    (hfuel : g.nodes.length < fuel) :
    ∃ result, g.calculateHotPath metric fuel = some result ∧
      result.names.Nodup ∧ (∀ v ∈ result.names.head?, v ∈ g.rootNodes) ∧
      result.names.IsChain g.Child ∧
      (result.names.map (g.getInclusiveMetric metric)).sum = result.criticalPathLength ∧
      (g.Acyclic →
        (∀ path, g.IsRootPath path →
          (path.map (g.getInclusiveMetric metric)).sum ≤ result.criticalPathLength) ∧
        (g.rootNodes ≠ [] → ∃ path, g.IsRootPath path ∧
          (path.map (g.getInclusiveMetric metric)).sum = result.criticalPathLength)) := by
  obtain ⟨best, s, hloop, hbest⟩ := exists_maxPathOf_roots hclosed metric hfuel
  obtain ⟨path, htrail, hnodup, hchain, hhead, hroots, hsum⟩ := hbest.exists_path
  have hlength : g.names.length = g.nodes.length := List.length_map _
  have hsubset := hclosed.path_subset hchain fun v hv => hclosed.rootNodes v (hroots v hv)
  have hshort : path.length ≤ fuel :=
    ((hnodup.subperm hsubset).length_le.trans hlength.le).trans hfuel.le
  refine ⟨⟨(path.zipIdx 1).map fun entry =>
    g.mark metric best.path s.hotPathNext entry.2 entry.1, best.path⟩, ?_, ?_⟩
  · rw [CallGraphData.calculateHotPath, hloop]
    change (g.traceHotPath metric best.path s.hotPathNext fuel 1 best.node).bind _ = _
    rw [htrail.traceHotPath_eq best.path hshort]
    rfl
  have hnames : HotPath.names ⟨(path.zipIdx 1).map fun entry =>
      g.mark metric best.path s.hotPathNext entry.2 entry.1, best.path⟩ = path := by
    rw [HotPath.names, List.map_map]
    exact List.zipIdx_map_fst 1 path
  rw [hnames]
  refine ⟨hnodup, hroots, hchain, hsum, ?_⟩
  intro hacyclic
  have hoptimal := hbest.optimal hacyclic (HotPathState.optimal_empty g metric)
  constructor
  · rintro other ⟨hother, root, hroot, hfirst⟩
    obtain ⟨score, hscore, hle⟩ := hbest.exists_score hroot
    exact (hoptimal.sum_le hother hfirst hscore).trans hle
  · intro hne
    rcases hbest.attained with ⟨-, hzero⟩ | ⟨root, hroot, hsome, -⟩
    · -- every path scores zero, that of a root alone among them
      obtain ⟨root, hroot⟩ := List.exists_mem_of_ne_nil _ hne
      obtain ⟨score, hscore, hle⟩ := hbest.exists_score hroot
      have hvalue := hoptimal.value root score hscore
      have hpos := hnonneg root (hclosed.rootNodes root hroot)
      refine ⟨[root], ⟨List.isChain_singleton root, root, hroot, rfl⟩, ?_⟩
      rw [List.map_singleton, List.sum_singleton]
      dsimp only
      linarith
    · exact ⟨path, ⟨hchain, root, hroot, hhead.trans hsome⟩, hsum⟩

/-- A call tree in which `b` calls `a` back. -/
def recursiveCalls : CallTreeStatsNode :=
  .mk none 1 (fun _ => 10) [.mk (some "main") 1 (fun _ => 10) [
    .mk (some "c") 1 (fun _ => 3) [],
    .mk (some "a") 1 (fun _ => 6) [.mk (some "b") 1 (fun _ => 4) [
      .mk (some "a") 1 (fun _ => 2) []]]]]

/-- The hot path of a graph with a cycle. -/
theorem hot_path_sound_recursive :
    ∃ result, (CallGraphData.build recursiveCalls).calculateHotPath "wt" 5 = some result ∧
      result.names = ["main", "a", "b"] ∧ result.criticalPathLength = 20 ∧
      (result.names.map ((CallGraphData.build recursiveCalls).getInclusiveMetric "wt")).sum =
        20 := by
  obtain ⟨result, hresult, -, -, -, hsum, -⟩ :=
    @hot_path_sound (.build recursiveCalls) (CallGraphData.wellFormed_build recursiveCalls).toClosed
      "wt" (by decide +kernel) 5 (by decide +kernel)
  have hnames : ((CallGraphData.build recursiveCalls).calculateHotPath "wt" 5).map
      (fun result => (result.names, result.criticalPathLength)) =
        some (["main", "a", "b"], 20) := by decide +kernel
  rw [hresult, Option.map_some, Option.some_inj, Prod.mk.injEq] at hnames
  exact ⟨result, hresult, hnames.1, hnames.2, hsum.trans hnames.2⟩

end PhpSpx.WebUi
