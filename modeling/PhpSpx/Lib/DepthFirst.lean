import Mathlib.Data.Finset.Card
import Mathlib.Data.List.Infix
import Mathlib.Order.Bounds.Basic
import PhpSpx.Lib.Descent

/-!
# Depth-first search

Rules for a search that visits the nodes of a finite graph, each at most once.  A search that
tries the branches in order visits the places of the tree that `follow` unfolds in lexicographic
order; when the graph has no cycle it goes on from a state at the first place of the state only.

* `exists_foldlM_eq_some` — a loop over the branches.
* `unvisited` — how many nodes are left, which bounds the depth of the search.
* `reachedBefore` — the states reached so far.
* `callsBefore` — the places tried so far.
-/

namespace PhpSpx.Lib

universe u v

/-! ## Loops -/

/-- **A loop whose body may fail** goes through when the body keeps an invariant of what is
done. -/
theorem exists_foldlM_eq_some {σ : Type u} {α : Type v} {f : σ → α → Option σ}
    {I : List α → σ → Prop} {l : List α}
    (hstep : ∀ done x todo s, l = done ++ x :: todo → I done s →
      ∃ s', f s x = some s' ∧ I (done ++ [x]) s')
    {s : σ} (hs : I [] s) : ∃ s', l.foldlM f s = some s' ∧ I l s' := by
  have hrest : ∀ todo done s, l = done ++ todo → I done s →
      ∃ s', todo.foldlM f s = some s' ∧ I l s' := by
    intro todo
    induction todo with
    | nil =>
      intro done s hl hdone
      rw [List.append_nil] at hl
      exact ⟨s, rfl, hl ▸ hdone⟩
    | cons x todo ih =>
      intro done s hl hdone
      obtain ⟨next, hnext, hinv⟩ := hstep done x todo s hl hdone
      obtain ⟨s', hs', hend⟩ := ih (done ++ [x]) next (by rw [hl, List.append_cons]) hinv
      refine ⟨s', ?_, hend⟩
      rw [List.foldlM_cons, hnext]
      exact hs'
  exact hrest l [] s rfl hs

/-! ## Nodes left -/

section Unvisited

variable {V : Type u} [DecidableEq V] {nodes visited visited' : List V}

/-- The number of nodes that are not visited. -/
def unvisited (nodes visited : List V) : ℕ := (nodes.toFinset \ visited.toFinset).card

theorem unvisited_le_length (nodes visited : List V) : unvisited nodes visited ≤ nodes.length :=
  (Finset.card_le_card Finset.sdiff_subset).trans nodes.toFinset_card_le

theorem unvisited_mono (h : visited ⊆ visited') :
    unvisited nodes visited' ≤ unvisited nodes visited := by
  apply Finset.card_le_card
  apply Finset.sdiff_subset_sdiff subset_rfl
  intro v hv
  exact List.mem_toFinset.mpr (h (List.mem_toFinset.mp hv))

theorem unvisited_cons_lt {v : V} (hv : v ∈ nodes) (hnew : v ∉ visited) :
    unvisited nodes (v :: visited) < unvisited nodes visited := by
  apply Finset.card_lt_card
  rw [Finset.ssubset_iff_of_subset]
  · refine ⟨v, ?_, ?_⟩
    · rw [Finset.mem_sdiff, List.mem_toFinset, List.mem_toFinset]
      exact ⟨hv, hnew⟩
    · rw [Finset.mem_sdiff, not_and_not_right, List.mem_toFinset, List.mem_toFinset]
      exact fun _ => List.mem_cons_self
  · apply Finset.sdiff_subset_sdiff subset_rfl
    intro w hw
    exact List.mem_toFinset.mpr (List.mem_cons_of_mem v (List.mem_toFinset.mp hw))

end Unvisited

/-! ## Places in lexicographic order -/

theorem lt_append_of_lt {p q : List ℕ} (h : q < p) (r : List ℕ) : q < p ++ r := by
  induction h with
  | nil => exact List.Lex.nil
  | rel hlt => exact List.Lex.rel hlt
  | cons _ ih => exact List.Lex.cons ih

theorem lt_append_cons (p : List ℕ) (i : ℕ) (r : List ℕ) : p < p ++ i :: r := by
  induction p with
  | nil => exact List.Lex.nil
  | cons a p ih => exact List.Lex.cons ih

/-- What is before a place and not on the way to it stays before it, however both go on. -/
theorem append_lt_append_of_not_prefix {p q : List ℕ} (h : q < p) (hnot : ¬q <+: p)
    (r r' : List ℕ) : q ++ r < p ++ r' := by
  induction h with
  | nil => exact absurd List.nil_prefix hnot
  | rel hlt => exact List.Lex.rel hlt
  | cons _ ih =>
    apply List.Lex.cons
    apply ih
    intro hprefix
    exact hnot (List.cons_prefix_cons.mpr ⟨rfl, hprefix⟩)

theorem append_singleton_lt_append_cons {i j : ℕ} (h : i < j) (p r r' : List ℕ) :
    p ++ i :: r < p ++ j :: r' := by
  induction p with
  | nil => exact List.Lex.rel h
  | cons a p ih => exact List.Lex.cons ih

/-- Before the first branch of a place is the place itself, and nothing else that is new. -/
theorem lt_append_zero_iff {p q : List ℕ} : q < p ++ [0] ↔ q < p ∨ q = p := by
  constructor
  · intro h
    induction p generalizing q with
    | nil =>
      cases h with
      | nil => exact .inr rfl
      | rel hlt => exact absurd hlt (Nat.not_lt_zero _)
      | cons hlex => exact nomatch hlex
    | cons a p ih =>
      cases h with
      | nil => exact .inl List.Lex.nil
      | rel hlt => exact .inl (List.Lex.rel hlt)
      | cons hlex =>
        rcases ih hlex with hlt | rfl
        · exact .inl (List.Lex.cons hlt)
        · exact .inr rfl
  · rintro (h | rfl)
    · exact lt_append_of_lt h [0]
    · exact lt_append_cons q 0 []

/-- Before the next branch of a place is what is before a branch, and what is below that. -/
theorem lt_append_succ_iff {p q : List ℕ} {i : ℕ} :
    q < p ++ [i + 1] ↔ q < p ++ [i] ∨ p ++ [i] <+: q := by
  constructor
  · intro h
    induction p generalizing q with
    | nil =>
      cases h with
      | nil => exact .inl List.Lex.nil
      | rel hlt =>
        rcases Nat.lt_succ_iff_lt_or_eq.mp hlt with hlt | rfl
        · exact .inl (List.Lex.rel hlt)
        · exact .inr (List.cons_prefix_cons.mpr ⟨rfl, List.nil_prefix⟩)
      | cons hlex => exact nomatch hlex
    | cons a p ih =>
      cases h with
      | nil => exact .inl List.Lex.nil
      | rel hlt => exact .inl (List.Lex.rel hlt)
      | cons hlex =>
        rcases ih hlex with hlt | hprefix
        · exact .inl (List.Lex.cons hlt)
        · exact .inr (List.cons_prefix_cons.mpr ⟨rfl, hprefix⟩)
  · rintro (h | ⟨r, rfl⟩)
    · exact h.trans (append_singleton_lt_append_cons (Nat.lt_succ_self i) p [] [])
    · rw [List.append_assoc]
      exact append_singleton_lt_append_cons (Nat.lt_succ_self i) p r []

/-! ## The search -/

section Search

variable {σ : Type u} {step : σ → ℕ → Option σ} {root s s' : σ} {place q : List ℕ} {i : ℕ}

/-- The states at the places before a bound. -/
def reachedBefore (step : σ → ℕ → Option σ) (root : σ) (bound : List ℕ) : Set σ :=
  {s | ∃ q < bound, follow step q root = some s}

/-- The first place of a state. -/
structure IsFirst (step : σ → ℕ → Option σ) (root : σ) (place : List ℕ) (s : σ) : Prop where
  follow_eq : follow step place root = some s
  not_lt : ∀ q, follow step q root = some s → ¬q < place

/-- A place that is tried: one branch below the first place of a state. -/
def IsCall (step : σ → ℕ → Option σ) (root : σ) (q : List ℕ) (s' : σ) : Prop :=
  ∃ place i s, q = place ++ [i] ∧ IsFirst step root place s ∧ step s i = some s'

/-- The places of a state that are tried before a bound. -/
def callsBefore (step : σ → ℕ → Option σ) (root : σ) (bound : List ℕ) (s : σ) : Set (List ℕ) :=
  {q | IsCall step root q s ∧ q < bound}

theorem isFirst_of_notMem (h : follow step place root = some s)
    (hnew : s ∉ reachedBefore step root place) : IsFirst step root place s where
  follow_eq := h
  not_lt q hq hlt := hnew ⟨q, hlt, hq⟩

theorem follow_append_singleton (h : follow step place root = some s) (i : ℕ) :
    follow step (place ++ [i]) root = step s i := by
  rw [follow_append, h, Option.bind_some, follow]
  exact Option.bind_fun_some (step s i)

theorem IsCall.follow_eq (h : IsCall step root q s') : follow step q root = some s' := by
  obtain ⟨place, i, s, rfl, hfirst, hstep⟩ := h
  rw [follow_append_singleton hfirst.follow_eq, hstep]

/-- **No place before a bound** is missed by a search that stops behind the last branch. -/
theorem lt_append_iff_of_step_eq_none (hplace : follow step (place ++ [i]) root = some s) {n : ℕ}
    (hnone : ∀ j, n ≤ j → step s j = none) (hq : follow step q root = some s') :
    q < place ++ [i] ++ [n] ↔ q < place ++ [i + 1] := by
  rw [lt_append_succ_iff]
  constructor
  · intro h
    by_cases hprefix : place ++ [i] <+: q
    · exact .inr hprefix
    · left
      rcases lt_trichotomy q (place ++ [i]) with hlt | rfl | hgt
      · exact hlt
      · exact absurd List.prefix_rfl hprefix
      · have hlt := append_lt_append_of_not_prefix hgt hprefix [n] []
        rw [List.append_nil] at hlt
        exact absurd h hlt.not_gt
  · rintro (h | ⟨r, rfl⟩)
    · exact lt_append_of_lt h [n]
    · cases r with
      | nil =>
        rw [List.append_nil]
        exact lt_append_cons _ n []
      | cons j r =>
        apply append_singleton_lt_append_cons
        by_contra hle
        rw [follow_append, hplace, Option.bind_some, follow, hnone j (Nat.not_lt.mp hle)] at hq
        cases hq

theorem reachedBefore_mono {bound bound' : List ℕ} (h : bound < bound') :
    reachedBefore step root bound ⊆ reachedBefore step root bound' := by
  rintro s ⟨q, hlt, hq⟩
  exact ⟨q, hlt.trans h, hq⟩

/-- Entering a state. -/
theorem mem_reachedBefore_enter (hplace : follow step place root = some s) :
    s' ∈ reachedBefore step root (place ++ [0]) ↔ s' = s ∨ s' ∈ reachedBefore step root place := by
  constructor
  · rintro ⟨q, hlt, hq⟩
    rcases lt_append_zero_iff.mp hlt with hlt | rfl
    · exact .inr ⟨q, hlt, hq⟩
    · rw [hplace] at hq
      exact .inl (Option.some.inj hq).symm
  · rintro (rfl | ⟨q, hlt, hq⟩)
    · exact ⟨place, lt_append_cons place 0 [], hplace⟩
    · exact ⟨q, lt_append_of_lt hlt [0], hq⟩

theorem mem_callsBefore_enter (hcall : IsCall step root place s) :
    q ∈ callsBefore step root (place ++ [0]) s' ↔
      q = place ∧ s' = s ∨ q ∈ callsBefore step root place s' := by
  constructor
  · rintro ⟨hq, hlt⟩
    rcases lt_append_zero_iff.mp hlt with hlt | rfl
    · exact .inr ⟨hq, hlt⟩
    · have heq := hq.follow_eq.symm.trans hcall.follow_eq
      exact .inl ⟨rfl, Option.some.inj heq⟩
  · rintro (⟨rfl, rfl⟩ | ⟨hq, hlt⟩)
    · exact ⟨hcall, lt_append_cons q 0 []⟩
    · exact ⟨hq, lt_append_of_lt hlt [0]⟩

/-- Leaving a state. -/
theorem reachedBefore_leave (hplace : follow step (place ++ [i]) root = some s) {n : ℕ}
    (hnone : ∀ j, n ≤ j → step s j = none) :
    reachedBefore step root (place ++ [i] ++ [n]) = reachedBefore step root (place ++ [i + 1]) := by
  ext s'
  constructor
  · rintro ⟨q, hlt, hq⟩
    exact ⟨q, (lt_append_iff_of_step_eq_none hplace hnone hq).mp hlt, hq⟩
  · rintro ⟨q, hlt, hq⟩
    exact ⟨q, (lt_append_iff_of_step_eq_none hplace hnone hq).mpr hlt, hq⟩

theorem callsBefore_leave (hplace : follow step (place ++ [i]) root = some s) {n : ℕ}
    (hnone : ∀ j, n ≤ j → step s j = none) (s' : σ) :
    callsBefore step root (place ++ [i] ++ [n]) s' = callsBefore step root (place ++ [i + 1]) s' := by
  ext q
  constructor
  · rintro ⟨hq, hlt⟩
    exact ⟨hq, (lt_append_iff_of_step_eq_none hplace hnone hq.follow_eq).mp hlt⟩
  · rintro ⟨hq, hlt⟩
    exact ⟨hq, (lt_append_iff_of_step_eq_none hplace hnone hq.follow_eq).mpr hlt⟩

/-! ### Without cycles -/

section Acyclic

variable (hacyclic : ∀ q s, follow step q s = some s → q = [])

include hacyclic

/-- A state met again: what is below it was reached before. -/
theorem exists_lt_of_mem_reachedBefore (hplace : follow step place root = some s)
    (hmet : s ∈ reachedBefore step root place) {r : List ℕ}
    (hr : follow step (place ++ r) root = some s') :
    ∃ q, q < place ∧ q < place ++ r ∧ follow step q root = some s' := by
  obtain ⟨q, hlt, hq⟩ := hmet
  have hnot : ¬q <+: place := by
    rintro ⟨r', rfl⟩
    rw [follow_append, hq, Option.bind_some] at hplace
    cases hacyclic r' s hplace
    rw [List.append_nil] at hlt
    exact lt_irrefl q hlt
  rw [follow_append, hplace, Option.bind_some] at hr
  refine ⟨q ++ r, ?_, append_lt_append_of_not_prefix hlt hnot r r, ?_⟩
  · have hlt' := append_lt_append_of_not_prefix hlt hnot r []
    rwa [List.append_nil] at hlt'
  · rw [follow_append, hq, Option.bind_some, hr]

theorem reachedBefore_again (hplace : follow step (place ++ [i]) root = some s)
    (hmet : s ∈ reachedBefore step root (place ++ [i])) :
    reachedBefore step root (place ++ [i + 1]) = reachedBefore step root (place ++ [i]) := by
  apply Set.Subset.antisymm
  · rintro s' ⟨q, hlt, hq⟩
    rcases lt_append_succ_iff.mp hlt with hlt | ⟨r, rfl⟩
    · exact ⟨q, hlt, hq⟩
    · obtain ⟨q', hlt', -, hq'⟩ := exists_lt_of_mem_reachedBefore hacyclic hplace hmet hq
      exact ⟨q', hlt', hq'⟩
  · exact reachedBefore_mono (append_singleton_lt_append_cons (Nat.lt_succ_self i) place [] [])

theorem mem_callsBefore_again (hcall : IsCall step root (place ++ [i]) s)
    (hmet : s ∈ reachedBefore step root (place ++ [i])) :
    q ∈ callsBefore step root (place ++ [i + 1]) s' ↔
      q = place ++ [i] ∧ s' = s ∨ q ∈ callsBefore step root (place ++ [i]) s' := by
  have hstep : place ++ [i] < place ++ [i + 1] :=
    append_singleton_lt_append_cons (Nat.lt_succ_self i) place [] []
  constructor
  · rintro ⟨hq, hlt⟩
    rcases lt_append_succ_iff.mp hlt with hlt | hprefix
    · exact .inr ⟨hq, hlt⟩
    · obtain ⟨place', j, s₀, rfl, hfirst, hlast⟩ := hq
      rcases List.prefix_concat_iff.mp hprefix with heq | ⟨r, rfl⟩
      · have hfollow : follow step (place' ++ [j]) root = some s' := by
          rw [follow_append_singleton hfirst.follow_eq, hlast]
        rw [← heq, hcall.follow_eq] at hfollow
        exact .inl ⟨heq.symm, (Option.some.inj hfollow).symm⟩
      · -- what is below a state met again was reached before, so no search goes on from it
        obtain ⟨q', -, hlt', hq'⟩ :=
          exists_lt_of_mem_reachedBefore hacyclic hcall.follow_eq hmet hfirst.follow_eq
        exact absurd hlt' (hfirst.not_lt q' hq')
  · rintro (⟨rfl, rfl⟩ | ⟨hq, hlt⟩)
    · exact ⟨hcall, hstep⟩
    · exact ⟨hq, hlt.trans hstep⟩

end Acyclic

end Search

end PhpSpx.Lib
