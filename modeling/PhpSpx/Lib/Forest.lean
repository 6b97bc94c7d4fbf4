import Mathlib

/-!
# Ordered forests, bracket words and their costs

A run of properly nested calls is a word of opening and closing brackets, and
such a word is the same thing as an ordered forest: one tree per outermost
call, one child per direct sub-call.  This file develops that correspondence
for arbitrary data carried by the brackets, together with the four statistics
a call-tree profiler computes on a forest.

* `unmatched` — the labels a word leaves open, when its closings name what they
  close; `pending` — the openings it leaves open, whatever its closings are.
* `Forest.word` and `forestOf` — a forest as a word and back; `word_forestOf`
  says every balanced word is the word of its forest.
* `Forest.truncate` — the forest restricted to the calls of small depth.
* `Forest.count`, `Forest.maxCycle`, `Forest.incCost`, `Forest.excCost` — how
  often a key occurs, how deep it is nested in itself, the cost of its
  outermost occurrences and the cost spent in its occurrences themselves, by
  recursion on the forest.
* `Forest.visits` — the nodes one by one, each with its ancestors and its
  children; `countP_visits` and its siblings read the statistics off it.
-/

namespace PhpSpx.Lib

universe u v

/-! ## Words -/

/-- One letter of a bracket word: an opening or a closing, each with its data. -/
inductive Paren (α : Type u) (β : Type v) where
  | opening (a : α)
  | closing (b : β)
  deriving DecidableEq, Repr

/-- The number of brackets left open after a word read from `n` open ones, or
`none` when a closing bracket meets no open one. -/
def height {α : Type u} {β : Type v} : ℕ → List (Paren α β) → Option ℕ
  | n, [] => some n
  | n, .opening _ :: w => height (n + 1) w
  | 0, .closing _ :: _ => none
  | n + 1, .closing _ :: w => height n w

/-- A word in which every bracket is matched. -/
def WellNested {α : Type u} {β : Type v} (w : List (Paren α β)) : Prop := height 0 w = some 0

instance {α : Type u} {β : Type v} (w : List (Paren α β)) : Decidable (WellNested w) :=
  inferInstanceAs (Decidable (height 0 w = some 0))

variable {α : Type u} {β : Type v}

@[simp] theorem height_nil (n : ℕ) : height n ([] : List (Paren α β)) = some n := by
  cases n <;> rfl

@[simp] theorem height_opening (n : ℕ) (a : α) (w : List (Paren α β)) :
    height n (.opening a :: w) = height (n + 1) w := by
  cases n <;> rfl

@[simp] theorem height_closing_zero (b : β) (w : List (Paren α β)) :
    height 0 (.closing b :: w) = none := rfl

@[simp] theorem height_closing_succ (n : ℕ) (b : β) (w : List (Paren α β)) :
    height (n + 1) (.closing b :: w) = height n w := rfl

theorem height_append (n : ℕ) (u w : List (Paren α β)) :
    height n (u ++ w) = (height n u).bind (height · w) := by
  induction u generalizing n with
  | nil => simp
  | cons x u ih =>
    cases x with
    | opening a => simp [ih]
    | closing b =>
      cases n with
      | zero => simp
      | succ n => simp [ih]

/-! ## Labelled words -/

/-- The labels left open by a word whose closings name what they close, read
from the open labels `st`, or `none` when a closing does not name the innermost
open label. -/
def unmatched [DecidableEq α] : List α → List (Paren α α) → Option (List α)
  | st, [] => some st
  | st, .opening a :: w => unmatched (a :: st) w
  | [], .closing _ :: _ => none
  | b :: st, .closing a :: w => if a = b then unmatched st w else none

theorem unmatched_append [DecidableEq α] (st : List α) (u w : List (Paren α α)) :
    unmatched st (u ++ w) = (unmatched st u).bind (unmatched · w) := by
  induction u generalizing st with
  | nil => cases st <;> rfl
  | cons x u ih =>
    cases x with
    | opening a => cases st <;> exact ih _
    | closing a =>
      cases st with
      | nil => rfl
      | cons b st =>
        simp only [List.cons_append, unmatched]
        split
        · exact ih st
        · rfl

theorem unmatched_concat_opening [DecidableEq α] {st st' : List α} {w : List (Paren α α)}
    (h : unmatched st w = some st') (a : α) :
    unmatched st (w ++ [.opening a]) = some (a :: st') := by
  rw [unmatched_append, h]
  cases st' <;> rfl

theorem unmatched_concat_closing [DecidableEq α] {st st' : List α} {w : List (Paren α α)} {a : α}
    (h : unmatched st w = some (a :: st')) :
    unmatched st (w ++ [.closing a]) = some st' := by
  rw [unmatched_append, h]
  simp only [Option.bind_some, unmatched, if_true]

/-! ## Pending openings -/

/-- The openings left without a closing, innermost first, after a word read from
the openings `st`, or `none` when a closing meets none. -/
def pending : List α → List (Paren α β) → Option (List α)
  | st, [] => some st
  | st, .opening a :: w => pending (a :: st) w
  | [], .closing _ :: _ => none
  | _ :: st, .closing _ :: w => pending st w

@[simp] theorem pending_nil (st : List α) : pending st ([] : List (Paren α β)) = some st := by
  cases st <;> rfl

@[simp] theorem pending_opening (st : List α) (a : α) (w : List (Paren α β)) :
    pending st (.opening a :: w) = pending (a :: st) w := by
  cases st <;> rfl

@[simp] theorem pending_closing_cons (a : α) (st : List α) (b : β) (w : List (Paren α β)) :
    pending (a :: st) (.closing b :: w) = pending st w := rfl

theorem pending_append (st : List α) (u w : List (Paren α β)) :
    pending st (u ++ w) = (pending st u).bind (pending · w) := by
  induction u generalizing st with
  | nil => simp
  | cons x u ih =>
    cases x with
    | opening a => simp [ih]
    | closing b =>
      cases st with
      | nil => rfl
      | cons a st => exact ih st

theorem length_pending_le {st st' : List α} {w : List (Paren α β)} (h : pending st w = some st') :
    st'.length ≤ st.length + w.length := by
  induction w generalizing st with
  | nil =>
    obtain rfl : st = st' := by simpa using h
    exact Nat.le_add_right _ _
  | cons x w ih =>
    cases x with
    | opening a =>
      rw [pending_opening] at h
      have hle := ih h
      simp only [List.length_cons] at hle ⊢
      omega
    | closing b =>
      cases st with
      | nil => cases h
      | cons a st =>
        have hle := ih (by simpa using h)
        simp only [List.length_cons] at hle ⊢
        omega

theorem pending_map_opening (st as : List α) :
    pending st (as.map (Paren.opening (β := β))) = some (as.reverse ++ st) := by
  induction as generalizing st with
  | nil => simp
  | cons a as ih => simp [ih]

theorem pending_replicate_closing {n : ℕ} {st : List α} (h : n ≤ st.length) (b : β) :
    pending st (List.replicate n (.closing b)) = some (st.drop n) := by
  induction n generalizing st with
  | zero => simp
  | succ n ih =>
    cases st with
    | nil => simp at h
    | cons a st =>
      rw [List.replicate_succ, pending_closing_cons, List.drop_succ_cons]
      exact ih (Nat.le_of_succ_le_succ h)

/-! ## Forests -/

/-- An ordered forest in first-child, next-sibling form.  A node carries what
its opening and its closing bracket carry. -/
inductive Forest (α : Type u) (β : Type v) where
  | nil
  | node (a : α) (b : β) (children siblings : Forest α β)
  deriving DecidableEq, Repr

namespace Forest

/-- The word of a forest. -/
def word : Forest α β → List (Paren α β)
  | .nil => []
  | .node a b c s => .opening a :: (c.word ++ .closing b :: s.word)

@[simp] theorem word_nil : (nil : Forest α β).word = [] := rfl

@[simp] theorem word_node (a : α) (b : β) (c s : Forest α β) :
    (node a b c s).word = .opening a :: (c.word ++ .closing b :: s.word) := rfl

/-- The forest of the nodes of depth below `m`. -/
def truncate : ℕ → Forest α β → Forest α β
  | _, .nil => .nil
  | 0, .node _ _ _ _ => .nil
  | m + 1, .node a b c s => .node a b (truncate m c) (truncate (m + 1) s)

@[simp] theorem truncate_nil (m : ℕ) : truncate m (nil : Forest α β) = nil := by
  cases m <;> rfl

@[simp] theorem truncate_zero (F : Forest α β) : truncate 0 F = nil := by
  cases F <;> rfl

@[simp] theorem truncate_succ_node (m : ℕ) (a : α) (b : β) (c s : Forest α β) :
    truncate (m + 1) (node a b c s) = node a b (truncate m c) (truncate (m + 1) s) := rfl

/-- The opening data of the nodes, each node before its children. -/
def labels : Forest α β → List α
  | .nil => []
  | .node a _ c s => a :: (c.labels ++ s.labels)

@[simp] theorem labels_nil : (nil : Forest α β).labels = [] := rfl

@[simp] theorem labels_node (a : α) (b : β) (c s : Forest α β) :
    (node a b c s).labels = a :: (c.labels ++ s.labels) := rfl

/-- Change the data of every node. -/
def map {γ δ : Type*} (f : α → γ) (g : β → δ) : Forest α β → Forest γ δ
  | .nil => .nil
  | .node a b c s => .node (f a) (g b) (c.map f g) (s.map f g)

@[simp] theorem map_nil {γ δ : Type*} (f : α → γ) (g : β → δ) :
    (nil : Forest α β).map f g = nil := rfl

@[simp] theorem map_node {γ δ : Type*} (f : α → γ) (g : β → δ) (a : α) (b : β)
    (c s : Forest α β) :
    (node a b c s).map f g = node (f a) (g b) (c.map f g) (s.map f g) := rfl

end Forest

/-! ## The forest of a word -/

/-- Read a word from the right.  The result is the forest to the right of the
reading position at the current level, and then, for each enclosing level, the
closing data met and the forest that follows it. -/
def levels : List (Paren α β) → Forest α β × List (β × Forest α β)
  | [] => (.nil, [])
  | .closing b :: w => (.nil, (b, (levels w).1) :: (levels w).2)
  | .opening a :: w =>
      match levels w with
      | (c, (b, s) :: ls) => (.node a b c s, ls)
      | (c, []) => (c, [])

/-- The forest of a word. -/
def forestOf (w : List (Paren α β)) : Forest α β := (levels w).1

/-- The word of the enclosing levels. -/
def levelsWord : List (β × Forest α β) → List (Paren α β)
  | [] => []
  | (b, s) :: ls => .closing b :: (s.word ++ levelsWord ls)

theorem levels_spec (w : List (Paren α β)) :
    ∀ n, height n w = some 0 →
      (levels w).2.length = n ∧ (levels w).1.word ++ levelsWord (levels w).2 = w := by
  induction w with
  | nil =>
    intro n h
    have hn : n = 0 := by simpa using h
    subst hn
    exact ⟨rfl, rfl⟩
  | cons x w ih =>
    intro n h
    cases x with
    | closing b =>
      cases n with
      | zero => simp at h
      | succ n =>
        obtain ⟨hlen, hword⟩ := ih n (by simpa using h)
        exact ⟨by simp [levels, hlen], by simp [levels, levelsWord, hword]⟩
    | opening a =>
      obtain ⟨hlen, hword⟩ := ih (n + 1) (by simpa using h)
      rcases hl : levels w with ⟨c, ls⟩
      rw [hl] at hlen hword
      cases ls with
      | nil => simp at hlen
      | cons bs ls =>
        obtain ⟨b, s⟩ := bs
        have hls : ls.length = n := by simpa using hlen
        have hcons : levels (.opening a :: w) = (.node a b c s, ls) := by simp [levels, hl]
        rw [hcons]
        refine ⟨hls, ?_⟩
        simpa [levelsWord] using hword

/-- **Every balanced word is the word of its forest.** -/
theorem word_forestOf {w : List (Paren α β)} (h : WellNested w) : (forestOf w).word = w := by
  obtain ⟨hlen, hword⟩ := levels_spec w 0 h
  have hnil : (levels w).2 = [] := List.eq_nil_of_length_eq_zero hlen
  rw [hnil] at hword
  simpa [forestOf, levelsWord] using hword

/-! ## Statistics of a forest -/

namespace Forest

section Statistics

variable {φ : Type*} [DecidableEq φ] {M : Type*} [AddCommGroup M]
variable (key : α → φ) (cost : α → β → M)

/-- How many nodes have the key `f`. -/
def count (f : φ) : Forest α β → ℕ
  | .nil => 0
  | .node a _ c s => (if key a = f then 1 else 0) + count f c + count f s

/-- The largest number of proper ancestors of key `f` a node of key `f` has,
when `k` such ancestors lie outside the forest. -/
def maxCycle (f : φ) : ℕ → Forest α β → ℕ
  | _, .nil => 0
  | k, .node a _ c s =>
      if key a = f then max k (max (maxCycle f (k + 1) c) (maxCycle f k s))
      else max (maxCycle f k c) (maxCycle f k s)

/-- The cost of the roots. -/
def rootCost : Forest α β → M
  | .nil => 0
  | .node a b _ s => cost a b + rootCost s

/-- The cost of the nodes of key `f` that have no proper ancestor of key `f`. -/
def incCost (f : φ) : Forest α β → M
  | .nil => 0
  | .node a b c s => (if key a = f then cost a b else incCost f c) + incCost f s

/-- The cost of all nodes of key `f`, each less the cost of its children. -/
def excCost (f : φ) : Forest α β → M
  | .nil => 0
  | .node a b c s =>
      (if key a = f then cost a b - rootCost cost c else 0) + excCost f c + excCost f s

theorem count_eq_count_labels (f : φ) (F : Forest α β) :
    F.count key f = (F.labels.map key).count f := by
  induction F with
  | nil => rfl
  | node a b c s ihc ihs =>
    simp only [count, ihc, ihs, labels_node, List.map_cons, List.map_append, List.count_cons,
      List.count_append, beq_iff_eq]
    omega

/-! ### The statistics node by node -/

/-- A node with its proper ancestors, innermost first, and its children. -/
structure Visit (α : Type u) (β : Type v) where
  opening : α
  closing : β
  ancestors : List α
  children : List (α × β)

/-- How many ancestors of key `f` a node has. -/
def Visit.cycleDepth (f : φ) (v : Visit α β) : ℕ := v.ancestors.countP fun a => key a = f

/-- A node of key `f` without an ancestor of key `f`. -/
def Visit.outermost (f : φ) (v : Visit α β) : Bool :=
  key v.opening = f ∧ v.cycleDepth key f = 0

/-- The cost of a node less that of its children. -/
def Visit.ownCost (v : Visit α β) : M :=
  cost v.opening v.closing - (v.children.map fun r => cost r.1 r.2).sum

/-- The data of the roots. -/
def roots : Forest α β → List (α × β)
  | .nil => []
  | .node a b _ s => (a, b) :: s.roots

/-- The nodes of a forest below the given ancestors. -/
def visits : List α → Forest α β → List (Visit α β)
  | _, .nil => []
  | ancestors, .node a b c s =>
      ⟨a, b, ancestors, c.roots⟩ :: (visits (a :: ancestors) c ++ visits ancestors s)

@[simp] theorem visits_nil (ancestors : List α) :
    (nil : Forest α β).visits ancestors = [] := rfl

@[simp] theorem visits_node (ancestors : List α) (a : α) (b : β) (c s : Forest α β) :
    (node a b c s).visits ancestors
      = ⟨a, b, ancestors, c.roots⟩ :: (c.visits (a :: ancestors) ++ s.visits ancestors) := rfl

theorem sum_roots (F : Forest α β) :
    (F.roots.map fun r => cost r.1 r.2).sum = F.rootCost cost := by
  induction F with
  | nil => rfl
  | node a b c s _ ihs => simp [roots, rootCost, ihs]

theorem countP_visits (f : φ) (F : Forest α β) (ancestors : List α) :
    (F.visits ancestors).countP (fun v => key v.opening = f) = F.count key f := by
  induction F generalizing ancestors with
  | nil => rfl
  | node a b c s ihc ihs =>
    simp only [visits_node, List.countP_cons, List.countP_append, ihc, ihs, count,
      decide_eq_true_eq]
    omega

/-- The largest number of ancestors of key `f` a visited node of key `f` has. -/
theorem foldr_max_visits (f : φ) (F : Forest α β) (ancestors : List α) :
    (((F.visits ancestors).filter fun v => key v.opening = f).map
        (Visit.cycleDepth key f)).foldr max 0
      = F.maxCycle key f (ancestors.countP fun a => key a = f) := by
  have happend : ∀ l l' : List ℕ, (l ++ l').foldr max 0 = max (l.foldr max 0) (l'.foldr max 0) := by
    intro l l'
    induction l with
    | nil => simp
    | cons n l ih => simp [ih, max_assoc]
  induction F generalizing ancestors with
  | nil => rfl
  | node a b c s ihc ihs =>
    by_cases ha : key a = f
    · simp [maxCycle, ha, happend, ihc, ihs, Visit.cycleDepth]
    · simp [maxCycle, ha, happend, ihc, ihs]

/-- The cost of the outermost visited nodes of key `f`. -/
theorem sum_inc_visits (f : φ) (F : Forest α β) (ancestors : List α) :
    (((F.visits ancestors).filter (Visit.outermost key f)).map fun v =>
        cost v.opening v.closing).sum
      = if (ancestors.countP fun a => key a = f) = 0 then F.incCost key cost f else 0 := by
  induction F generalizing ancestors with
  | nil => simp [incCost]
  | node a b c s ihc ihs =>
    have hhead : (⟨a, b, ancestors, c.roots⟩ : Visit α β).outermost key f
        = decide (key a = f ∧ (ancestors.countP fun a => key a = f) = 0) := rfl
    rw [visits_node, List.filter_cons, List.filter_append, hhead]
    by_cases ha : key a = f <;> by_cases hanc : (ancestors.countP fun a => key a = f) = 0 <;>
      simp only [ha, hanc, incCost, ihc, ihs, List.map_cons, List.map_append, List.sum_cons,
        List.sum_append, List.countP_cons, decide_true, decide_false, and_self, and_false, false_and,
        if_true, if_false, Bool.false_eq_true, Nat.succ_ne_zero, zero_add, add_zero]

/-- The cost of all visited nodes of key `f`, each less that of its children. -/
theorem sum_exc_visits (f : φ) (F : Forest α β) (ancestors : List α) :
    (((F.visits ancestors).filter fun v => key v.opening = f).map (Visit.ownCost cost)).sum
      = F.excCost key cost f := by
  induction F generalizing ancestors with
  | nil => rfl
  | node a b c s ihc ihs =>
    by_cases ha : key a = f
    · simp [excCost, ha, ihc, ihs, Visit.ownCost, sum_roots, add_assoc]
    · simp [excCost, ha, ihc, ihs]

end Statistics

end Forest

end PhpSpx.Lib
