import Mathlib.Algebra.Order.Ring.Defs
import Mathlib.Tactic.Linarith
import Mathlib.Tactic.Ring

/-!
# Time spent in nested spans

Labelled spans that begin and finish one inside the other, with two totals for each label: the
inclusive one adds up the spans that are in no other span of the label, the exclusive one what
of them is spent in no span of another label.  A span keeps what is to be taken from it: it is
charged with the spans directly inside it, and given back what an inner span of its label kept
for itself.

* `Owned` — no span is charged more than the time that has passed in it alone.
* `Covered` — what has been given back is still to be charged to a span around it.
* `Ledger.begin`, `Ledger.finish` — the two operations.
* `Ledger.Sound` — the invariant; `Ledger.Sound.bounds` is what it says of the totals.
-/

namespace PhpSpx.Lib

universe u v

/-- An open span: its label, when it began and what is to be taken from its time. -/
structure Span (ι : Type u) (α : Type v) where
  label : ι
  start : α
  charged : α

variable {ι : Type u} {α : Type v} [CommRing α] [LinearOrder α] [IsStrictOrderedRing α]

namespace Span

/-! ## Open spans -/

/-- Charge a cost to the innermost span. -/
def charge (cost : α) : List (Span ι α) → List (Span ι α)
  | [] => []
  | s :: spans => { s with charged := s.charged + cost } :: spans

/-- Give a cost back to the innermost span of a label. -/
def credit [DecidableEq ι] (i : ι) (cost : α) : List (Span ι α) → List (Span ι α)
  | [] => []
  | s :: spans =>
    if s.label = i then { s with charged := s.charged - cost } :: spans
    else s :: credit i cost spans

/-- The beginning of the outermost span of a label, or `now` when there is none. -/
def outermost [DecidableEq ι] (i : ι) : α → List (Span ι α) → α
  | now, [] => now
  | now, s :: spans => outermost i (if s.label = i then s.start else now) spans

/-- The spans began one after the other, and each is charged no more than the time that passed
in it and in no inner one. -/
def Owned : α → List (Span ι α) → Prop
  | _, [] => True
  | now, s :: spans => s.start ≤ now ∧ s.charged ≤ now - s.start ∧ Owned s.start spans

/-- What the spans are charged with, added up from the innermost one on, is never negative. -/
def Covered : α → List (Span ι α) → Prop
  | _, [] => True
  | sum, s :: spans => 0 ≤ sum + s.charged ∧ Covered (sum + s.charged) spans

section Owned

variable {now now' : α} {spans : List (Span ι α)}

theorem Owned.later (h : Owned now spans) (hle : now ≤ now') : Owned now' spans := by
  cases spans with
  | nil => trivial
  | cons s spans =>
    obtain ⟨hstart, hcharged, hspans⟩ := h
    exact ⟨by linarith, by linarith, hspans⟩

/-- Time that passed in an inner span is charged. -/
theorem Owned.charge (h : Owned now spans) (hle : now ≤ now') :
    Owned now' (charge (now' - now) spans) := by
  cases spans with
  | nil => trivial
  | cons s spans =>
    obtain ⟨hstart, hcharged, hspans⟩ := h
    refine ⟨?_, ?_, hspans⟩
    · dsimp only
      linarith
    · dsimp only
      linarith

theorem Owned.credit [DecidableEq ι] (h : Owned now spans) (i : ι) {cost : α} (hcost : 0 ≤ cost) :
    Owned now (credit i cost spans) := by
  induction spans generalizing now with
  | nil => trivial
  | cons s spans ih =>
    obtain ⟨hstart, hcharged, hspans⟩ := h
    rw [Span.credit]
    split
    · refine ⟨hstart, ?_, hspans⟩
      dsimp only
      linarith
    · exact ⟨hstart, hcharged, ih hspans⟩

end Owned

section Covered

variable {sum cost : α} {spans : List (Span ι α)}

omit [IsStrictOrderedRing α] in
/-- A charge makes up for what was missing. -/
theorem Covered.charge (h : Covered sum spans) (cost : α) :
    Covered (sum - cost) (charge cost spans) := by
  cases spans with
  | nil => trivial
  | cons s spans =>
    obtain ⟨hsum, hspans⟩ := h
    have heq : sum - cost + (s.charged + cost) = sum + s.charged := by ring
    refine ⟨?_, ?_⟩
    · dsimp only
      rwa [heq]
    · dsimp only
      rwa [heq]

/-- What is given back was missing before. -/
theorem Covered.credit [DecidableEq ι] (h : Covered (sum - cost) spans) (i : ι) (hcost : 0 ≤ cost) :
    Covered sum (credit i cost spans) := by
  induction spans generalizing sum with
  | nil => trivial
  | cons s spans ih =>
    obtain ⟨hsum, hspans⟩ := h
    rw [Span.credit]
    split
    · have heq : sum + (s.charged - cost) = sum - cost + s.charged := by ring
      refine ⟨?_, ?_⟩
      · dsimp only
        rwa [heq]
      · dsimp only
        rwa [heq]
    · have heq : sum + s.charged - cost = sum - cost + s.charged := by ring
      refine ⟨by linarith, ih ?_⟩
      rwa [heq]

end Covered

section Outermost

variable [DecidableEq ι] {i : ι} {now now' : α} {spans : List (Span ι α)}

omit [CommRing α] [IsStrictOrderedRing α] in
theorem outermost_mono (h : now ≤ now') (spans : List (Span ι α)) :
    outermost i now spans ≤ outermost i now' spans := by
  induction spans generalizing now now' with
  | nil => exact h
  | cons s spans ih =>
    apply ih
    split
    · exact le_rfl
    · exact h

omit [CommRing α] [LinearOrder α] [IsStrictOrderedRing α] in
theorem outermost_of_notMem (h : i ∉ spans.map Span.label) : outermost i now spans = now := by
  induction spans generalizing now with
  | nil => rfl
  | cons s spans ih =>
    obtain ⟨hs, hspans⟩ := not_or.mp (mt List.mem_cons.mpr h)
    rw [outermost, if_neg (Ne.symm hs), ih hspans]

omit [IsStrictOrderedRing α] in
theorem Owned.outermost_le (h : Owned now spans) (hle : now ≤ now') :
    outermost i now' spans ≤ now' := by
  induction spans generalizing now now' with
  | nil => exact le_rfl
  | cons s spans ih =>
    obtain ⟨hstart, -, hspans⟩ := h
    rw [outermost]
    split
    · exact (ih hspans le_rfl).trans (hstart.trans hle)
    · exact ih hspans (hstart.trans hle)

omit [LinearOrder α] [IsStrictOrderedRing α] in
@[simp] theorem outermost_charge (cost : α) :
    outermost i now (charge cost spans) = outermost i now spans := by
  cases spans <;> rfl

omit [LinearOrder α] [IsStrictOrderedRing α] in
@[simp] theorem outermost_credit (j : ι) (cost : α) :
    outermost i now (credit j cost spans) = outermost i now spans := by
  induction spans generalizing now with
  | nil => rfl
  | cons s spans ih =>
    rw [credit]
    split
    · rfl
    · exact ih

end Outermost

end Span

/-! ## Totals -/

open PhpSpx.Lib.Span

/-- The open spans, innermost first, and the totals of the labels. -/
@[ext] structure Ledger (ι : Type u) (α : Type v) where
  spans : List (Span ι α)
  inc : ι → α
  exc : ι → α

namespace Ledger

variable [DecidableEq ι]

/-- A span begins. -/
def begin (now : α) (i : ι) (g : Ledger ι α) : Ledger ι α :=
  { g with spans := ⟨i, now, 0⟩ :: g.spans }

/-- The innermost span finishes; `spans` are the others. -/
def finish (now : α) (s : Span ι α) (spans : List (Span ι α)) (g : Ledger ι α) : Ledger ι α :=
  let inc := now - s.start
  let exc := inc - s.charged
  { spans := credit s.label exc (charge inc spans)
    inc :=
      if s.label ∈ spans.map Span.label then g.inc
      else Function.update g.inc s.label (g.inc s.label + inc)
    exc :=
      if s.label ∈ spans.map Span.label then g.exc
      else Function.update g.exc s.label (g.exc s.label + exc) }

/-- The totals of the spans that finished between `first` and `now`. -/
structure Sound (first now : α) (g : Ledger ι α) : Prop where
  owned : Owned now g.spans
  covered : Covered 0 g.spans
  exc_nonneg : ∀ i, 0 ≤ g.exc i
  exc_le : ∀ i, g.exc i ≤ g.inc i
  disjoint : ∀ i, g.inc i ≤ outermost i now g.spans - first

variable {first now now' : α} {g : Ledger ι α}

/-- **The totals are bounded** by each other and by the time that has passed. -/
theorem Sound.bounds (h : g.Sound first now) (i : ι) :
    0 ≤ g.exc i ∧ g.exc i ≤ g.inc i ∧ g.inc i ≤ now - first := by
  have houter : outermost i now g.spans ≤ now := h.owned.outermost_le le_rfl
  have hinc := h.disjoint i
  exact ⟨h.exc_nonneg i, h.exc_le i, by linarith⟩

theorem Sound.later (h : g.Sound first now) (hle : now ≤ now') : g.Sound first now' := by
  refine ⟨h.owned.later hle, h.covered, h.exc_nonneg, h.exc_le, ?_⟩
  intro i
  have hmono := outermost_mono (i := i) hle g.spans
  have hinc := h.disjoint i
  linarith

omit [IsStrictOrderedRing α] in
theorem Sound.begin (h : g.Sound first now) (i : ι) : (g.begin now i).Sound first now := by
  refine ⟨⟨le_rfl, by simp, h.owned⟩, ⟨by simp, ?_⟩, h.exc_nonneg, h.exc_le, ?_⟩
  · rw [add_zero]
    exact h.covered
  · intro j
    have houter : outermost j now (g.begin now i).spans = outermost j now g.spans := by
      rw [Ledger.begin, outermost, ite_self]
    rw [houter]
    exact h.disjoint j

omit [LinearOrder α] [IsStrictOrderedRing α] in
/-- The totals of a label after a span finished. -/
theorem finish_cases (now : α) (s : Span ι α) (spans : List (Span ι α)) (g : Ledger ι α) (i : ι) :
    ((g.finish now s spans).inc i = g.inc i ∧ (g.finish now s spans).exc i = g.exc i) ∨
      s.label = i ∧ i ∉ spans.map Span.label ∧
        (g.finish now s spans).inc i = g.inc i + (now - s.start) ∧
        (g.finish now s spans).exc i = g.exc i + (now - s.start - s.charged) := by
  dsimp only [Ledger.finish]
  by_cases houter : s.label ∈ spans.map Span.label
  · rw [if_pos houter, if_pos houter]
    exact Or.inl ⟨rfl, rfl⟩
  · rw [if_neg houter, if_neg houter]
    by_cases hi : i = s.label
    · subst hi
      exact Or.inr ⟨rfl, houter, Function.update_self .., Function.update_self ..⟩
    · exact Or.inl ⟨Function.update_of_ne hi .., Function.update_of_ne hi ..⟩

/-- **A span that finishes** keeps the totals sound. -/
theorem Sound.finish (h : g.Sound first now) {s : Span ι α} {spans : List (Span ι α)}
    (hspans : g.spans = s :: spans) : (g.finish now s spans).Sound first now := by
  obtain ⟨howned, hcovered, hexc, hle, hdisjoint⟩ := h
  rw [hspans] at howned hcovered
  obtain ⟨hstart, hcharged, howned⟩ := howned
  obtain ⟨hsum, hcovered⟩ := hcovered
  rw [zero_add] at hsum hcovered
  have hown : 0 ≤ now - s.start - s.charged := by linarith
  refine ⟨(howned.charge hstart).credit s.label hown, ?_, ?_, ?_, ?_⟩
  · apply Covered.credit _ _ hown
    have heq : 0 - (now - s.start - s.charged) = s.charged - (now - s.start) := by ring
    rw [heq]
    exact hcovered.charge (now - s.start)
  · intro i
    rcases finish_cases now s spans g i with ⟨-, he⟩ | ⟨-, -, -, he⟩
    · rw [he]
      exact hexc i
    · rw [he]
      exact add_nonneg (hexc i) hown
  · intro i
    have hi := hle i
    rcases finish_cases now s spans g i with ⟨hinc, he⟩ | ⟨-, -, hinc, he⟩
    · rwa [hinc, he]
    · rw [hinc, he]
      linarith
  · intro i
    have hi := hdisjoint i
    rw [hspans, outermost] at hi
    have houtermost : outermost i now (g.finish now s spans).spans = outermost i now spans := by
      rw [Ledger.finish, outermost_credit, outermost_charge]
    rw [houtermost]
    rcases finish_cases now s spans g i with ⟨hinc, -⟩ | ⟨hlabel, hout, hinc, -⟩
    · have hmono : outermost i (if s.label = i then s.start else now) spans ≤
          outermost i now spans := by
        apply outermost_mono
        split
        · exact hstart
        · exact le_rfl
      rw [hinc]
      linarith
    · -- the span is outside every other one of its label
      rw [if_pos hlabel, outermost_of_notMem hout] at hi
      rw [hinc, outermost_of_notMem hout]
      linarith

end Ledger

end PhpSpx.Lib
