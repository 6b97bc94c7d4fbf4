import Mathlib.Data.Set.Finite.List

/-!
# Descending into a tree

A recursion that goes from a state to the states below it unfolds a tree, whose places are the
lists of branches taken.  With finitely many branches the tree is finite exactly when its depth
is bounded.

* `follow` — the state at a place.
* `follow_induction` — an invariant of the branches holds at every place.
* `exists_follow_of_progress` — a property that some branch keeps is found at every depth.
* `finite_places_iff` — finiteness is a bound on the depth.
-/

namespace PhpSpx.Lib

universe u v

variable {σ : Type u} {ι : Type v} {step : σ → ι → Option σ}

/-- The state at a place below a state, none where the recursion does not go. -/
def follow (step : σ → ι → Option σ) : List ι → σ → Option σ
  | [], s => some s
  | i :: place, s => (step s i).bind (follow step place)

theorem follow_append (place place' : List ι) (s : σ) :
    follow step (place ++ place') s = (follow step place s).bind (follow step place') := by
  induction place generalizing s with
  | nil => rfl
  | cons i place ih =>
    rw [List.cons_append, follow, follow, Option.bind_assoc]
    exact congrArg _ (funext ih)

/-- What every branch keeps, with the depth, holds at every place. -/
theorem follow_induction {P : ℕ → σ → Prop}
    (hstep : ∀ n s i s', P n s → step s i = some s' → P (n + 1) s') {n : ℕ} {s : σ} (hs : P n s)
    {place : List ι} {s' : σ} (h : follow step place s = some s') : P (n + place.length) s' := by
  induction place generalizing n s with
  | nil =>
    cases h
    exact hs
  | cons i place ih =>
    obtain ⟨next, hnext, hrest⟩ := Option.bind_eq_some_iff.mp h
    have hplace := ih (hstep n s i next hs hnext) hrest
    rwa [List.length_cons, Nat.add_comm place.length, ← Nat.add_assoc]

/-- What some branch keeps is found at every depth. -/
theorem exists_follow_of_progress {P : σ → Prop}
    (hstep : ∀ s, P s → ∃ i s', step s i = some s' ∧ P s') {s : σ} (hs : P s) (n : ℕ) :
    ∃ place s', place.length = n ∧ follow step place s = some s' := by
  induction n generalizing s with
  | zero => exact ⟨[], s, rfl, rfl⟩
  | succ n ih =>
    obtain ⟨i, next, hnext, hP⟩ := hstep s hs
    obtain ⟨place, s', hlen, hplace⟩ := ih hP
    refine ⟨i :: place, s', congrArg Nat.succ hlen, ?_⟩
    rw [follow, hnext]
    exact hplace

/-- Below a place that is not reached nothing is. -/
theorem follow_eq_none_of_length_le {s : σ} {n : ℕ}
    (h : ∀ place : List ι, place.length = n → follow step place s = none) {place : List ι}
    (hlen : n ≤ place.length) : follow step place s = none := by
  have htake := h (place.take n) (List.length_take_of_le hlen)
  rw [← List.take_append_drop n place, follow_append, htake]
  rfl

/-- **Finitely many places** are reached exactly when the depth is bounded. -/
theorem finite_places_iff [Finite ι] (s : σ) :
    {place : List ι | (follow step place s).isSome}.Finite ↔
      ∃ n, ∀ place : List ι, place.length = n → follow step place s = none := by
  constructor
  · intro hfinite
    obtain ⟨n, hn⟩ := (hfinite.image List.length).bddAbove
    refine ⟨n + 1, ?_⟩
    intro place hplace
    by_contra hreached
    have hle : place.length ≤ n :=
      hn (Set.mem_image_of_mem _ (Option.isSome_iff_ne_none.mpr hreached))
    omega
  · rintro ⟨n, hn⟩
    apply (List.finite_length_lt ι n).subset
    intro place hplace
    by_contra hlong
    have hnone := follow_eq_none_of_length_le hn (Nat.not_lt.mp hlong)
    rw [Set.mem_ofPred_eq, hnone] at hplace
    exact nomatch hplace

end PhpSpx.Lib
