import Mathlib.Data.List.Infix

/-!
# Runs

Runs of a system whose every step succeeds: what holds in every state a run reaches, and
what every step of it meets.

* `EachStep` — every step meets a condition in the state it is made in.
* `Throughout` — every state reached has a property.
* `eachStep_iff_of_invariant`, `throughout_iff_of_invariant` — the rules.
-/

namespace PhpSpx.Lib

universe u v

variable {σ : Type u} {ω : Type v} (step : σ → ω → σ)

/-- Every step of the run meets the condition in the state it is made in. -/
def EachStep (C : σ → ω → Prop) : List ω → σ → Prop
  | [], _ => True
  | op :: ops, s => C s op ∧ EachStep C ops (step s op)

instance instDecidableEachStep (C : σ → ω → Prop) [∀ s op, Decidable (C s op)] :
    (ops : List ω) → (s : σ) → Decidable (EachStep step C ops s)
  | [], _ => inferInstanceAs (Decidable True)
  | _ :: ops, _ =>
      @instDecidableAnd _ _ _ (instDecidableEachStep C ops _)

/-- Every state the run reaches has the property, the first and the last included. -/
def Throughout (P : σ → Prop) (ops : List ω) (s : σ) : Prop :=
  ∀ done, done <+: ops → P (done.foldl step s)

variable {step}

@[simp] theorem eachStep_nil (C : σ → ω → Prop) (s : σ) : EachStep step C [] s := trivial

@[simp] theorem eachStep_cons (C : σ → ω → Prop) (op : ω) (ops : List ω) (s : σ) :
    EachStep step C (op :: ops) s ↔ C s op ∧ EachStep step C ops (step s op) := Iff.rfl

@[simp] theorem throughout_nil (P : σ → Prop) (s : σ) : Throughout step P [] s ↔ P s := by
  simp [Throughout]

theorem throughout_cons (P : σ → Prop) (op : ω) (ops : List ω) (s : σ) :
    Throughout step P (op :: ops) s ↔ P s ∧ Throughout step P ops (step s op) := by
  constructor
  · intro h
    refine ⟨h [] List.nil_prefix, ?_⟩
    intro done hdone
    exact h (op :: done) (List.cons_prefix_cons.mpr ⟨rfl, hdone⟩)
  · rintro ⟨hs, h⟩ done hdone
    cases done with
    | nil => exact hs
    | cons op' done =>
      obtain ⟨rfl, hrest⟩ := List.cons_prefix_cons.mp hdone
      exact h done hrest

/-- A property holds throughout when it holds at first and every step leads to a state
that has it. -/
theorem throughout_iff_eachStep (P : σ → Prop) (ops : List ω) (s : σ) :
    Throughout step P ops s ↔ P s ∧ EachStep step (fun s op => P (step s op)) ops s := by
  induction ops generalizing s with
  | nil => simp
  | cons op ops ih => rw [throughout_cons, ih, eachStep_cons]

/-- What each step meets, step by step. -/
theorem eachStep_iff_forall_prefixes (C : σ → ω → Prop) (ops : List ω) (s : σ) :
    EachStep step C ops s ↔
      ∀ done op, done ++ [op] <+: ops → C (done.foldl step s) op := by
  induction ops generalizing s with
  | nil => simp
  | cons op ops ih =>
    rw [eachStep_cons, ih]
    constructor
    · rintro ⟨hop, hops⟩ done op' hdone
      cases done with
      | nil =>
        obtain ⟨rfl, -⟩ := List.cons_prefix_cons.mp hdone
        exact hop
      | cons first done =>
        obtain ⟨rfl, hrest⟩ := List.cons_prefix_cons.mp hdone
        exact hops done op' hrest
    · intro h
      refine ⟨h [] op (List.cons_prefix_cons.mpr ⟨rfl, List.nil_prefix⟩), ?_⟩
      intro done op' hdone
      exact h (op :: done) op' (List.cons_prefix_cons.mpr ⟨rfl, hdone⟩)

/-- What an invariant that every step keeps implies holds throughout. -/
theorem Throughout.of_invariant {Inv P : σ → Prop} (hP : ∀ s, Inv s → P s)
    (hkeep : ∀ s op, Inv s → Inv (step s op)) {ops : List ω} {s : σ} (hs : Inv s) :
    Throughout step P ops s := by
  induction ops generalizing s with
  | nil => exact (throughout_nil P s).mpr (hP s hs)
  | cons op ops ih => exact (throughout_cons P op ops s).mpr ⟨hP s hs, ih (hkeep s op hs)⟩

/-- What an invariant implies holds throughout when every step meets a condition that keeps
the invariant. -/
theorem Throughout.of_eachStep {Inv P : σ → Prop} {C : σ → ω → Prop} (hP : ∀ s, Inv s → P s)
    (hkeep : ∀ s op, Inv s → C s op → Inv (step s op)) {ops : List ω} {s : σ} (hs : Inv s)
    (hC : EachStep step C ops s) : Throughout step P ops s := by
  induction ops generalizing s with
  | nil => exact (throughout_nil P s).mpr (hP s hs)
  | cons op ops ih =>
    exact (throughout_cons P op ops s).mpr ⟨hP s hs, ih (hkeep s op hs hC.1) hC.2⟩

/-- A condition on the operations alone. -/
theorem eachStep_iff_forall_mem (C : ω → Prop) (ops : List ω) (s : σ) :
    EachStep step (fun _ op => C op) ops s ↔ ∀ op ∈ ops, C op := by
  induction ops generalizing s with
  | nil => simp
  | cons op ops ih => rw [eachStep_cons, ih, List.forall_mem_cons]

section Invariant

variable {Inv : σ → Prop} {V C : σ → ω → Prop}

/-- Under an invariant that the condition keeps, the steps have the property exactly when
they meet the condition.  `V` is what the steps are promised to be. -/
theorem eachStep_iff_of_invariant {Q : σ → ω → Prop}
    (hiff : ∀ s op, Inv s → V s op → (Q s op ↔ C s op))
    (hkeep : ∀ s op, Inv s → V s op → C s op → Inv (step s op)) {ops : List ω} {s : σ}
    (hs : Inv s) (hV : EachStep step V ops s) :
    EachStep step Q ops s ↔ EachStep step C ops s := by
  induction ops generalizing s with
  | nil => simp
  | cons op ops ih =>
    rw [eachStep_cons, eachStep_cons, hiff s op hs hV.1]
    constructor
    · rintro ⟨hop, hops⟩
      exact ⟨hop, (ih (hkeep s op hs hV.1 hop) hV.2).mp hops⟩
    · rintro ⟨hop, hops⟩
      exact ⟨hop, (ih (hkeep s op hs hV.1 hop) hV.2).mpr hops⟩

/-- What an invariant implies holds throughout exactly when the steps meet a condition
that keeps the invariant, and without which the implied property is lost. -/
theorem throughout_iff_of_invariant {P : σ → Prop} (hP : ∀ s, Inv s → P s)
    (hkeep : ∀ s op, Inv s → V s op → C s op → Inv (step s op))
    (hlose : ∀ s op, Inv s → V s op → P (step s op) → C s op) {ops : List ω} {s : σ}
    (hs : Inv s) (hV : EachStep step V ops s) :
    Throughout step P ops s ↔ EachStep step C ops s := by
  rw [throughout_iff_eachStep]
  refine (and_iff_right (hP s hs)).trans (eachStep_iff_of_invariant ?_ hkeep hs hV)
  intro s op hs hV
  exact ⟨hlose s op hs hV, fun hC => hP _ (hkeep s op hs hV hC)⟩

end Invariant

end PhpSpx.Lib
