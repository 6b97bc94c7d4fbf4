import Mathlib

/-!
# Outcomes of computations that may fail

What a computation in `Except` may end in: a value with some property, or one of
some errors.  With rules for sequencing, and for runs of a step function along
which a condition on the steps holds.

* `Ends` — the outcome; `Ends.bind`, `Ends.map` and `Ends.mono` are its rules.
* `Succeeds` — the computation does not fail.
* `Agree` — two computations end alike; `Agree.bind`, `Agree.mapM` are its rules.
* `runSteps`, `Along` — a run, and a condition on the steps it reaches.
* `ends_runSteps_iff` — what an invariant implies holds at the end of a run exactly
  when the condition held along it.
-/

namespace PhpSpx.Lib

universe u v w w'

variable {ε : Type u} {α β : Type v}

/-- The computation ends in a value of `P` or fails with an error of `D`. -/
def Ends (x : Except ε α) (P : α → Prop) (D : ε → Prop) : Prop :=
  match x with
  | .ok a => P a
  | .error d => D d

@[simp] theorem ends_ok {a : α} {P : α → Prop} {D : ε → Prop} :
    Ends (.ok a : Except ε α) P D ↔ P a := Iff.rfl

@[simp] theorem ends_error {d : ε} {P : α → Prop} {D : ε → Prop} :
    Ends (.error d : Except ε α) P D ↔ D d := Iff.rfl

theorem ends_of_ok {x : Except ε α} {a : α} {P : α → Prop} {D : ε → Prop} (h : x = .ok a)
    (ha : P a) : Ends x P D := by
  rw [h]
  exact ha

theorem Ends.mono {x : Except ε α} {P Q : α → Prop} {D : ε → Prop} (h : Ends x P D)
    (hPQ : ∀ a, P a → Q a) : Ends x Q D := by
  cases x with
  | ok a => exact hPQ a h
  | error d => exact h

theorem Ends.bind {x : Except ε α} {P : α → Prop} {D : ε → Prop} (h : Ends x P D)
    {f : α → Except ε β} {Q : β → Prop} (hf : ∀ a, P a → Ends (f a) Q D) :
    Ends (x.bind f) Q D := by
  cases x with
  | ok a => exact hf a h
  | error d => exact h

theorem Ends.map {x : Except ε α} {P : α → Prop} {D : ε → Prop} (h : Ends x P D) {f : α → β}
    {Q : β → Prop} (hf : ∀ a, P a → Q (f a)) : Ends (x.map f) Q D := by
  cases x with
  | ok a => exact hf a h
  | error d => exact h

/-- A fold that keeps a property. -/
theorem ends_foldlM {ι : Type w} {f : α → ι → Except ε α} {P : α → Prop} {D : ε → Prop}
    {l : List ι} (h : ∀ i ∈ l, ∀ a, P a → Ends (f a i) P D) {a : α} (ha : P a) :
    Ends (l.foldlM f a) P D := by
  induction l generalizing a with
  | nil => exact ha
  | cons i l ih =>
    obtain ⟨hi, hrest⟩ := List.forall_mem_cons.mp h
    rw [List.foldlM_cons]
    exact (hi a ha).bind fun _ ha' => ih hrest ha'

/-- The outcomes of the elements of a list. -/
theorem ends_mapM {ι : Type w} {f : ι → Except ε α} {P : α → Prop} {D : ε → Prop} {l : List ι}
    (h : ∀ i ∈ l, Ends (f i) P D) :
    Ends (l.mapM f) (fun as => as.length = l.length ∧ ∀ a ∈ as, P a) D := by
  induction l with
  | nil => exact ⟨rfl, fun _ h => absurd h List.not_mem_nil⟩
  | cons i l ih =>
    obtain ⟨hi, hrest⟩ := List.forall_mem_cons.mp h
    rw [List.mapM_cons]
    refine hi.bind fun a ha => (ih hrest).bind ?_
    rintro as ⟨hlength, has⟩
    exact ⟨congrArg (· + 1) hlength, List.forall_mem_cons.mpr ⟨ha, has⟩⟩

/-! ## Success -/

/-- The computation does not fail. -/
def Succeeds (x : Except ε α) : Prop := ∃ a, x = .ok a

theorem succeeds_ok (a : α) : Succeeds (.ok a : Except ε α) := ⟨a, rfl⟩

theorem not_succeeds_error (d : ε) : ¬Succeeds (.error d : Except ε α) := fun ⟨_, h⟩ => nomatch h

theorem bind_eq_ok_iff {x : Except ε α} {f : α → Except ε β} {b : β} :
    x >>= f = .ok b ↔ ∃ a, x = .ok a ∧ f a = .ok b := by
  cases x with
  | ok a =>
    refine ⟨fun h => ⟨a, rfl, h⟩, ?_⟩
    rintro ⟨a', ha, h⟩
    cases ha
    exact h
  | error d => exact iff_of_false (fun h => nomatch h) fun ⟨a, ha, _⟩ => nomatch ha

theorem succeeds_bind_iff {x : Except ε α} {f : α → Except ε β} :
    Succeeds (x >>= f) ↔ ∃ a, x = .ok a ∧ Succeeds (f a) := by
  constructor
  · rintro ⟨b, hb⟩
    obtain ⟨a, ha, h⟩ := bind_eq_ok_iff.mp hb
    exact ⟨a, ha, b, h⟩
  · rintro ⟨a, ha, b, hb⟩
    exact ⟨b, bind_eq_ok_iff.mpr ⟨a, ha, hb⟩⟩

/-- What comes after succeeds whatever the value is, or never. -/
theorem succeeds_bind_iff_and {x : Except ε α} {f : α → Except ε β} {P : Prop}
    (hf : ∀ a, Succeeds (f a) ↔ P) : Succeeds (x >>= f) ↔ Succeeds x ∧ P := by
  rw [succeeds_bind_iff]
  constructor
  · rintro ⟨a, ha, h⟩
    exact ⟨⟨a, ha⟩, (hf a).mp h⟩
  · rintro ⟨⟨a, ha⟩, h⟩
    exact ⟨a, ha, (hf a).mpr h⟩

theorem Ends.succeeds {x : Except ε α} {P : α → Prop} (h : Ends x P fun _ => False) :
    Succeeds x := by
  cases x with
  | ok a => exact succeeds_ok a
  | error d => exact h.elim

theorem succeeds_mapM_iff {ι : Type w} {f : ι → Except ε α} {l : List ι} :
    Succeeds (l.mapM f) ↔ ∀ i ∈ l, Succeeds (f i) := by
  induction l with
  | nil => exact iff_of_true (succeeds_ok []) (List.forall_mem_nil _)
  | cons i l ih =>
    rw [List.mapM_cons, List.forall_mem_cons, ← ih]
    apply succeeds_bind_iff.trans
    constructor
    · rintro ⟨a, ha, h⟩
      obtain ⟨as, has, -⟩ := succeeds_bind_iff.mp h
      exact ⟨⟨a, ha⟩, ⟨as, has⟩⟩
    · rintro ⟨⟨a, ha⟩, ⟨as, has⟩⟩
      exact ⟨a, ha, succeeds_bind_iff.mpr ⟨as, has, succeeds_ok _⟩⟩

/-! ## Two computations -/

section Agree

variable {ε' : Type u} {α' β' : Type w} {D : ε → ε' → Prop} {R : α → α' → Prop}

/-- Two computations end in related values, or fail with related errors. -/
inductive Agree (D : ε → ε' → Prop) (R : α → α' → Prop) : Except ε α → Except ε' α' → Prop
  | ok {a : α} {a' : α'} (h : R a a') : Agree D R (.ok a) (.ok a')
  | error {d : ε} {d' : ε'} (h : D d d') : Agree D R (.error d) (.error d')

theorem Agree.bind {x : Except ε α} {x' : Except ε' α'} (h : Agree D R x x') {f : α → Except ε β}
    {f' : α' → Except ε' β'} {S : β → β' → Prop} (hf : ∀ a a', R a a' → Agree D S (f a) (f' a')) :
    Agree D S (x >>= f) (x' >>= f') := by
  cases h with
  | ok h => exact hf _ _ h
  | error h => exact .error h

theorem Agree.mono {x : Except ε α} {x' : Except ε' α'} (h : Agree D R x x')
    {S : α → α' → Prop} (hRS : ∀ a a', R a a' → S a a') : Agree D S x x' := by
  cases h with
  | ok h => exact .ok (hRS _ _ h)
  | error h => exact .error h

theorem Agree.map {x : Except ε α} {x' : Except ε' α'} (h : Agree D R x x') {f : α → β}
    {f' : α' → β'} {S : β → β' → Prop} (hf : ∀ a a', R a a' → S (f a) (f' a')) :
    Agree D S (x.map f) (x'.map f') := by
  cases h with
  | ok h => exact .ok (hf _ _ h)
  | error h => exact .error h

theorem Agree.mapM {ι : Type w'} {ι' : Type w'} {f : ι → Except ε α} {f' : ι' → Except ε' α'}
    {l : List ι} {l' : List ι'}
    (h : List.Forall₂ (fun i i' => Agree D R (f i) (f' i')) l l') :
    Agree D (List.Forall₂ R) (l.mapM f) (l'.mapM f') := by
  induction h with
  | nil => exact .ok .nil
  | cons hi _ ih =>
    rw [List.mapM_cons, List.mapM_cons]
    apply hi.bind
    intro a a' ha
    apply ih.bind
    intro as as' has
    exact .ok (.cons ha has)

/-- Agreement in values that are equal. -/
theorem Agree.eq_mapError {g : ε → ε'} {x : Except ε α} {x' : Except ε' α}
    (h : Agree (fun d d' => d' = g d) (· = ·) x x') : x' = x.mapError g := by
  cases h with
  | ok h => rw [h]; rfl
  | error h => rw [h]; rfl

/-- Two computations that both end as a third one does. -/
theorem Agree.common {x : Except ε α} {y : Except ε α'} {y' : Except ε β'} {S : α → β' → Prop}
    (h : Agree (· = ·) R x y) (h' : Agree (· = ·) S x y') :
    Agree (· = ·) (fun b b' => ∃ a, R a b ∧ S a b') y y' := by
  cases h with
  | ok h =>
    cases h' with
    | ok h' => exact .ok ⟨_, h, h'⟩
  | error h =>
    cases h' with
    | error h' => exact .error (h.symm.trans h')

theorem agree_mapError (g : ε → ε') (x : Except ε α) :
    Agree (fun d d' => d' = g d) (· = ·) x (x.mapError g) := by
  cases x with
  | ok a => exact .ok rfl
  | error d => exact .error rfl

end Agree

/-! ## Runs -/

section Run

variable {σ : Type v} {ω : Type w} (step : σ → ω → Except ε σ)

/-- Steps one after the other. -/
def runSteps : List ω → σ → Except ε σ
  | [], s => .ok s
  | op :: ops, s => (step s op).bind (runSteps ops)

/-- Every step the run makes meets the condition in the state it is made in. -/
def Along (C : σ → ω → Prop) : List ω → σ → Prop
  | [], _ => True
  | op :: ops, s => C s op ∧ ∀ s', step s op = .ok s' → Along C ops s'

variable {step}

theorem runSteps_append (ops ops' : List ω) (s : σ) :
    runSteps step (ops ++ ops') s = (runSteps step ops s).bind (runSteps step ops') := by
  induction ops generalizing s with
  | nil => rfl
  | cons op ops ih =>
    rw [List.cons_append, runSteps, runSteps]
    cases step s op with
    | error d => rfl
    | ok s' => exact ih s'

/-- Steps that agree make runs that agree. -/
theorem agree_runSteps {ε' : Type u} {σ' : Type w'} {step' : σ' → ω → Except ε' σ'}
    {D : ε → ε' → Prop} {R : σ → σ' → Prop}
    (hstep : ∀ s s' op, R s s' → Agree D R (step s op) (step' s' op)) {s : σ} {s' : σ'}
    (hs : R s s') (ops : List ω) : Agree D R (runSteps step ops s) (runSteps step' ops s') := by
  induction ops generalizing s s' with
  | nil => exact .ok hs
  | cons op ops ih => exact (hstep s s' op hs).bind fun _ _ h => ih h

theorem Along.of_prefix {C : σ → ω → Prop} {done ops : List ω} (h : done <+: ops) {s : σ}
    (hops : Along step C ops s) : Along step C done s := by
  induction done generalizing ops s with
  | nil => exact trivial
  | cons op done ih =>
    obtain ⟨rest, rfl⟩ := h
    exact ⟨hops.1, fun s' hs' => ih (List.prefix_append done rest) (hops.2 s' hs')⟩

section Invariant

variable {Inv : σ → Prop} {C : σ → ω → Prop} {D : ε → Prop}

/-- Steps that meet the condition keep the invariant, or fail with an error of
`D`: so does the run. -/
theorem Along.ends (hgood : ∀ s op, Inv s → C s op → Ends (step s op) Inv D) {ops : List ω}
    {s : σ} (hs : Inv s) (h : Along step C ops s) : Ends (runSteps step ops s) Inv D := by
  induction ops generalizing s with
  | nil => exact hs
  | cons op ops ih =>
    rw [runSteps]
    have hstep := hgood s op hs h.1
    cases hr : step s op with
    | error d =>
      rw [hr] at hstep
      exact hstep
    | ok s' =>
      rw [hr] at hstep
      exact ih hstep (h.2 s' hr)

/-- When a step that does not meet the condition fails otherwise, so does a run with
such a step. -/
theorem exists_error_of_not_along (hgood : ∀ s op, Inv s → C s op → Ends (step s op) Inv D)
    (hbad : ∀ s op, Inv s → ¬C s op → ∃ d, step s op = .error d ∧ ¬D d) {ops : List ω} {s : σ}
    (hs : Inv s) (h : ¬Along step C ops s) : ∃ d, runSteps step ops s = .error d ∧ ¬D d := by
  induction ops generalizing s with
  | nil => exact absurd trivial h
  | cons op ops ih =>
    rw [Along, Classical.not_and_iff_not_or_not] at h
    rw [runSteps]
    by_cases hC : C s op
    · obtain ⟨s', hs'⟩ := not_forall.mp (h.resolve_left (not_not_intro hC))
      obtain ⟨hr, hrest⟩ := Classical.not_imp.mp hs'
      have hstep := hgood s op hs hC
      rw [hr] at hstep ⊢
      exact ih hstep hrest
    · obtain ⟨d, hd, hD⟩ := hbad s op hs hC
      rw [hd]
      exact ⟨d, rfl, hD⟩

/-- A run from a state of the invariant ends in what the invariant implies, or
fails with an error of `D`, exactly when its steps meet the condition. -/
theorem ends_runSteps_iff (hgood : ∀ s op, Inv s → C s op → Ends (step s op) Inv D)
    (hbad : ∀ s op, Inv s → ¬C s op → ∃ d, step s op = .error d ∧ ¬D d) {P : σ → Prop}
    (hP : ∀ s, Inv s → P s) {ops : List ω} {s : σ} (hs : Inv s) :
    Ends (runSteps step ops s) P D ↔ Along step C ops s := by
  refine ⟨?_, fun h => (h.ends hgood hs).mono hP⟩
  intro h
  by_contra hnot
  obtain ⟨d, hd, hD⟩ := exists_error_of_not_along hgood hbad hs hnot
  rw [hd] at h
  exact hD h

end Invariant

end Run

end PhpSpx.Lib
