import Mathlib.Data.List.Infix
import Mathlib.Data.Nat.Notation

/-!
# Texts filled piece by piece

Each element of a list adds its piece to a text, as long as the length of the text is one
with which more is added.

* `fillWhile` — the text.
* `exists_fillWhile_eq` — it is made of whole pieces.
* `length_fillWhile_le` — a length it stays within.
* `fillWhile_eq_of_length_le` — nothing is left out when the pieces fit.
-/

namespace PhpSpx.Lib

universe u v

variable {α : Type u} {β : Type v} (goesOn : ℕ → Prop) [DecidablePred goesOn]
  (piece : α → List β)

/-- The pieces are added to the text. -/
def fillWhile : List α → List β → List β
  | [], text => text
  | a :: as, text => if goesOn text.length then fillWhile as (text ++ piece a) else text

section

variable {goesOn piece}

@[simp] theorem fillWhile_nil (text : List β) : fillWhile goesOn piece [] text = text := rfl

theorem fillWhile_cons_of_goesOn {text : List β} (h : goesOn text.length) (a : α) (as : List α) :
    fillWhile goesOn piece (a :: as) text = fillWhile goesOn piece as (text ++ piece a) :=
  if_pos h

theorem fillWhile_of_not_goesOn {text : List β} (h : ¬goesOn text.length) (as : List α) :
    fillWhile goesOn piece as text = text := by
  cases as with
  | nil => rfl
  | cons a as => exact if_neg h

end

/-- The pieces added are those of the first elements, and more only fail to be added where the
text has become too long for it. -/
theorem exists_fillWhile_eq (as : List α) (text : List β) :
    ∃ done, done <+: as ∧ fillWhile goesOn piece as text = text ++ done.flatMap piece ∧
      (done = as ∨ ¬goesOn (text ++ done.flatMap piece).length) := by
  induction as generalizing text with
  | nil => exact ⟨[], List.nil_prefix, by simp, .inl rfl⟩
  | cons a as ih =>
    by_cases h : goesOn text.length
    · obtain ⟨done, hdone, heq, hend⟩ := ih (text ++ piece a)
      rw [List.append_assoc, ← List.flatMap_cons] at heq hend
      refine ⟨a :: done, List.cons_prefix_cons.mpr ⟨rfl, hdone⟩, ?_, ?_⟩
      · rw [fillWhile_cons_of_goesOn h, heq]
      · exact hend.imp_left (congrArg (a :: ·))
    · refine ⟨[], List.nil_prefix, ?_, .inr ?_⟩
      · simp [fillWhile_of_not_goesOn h]
      · simpa using h

variable {goesOn piece}

/-- **A bound on the text**: pieces added to a text within the bound leave it within the
bound. -/
theorem length_fillWhile_le {bound : ℕ}
    (hstep : ∀ n a, n ≤ bound → goesOn n → n + (piece a).length ≤ bound) (as : List α)
    {text : List β} (h : text.length ≤ bound) :
    (fillWhile goesOn piece as text).length ≤ bound := by
  induction as generalizing text with
  | nil => exact h
  | cons a as ih =>
    by_cases hgoes : goesOn text.length
    · rw [fillWhile_cons_of_goesOn hgoes]
      apply ih
      rw [List.length_append]
      exact hstep _ a h hgoes
    · rw [fillWhile_of_not_goesOn hgoes]
      exact h

/-- All pieces are added when more is added to every text shorter than they are. -/
theorem fillWhile_eq_of_length_le {as : List α}
    (h : ∀ n, n < (as.flatMap piece).length → goesOn n) :
    fillWhile goesOn piece as [] = as.flatMap piece := by
  obtain ⟨done, hdone, heq, hend⟩ := exists_fillWhile_eq goesOn piece as []
  rw [List.nil_append] at heq hend
  rw [heq]
  rcases hend with rfl | hlong
  · rfl
  · obtain ⟨rest, rfl⟩ := hdone
    have hle : ((done ++ rest).flatMap piece).length ≤ (done.flatMap piece).length :=
      Nat.not_lt.mp fun hlt => hlong (h _ hlt)
    rw [List.flatMap_append, List.length_append] at hle
    have hnil : rest.flatMap piece = [] := List.eq_nil_of_length_eq_zero (by omega)
    rw [List.flatMap_append, hnil, List.append_nil]

end PhpSpx.Lib
