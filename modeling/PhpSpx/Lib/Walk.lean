import Mathlib

/-!
# Walks in a tree

A place in a tree is the list of the names on the way to it from the root.  A walk goes down
into a name or back up; at the root it stays where it is.

* `walk` — the place where a walk ends.
* `climb` — how far above its start a walk goes, and the way down from there.
* `walk_eq_place` — the two together.
* `prefix_walk_iff` — when a walk ends at its start or below.
-/

namespace PhpSpx.Lib

universe u

variable {α : Type u}

/-- A move of a walk. -/
inductive Move (α : Type u) where
  | up
  | into (name : α)
  deriving DecidableEq, Repr

/-- One move. -/
def moveFrom (place : List α) : Move α → List α
  | .up => place.dropLast
  | .into name => place ++ [name]

/-- The place where a walk ends. -/
def walk (start : List α) (moves : List (Move α)) : List α := moves.foldl moveFrom start

/-- A number of levels to climb from a start, and a way down from there. -/
structure Climb (α : Type u) where
  levels : ℕ
  way : List α

namespace Climb

/-- One more move. -/
def move (c : Climb α) : Move α → Climb α
  | .up =>
    match c.way with
    | [] => ⟨c.levels + 1, []⟩
    | name :: names => ⟨c.levels, (name :: names).dropLast⟩
  | .into name => ⟨c.levels, c.way ++ [name]⟩

/-- The place that a climb from a start leads to. -/
def place (c : Climb α) (start : List α) : List α :=
  start.take (start.length - c.levels) ++ c.way

theorem moveFrom_place (c : Climb α) (start : List α) (m : Move α) :
    moveFrom (c.place start) m = (c.move m).place start := by
  cases m with
  | into name => exact List.append_assoc _ _ _
  | up =>
    rcases c with ⟨levels, way⟩
    cases way with
    | nil =>
      show (start.take (start.length - levels) ++ []).dropLast
        = start.take (start.length - (levels + 1)) ++ []
      rw [List.append_nil, List.append_nil, List.dropLast_eq_take, List.take_take,
        List.length_take]
      congr 1
      omega
    | cons name names => exact List.dropLast_append_of_ne_nil (List.cons_ne_nil name names)

end Climb

/-- What the moves of a walk come to. -/
def climb (moves : List (Move α)) : Climb α := moves.foldl Climb.move ⟨0, []⟩

theorem foldl_moveFrom_place (c : Climb α) (start : List α) (moves : List (Move α)) :
    moves.foldl moveFrom (c.place start) = (moves.foldl Climb.move c).place start := by
  induction moves generalizing c with
  | nil => rfl
  | cons m moves ih =>
    rw [List.foldl_cons, List.foldl_cons, c.moveFrom_place start m]
    exact ih (c.move m)

/-- A walk climbs, then goes down. -/
theorem walk_eq_place (start : List α) (moves : List (Move α)) :
    walk start moves = (climb moves).place start := by
  have hstart : (⟨0, []⟩ : Climb α).place start = start := by
    rw [Climb.place, Nat.sub_zero, List.take_length, List.append_nil]
  rw [walk, climb, ← foldl_moveFrom_place, hstart]

theorem walk_append (start : List α) (moves moves' : List (Move α)) :
    walk start (moves ++ moves') = walk (walk start moves) moves' := List.foldl_append

/-- Names alone lead down. -/
theorem walk_map_into (start names : List α) : walk start (names.map .into) = start ++ names := by
  induction names generalizing start with
  | nil => exact (List.append_nil start).symm
  | cons name names ih =>
    apply (ih (start ++ [name])).trans
    rw [List.append_assoc]
    rfl

/-- **A walk ends at its start or below exactly when it goes down again through the names that
it climbed.** -/
theorem prefix_walk_iff (start : List α) (moves : List (Move α)) :
    start <+: walk start moves ↔
      start.drop (start.length - (climb moves).levels) <+: (climb moves).way := by
  rw [walk_eq_place, Climb.place]
  conv_lhs => lhs; rw [← List.take_append_drop (start.length - (climb moves).levels) start]
  exact List.prefix_append_right_inj _

end PhpSpx.Lib
