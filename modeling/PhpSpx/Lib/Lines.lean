import Mathlib.Data.List.Basic

/-!
# Reading lines from chunks

A text that ends every line with a separator arrives in chunks.  What follows the
last separator of a chunk is carried over to the next one.

* `cutLines` — the lines of a text and what follows the last of them.
* `cutLines_append` — the lines of a text cut in two.
* `foldlM_chunks` — acting on each line chunk by chunk is acting on the lines of the
  whole text.
-/

namespace PhpSpx.Lib

universe u

variable {α : Type u} [DecidableEq α]

/-- The lines of a text, the first one continuing `carry`, and what follows the last
separator. -/
def cutLines (sep : α) : List α → List α → List (List α) × List α
  | carry, [] => ([], carry)
  | carry, c :: text =>
    if c = sep then (carry :: (cutLines sep [] text).1, (cutLines sep [] text).2)
    else cutLines sep (carry ++ [c]) text

variable {sep : α}

@[simp] theorem cutLines_nil (carry : List α) : cutLines sep carry [] = ([], carry) := rfl

/-- The second part of a text continues what the first part leaves over. -/
theorem cutLines_append (carry xs ys : List α) :
    cutLines sep carry (xs ++ ys) =
      ((cutLines sep carry xs).1 ++ (cutLines sep (cutLines sep carry xs).2 ys).1,
        (cutLines sep (cutLines sep carry xs).2 ys).2) := by
  induction xs generalizing carry with
  | nil => rfl
  | cons c xs ih =>
    by_cases hc : c = sep
    · simp only [List.cons_append, cutLines, if_pos hc, ih]
    · simp only [List.cons_append, cutLines, if_neg hc, ih]

/-- The lines are the pieces between the separators, but for the last piece, which is
left over. -/
theorem cutLines_eq_splitOnPPrepend (carry text : List α) :
    (cutLines sep carry text).1 ++ [(cutLines sep carry text).2] =
      text.splitOnPPrepend (· == sep) carry.reverse := by
  induction text generalizing carry with
  | nil => simp
  | cons c text ih =>
    rw [List.splitOnPPrepend_cons_eq_if, List.reverse_reverse, cutLines]
    by_cases hc : c = sep
    · have hnext := ih []
      rw [if_pos hc, if_pos (by simpa using hc), List.cons_append, hnext]
      rfl
    · have hbeq : ¬(c == sep) = true := by simpa using hc
      have hseen : c :: carry.reverse = (carry ++ [c]).reverse := by simp
      rw [if_neg hc, if_neg hbeq, ih, hseen]

/-- Splitting a text and completing its first piece gives the lines and what is left over. -/
theorem cutLines_eq_splitOn (carry text : List α) :
    (text.splitOn sep).modifyHead (carry ++ ·) =
      (cutLines sep carry text).1 ++ [(cutLines sep carry text).2] := by
  rw [cutLines_eq_splitOnPPrepend, List.splitOnPPrepend_eq_modifyHead, List.reverse_reverse]
  rfl

/-- The lines of a whole text are the pieces each followed by a separator. -/
theorem cutLines_nil_fst (text : List α) :
    (cutLines sep [] text).1 = (text.splitOn sep).dropLast := by
  have h : (cutLines sep [] text).1 ++ [(cutLines sep [] text).2] = text.splitOn sep :=
    cutLines_eq_splitOnPPrepend [] text
  rw [← h, List.dropLast_concat]

/-- A text without a separator is no line yet. -/
theorem cutLines_of_notMem {text : List α} (h : sep ∉ text) (carry : List α) :
    cutLines sep carry text = ([], carry ++ text) := by
  induction text generalizing carry with
  | nil => rw [cutLines_nil, List.append_nil]
  | cons c text ih =>
    obtain ⟨hc, htext⟩ := not_or.mp (mt List.mem_cons.mpr h)
    rw [cutLines, if_neg (Ne.symm hc), ih htext, List.append_assoc, List.singleton_append]

/-- A line and what comes behind it. -/
theorem cutLines_line {line : List α} (h : sep ∉ line) (text : List α) :
    cutLines sep [] (line ++ sep :: text) =
      (line :: (cutLines sep [] text).1, (cutLines sep [] text).2) := by
  rw [cutLines_append, cutLines_of_notMem h, List.nil_append, List.nil_append, cutLines,
    if_pos rfl]

/-- Lines, each with its separator. -/
theorem cutLines_flatMap {lines : List (List α)} (h : ∀ line ∈ lines, sep ∉ line) :
    cutLines sep [] (lines.flatMap (· ++ [sep])) = (lines, []) := by
  induction lines with
  | nil => rfl
  | cons line lines ih =>
    obtain ⟨hline, hlines⟩ := List.forall_mem_cons.mp h
    rw [List.flatMap_cons, List.append_assoc, List.singleton_append, cutLines_line hline, ih hlines]

/-- No separator is in a line. -/
theorem notMem_of_mem_cutLines {carry text line : List α} (hcarry : sep ∉ carry)
    (h : line ∈ (cutLines sep carry text).1) : sep ∉ line := by
  induction text generalizing carry with
  | nil => exact absurd h List.not_mem_nil
  | cons c text ih =>
    rw [cutLines] at h
    split at h
    · rcases List.mem_cons.mp h with rfl | h
      · exact hcarry
      · exact ih List.not_mem_nil h
    · rename_i hc
      apply ih _ h
      rw [List.mem_append, List.mem_singleton, not_or]
      exact ⟨hcarry, Ne.symm hc⟩

variable {m : Type u → Type u} [Monad m] {σ : Type u}

/-- A chunk: the action is taken on each of its lines. -/
def feedChunk (sep : α) (act : σ → List α → m σ) (st : σ × List α)
    (chunk : List α) : m (σ × List α) :=
  (fun s => (s, (cutLines sep st.2 chunk).2)) <$> (cutLines sep st.2 chunk).1.foldlM act st.1

/-- Where a chunk takes the state. -/
theorem fst_feedChunk [LawfulMonad m] (act : σ → List α → m σ) (st : σ × List α)
    (chunk : List α) :
    (fun st : σ × List α => st.1) <$> feedChunk sep act st chunk =
      (cutLines sep st.2 chunk).1.foldlM act st.1 := by
  simp [feedChunk]

/-- **Chunks do not matter**: the action is taken on the lines of the whole text. -/
theorem foldlM_chunks [LawfulMonad m] (act : σ → List α → m σ) (chunks : List (List α))
    (st : σ × List α) :
    chunks.foldlM (feedChunk sep act) st = feedChunk sep act st chunks.flatten := by
  induction chunks generalizing st with
  | nil => simp [feedChunk]
  | cons chunk chunks ih =>
    rw [List.foldlM_cons, List.flatten_cons]
    simp only [feedChunk, cutLines_append, List.foldlM_append, map_bind, bind_map_left]
    apply bind_congr
    intro s
    exact ih _

end PhpSpx.Lib
