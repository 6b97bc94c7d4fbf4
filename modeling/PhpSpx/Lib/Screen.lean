import Mathlib.Algebra.Order.Ring.Nat
import Mathlib.Data.List.GetD
import Mathlib.Data.List.Induction
import Mathlib.Logic.Function.Basic

/-!
# Screens

What is seen of a text that is written to a terminal.  Besides the ends of lines the text may have
carriage returns and the escape sequences that move the cursor up, clear a line and set the
attributes of what follows.  The screen is one without limits: it has as many lines as needed and
each is as long as needed, so that no line is wrapped and nothing scrolls away.  A real one shows the
same as long as it is wider than the lines and higher than the texts it goes back over.

* `Screen.write`, `Screen.run` — what a character and a text do.
* `Inline` — a text that stays in its line.
* `Prints` — a text that is some lines.
* `Prints.append`, `Inline.prints` — how lines compose.
* `Screen.run_eraseLines` — going back up over lines that were printed.
-/

namespace PhpSpx.Lib

/-! ## Characters -/

/-- A character that is seen: no control character. -/
def Visible (c : Char) : Prop := (32 ≤ c.toNat ∧ c.toNat < 127) ∨ 160 ≤ c.toNat

instance : DecidablePred Visible := fun _ => inferInstanceAs (Decidable (_ ∨ _))

/-- Every character of a text is seen. -/
def AllVisible (text : List Char) : Prop := ∀ c ∈ text, Visible c

instance : DecidablePred AllVisible := fun text => List.decidableBAll Visible text

/-- A text has visible characters and ends of lines. -/
def IsPlain (text : List Char) : Prop := ∀ c ∈ text, Visible c ∨ c = '\n'

instance : DecidablePred IsPlain := fun text => List.decidableBAll _ text

section Visible

variable {text text' : List Char}

theorem allVisible_nil : AllVisible [] := fun _ h => absurd h List.not_mem_nil

theorem AllVisible.append (h : AllVisible text) (h' : AllVisible text') :
    AllVisible (text ++ text') := List.forall_mem_append.mpr ⟨h, h'⟩

theorem AllVisible.cons {c : Char} (hc : Visible c) (h : AllVisible text) :
    AllVisible (c :: text) := List.forall_mem_cons.mpr ⟨hc, h⟩

theorem AllVisible.take (h : AllVisible text) (n : ℕ) : AllVisible (text.take n) :=
  fun c hc => h c (List.mem_of_mem_take hc)

theorem AllVisible.drop (h : AllVisible text) (n : ℕ) : AllVisible (text.drop n) :=
  fun c hc => h c (List.mem_of_mem_drop hc)

theorem allVisible_replicate {c : Char} (hc : Visible c) (n : ℕ) :
    AllVisible (List.replicate n c) := by
  intro c' hc'
  rwa [List.eq_of_mem_replicate hc']

theorem visible_of_isDigit {c : Char} (h : c.isDigit = true) : Visible c := by
  simp only [Char.isDigit, Bool.and_eq_true, decide_eq_true_eq] at h
  have hlow : 48 ≤ c.toNat := h.1
  have hhigh : c.toNat ≤ 57 := h.2
  exact .inl ⟨by omega, by omega⟩

end Visible

/-! ## Screens -/

/-- What was read of an escape sequence. -/
inductive EscapeState where
  | ground
  | escape
  | sequence (params : List Char)
  deriving DecidableEq

/-- The lines of a screen without limits, and where the cursor is. -/
structure Screen where
  lines : ℕ → List Char
  row : ℕ
  col : ℕ
  state : EscapeState

attribute [ext] Screen

/-- The escape character. -/
def escapeChar : Char := '\x1b'

/-- A parameter of an escape sequence, 1 when there is none. -/
def sequenceParam (params : List Char) : ℕ :=
  max 1 (params.foldl (fun n c => 10 * n + (c.toNat - '0'.toNat)) 0)

/-- A line with a character written at a column. -/
def overwriteAt (line : List Char) (col : ℕ) (c : Char) : List Char :=
  line.take col ++ List.replicate (col - line.length) ' ' ++ c :: line.drop (col + 1)

namespace Screen

/-- The end of an escape sequence. -/
def control (s : Screen) (params : List Char) (c : Char) : Screen :=
  if c = 'A' then { s with row := s.row - sequenceParam params }
  else if c = 'K' ∧ params = ['2'] then { s with lines := Function.update s.lines s.row [] }
  else s

/-- A character that is written. -/
def write (s : Screen) (c : Char) : Screen :=
  match s.state with
  | .ground =>
    if c = escapeChar then { s with state := .escape }
    else if c = '\n' then { s with row := s.row + 1, col := 0 }
    else if c = '\r' then { s with col := 0 }
    else if Visible c then
      { s with
        lines := Function.update s.lines s.row (overwriteAt (s.lines s.row) s.col c)
        col := s.col + 1 }
    else s
  | .escape => { s with state := if c = '[' then .sequence [] else .ground }
  | .sequence params =>
    if c.isDigit ∨ c = ';' then { s with state := .sequence (params ++ [c]) }
    else { s.control params c with state := .ground }

/-- A text that is written. -/
def run (s : Screen) (text : List Char) : Screen := text.foldl write s

@[simp] theorem run_nil (s : Screen) : s.run [] = s := rfl

@[simp] theorem run_cons (s : Screen) (c : Char) (text : List Char) :
    s.run (c :: text) = (s.write c).run text := rfl

theorem run_append (s : Screen) (text text' : List Char) :
    s.run (text ++ text') = (s.run text).run text' := List.foldl_append

/-- The cursor is at the start of a line, with nothing there nor below. -/
structure Ready (s : Screen) : Prop where
  state : s.state = .ground
  col : s.col = 0
  blank : ∀ i, s.row ≤ i → s.lines i = []

/-- The screen with lines printed from the cursor on. -/
def printed (s : Screen) (lines : List (List Char)) : Screen where
  lines i := if i < s.row then s.lines i else lines.getD (i - s.row) []
  row := s.row + lines.length
  col := 0
  state := .ground

section Printed

variable {s : Screen} {lines lines' : List (List Char)}

theorem printed_above (lines : List (List Char)) {i : ℕ} (h : i < s.row) :
    (s.printed lines).lines i = s.lines i := if_pos h

theorem printed_line (lines : List (List Char)) (j : ℕ) :
    (s.printed lines).lines (s.row + j) = lines.getD j [] := by
  have hbelow : ¬s.row + j < s.row := by omega
  exact (if_neg hbelow).trans (congrArg (lines.getD · []) (Nat.add_sub_cancel_left s.row j))

theorem ready_printed (lines : List (List Char)) : (s.printed lines).Ready where
  state := rfl
  col := rfl
  blank i hi := by
    have hrow : s.row + lines.length ≤ i := hi
    obtain ⟨j, rfl⟩ := Nat.exists_eq_add_of_le (le_trans (Nat.le_add_right _ _) hrow)
    rw [printed_line, List.getD_eq_default _ _ (by omega)]

theorem Ready.printed_nil (h : s.Ready) : s.printed [] = s := by
  apply Screen.ext
  · funext i
    rcases Nat.lt_or_ge i s.row with habove | hbelow
    · exact printed_above [] habove
    · obtain ⟨j, rfl⟩ := Nat.exists_eq_add_of_le hbelow
      rw [printed_line, h.blank _ hbelow, List.getD_eq_default _ _ (Nat.zero_le j)]
  · rfl
  · exact h.col.symm
  · exact h.state.symm

theorem printed_append : (s.printed lines).printed lines' = s.printed (lines ++ lines') := by
  apply Screen.ext
  · funext i
    rcases Nat.lt_or_ge i s.row with habove | hbelow
    · rw [printed_above _ (Nat.lt_add_right lines.length habove), printed_above _ habove,
        printed_above _ habove]
    · obtain ⟨j, rfl⟩ := Nat.exists_eq_add_of_le hbelow
      rw [printed_line]
      rcases Nat.lt_or_ge j lines.length with hfirst | hsecond
      · have habove : s.row + j < (s.printed lines).row := Nat.add_lt_add_left hfirst s.row
        rw [printed_above _ habove, printed_line, List.getD_append _ _ _ _ hfirst]
      · obtain ⟨k, rfl⟩ := Nat.exists_eq_add_of_le hsecond
        have hrow : s.row + (lines.length + k) = (s.printed lines).row + k :=
          (Nat.add_assoc _ _ _).symm
        rw [hrow, printed_line, List.getD_append_right _ _ _ _ hsecond, Nat.add_sub_cancel_left]
  · exact (Nat.add_assoc _ _ _).trans (congrArg (s.row + ·) List.length_append.symm)
  · rfl
  · rfl

end Printed

end Screen

/-! ## Text in a line -/

/-- A text that appends to its line, of which a part is seen. -/
def Inline (text seen : List Char) : Prop :=
  ∀ s : Screen, s.state = .ground → s.col = (s.lines s.row).length →
    s.run text =
      { s with
        lines := Function.update s.lines s.row (s.lines s.row ++ seen)
        col := s.col + seen.length }

theorem inline_nil : Inline [] [] := by
  intro s _ _
  simp

theorem Inline.append {text seen text' seen' : List Char} (h : Inline text seen)
    (h' : Inline text' seen') : Inline (text ++ text') (seen ++ seen') := by
  intro s hstate hcol
  let middle : Screen :=
    { s with
      lines := Function.update s.lines s.row (s.lines s.row ++ seen)
      col := s.col + seen.length }
  have hmiddle : middle.col = (middle.lines middle.row).length := by
    simp [middle, hcol]
  rw [Screen.run_append, h s hstate hcol, h' middle hstate hmiddle]
  simp [middle, Nat.add_assoc]

theorem inline_visible {c : Char} (h : Visible c) : Inline [c] [c] := by
  intro s hstate hcol
  have hescape : c ≠ escapeChar := by
    rintro rfl
    revert h
    decide
  have hline : c ≠ '\n' := by
    rintro rfl
    revert h
    decide
  have hreturn : c ≠ '\r' := by
    rintro rfl
    revert h
    decide
  rw [Screen.run_cons, Screen.run_nil, Screen.write, hstate]
  dsimp only
  rw [if_neg hescape, if_neg hline, if_neg hreturn, if_pos h, overwriteAt, hcol, Nat.sub_self,
    List.take_length, List.drop_eq_nil_of_le (Nat.le_succ _), List.replicate_zero, List.append_nil]
  rfl

/-- **Visible text** is seen. -/
theorem inline_of_visible {text : List Char} (h : AllVisible text) : Inline text text := by
  induction text with
  | nil => exact inline_nil
  | cons c text ih =>
    obtain ⟨hc, hrest⟩ := List.forall_mem_cons.mp h
    exact (inline_visible hc).append (ih hrest)

/-- The parameters of an escape sequence are read. -/
theorem run_params (s : Screen) {params : List Char}
    (h : ∀ c ∈ params, c.isDigit = true ∨ c = ';') (read : List Char)
    (hstate : s.state = .sequence read) :
    s.run params = { s with state := .sequence (read ++ params) } := by
  induction params generalizing s read with
  | nil =>
    rw [Screen.run_nil, List.append_nil, ← hstate]
  | cons c params ih =>
    obtain ⟨hc, hrest⟩ := List.forall_mem_cons.mp h
    rw [Screen.run_cons, Screen.write, hstate]
    dsimp only
    rw [if_pos hc, ih _ hrest (read ++ [c]) rfl, List.append_assoc, List.singleton_append]

/-- An escape sequence. -/
theorem run_sequence (s : Screen) (hstate : s.state = .ground) {params : List Char}
    (h : ∀ c ∈ params, c.isDigit = true ∨ c = ';') {c : Char}
    (hc : ¬(c.isDigit = true ∨ c = ';')) :
    s.run (escapeChar :: '[' :: params ++ [c]) = { s.control params c with state := .ground } := by
  have hescape : s.write escapeChar = { s with state := .escape } := by
    rw [Screen.write, hstate]
    rfl
  have hopen : (s.write escapeChar).write '[' = { s with state := .sequence [] } := by
    rw [hescape]
    rfl
  rw [List.cons_append, List.cons_append, Screen.run_cons, Screen.run_cons, hopen,
    Screen.run_append, run_params _ h [] rfl, List.nil_append, Screen.run_cons, Screen.run_nil,
    Screen.write]
  dsimp only
  rw [if_neg hc]
  unfold Screen.control
  split
  · rfl
  · split <;> rfl

/-- Setting attributes is not seen. -/
theorem inline_attributes {params : List Char} (h : ∀ c ∈ params, c.isDigit = true ∨ c = ';') :
    Inline (escapeChar :: '[' :: params ++ ['m']) [] := by
  intro s hstate hcol
  rw [run_sequence s hstate h (by decide)]
  simp [Screen.control, ← hstate]

/-- A text that stays in its line, whatever is seen of it. -/
def StaysInLine (text : List Char) : Prop := '\n' ∉ text ∧ ∃ seen, Inline text seen

theorem StaysInLine.append {text text' : List Char} (h : StaysInLine text)
    (h' : StaysInLine text') : StaysInLine (text ++ text') := by
  obtain ⟨hline, seen, h⟩ := h
  obtain ⟨hline', seen', h'⟩ := h'
  refine ⟨?_, seen ++ seen', h.append h'⟩
  rw [List.mem_append]
  exact not_or.mpr ⟨hline, hline'⟩

theorem staysInLine_of_visible {text : List Char} (h : AllVisible text) :
    StaysInLine text :=
  ⟨fun hline => absurd (h _ hline) (by decide), text, inline_of_visible h⟩

theorem staysInLine_nil : StaysInLine [] := staysInLine_of_visible allVisible_nil

theorem staysInLine_attributes {params : List Char}
    (h : ∀ c ∈ params, c.isDigit = true ∨ c = ';') :
    StaysInLine (escapeChar :: '[' :: params ++ ['m']) := by
  refine ⟨?_, [], inline_attributes h⟩
  have hparams : '\n' ∉ params := fun hline => absurd (h _ hline) (by decide)
  have hnewline : '\n' ≠ escapeChar := by decide
  simp [hparams, hnewline]

/-! ## Lines -/

/-- A text that is some lines. -/
def Prints (text : List Char) (lines : List (List Char)) : Prop :=
  ∀ s : Screen, s.Ready → s.run text = s.printed lines

theorem prints_nil : Prints [] [] := fun _ h => h.printed_nil.symm

theorem Prints.append {text text' : List Char} {lines lines' : List (List Char)}
    (h : Prints text lines) (h' : Prints text' lines') : Prints (text ++ text') (lines ++ lines') := by
  intro s hs
  rw [Screen.run_append, h s hs, h' _ (Screen.ready_printed lines), Screen.printed_append]

/-- **A line** ends with the end of the text. -/
theorem Inline.prints {text seen : List Char} (h : Inline text seen) :
    Prints (text ++ ['\n']) [seen] := by
  intro s hs
  obtain ⟨hstate, hcol, hblank⟩ := hs
  have hline := hblank s.row le_rfl
  rw [Screen.run_append, h s hstate (by rw [hcol, hline]; rfl), Screen.run_cons, Screen.run_nil,
    Screen.write, hstate, hline, List.nil_append]
  dsimp only
  rw [if_neg (by decide), if_pos rfl]
  apply Screen.ext
  · funext i
    rcases Nat.lt_or_ge i s.row with habove | hbelow
    · exact (Function.update_of_ne habove.ne _ _).trans (Screen.printed_above _ habove).symm
    · obtain ⟨j, rfl⟩ := Nat.exists_eq_add_of_le hbelow
      rw [Screen.printed_line]
      cases j with
      | zero => exact Function.update_self _ _ _
      | succ j => exact (Function.update_of_ne (by omega) _ _).trans (hblank _ hbelow)
  · rfl
  · rfl
  · rfl

/-- A text of a number of lines. -/
def PrintsLines (text : List Char) (n : ℕ) : Prop :=
  text.count '\n' = n ∧ ∃ lines, lines.length = n ∧ Prints text lines

theorem printsLines_nil : PrintsLines [] 0 := ⟨rfl, [], rfl, prints_nil⟩

theorem PrintsLines.congr {text : List Char} {m n : ℕ} (h : PrintsLines text m) (hmn : m = n) :
    PrintsLines text n := hmn ▸ h

theorem PrintsLines.append {text text' : List Char} {m n : ℕ} (h : PrintsLines text m)
    (h' : PrintsLines text' n) : PrintsLines (text ++ text') (m + n) := by
  obtain ⟨hcount, lines, hlength, h⟩ := h
  obtain ⟨hcount', lines', hlength', h'⟩ := h'
  refine ⟨?_, lines ++ lines', ?_, h.append h'⟩
  · rw [List.count_append, hcount, hcount']
  · rw [List.length_append, hlength, hlength']

theorem StaysInLine.printsLines {text : List Char} (h : StaysInLine text) :
    PrintsLines (text ++ ['\n']) 1 := by
  obtain ⟨hline, seen, h⟩ := h
  refine ⟨?_, [seen], rfl, h.prints⟩
  rw [List.count_append, List.count_eq_zero_of_not_mem hline]
  rfl

/-- **A text with ends of lines** has one line more than it has of them. -/
theorem printsLines_text {start text : List Char} (h : StaysInLine start)
    (htext : IsPlain text) :
    PrintsLines (start ++ text ++ ['\n']) (text.count '\n' + 1) := by
  induction text generalizing start with
  | nil =>
    rw [List.append_nil]
    exact h.printsLines
  | cons c text ih =>
    obtain ⟨hc, hrest⟩ := List.forall_mem_cons.mp htext
    by_cases hline : c = '\n'
    · subst hline
      have hsplit : start ++ '\n' :: text ++ ['\n'] = (start ++ ['\n']) ++ ([] ++ text ++ ['\n']) := by
        simp
      rw [hsplit, List.count_cons_self, Nat.add_comm]
      exact h.printsLines.append (ih staysInLine_nil hrest)
    · have hvisible : StaysInLine [c] :=
        staysInLine_of_visible (List.forall_mem_singleton.mpr (hc.resolve_right hline))
      have hsplit : start ++ c :: text ++ ['\n'] = (start ++ [c]) ++ text ++ ['\n'] := by simp
      rw [hsplit, List.count_cons_of_ne hline]
      exact ih (h.append hvisible) hrest

/-- One line for each element. -/
theorem printsLines_flatMap {α : Type*} {l : List α} {f : α → List Char}
    (h : ∀ a ∈ l, PrintsLines (f a) 1) : PrintsLines (l.flatMap f) l.length := by
  induction l with
  | nil => exact printsLines_nil
  | cons a l ih =>
    obtain ⟨ha, hl⟩ := List.forall_mem_cons.mp h
    rw [List.flatMap_cons, List.length_cons, Nat.add_comm]
    exact ha.append (ih hl)

/-! ## Going back -/

/-- The text that clears the line of the cursor. -/
def clearLine : List Char := '\r' :: escapeChar :: "[2K".toList

/-- The text that goes up a line and clears it. -/
def clearAbove : List Char := escapeChar :: "[1A".toList ++ escapeChar :: "[2K".toList

namespace Screen

variable {s : Screen}

theorem Ready.run_clearLine (h : s.Ready) : s.run clearLine = s := by
  obtain ⟨slines, row, col, state⟩ := s
  obtain ⟨rfl, rfl, hblank⟩ := h
  have hsame : Function.update slines row [] = slines := by
    rw [← hblank row le_rfl, Function.update_eq_self]
  exact congrArg (Screen.mk · row 0 .ground) hsame

theorem run_clearAbove (lines : List (List Char)) (line : List Char) :
    (s.printed (lines ++ [line])).run clearAbove = s.printed lines := by
  have hup : (s.printed (lines ++ [line])).run clearAbove =
      { s.printed (lines ++ [line]) with
        lines := Function.update (s.printed (lines ++ [line])).lines (s.row + lines.length) []
        row := s.row + lines.length } := by
    have hrow : (s.printed (lines ++ [line])).row - 1 = s.row + lines.length := by
      show s.row + (lines ++ [line]).length - 1 = s.row + lines.length
      rw [List.length_append, List.length_singleton]
      rfl
    rw [← hrow]
    rfl
  rw [hup]
  apply Screen.ext
  · funext i
    rcases Nat.lt_or_ge i s.row with habove | hbelow
    · exact (Function.update_of_ne (by omega) _ _).trans
        ((printed_above _ habove).trans (printed_above _ habove).symm)
    · obtain ⟨j, rfl⟩ := Nat.exists_eq_add_of_le hbelow
      rw [printed_line]
      rcases lt_trichotomy j lines.length with hlt | rfl | hgt
      · refine (Function.update_of_ne (by omega) _ _).trans ?_
        rw [printed_line, List.getD_append _ _ _ _ hlt]
      · exact (Function.update_self _ _ _).trans (List.getD_eq_default _ _ le_rfl).symm
      · refine (Function.update_of_ne (by omega) _ _).trans ?_
        rw [printed_line, List.getD_eq_default _ _ hgt.le,
          List.getD_eq_default _ _ (by rw [List.length_append, List.length_singleton]; omega)]
  · rfl
  · rfl
  · rfl

/-- **Going back** over all lines that were printed. -/
theorem Ready.run_eraseLines (h : s.Ready) (lines : List (List Char)) :
    (s.printed lines).run (clearLine ++ (List.replicate lines.length clearAbove).flatten) = s := by
  rw [run_append, (ready_printed lines).run_clearLine]
  induction lines using List.reverseRecOn with
  | nil => exact h.printed_nil
  | append_singleton lines line ih =>
    rw [List.length_append, List.length_singleton, List.replicate_succ, List.flatten_cons,
      run_append, run_clearAbove]
    exact ih

end Screen

end PhpSpx.Lib
