import PhpSpx.Lib.Screen
import PhpSpx.Text.Fmt

/-!
# Values and rows on a screen

What `spx_fmt.c` prints, on a terminal: a value is seen as it is, and a row is one line, whatever
the attributes of its cells.

* `visible_fmtFormatValue` — the text of a value.
* `FmtRow.Shown` — the texts of the cells can be seen, and adding such cells keeps it.
* `FmtRow.Shown.printsLines_print` — a row is one line.
-/

namespace PhpSpx

open Lib

section Pads

variable {s : CStr}

theorem allVisible_padLeft (h : AllVisible s) (width : ℕ) : AllVisible (padLeft width s) :=
  (allVisible_replicate (by decide) _).append h

theorem allVisible_padRight (h : AllVisible s) (width : ℕ) : AllVisible (padRight width s) :=
  h.append (allVisible_replicate (by decide) _)

end Pads

/-! ## Values -/

theorem visible_printfSize (n : ℕ) : AllVisible (printfSize n) :=
  fun _ hc => visible_of_isDigit (Nat.isDigit_of_mem_toDigits (by decide) (by decide) hc)

theorem visible_printfDouble (width prec : ℕ) (value : ℚ) :
    AllVisible (printfDouble width prec value) := by
  have hdigits (k n : ℕ) : AllVisible (List.replicate k '0' ++ Nat.toDigits 10 n) :=
    (allVisible_replicate (by decide) k).append (visible_printfSize n)
  have hnumber {whole decimals : CStr} (h : AllVisible whole) (h' : AllVisible decimals) :
      AllVisible (if prec = 0 then whole else whole ++ '.' :: decimals) := by
    split
    · exact h
    · exact h.append (.cons (by decide) h')
  have hsigned {number : CStr} (h : AllVisible number) :
      AllVisible (if value < 0 then '-' :: number else number) := by
    split
    · exact .cons (by decide) h
    · exact h
  unfold printfDouble
  apply allVisible_padLeft
  apply hsigned
  exact hnumber ((hdigits _ _).take _) ((hdigits _ _).drop _)

/-- The unit that a function which chooses a format writes after the number. -/
def VisibleUnits (resolve : ℚ → NumFormat × ℚ) : Prop :=
  ∀ value, AllVisible (resolve value).1.suffix

theorem VisibleUnits.signed {resolve : ℚ → NumFormat × ℚ} (h : VisibleUnits resolve) :
    VisibleUnits (resolveSigned resolve) := by
  intro value
  unfold resolveSigned
  split
  · exact h _
  · exact h _

theorem visibleUnits_time : VisibleUnits resolveTimeFormat := by
  intro value
  unfold resolveTimeFormat
  split_ifs <;> dsimp only <;> decide

theorem visibleUnits_mem : VisibleUnits resolveMemFormat := by
  refine VisibleUnits.signed fun value => ?_
  split_ifs <;> dsimp only <;> decide

theorem visibleUnits_qty : VisibleUnits resolveQtyFormat := by
  refine VisibleUnits.signed fun value => ?_
  split_ifs <;> dsimp only <;> decide

theorem visibleUnits_pct : VisibleUnits resolvePctFormat := by
  intro value
  unfold resolvePctFormat
  dsimp only
  decide

/-- **The text of a value** is seen as it is. -/
theorem visible_fmtFormatValue (size : ℕ) (type : FmtValueType) (value : ℚ) :
    AllVisible (fmtFormatValue size type value) := by
  unfold fmtFormatValue
  apply AllVisible.take
  cases type with
  | time => exact .append (visible_printfDouble _ _ _) (visibleUnits_time value)
  | memory => exact .append (visible_printfDouble _ _ _) (visibleUnits_mem value)
  | percentage => exact .append (visible_printfDouble _ _ _) (visibleUnits_pct value)
  | quantity => exact .append (visible_printfDouble _ _ _) (visibleUnits_qty value)

theorem Metric.visible_shortName (m : Metric) : AllVisible m.shortName.toList := by
  cases m <;> decide

/-! ## Rows -/

/-- The parameters of an escape sequence. -/
def IsAnsiFmt (s : CStr) : Prop := ∀ c ∈ s, c.isDigit = true ∨ c = ';'

/-- A cell with a text that is seen, whose attributes can be set. -/
structure FmtCell.Shown (cell : FmtCell) : Prop where
  text : ∀ text, cell.content = .text text → AllVisible text
  ansiFmt : ∀ ansiFmt, cell.ansiFmt = some ansiFmt → IsAnsiFmt ansiFmt

theorem FmtCell.shown_text {span : ℕ} {text : CStr} (h : AllVisible text) :
    FmtCell.Shown ⟨span, none, .text text⟩ := by
  refine ⟨?_, ?_⟩
  · rintro _ ⟨⟩
    exact h
  · rintro _ ⟨⟩

theorem FmtCell.shown_num {span : ℕ} {type : FmtValueType} {value : ℚ} {ansiFmt : Option CStr}
    (h : ∀ s, ansiFmt = some s → IsAnsiFmt s) : FmtCell.Shown ⟨span, ansiFmt, .num type value⟩ := by
  refine ⟨?_, h⟩
  rintro _ ⟨⟩

/-- The text of a cell. -/
theorem FmtCell.Shown.visible_text {cell : FmtCell} (h : cell.Shown) :
    AllVisible
      (match cell.content with
      | .text text => text
      | .num type value => fmtFormatValue 32 type value) := by
  cases hcontent : cell.content with
  | text text => exact h.text text hcontent
  | num type value => exact visible_fmtFormatValue 32 type value

namespace FmtRow

/-- All cells of a row can be shown. -/
def Shown (row : FmtRow) : Prop := ∀ cell ∈ row.cells, cell.Shown

theorem shown_create : create.Shown := fun _ h => absurd h List.not_mem_nil

/-- A cell is added. -/
theorem Shown.addCell {row : FmtRow} (h : row.Shown) {cell : FmtCell} (hcell : cell.Shown) :
    Ends (row.addCell cell) Shown fun _ => True := by
  unfold FmtRow.addCell
  split
  · exact trivial
  · exact List.forall_mem_append.mpr ⟨h, List.forall_mem_singleton.mpr hcell⟩

/-- The cells stay in their line. -/
theorem staysInLine_printCells {cells : List FmtCell} (h : ∀ cell ∈ cells, cell.Shown) :
    StaysInLine (printCells cells) := by
  induction cells with
  | nil => exact staysInLine_of_visible allVisible_nil
  | cons cell cells ih =>
    obtain ⟨hcell, hrest⟩ := List.forall_mem_cons.mp h
    have htext := hcell.visible_text
    have hspace : Visible ' ' := by decide
    unfold printCells
    dsimp only
    split
    · exact staysInLine_of_visible (AllVisible.cons hspace htext)
    · have hprinted (width : ℕ) := allVisible_padRight (htext.take width) width
      have hend : StaysInLine " |".toList := staysInLine_of_visible (by decide)
      refine .append (.append ?_ hend) (ih hrest)
      cases hansi : cell.ansiFmt with
      | none => exact staysInLine_of_visible (AllVisible.cons hspace (hprinted _))
      | some ansiFmt =>
        -- the attributes are set before the text and reset after it
        have hset : StaysInLine (' ' :: ("\x1b[".toList ++ ansiFmt ++ ['m'])) :=
          (staysInLine_of_visible (List.forall_mem_singleton.mpr hspace)).append
            (staysInLine_attributes (hcell.ansiFmt ansiFmt hansi))
        have hreset : StaysInLine "\x1b[0m".toList :=
          staysInLine_attributes (List.forall_mem_singleton.mpr (.inl (by decide : '0'.isDigit)))
        exact (hset.append (staysInLine_of_visible (hprinted _))).append hreset

theorem Shown.printsLines_print {row : FmtRow} (h : row.Shown) : PrintsLines row.print 1 :=
  (staysInLine_printCells h).printsLines

theorem visible_printSeps (cells : List FmtCell) : AllVisible (printSeps cells) := by
  have hspan : AllVisible "----------+".toList := by decide
  induction cells with
  | nil => exact allVisible_nil
  | cons cell cells ih =>
    rw [printSeps]
    split
    · decide
    · refine .append ?_ ih
      intro c hc
      obtain ⟨sep, hsep, hc⟩ := List.mem_flatten.mp hc
      rw [List.eq_of_mem_replicate hsep] at hc
      exact hspan c hc

theorem printsLines_printSep (row : FmtRow) : PrintsLines row.printSep 1 :=
  (staysInLine_of_visible (visible_printSeps row.cells)).printsLines

end FmtRow

end PhpSpx
