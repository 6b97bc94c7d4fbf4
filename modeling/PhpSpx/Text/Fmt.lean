import PhpSpx.Lib.Binary64
import PhpSpx.Lib.Outcome
import PhpSpx.Metric.Values
import PhpSpx.Text.CString

/-!
# Values and rows of the text reports

`spx_fmt.c`: numbers with a unit, and rows of cells of fixed width.  A row has room for
`ROW_MAX_CELLS` cells, and the process dies when another one is added.

* `FmtRow.Adds` — a function that adds a number of cells to a row when there is room for
  them, and dies otherwise.
-/

namespace PhpSpx

open Lib

/-! ## Numbers as `printf` writes them -/

/-- Spaces before a text, up to a width. -/
def padLeft (width : ℕ) (s : CStr) : CStr := List.replicate (width - s.length) ' ' ++ s

/-- Spaces after a text, up to a width. -/
def padRight (width : ℕ) (s : CStr) : CStr := s ++ List.replicate (width - s.length) ' '

/-- The conversion `%zu`. -/
def printfSize (n : ℕ) : CStr := Nat.toDigits 10 n

/-- The conversion `%<width>.<prec>f`. -/
def printfDouble (width prec : ℕ) (value : ℚ) : CStr :=
  let digits := Nat.toDigits 10 (roundHalfEven (|value| * 10 ^ prec)).toNat
  let digits := List.replicate (prec + 1 - digits.length) '0' ++ digits
  let whole := digits.take (digits.length - prec)
  let decimals := digits.drop (digits.length - prec)
  let number := if prec = 0 then whole else whole ++ '.' :: decimals
  padLeft width (if value < 0 then '-' :: number else number)

/-- `snprintf` into a buffer of `size` characters. -/
def snprintfText (size : ℕ) (s : CStr) : CStr := s.take (size - 1)

/-! ## Formatted values -/

/-- `spx_fmt_value_type_t`. -/
inductive FmtValueType where
  | time
  | memory
  | quantity
  | percentage
  deriving DecidableEq, Repr

/-- A format `%<width>.<prec>f<suffix>`. -/
structure NumFormat where
  width : ℕ
  prec : ℕ
  suffix : CStr

/-- `resolve_time_format`: the format, and the value to print with it. -/
def resolveTimeFormat (value : ℚ) : NumFormat × ℚ :=
  if value ≥ 1000 * 1000 * 1000 then (⟨7, 2, "s".toList⟩, value / (1000 * 1000 * 1000))
  else if value ≥ 1000 * 1000 then (⟨6, 1, "ms".toList⟩, value / (1000 * 1000))
  else if value ≥ 1000 then (⟨6, 1, "us".toList⟩, value / 1000)
  else (⟨6, 0, "ns".toList⟩, value)

/-- A format chosen for the absolute value. -/
def resolveSigned (resolve : ℚ → NumFormat × ℚ) (value : ℚ) : NumFormat × ℚ :=
  if value < 0 then
    let resolved := resolve (value * -1)
    (resolved.1, resolved.2 * -1)
  else resolve value

/-- `resolve_mem_format`. -/
def resolveMemFormat : ℚ → NumFormat × ℚ :=
  resolveSigned fun value =>
    if value ≥ 1000 * 1000 * 1000 then (⟨6, 1, "GB".toList⟩, value / 2 ^ 30)
    else if value ≥ 1000 * 1000 then (⟨6, 1, "MB".toList⟩, value / 2 ^ 20)
    else if value ≥ 1000 then (⟨6, 1, "KB".toList⟩, value / 2 ^ 10)
    else (⟨7, 0, "B".toList⟩, value)

/-- `resolve_pct_format`. -/
def resolvePctFormat (value : ℚ) : NumFormat × ℚ := (⟨7, 3, "%".toList⟩, value * 100)

/-- `resolve_qty_format`. -/
def resolveQtyFormat : ℚ → NumFormat × ℚ :=
  resolveSigned fun value =>
    if value ≥ 1000 * 1000 * 1000 then (⟨7, 1, "G".toList⟩, value / (1000 * 1000 * 1000))
    else if value ≥ 1000 * 1000 then (⟨7, 1, "M".toList⟩, value / (1000 * 1000))
    else if value ≥ 1000 then (⟨7, 1, "K".toList⟩, value / 1000)
    else (⟨8, 0, []⟩, value)

/-- `spx_fmt_format_value`. -/
def fmtFormatValue (size : ℕ) (type : FmtValueType) (value : ℚ) : CStr :=
  let resolved :=
    match type with
    | .time => resolveTimeFormat value
    | .memory => resolveMemFormat value
    | .percentage => resolvePctFormat value
    | .quantity => resolveQtyFormat value
  snprintfText size
    (printfDouble resolved.1.width resolved.1.prec resolved.2 ++ resolved.1.suffix)

/-- The text that `spx_fmt_print_value` prints. -/
def fmtPrintValue (type : FmtValueType) (value : ℚ) : CStr := fmtFormatValue 16 type value

example : fmtPrintValue .time 1234567 = "   1.2ms".toList := by decide +kernel

/-! ## Metric information -/

namespace Metric

/-- The `short_name` of a built-in metric. -/
def shortName : Metric → String
  | .wallTime => "Wall time"
  | .cpuTime => "CPU time"
  | .idleTime => "Idle time"
  | .zeMemoryUsage => "ZE memory usage"
  | .zeMemoryAllocCount => "ZE alloc count"
  | .zeMemoryAllocBytes => "ZE alloc bytes"
  | .zeMemoryFreeCount => "ZE free count"
  | .zeMemoryFreeBytes => "ZE free bytes"
  | .zeGcRuns => "ZE GC runs"
  | .zeGcRootBuffer => "ZE GC root buffer"
  | .zeGcCollected => "ZE GC collected"
  | .zeIncludedFileCount => "ZE file count"
  | .zeIncludedLineCount => "ZE line count"
  | .zeUserClassCount => "ZE class count"
  | .zeUserFunctionCount => "ZE func. count"
  | .zeUserOpcodeCount => "ZE opcodes count"
  | .zeObjectCount => "ZE object count"
  | .zeErrorCount => "ZE error count"
  | .memOwnRss => "Own RSS"
  | .ioBytes => "I/O Bytes"
  | .ioRbytes => "I/O Read Bytes"
  | .ioWbytes => "I/O Written Bytes"

/-- The `type` of a built-in metric. -/
def fmtType : Metric → FmtValueType
  | .wallTime | .cpuTime | .idleTime => .time
  | .zeMemoryUsage | .zeMemoryAllocBytes | .zeMemoryFreeBytes | .memOwnRss | .ioBytes | .ioRbytes
  | .ioWbytes => .memory
  | _ => .quantity

/-- The enabled metrics, in the order of `SPX_METRIC_FOREACH`. -/
def enabledList (enabledMetrics : Metric → Bool) : List Metric :=
  all.filter fun m => enabledMetrics m

theorem mem_enabledList {enabledMetrics : Metric → Bool} {m : Metric} :
    m ∈ enabledList enabledMetrics ↔ enabledMetrics m = true := by
  rw [enabledList, List.mem_filter]
  exact and_iff_right (mem_all m)

end Metric

/-! ## Rows -/

/-- `ROW_MAX_CELLS`. -/
def rowMaxCells : ℕ := 16

/-- What a cell shows. -/
inductive CellContent where
  | text (text : CStr)
  | num (type : FmtValueType) (value : ℚ)

/-- A cell of `spx_fmt_row_t`. -/
structure FmtCell where
  span : ℕ
  ansiFmt : Option CStr
  content : CellContent

/-- `spx_fmt_row_t`, with the cells up to `cell_count`. -/
structure FmtRow where
  cells : List FmtCell
  length_le : cells.length ≤ rowMaxCells

/-- The call of `spx_utils_die` in `spx_fmt.c`. -/
inductive FmtDie where
  | rowMaxCellsExceeded
  deriving DecidableEq, Repr

/-- The message the process dies with. -/
def FmtDie.message : FmtDie → String
  | .rowMaxCellsExceeded => "ROW_MAX_CELLS exceeded\n"

namespace FmtRow

/-- `spx_fmt_row_create`. -/
def create : FmtRow := ⟨[], Nat.zero_le _⟩

/-- `spx_fmt_row_reset`. -/
def reset (_ : FmtRow) : FmtRow := ⟨[], Nat.zero_le _⟩

/-- The body of the functions that add a cell. -/
def addCell (row : FmtRow) (cell : FmtCell) : Except FmtDie FmtRow :=
  if h : row.cells.length = rowMaxCells then .error .rowMaxCellsExceeded
  else
    .ok
      { cells := row.cells ++ [cell]
        length_le := by
          rw [List.length_append]
          exact Nat.lt_of_le_of_ne row.length_le h }

/-- `spx_fmt_row_add_tcell`. -/
def addTcell (row : FmtRow) (span : ℕ) (text : CStr) : Except FmtDie FmtRow :=
  row.addCell ⟨span, none, .text text⟩

/-- `spx_fmt_row_add_ncellf`. -/
def addNcellf (row : FmtRow) (span : ℕ) (type : FmtValueType) (value : ℚ)
    (ansiFmt : Option CStr) : Except FmtDie FmtRow :=
  row.addCell ⟨span, ansiFmt, .num type value⟩

/-- `spx_fmt_row_add_ncell`. -/
def addNcell (row : FmtRow) (span : ℕ) (type : FmtValueType) (value : ℚ) : Except FmtDie FmtRow :=
  row.addNcellf span type value none

/-- The cells of a row, printed up to the first one without a width. -/
def printCells : List FmtCell → CStr
  | [] => []
  | cell :: cells =>
    let text :=
      match cell.content with
      | .text text => text
      | .num type value => fmtFormatValue 32 type value
    if cell.span = 0 then ' ' :: text
    else
      let safeSpan := if cell.span > 100 then 100 else cell.span
      let cellWidth := safeSpan * 8 + (safeSpan - 1) * 3
      let printed := padRight cellWidth (text.take cellWidth)
      let colored :=
        match cell.ansiFmt with
        | some ansiFmt => "\x1b[".toList ++ ansiFmt ++ ['m'] ++ printed ++ "\x1b[0m".toList
        | none => printed
      ' ' :: colored ++ " |".toList ++ printCells cells

/-- The text that `spx_fmt_row_print` prints. -/
def print (row : FmtRow) : CStr := printCells row.cells ++ ['\n']

/-- The separators of the cells, up to the first one without a width. -/
def printSeps : List FmtCell → CStr
  | [] => []
  | cell :: cells =>
    if cell.span = 0 then "----------".toList
    else (List.replicate cell.span "----------+".toList).flatten ++ printSeps cells

/-- The text that `spx_fmt_row_print_sep` prints. -/
def printSep (row : FmtRow) : CStr := printSeps row.cells ++ ['\n']

/-! ## Functions that add cells -/

/-- A function that adds `n` cells when there is room for them, and dies otherwise. -/
def Adds (n : ℕ) (f : FmtRow → Except FmtDie FmtRow) : Prop :=
  ∀ row : FmtRow,
    (row.cells.length + n ≤ rowMaxCells ∧
        ∃ row', f row = .ok row' ∧ row'.cells.length = row.cells.length + n) ∨
      (rowMaxCells < row.cells.length + n ∧ f row = .error .rowMaxCellsExceeded)

theorem adds_zero : Adds 0 fun row => .ok row := fun row => .inl ⟨row.length_le, row, rfl, rfl⟩

theorem adds_addCell (cell : FmtCell) : Adds 1 fun row => row.addCell cell := by
  intro row
  by_cases h : row.cells.length = rowMaxCells
  · exact .inr ⟨h ▸ Nat.lt_succ_self _, dif_pos h⟩
  · refine .inl ⟨Nat.lt_of_le_of_ne row.length_le h, _, dif_neg h, ?_⟩
    exact List.length_append

theorem Adds.bind {m n : ℕ} {f g : FmtRow → Except FmtDie FmtRow} (hf : Adds m f)
    (hg : Adds n g) : Adds (m + n) fun row => f row >>= g := by
  intro row
  rcases hf row with ⟨hroom, row', hok, hlen⟩ | ⟨hfull, herror⟩
  · rcases hg row' with ⟨hroom', row'', hok', hlen'⟩ | ⟨hfull', herror'⟩
    · refine .inl ⟨by omega, row'', ?_, by omega⟩
      show (f row >>= g) = .ok row''
      rw [hok]
      exact hok'
    · refine .inr ⟨by omega, ?_⟩
      show (f row >>= g) = _
      rw [hok]
      exact herror'
  · refine .inr ⟨by omega, ?_⟩
    show (f row >>= g) = _
    rw [herror]
    rfl

/-- The cells of the metrics of a list. -/
theorem adds_foldlM {n : ℕ} {add : FmtRow → Metric → Except FmtDie FmtRow}
    (hadd : ∀ m, Adds n fun row => add row m) (metrics : List Metric) :
    Adds (n * metrics.length) fun row => metrics.foldlM add row := by
  induction metrics with
  | nil => exact adds_zero
  | cons m metrics ih =>
    have hbind := (hadd m).bind ih
    rw [List.length_cons, Nat.mul_succ, Nat.add_comm]
    simpa only [List.foldlM_cons] using hbind

/-- The cells of the enabled metrics. -/
theorem adds_enabled (enabledMetrics : Metric → Bool) {n : ℕ}
    {f : FmtRow → Metric → Except FmtDie FmtRow} (hf : ∀ m, Adds n fun row => f row m) :
    Adds (n * (Metric.enabledList enabledMetrics).length)
      fun row => (Metric.enabledList enabledMetrics).foldlM f row :=
  adds_foldlM hf _

/-- A row filled from an empty one. -/
theorem Adds.create_iff {n : ℕ} {f : FmtRow → Except FmtDie FmtRow} (hf : Adds n f) :
    Succeeds (f create) ↔ n ≤ rowMaxCells := by
  rcases hf create with ⟨hroom, row, hok, -⟩ | ⟨hfull, herror⟩
  · exact iff_of_true ⟨row, hok⟩ ((Nat.zero_add n).symm.trans_le hroom)
  · refine iff_of_false ?_ ?_
    · rw [herror]
      exact not_succeeds_error _
    · intro hle
      exact absurd ((Nat.zero_add n).trans_le hle) (not_le.mpr hfull)

end FmtRow

end PhpSpx
