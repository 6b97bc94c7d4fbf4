import PhpSpx.Lib.Outcome
import PhpSpx.Lib.Selection
import PhpSpx.Profiler.Event
import PhpSpx.Text.Fmt

/-!
# The flat profile reporter

`spx_reporter_fp.c`: a table of the functions with the greatest values of the focused
metric, printed at the end of the profile and, when live, from time to time.

* `FpReporter.succeeds_printReport_iff` — when the rows have room for their cells.
* `FpReporter.topEntries` — the entries whose rows are printed: a window of `limit`
  entries, then sorted.
* `FpReporter.rankKey` — the order that the rows are meant to be in.
* `flat_profile_shows_top_iff` — when the rows are the first ones of the whole table.
-/

namespace PhpSpx

open Lib

/-- `fp_reporter_t`, with the text written to its stream. -/
structure FpReporter where
  focus : Metric
  inc : Bool
  rel : Bool
  limit : ℕ
  live : Bool
  color : Bool
  output : CStr
  lastTsMs : UInt64
  lastLineCount : ℕ

/-- What the reporter asks of the platform. -/
structure Terminal where
  ansiSequencesSupported : Bool
  stdioDisablingSupported : Bool

/-- `spx_reporter_fp_create`, when nothing fails. -/
def spxReporterFpCreate (terminal : Terminal) (focus : Metric) (inc rel : Bool) (limit : ℕ)
    (live color : Bool) : FpReporter where
  focus := focus
  inc := inc
  rel := rel
  limit := limit
  live := live && terminal.ansiSequencesSupported && terminal.stdioDisablingSupported
  color := color && terminal.ansiSequencesSupported
  output := []
  lastTsMs := 0
  lastLineCount := 0

/-- The `int` that an integer becomes. -/
def wrapInt (v : ℤ) : ℤ := v.bmod (2 ^ 32)

/-- `get_value_ansi_fmt`. -/
def getValueAnsiFmt (v : ℚ) : CStr :=
  let colors : List String :=
    ["102;30", "42;30", "42;33", "42;93", "42;93;1", "43;92;1", "43;92", "43;32", "103;30",
      "43;30", "43;31", "43;91", "43;91;1", "41;93;1", "41;93", "41;33", "41", "101"]
  let v := if v < 0 then 0 else v
  let v := if v > 1 then 1 else v
  -- `round` of a number that is not negative
  (colors.getD ⌊v * (colors.length - 1 : ℕ) + 1 / 2⌋.toNat "").toList

namespace FpReporter

/-! ## The choice of the rows -/

/-- The value that comes first in the order of the rows. -/
def high (reporter : FpReporter) (entry : FuncTableEntry) : ℚ :=
  if reporter.inc then entry.stats.inc reporter.focus else entry.stats.exc reporter.focus

/-- The value that decides between rows with equal first ones. -/
def low (reporter : FpReporter) (entry : FuncTableEntry) : ℚ :=
  if reporter.inc then entry.stats.exc reporter.focus else entry.stats.inc reporter.focus

/-- `entry_cmp_r`. -/
def entryCmpR (a b : FuncTableEntry) (reporter : FpReporter) : ℤ :=
  if reporter.high a ≠ reporter.high b then if reporter.high b < reporter.high a then -1 else 1
  else if reporter.low a ≠ reporter.low b then if reporter.low b < reporter.low a then -1 else 1
  else wrapInt (wrapInt a.idx - wrapInt b.idx)

/-- The inner loop of the selection: the first entry that ranks after `current` is replaced. -/
def replaceFirst (reporter : FpReporter) (current : FuncTableEntry) :
    List FuncTableEntry → List FuncTableEntry
  | [] => []
  | top :: rest =>
    if entryCmpR top current reporter > 0 then current :: rest
    else top :: reporter.replaceFirst current rest

/-- `qsort`.  The comparison answers `0` for no two entries of a table, so there is one
result. -/
def qsort (cmp : FuncTableEntry → FuncTableEntry → ℤ) (entries : List FuncTableEntry) :
    List FuncTableEntry :=
  entries.insertionSort fun a b => cmp a b ≤ 0

/-- `limit` in `print_report`. -/
def reportLimit (reporter : FpReporter) (entries : List FuncTableEntry) : ℕ :=
  if reporter.limit > entries.length then entries.length else reporter.limit

/-- `top_entries` as `print_report` prints it. -/
def topEntries (reporter : FpReporter) (entries : List FuncTableEntry) : List FuncTableEntry :=
  let limit := reporter.reportLimit entries
  let window := (entries.drop limit).foldl (fun top current => reporter.replaceFirst current top)
    (entries.take limit)
  qsort (fun a b => entryCmpR a b reporter) window

/-! ## The report -/

/-- The label of a line before the table. -/
def statLabel (s : String) : CStr := "  ".toList ++ padRight 20 s.toList ++ ": ".toList

/-- The line of the greatest value of a metric. -/
def maxLine (max : MetricValues) (m : Metric) : CStr :=
  statLabel m.shortName ++ fmtPrintValue m.fmtType (max m) ++ ['\n']

/-- The lines before the table. -/
def globalStats (event : Event) : CStr :=
  "\n*** SPX Report ***\n\nGlobal stats:\n\n".toList ++
    statLabel "Called functions" ++ fmtPrintValue .quantity event.called ++ ['\n'] ++
    statLabel "Distinct functions" ++ fmtPrintValue .quantity event.funcTable.entries.length ++
    (if event.funcTable.entries.length = event.funcTable.capacity then ['+'] else []) ++
    "\n\n".toList ++
    (Metric.enabledList event.enabledMetrics).flatMap (maxLine event.max) ++
    "\nFlat profile:\n\n".toList

/-- The row with the names of the metrics. -/
def namesRow (enabledMetrics : Metric → Bool) : Except FmtDie FmtRow :=
  (Metric.enabledList enabledMetrics).foldlM
    (fun row m => row.addTcell 2 m.shortName.toList) FmtRow.create

/-- The row with the names of the columns. -/
def columnsRow (reporter : FpReporter) (enabledMetrics : Metric → Bool) : Except FmtDie FmtRow :=
  do
    let row ← (Metric.enabledList enabledMetrics).foldlM
      (fun row m => do
        let row ← row.addTcell 1
          (if m = reporter.focus ∧ reporter.inc then "*Inc." else "Inc.").toList
        row.addTcell 1 (if m = reporter.focus ∧ ¬reporter.inc then "*Exc." else "Exc.").toList)
      FmtRow.create
    let row ← row.addTcell 1 "Called".toList
    row.addTcell 0 "Function".toList

/-- The cells of a metric in the row of an entry. -/
def metricCells (reporter : FpReporter) (max : MetricValues) (entry : FuncTableEntry)
    (row : FmtRow) (m : Metric) : Except FmtDie FmtRow := do
  -- a maximum of 0 is taken for 1
  let maxVal := if max m = 0 then 1 else max m
  let type := if reporter.rel then .percentage else m.fmtType
  let inc := if reporter.rel then entry.stats.inc m / maxVal else entry.stats.inc m
  let exc := if reporter.rel then entry.stats.exc m / maxVal else entry.stats.exc m
  let ansiFmt (v : ℚ) : Option CStr :=
    if reporter.color then some (getValueAnsiFmt (v / maxVal)) else none
  let row ← row.addNcellf 1 type inc (ansiFmt (entry.stats.inc m))
  row.addNcellf 1 type exc (ansiFmt (entry.stats.exc m))

/-- The name of an entry, with its cycle depth. -/
def entryName (entry : FuncTableEntry) : CStr :=
  let cycleDepth :=
    if entry.stats.maxCycleDepth > 0 then
      snprintfText 32 (printfSize entry.stats.maxCycleDepth ++ ['@'])
    else []
  snprintfText 256
    (cycleDepth ++ entry.function.className.toList ++
      (if entry.function.className.isEmpty then [] else "::".toList) ++
      entry.function.funcName.toList)

/-- The row of an entry. -/
def entryRow (reporter : FpReporter) (event : Event) (entry : FuncTableEntry) :
    Except FmtDie FmtRow := do
  let row ← (Metric.enabledList event.enabledMetrics).foldlM
    (reporter.metricCells event.max entry) FmtRow.create
  let row ← row.addNcell 1 .quantity entry.stats.called
  row.addTcell 0 (entryName entry)

/-- `print_report`: the text printed and the number of lines. -/
def printReport (reporter : FpReporter) (event : Event) : Except FmtDie (CStr × ℕ) :=
  if event.funcTable.entries.length = 0 then .ok ([], 0)
  else do
    let names ← namesRow event.enabledMetrics
    let columns ← reporter.columnsRow event.enabledMetrics
    let rows ← (reporter.topEntries event.funcTable.entries).mapM (reporter.entryRow event)
    .ok
      (globalStats event ++ names.print ++ columns.print ++ columns.printSep ++
          rows.flatMap FmtRow.print ++ ['\n'],
        8 + (Metric.enabledList event.enabledMetrics).length + 3 + 3 +
          reporter.reportLimit event.funcTable.entries + 1)

/-- The text that erases the last report. -/
def erase (reporter : FpReporter) : CStr :=
  if reporter.lastLineCount > 0 then
    "\x0d\x1b[2K".toList ++ (List.replicate reporter.lastLineCount "\x1b[1A\x1b[2K".toList).flatten
  else []

/-- A report in place of the last one. -/
def report (reporter : FpReporter) (event : Event) : Except FmtDie (ReporterCost × FpReporter) := do
  let printed ← reporter.printReport event
  .ok
    (.heavy,
      { reporter with
        output := reporter.output ++ reporter.erase ++ printed.1
        lastLineCount := printed.2 })

/-- `fp_notify`; `wallTime` is what `spx_resource_stats_wall_time` answers. -/
def notify (reporter : FpReporter) (event : Event) (wallTime : UInt64) :
    Except FmtDie (ReporterCost × FpReporter) :=
  match event.type with
  | .callStart => .ok (.light, reporter)
  | .callEnd =>
    if !reporter.live then .ok (.light, reporter)
    else
      let tsMs := wallTime / (1000 * 1000)
      if tsMs - reporter.lastTsMs < 70 then .ok (.light, reporter)
      else { reporter with lastTsMs := tsMs }.report event
  | .finalize => reporter.report event

/-! ## The cells of the rows -/

theorem succeeds_namesRow_iff (enabledMetrics : Metric → Bool) :
    Succeeds (namesRow enabledMetrics)
      ↔ 1 * (Metric.enabledList enabledMetrics).length ≤ rowMaxCells :=
  (FmtRow.adds_enabled enabledMetrics fun _ => FmtRow.adds_addCell _).create_iff

theorem succeeds_columnsRow_iff (reporter : FpReporter) (enabledMetrics : Metric → Bool) :
    Succeeds (reporter.columnsRow enabledMetrics)
      ↔ 2 * (Metric.enabledList enabledMetrics).length + 2 ≤ rowMaxCells := by
  have hmetrics := FmtRow.adds_enabled enabledMetrics fun m =>
    (FmtRow.adds_addCell ⟨1, none, .text
      (if m = reporter.focus ∧ reporter.inc then "*Inc." else "Inc.").toList⟩).bind
    (FmtRow.adds_addCell ⟨1, none, .text
      (if m = reporter.focus ∧ ¬reporter.inc then "*Exc." else "Exc.").toList⟩)
  exact (hmetrics.bind ((FmtRow.adds_addCell _).bind (FmtRow.adds_addCell _))).create_iff

theorem succeeds_entryRow_iff (reporter : FpReporter) (event : Event) (entry : FuncTableEntry) :
    Succeeds (reporter.entryRow event entry)
      ↔ 2 * (Metric.enabledList event.enabledMetrics).length + 2 ≤ rowMaxCells := by
  have hmetrics := FmtRow.adds_enabled event.enabledMetrics
    (f := reporter.metricCells event.max entry)
    fun _ => (FmtRow.adds_addCell _).bind (FmtRow.adds_addCell _)
  exact (hmetrics.bind ((FmtRow.adds_addCell _).bind (FmtRow.adds_addCell _))).create_iff

/-- The report is printed exactly when there is nothing to print or the rows have room for two
cells for each enabled metric. -/
theorem succeeds_printReport_iff (reporter : FpReporter) (event : Event) :
    Succeeds (reporter.printReport event) ↔ event.funcTable.entries.length = 0 ∨
      2 * (Metric.enabledList event.enabledMetrics).length + 2 ≤ rowMaxCells := by
  rw [printReport]
  split
  · rename_i hempty
    exact iff_of_true (succeeds_ok _) (.inl hempty)
  · rename_i hentries
    rw [or_iff_right hentries]
    have hrows : Succeeds ((reporter.topEntries event.funcTable.entries).mapM
        (reporter.entryRow event)) ↔ ∀ entry ∈ reporter.topEntries event.funcTable.entries,
          2 * (Metric.enabledList event.enabledMetrics).length + 2 ≤ rowMaxCells :=
      succeeds_mapM_iff.trans
        (forall₂_congr fun entry _ => reporter.succeeds_entryRow_iff event entry)
    constructor
    · intro h
      obtain ⟨names, -, h⟩ := succeeds_bind_iff.mp h
      obtain ⟨columns, hcolumns, -⟩ := succeeds_bind_iff.mp h
      exact (reporter.succeeds_columnsRow_iff event.enabledMetrics).mp ⟨columns, hcolumns⟩
    · intro h
      obtain ⟨names, hnames⟩ := (succeeds_namesRow_iff event.enabledMetrics).mpr (by omega)
      obtain ⟨columns, hcolumns⟩ :=
        (reporter.succeeds_columnsRow_iff event.enabledMetrics).mpr h
      obtain ⟨rows, hrows⟩ := hrows.mpr fun _ _ => h
      refine succeeds_bind_iff.mpr ⟨names, hnames, succeeds_bind_iff.mpr ⟨columns, hcolumns, ?_⟩⟩
      exact succeeds_bind_iff.mpr ⟨rows, hrows, succeeds_ok _⟩

theorem succeeds_report_iff (reporter : FpReporter) (event : Event) :
    Succeeds (reporter.report event) ↔ event.funcTable.entries.length = 0 ∨
      2 * (Metric.enabledList event.enabledMetrics).length + 2 ≤ rowMaxCells := by
  rw [report, succeeds_bind_iff_and fun _ => iff_true_intro (succeeds_ok _), and_true]
  exact reporter.succeeds_printReport_iff event

/-- No notification fails when the rows have room. -/
theorem succeeds_notify (reporter : FpReporter) {event : Event}
    (h : 2 * (Metric.enabledList event.enabledMetrics).length + 2 ≤ rowMaxCells)
    (wallTime : UInt64) : Succeeds (reporter.notify event wallTime) := by
  have hreport (reporter : FpReporter) : Succeeds (reporter.report event) :=
    (reporter.succeeds_report_iff event).mpr (.inr h)
  rw [notify]
  cases event.type with
  | callStart => exact succeeds_ok _
  | callEnd =>
    dsimp only
    split_ifs
    · exact succeeds_ok _
    · exact succeeds_ok _
    · exact hreport _
  | finalize => exact hreport reporter

/-! ## The order of the rows -/

/-- What a row is ranked by: the greatest focused value first, then the other value, then
the index. -/
def rankKey (reporter : FpReporter) (entry : FuncTableEntry) : ℚ ×ₗ ℚ ×ₗ ℕ :=
  toLex (-reporter.high entry, toLex (-reporter.low entry, entry.idx))

/-- The whole table in the order of the rows. -/
def rankedEntries (reporter : FpReporter) (entries : List FuncTableEntry) : List FuncTableEntry :=
  entries.insertionSort fun a b => reporter.rankKey a ≤ reporter.rankKey b

theorem wrapInt_idx_sub {m n : ℕ} (hm : m < 2 ^ 31) (hn : n < 2 ^ 31) :
    wrapInt (wrapInt m - wrapInt n) = (m : ℤ) - n := by
  have hself {v : ℤ} (hl : -2 ^ 31 ≤ v) (hu : v < 2 ^ 31) : wrapInt v = v := by
    rw [wrapInt, Int.bmod_eq_of_le] <;> omega
  have hm' : wrapInt (m : ℤ) = m := hself (by omega) (by omega)
  have hn' : wrapInt (n : ℤ) = n := hself (by omega) (by omega)
  rw [hm', hn']
  exact hself (by omega) (by omega)

/-- The comparison is that of the ranks. -/
theorem entryCmpR_nonpos_iff (reporter : FpReporter) {a b : FuncTableEntry} (ha : a.idx < 2 ^ 31)
    (hb : b.idx < 2 ^ 31) : entryCmpR a b reporter ≤ 0 ↔ reporter.rankKey a ≤ reporter.rankKey b := by
  rw [entryCmpR, wrapInt_idx_sub ha hb, rankKey, rankKey, Prod.Lex.toLex_le_toLex,
    Prod.Lex.toLex_le_toLex, neg_lt_neg_iff, neg_lt_neg_iff, neg_inj, neg_inj]
  rcases lt_trichotomy (reporter.high a) (reporter.high b) with h | h | h
  · simp [h.ne, h.not_gt]
  · rcases lt_trichotomy (reporter.low a) (reporter.low b) with h' | h' | h'
    · simp [h, h'.ne, h'.not_gt]
    · simp [h, h']
    · simp [h, h'.ne', h']
  · simp [h.ne', h]

/-- Each entry of a table has its own index, and the indices fit an `int`. -/
structure Indexed (entries : List FuncTableEntry) : Prop where
  idx_eq : ∀ i (h : i < entries.length), entries[i].idx = i
  length_le : entries.length ≤ 2 ^ 31

theorem Indexed.idx_lt {entries : List FuncTableEntry} (h : Indexed entries) {e : FuncTableEntry}
    (he : e ∈ entries) : e.idx < 2 ^ 31 := by
  obtain ⟨i, hi, rfl⟩ := List.getElem_of_mem he
  rw [h.idx_eq i hi]
  exact lt_of_lt_of_le hi h.length_le

/-- An entry is found again by its rank. -/
theorem Indexed.entry_eq {entries : List FuncTableEntry} (h : Indexed entries) {e : FuncTableEntry}
    (he : e ∈ entries) : entries[e.idx]? = some e := by
  obtain ⟨i, hi, rfl⟩ := List.getElem_of_mem he
  rw [h.idx_eq i hi, List.getElem?_eq_getElem hi]

/-- Entries of a table are told apart by their ranks. -/
theorem Indexed.map_rankKey_inj {entries : List FuncTableEntry} (h : Indexed entries)
    (reporter : FpReporter) {l l' : List FuncTableEntry} (hl : ∀ e ∈ l, e ∈ entries)
    (hl' : ∀ e ∈ l', e ∈ entries) :
    l.map reporter.rankKey = l'.map reporter.rankKey ↔ l = l' := by
  refine ⟨?_, congrArg _⟩
  intro heq
  let entryOf (key : ℚ ×ₗ ℚ ×ₗ ℕ) : Option FuncTableEntry :=
    entries[(ofLex (ofLex key).2).2]?
  have hback {l : List FuncTableEntry} (hl : ∀ e ∈ l, e ∈ entries) :
      (l.map reporter.rankKey).map entryOf = l.map some := by
    rw [List.map_map]
    exact List.map_congr_left fun e he => h.entry_eq (hl e he)
  have hsome := congrArg (List.map entryOf) heq
  rw [hback hl, hback hl'] at hsome
  exact List.map_injective_iff.mpr (Option.some_injective _) hsome

theorem Indexed.nodup_map_rankKey {entries : List FuncTableEntry} (h : Indexed entries)
    (reporter : FpReporter) : (entries.map reporter.rankKey).Nodup := by
  have hidx : entries.map FuncTableEntry.idx = List.range entries.length := by
    apply List.ext_getElem (by simp)
    intro i hi _
    rw [List.getElem_map, List.getElem_range]
    exact h.idx_eq i (by simpa using hi)
  apply List.Nodup.of_map (fun key => (ofLex (ofLex key).2).2)
  rw [List.map_map]
  exact hidx ▸ List.nodup_range

theorem mem_of_mem_replaceFirst {reporter : FpReporter} {current e : FuncTableEntry}
    {top : List FuncTableEntry} (h : e ∈ reporter.replaceFirst current top) :
    e = current ∨ e ∈ top := by
  induction top with
  | nil => exact absurd h List.not_mem_nil
  | cons t top ih =>
    rw [replaceFirst] at h
    split at h
    · exact (List.mem_cons.mp h).imp_right (List.mem_cons_of_mem t)
    · rcases List.mem_cons.mp h with rfl | h
      · exact .inr List.mem_cons_self
      · exact (ih h).imp_right (List.mem_cons_of_mem t)

/-- One entry of the selection, by ranks. -/
theorem Indexed.map_replaceFirst {entries : List FuncTableEntry} (h : Indexed entries)
    (reporter : FpReporter) {current : FuncTableEntry} (hcurrent : current ∈ entries)
    {top : List FuncTableEntry} (htop : ∀ e ∈ top, e ∈ entries) :
    (reporter.replaceFirst current top).map reporter.rankKey
      = replaceGreater (reporter.rankKey current) (top.map reporter.rankKey) := by
  induction top with
  | nil => rfl
  | cons t top ih =>
    obtain ⟨ht, htop⟩ := List.forall_mem_cons.mp htop
    have hcmp : entryCmpR t current reporter > 0 ↔
        reporter.rankKey current < reporter.rankKey t := by
      rw [gt_iff_lt, ← not_le, ← not_le,
        reporter.entryCmpR_nonpos_iff (h.idx_lt ht) (h.idx_lt hcurrent)]
    rw [replaceFirst, List.map_cons, replaceGreater]
    by_cases hlt : reporter.rankKey current < reporter.rankKey t
    · rw [if_pos hlt, if_pos (hcmp.mpr hlt), List.map_cons]
    · rw [if_neg hlt, if_neg (mt hcmp.mp hlt), List.map_cons, ih htop]

/-- The selection, by ranks. -/
theorem Indexed.map_foldl_replaceFirst {entries : List FuncTableEntry} (h : Indexed entries)
    (reporter : FpReporter) {rest top : List FuncTableEntry} (hrest : ∀ e ∈ rest, e ∈ entries)
    (htop : ∀ e ∈ top, e ∈ entries) :
    (∀ e ∈ rest.foldl (fun top current => reporter.replaceFirst current top) top, e ∈ entries) ∧
      (rest.foldl (fun top current => reporter.replaceFirst current top) top).map reporter.rankKey
        = (rest.map reporter.rankKey).foldl (fun ws c => replaceGreater c ws)
          (top.map reporter.rankKey) := by
  induction rest generalizing top with
  | nil => exact ⟨htop, rfl⟩
  | cons current rest ih =>
    obtain ⟨hcurrent, hrest⟩ := List.forall_mem_cons.mp hrest
    have htop' : ∀ e ∈ reporter.replaceFirst current top, e ∈ entries := fun e he =>
      (mem_of_mem_replaceFirst he).elim (fun heq => heq ▸ hcurrent) (htop e)
    obtain ⟨hmem, hmap⟩ := ih hrest htop'
    refine ⟨hmem, hmap.trans ?_⟩
    rw [List.map_cons, List.foldl_cons, h.map_replaceFirst reporter hcurrent htop]

theorem reportLimit_eq (reporter : FpReporter) (entries : List FuncTableEntry) :
    reporter.reportLimit entries = min reporter.limit entries.length := by
  rw [reportLimit]
  split <;> omega

/-- The printed rows, by ranks. -/
theorem Indexed.map_topEntries {entries : List FuncTableEntry} (h : Indexed entries)
    (reporter : FpReporter) :
    (∀ e ∈ reporter.topEntries entries, e ∈ entries) ∧
      (reporter.topEntries entries).map reporter.rankKey
        = (selectWindow (min reporter.limit entries.length)
            (entries.map reporter.rankKey)).insertionSort (· ≤ ·) := by
  obtain ⟨hmem, hmap⟩ := h.map_foldl_replaceFirst reporter
    (fun e he => List.mem_of_mem_drop he : ∀ e ∈ entries.drop (reporter.reportLimit entries), _)
    (fun e he => List.mem_of_mem_take he : ∀ e ∈ entries.take (reporter.reportLimit entries), _)
  set window := (entries.drop (reporter.reportLimit entries)).foldl
    (fun top current => reporter.replaceFirst current top)
    (entries.take (reporter.reportLimit entries))
  have hcmp : ∀ a ∈ window, ∀ b ∈ window,
      entryCmpR a b reporter ≤ 0 ↔ reporter.rankKey a ≤ reporter.rankKey b := fun a ha b hb =>
    reporter.entryCmpR_nonpos_iff (h.idx_lt (hmem a ha)) (h.idx_lt (hmem b hb))
  refine ⟨fun e he => hmem e ((List.perm_insertionSort _ _).mem_iff.mp he), ?_⟩
  apply (List.map_insertionSort _ (· ≤ ·) reporter.rankKey window hcmp).trans
  rw [hmap, selectWindow, ← reportLimit_eq, List.map_drop, List.map_take]

end FpReporter

open FpReporter in
/-- **The rows of the flat profile** are the first ones of the whole table exactly when the
selection keeps the top entries. -/
theorem flat_profile_shows_top_iff (reporter : FpReporter) {entries : List FuncTableEntry}
    (h : Indexed entries) :
    reporter.topEntries entries
        = (reporter.rankedEntries entries).take (min reporter.limit entries.length) ↔
      KeepsTop (min reporter.limit entries.length) (entries.map reporter.rankKey) := by
  obtain ⟨hmem, hmap⟩ := h.map_topEntries reporter
  have hranked : ∀ e ∈ (reporter.rankedEntries entries).take (min reporter.limit entries.length),
      e ∈ entries := fun e he =>
    (List.perm_insertionSort _ _).mem_iff.mp (List.mem_of_mem_take he)
  have hsorted : (reporter.rankedEntries entries).map reporter.rankKey
      = (entries.map reporter.rankKey).insertionSort (· ≤ ·) :=
    List.map_insertionSort _ (· ≤ ·) _ _ fun _ _ _ _ => Iff.rfl
  rw [← h.map_rankKey_inj reporter hmem hranked, hmap, List.map_take, hsorted]
  exact selectWindow_sorted_iff (h.nodup_map_rankKey reporter) (by simp)

/-- A table of functions called once, with these exclusive values. -/
def tableOf (values : List ℚ) : List FuncTableEntry :=
  values.mapIdx fun i value =>
    ⟨i, ⟨toString i, ""⟩, { called := 1, maxCycleDepth := 0, inc := fun _ => value, exc := fun _ => value }⟩

/-- A reporter of the two functions with the greatest exclusive wall times. -/
def topTwo : FpReporter := spxReporterFpCreate ⟨false, false⟩ .wallTime false false 2 false false

/-- The least of the first two is replaced. -/
theorem flat_profile_shows_top_two :
    (topTwo.topEntries (tableOf [1, 10, 5])).map FuncTableEntry.idx = [1, 2] ∧
      KeepsTop 2 ((tableOf [1, 10, 5]).map topTwo.rankKey) := by
  have h : FpReporter.Indexed (tableOf [1, 10, 5]) := by
    refine ⟨?_, by decide⟩
    intro i hi
    simp only [tableOf, List.getElem_mapIdx]
  exact ⟨by decide +kernel, (flat_profile_shows_top_iff topTwo h).mp (by decide +kernel)⟩

/-- The greatest of the first two is replaced, and the least of all is printed. -/
theorem flat_profile_loses_second :
    topTwo.topEntries (tableOf [5, 1, 10])
        ≠ (topTwo.rankedEntries (tableOf [5, 1, 10])).take (min topTwo.limit 3) ∧
      (topTwo.topEntries (tableOf [5, 1, 10])).map FuncTableEntry.idx = [2, 1] := by
  decide +kernel

end PhpSpx
