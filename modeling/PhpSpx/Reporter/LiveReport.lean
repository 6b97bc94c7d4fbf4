import PhpSpx.Profiler.EventStream
import PhpSpx.Reporter.EnabledMetrics
import PhpSpx.Reporter.RelativeCosts
import PhpSpx.Text.FmtLines

/-!
# The live flat profile

The flat profile reporter of a live profile prints a report from time to time, each in place of the
last one: it goes back up as many lines as it printed.  The number it counts is the number of lines
of the report, so at the end only the last report is on the screen, and nothing above it was touched,
as long as the screen neither wraps the lines nor scrolls.

* `printsLines_printReport` — a report is as many lines as it counts.
* `FpReporter.ShowsOnly` — only the last report is on the screen; every notification keeps it.
* `live_report_in_place` — the whole of a profile.
-/

namespace PhpSpx

open Lib

/-- The names of a function can be shown. -/
def PhpFunction.Shown (f : PhpFunction) : Prop :=
  AllVisible f.className.toList ∧ AllVisible f.funcName.toList

/-- The functions of an event can be shown. -/
def Event.Shown (event : Event) : Prop := ∀ f ∈ event.funcTable.functions, f.Shown

namespace FpReporter

variable (reporter : FpReporter)

/-! ## The lines of a report -/

/-- An element of a list, or the default. -/
theorem forall_getD {α : Type} {P : α → Prop} {l : List α} (h : ∀ a ∈ l, P a) {d : α} (hd : P d)
    (i : ℕ) : P (l.getD i d) := by
  rw [List.getD_eq_getElem?_getD]
  cases hget : l[i]? with
  | none => exact hd
  | some a => exact h a (List.mem_of_getElem? hget)

theorem isAnsiFmt_getValueAnsiFmt (v : ℚ) : IsAnsiFmt (getValueAnsiFmt v) := by
  refine forall_getD (P := fun s : String => IsAnsiFmt s.toList) ?_ ?_ _
  · simp [IsAnsiFmt]
  · simp [IsAnsiFmt]

theorem shown_metricCells {max : MetricValues} {entry : FuncTableEntry} {row : FmtRow}
    (h : row.Shown) (m : Metric) :
    Ends (reporter.metricCells max entry row m) FmtRow.Shown fun _ => True := by
  have hansi (v : ℚ) : ∀ s,
      (if reporter.color then some (getValueAnsiFmt v) else none) = some s → IsAnsiFmt s := by
    intro s hs
    split at hs
    · cases hs
      exact isAnsiFmt_getValueAnsiFmt v
    · cases hs
  exact (h.addCell (FmtCell.shown_num (hansi _))).bind fun _ h' =>
    h'.addCell (FmtCell.shown_num (hansi _))

theorem visible_entryName {entry : FuncTableEntry} (h : entry.function.Shown) :
    AllVisible (entryName entry) := by
  obtain ⟨hclass, hfunc⟩ := h
  have hdepth : AllVisible
      (if entry.stats.maxCycleDepth > 0 then
        snprintfText 32 (printfSize entry.stats.maxCycleDepth ++ ['@'])
      else []) := by
    split
    · exact ((visible_printfSize _).append (by decide : AllVisible ['@'])).take _
    · exact allVisible_nil
  have hcolons : AllVisible (if entry.function.className.isEmpty then [] else "::".toList) := by
    split
    · exact allVisible_nil
    · decide
  exact (((hdepth.append hclass).append hcolons).append hfunc).take _

theorem shown_entryRow (event : Event) {entry : FuncTableEntry} (h : entry.function.Shown) :
    Ends (reporter.entryRow event entry) FmtRow.Shown fun _ => True := by
  have hmetrics := ends_foldlM (l := Metric.enabledList event.enabledMetrics)
    (f := reporter.metricCells event.max entry) (D := fun _ => True)
    (fun m _ _ hrow => reporter.shown_metricCells hrow m) FmtRow.shown_create
  refine hmetrics.bind fun _ hrow => (hrow.addCell (FmtCell.shown_num ?_)).bind fun _ hrow' =>
    hrow'.addCell (FmtCell.shown_text (visible_entryName h))
  rintro _ ⟨⟩

theorem shown_namesRow (enabledMetrics : Metric → Bool) :
    Ends (namesRow enabledMetrics) FmtRow.Shown fun _ => True :=
  ends_foldlM (fun m _ _ hrow => hrow.addCell (FmtCell.shown_text m.visible_shortName))
    FmtRow.shown_create

theorem shown_columnsRow (enabledMetrics : Metric → Bool) :
    Ends (reporter.columnsRow enabledMetrics) FmtRow.Shown fun _ => True := by
  have hcolumn (p : Prop) [Decidable p] {starred plain : String} (h : AllVisible starred.toList)
      (h' : AllVisible plain.toList) : AllVisible (if p then starred else plain).toList := by
    split
    · exact h
    · exact h'
  unfold columnsRow
  refine Ends.bind (P := FmtRow.Shown) (ends_foldlM ?_ FmtRow.shown_create) ?_
  · intro m _ row hrow
    refine (hrow.addCell (FmtCell.shown_text (hcolumn _ ?_ ?_))).bind fun _ hrow' =>
      hrow'.addCell (FmtCell.shown_text (hcolumn _ ?_ ?_))
    · decide
    · decide
    · decide
    · decide
  · intro row hrow
    refine (hrow.addCell (FmtCell.shown_text ?_)).bind fun _ hrow' =>
      hrow'.addCell (FmtCell.shown_text ?_)
    · decide
    · decide

theorem visible_statLabel {s : String} (h : AllVisible s.toList) : AllVisible (statLabel s) :=
  ((by decide : AllVisible "  ".toList).append (allVisible_padRight h 20)).append (by decide)

theorem printsLines_maxLine (max : MetricValues) (m : Metric) : PrintsLines (maxLine max m) 1 :=
  (staysInLine_of_visible
    ((visible_statLabel m.visible_shortName).append (visible_fmtFormatValue 16 _ _))).printsLines

/-- The lines of a literal. -/
theorem printsLines_literal {s : CStr} (h : IsPlain s) :
    PrintsLines (s ++ ['\n']) (s.count '\n' + 1) := printsLines_text staysInLine_nil h

/-- The line of a number. -/
theorem printsLines_stat {s : String} (h : AllVisible s.toList) (value : ℚ) :
    PrintsLines (statLabel s ++ fmtPrintValue .quantity value ++ ['\n']) 1 :=
  (staysInLine_of_visible
    ((visible_statLabel h).append (visible_fmtFormatValue 16 .quantity value))).printsLines

theorem printsLines_title :
    PrintsLines "\n*** SPX Report ***\n\nGlobal stats:\n\n".toList 5 :=
  printsLines_literal (s := "\n*** SPX Report ***\n\nGlobal stats:\n".toList) (by decide)

theorem printsLines_tableTitle : PrintsLines "\nFlat profile:\n\n".toList 3 :=
  printsLines_literal (s := "\nFlat profile:\n".toList) (by decide)

/-- The lines of the number of functions, with a sign when the table is full. -/
theorem printsLines_distinct (value : ℚ) (full : Prop) [Decidable full] :
    PrintsLines
      (statLabel "Distinct functions" ++ fmtPrintValue .quantity value ++
        (if full then ['+'] else []) ++ "\n\n".toList) 2 := by
  have hfull : AllVisible (if full then ['+'] else []) := by
    split
    · decide
    · decide
  have hline := ((visible_statLabel (s := "Distinct functions") (by decide)).append
    (visible_fmtFormatValue 16 .quantity value)).append hfull
  have hlines := (staysInLine_of_visible hline).printsLines.append
    (staysInLine_of_visible allVisible_nil).printsLines
  rw [List.append_assoc] at hlines
  exact hlines

/-- **The lines before the table**, one of them for each enabled metric. -/
theorem printsLines_globalStats (event : Event) :
    PrintsLines (globalStats event)
      (5 + 1 + 2 + (Metric.enabledList event.enabledMetrics).length + 3) := by
  have hcalled := printsLines_stat (s := "Called functions") (by decide) event.called
  have hdistinct := printsLines_distinct event.funcTable.entries.length
    (event.funcTable.entries.length = event.funcTable.capacity)
  have hmax : PrintsLines
      ((Metric.enabledList event.enabledMetrics).flatMap (maxLine event.max)) _ :=
    printsLines_flatMap fun m _ => printsLines_maxLine event.max m
  have hall := (((printsLines_title.append hcalled).append hdistinct).append hmax).append
    printsLines_tableTitle
  unfold globalStats
  simp only [List.append_assoc] at hall ⊢
  exact hall

theorem length_replaceFirst (current : FuncTableEntry) (top : List FuncTableEntry) :
    (reporter.replaceFirst current top).length = top.length := by
  induction top with
  | nil => rfl
  | cons t top ih =>
    rw [replaceFirst]
    split
    · rfl
    · exact congrArg (· + 1) ih

/-- There are as many rows as the limit says. -/
theorem length_topEntries (entries : List FuncTableEntry) :
    (reporter.topEntries entries).length = reporter.reportLimit entries := by
  have hwindow (rest top : List FuncTableEntry) :
      (rest.foldl (fun top current => reporter.replaceFirst current top) top).length
        = top.length := by
    induction rest generalizing top with
    | nil => rfl
    | cons current rest ih =>
      rw [List.foldl_cons, ih, length_replaceFirst]
  rw [topEntries, qsort, List.length_insertionSort, hwindow, List.length_take, reportLimit_eq]
  omega

/-- **A report** is as many lines as it counts. -/
theorem printsLines_printReport {event : Event} (h : event.Shown) :
    Ends (reporter.printReport event) (fun printed => PrintsLines printed.1 printed.2)
      fun _ => True := by
  rw [printReport]
  split
  · exact printsLines_nil
  · have hrows : ∀ entry ∈ reporter.topEntries event.funcTable.entries,
        Ends (reporter.entryRow event entry) FmtRow.Shown fun _ => True := by
      intro entry hentry
      exact reporter.shown_entryRow event
        (h _ (List.mem_map_of_mem (mem_of_mem_topEntries hentry)))
    refine (shown_namesRow event.enabledMetrics).bind fun names hnames =>
      (reporter.shown_columnsRow event.enabledMetrics).bind fun columns hcolumns =>
      (ends_mapM hrows).bind ?_
    rintro rows ⟨hlength, hrows⟩
    have htable := ((((printsLines_globalStats event).append hnames.printsLines_print).append
      hcolumns.printsLines_print).append columns.printsLines_printSep).append
        (printsLines_flatMap fun row hrow => (hrows row hrow).printsLines_print)
    have hall := htable.append (staysInLine_of_visible allVisible_nil).printsLines
    rw [hlength, length_topEntries] at hall
    refine hall.congr ?_
    omega

/-! ## A report in place of the last one -/

variable {reporter}

/-- The lines of the last report are erased. -/
theorem run_erase {s : Screen} (h : s.Ready) {lines : List CStr}
    (hlength : lines.length = reporter.lastLineCount) :
    (s.printed lines).run reporter.erase = s := by
  unfold erase
  split
  · rw [← hlength]
    exact h.run_eraseLines lines
  · have hnil : lines = [] := List.eq_nil_of_length_eq_zero (by omega)
    rw [hnil]
    exact h.printed_nil

/-- The reporter with another state of its output. -/
def SameView (reporter reporter' : FpReporter) : Prop :=
  ∃ output lastTsMs lastLineCount, reporter' =
    { reporter with output := output, lastTsMs := lastTsMs, lastLineCount := lastLineCount }

theorem SameView.refl (reporter : FpReporter) : SameView reporter reporter := ⟨_, _, _, rfl⟩

theorem SameView.trans {reporter' reporter'' : FpReporter} (h : SameView reporter reporter')
    (h' : SameView reporter' reporter'') : SameView reporter reporter'' := by
  obtain ⟨_, _, _, rfl⟩ := h
  obtain ⟨_, _, _, rfl⟩ := h'
  exact ⟨_, _, _, rfl⟩

/-- A report does not depend on what was printed before. -/
theorem SameView.printReport {reporter' : FpReporter} (h : SameView reporter reporter')
    (event : Event) : reporter'.printReport event = reporter.printReport event := by
  obtain ⟨output, lastTsMs, lastLineCount, rfl⟩ := h
  set reporter' : FpReporter :=
    { reporter with output := output, lastTsMs := lastTsMs, lastLineCount := lastLineCount }
  have hfirst (current : FuncTableEntry) (top : List FuncTableEntry) :
      reporter'.replaceFirst current top = reporter.replaceFirst current top := by
    induction top with
    | nil => rfl
    | cons t top ih =>
      rw [replaceFirst, replaceFirst, ih]
      rfl
  have htop (entries : List FuncTableEntry) :
      reporter'.topEntries entries = reporter.topEntries entries := by
    have hstep : (fun top current => reporter'.replaceFirst current top) =
        fun top current => reporter.replaceFirst current top :=
      funext₂ fun top current => hfirst current top
    rw [topEntries, topEntries, hstep]
    rfl
  rw [FpReporter.printReport, FpReporter.printReport, htop]
  rfl

/-- On the screen there is a text only, the one of the last report, and the reporter knows how many
lines it has. -/
def ShowsOnly (reporter : FpReporter) (text : CStr) : Prop :=
  text.count '\n' = reporter.lastLineCount ∧
    ∃ lines : List CStr, lines.length = reporter.lastLineCount ∧ Prints text lines ∧
      Prints reporter.output lines

variable {text : CStr} {event : Event}

/-- **One report** takes the place of the last one. -/
theorem ShowsOnly.report (h : reporter.ShowsOnly text) (hshown : event.Shown)
    (hroom : 2 * (Metric.enabledList event.enabledMetrics).length + 2 ≤ rowMaxCells) :
    ∃ text' reporter', reporter.report event = .ok (.heavy, reporter') ∧
      reporter.printReport event = .ok (text', reporter'.lastLineCount) ∧
      SameView reporter reporter' ∧ reporter'.ShowsOnly text' := by
  obtain ⟨-, lines, hlength, -, houtput⟩ := h
  obtain ⟨⟨text', count⟩, hprint⟩ := (reporter.succeeds_printReport_iff event).mpr (.inr hroom)
  have hlines := reporter.printsLines_printReport hshown
  rw [hprint] at hlines
  obtain ⟨hcount, lines', hlength', htext⟩ := hlines
  refine ⟨text',
    { reporter with
      output := reporter.output ++ reporter.erase ++ text'
      lastLineCount := count }, ?_, hprint, ⟨_, _, _, rfl⟩, hcount, lines', hlength',
    htext, ?_⟩
  · rw [FpReporter.report, hprint]
    rfl
  · intro s hs
    rw [Screen.run_append, Screen.run_append, houtput s hs, run_erase hs hlength]
    exact htext s hs

/-- **One notification.** -/
theorem ShowsOnly.notify (h : reporter.ShowsOnly text) (hshown : event.Shown)
    (hroom : 2 * (Metric.enabledList event.enabledMetrics).length + 2 ≤ rowMaxCells)
    (wallTime : UInt64) :
    ∃ cost text' reporter', reporter.notify event wallTime = .ok (cost, reporter') ∧
      (event.type = .finalize →
        reporter.printReport event = .ok (text', reporter'.lastLineCount)) ∧
      SameView reporter reporter' ∧ reporter'.ShowsOnly text' := by
  rw [FpReporter.notify]
  cases htype : event.type with
  | callStart => exact ⟨_, text, reporter, rfl, fun hend => absurd hend (by decide), .refl _, h⟩
  | callEnd =>
    dsimp only
    split_ifs
    · exact ⟨_, text, reporter, rfl, fun hend => absurd hend (by decide), .refl _, h⟩
    · exact ⟨_, text, reporter, rfl, fun hend => absurd hend (by decide), .refl _, h⟩
    · -- a report in between: only its time is kept before it is printed
      have hsame : SameView reporter { reporter with lastTsMs := wallTime / (1000 * 1000) } :=
        ⟨_, _, _, rfl⟩
      have hkept : ShowsOnly { reporter with lastTsMs := wallTime / (1000 * 1000) } text := h
      obtain ⟨text', reporter', hreport, -, hview, hlast⟩ := hkept.report hshown hroom
      exact ⟨_, text', reporter', hreport, fun hend => absurd hend (by decide), hsame.trans hview, hlast⟩
  | finalize =>
    obtain ⟨text', reporter', hreport, hprint, hview, hlast⟩ := h.report hshown hroom
    exact ⟨_, text', reporter', hreport, fun _ => hprint, hview, hlast⟩

/-- **Any notifications.** -/
theorem ShowsOnly.run (h : reporter.ShowsOnly text) {ns : List Notification}
    (hshown : ∀ n ∈ ns, n.event.Shown)
    (hroom : ∀ n ∈ ns,
      2 * (Metric.enabledList n.event.enabledMetrics).length + 2 ≤ rowMaxCells) :
    ∃ text' last, (ProfilerReporter.fp reporter).run ns = .ok (.fp last) ∧
      SameView reporter last ∧ last.ShowsOnly text' := by
  induction ns generalizing reporter text with
  | nil => exact ⟨text, reporter, rfl, .refl _, h⟩
  | cons n ns ih =>
    obtain ⟨hn, hshown⟩ := List.forall_mem_cons.mp hshown
    obtain ⟨hnroom, hroom⟩ := List.forall_mem_cons.mp hroom
    obtain ⟨cost, text', next, hnotify, -, hview, hnext⟩ := h.notify hn hnroom n.wallTime
    obtain ⟨text'', last, hrun, hview', hlast⟩ := ih hnext hshown hroom
    have hstep : (ProfilerReporter.fp reporter).step n = .ok (.fp next) := by
      rw [ProfilerReporter.step, ProfilerReporter.notify, hnotify]
      rfl
    refine ⟨text'', last, ?_, hview.trans hview', hlast⟩
    rw [ProfilerReporter.run, Lib.runSteps, hstep]
    exact hrun

end FpReporter

/-! ## A whole profile -/

theorem event_mem_of_mem_notificationsOf {wallTime : ℕ → UInt64} {peakMemoryUsage : ℕ → ℕ}
    {events : List Event} {n : Notification}
    (h : n ∈ notificationsOf wallTime peakMemoryUsage events) : n.event ∈ events := by
  obtain ⟨i, hi, rfl⟩ := List.mem_mapIdx.mp h
  exact List.getElem_mem hi

/-- **The live report takes one place on the screen.**  When the functions that are called have names
that can be seen and the rows have room for the enabled metrics, whatever a flat profile reporter
printed during the profile, at its end the screen is as if only the last report had been printed:
that one has as many lines as the reporter counts, and what was above is as it was.  The screen is one
that neither wraps lines nor scrolls. -/
theorem live_report_in_place (limits : Limits) (zendInlineHashFunc : String → UInt64)
    (maxDepth : ℕ) (enabledMetrics : Metric → Bool) (junk : MetricValues) {ops : List TracerOp}
    {n : ℕ} (hops : height 0 ops = some n) (inputs : ℕ → HookInput)
    (hnames : ∀ call, Paren.opening call ∈ ops → call.function.Shown)
    (hroom : 2 * (Metric.enabledList enabledMetrics).length + 2 ≤ rowMaxCells) :
    let p := spxProfilerTracerCreate limits zendInlineHashFunc maxDepth enabledMetrics junk
    ∃ q events final, tracerProfile p ops inputs = .ok q ∧ q.notified = events ++ [final] ∧
      ∀ (terminal : Terminal) (focus : Metric) (inc rel : Bool) (limit : ℕ) (live color : Bool)
        (wallTime : ℕ → UInt64) (peakMemoryUsage : ℕ → ℕ),
        let reporter := spxReporterFpCreate terminal focus inc rel limit live color
        ∃ last text count,
          (ProfilerReporter.fp reporter).run
              (notificationsOf wallTime peakMemoryUsage q.notified) = .ok (.fp last) ∧
          reporter.printReport final = .ok (text, count) ∧
          text.count '\n' = count ∧
          ∀ s : Screen, s.Ready → s.run last.output = s.run text ∧
            (s.run text).row = s.row + count ∧
            ∀ i < s.row, (s.run text).lines i = s.lines i := by
  intro p
  obtain ⟨q, events, final, hq, hnotified, hfinal, hmetrics, hfunctions⟩ :=
    tracer_events_functions limits zendInlineHashFunc maxDepth enabledMetrics junk hops inputs hnames
  refine ⟨q, events, final, hq, hnotified, ?_⟩
  intro terminal focus inc rel limit live color wallTime peakMemoryUsage reporter
  have hstart : reporter.ShowsOnly [] := ⟨rfl, [], rfl, prints_nil, prints_nil⟩
  have hrooms : ∀ event ∈ events ++ [final],
      2 * (Metric.enabledList event.enabledMetrics).length + 2 ≤ rowMaxCells := by
    intro event hevent
    rwa [hmetrics event hevent]
  obtain ⟨hshown, hshownFinal⟩ := List.forall_mem_append.mp hfunctions
  obtain ⟨hroom, hroomFinal⟩ := List.forall_mem_append.mp hrooms
  -- the events of the calls, then the finalization
  obtain ⟨text', before, hrun, hview, hbefore⟩ :=
    hstart.run (fun n hn => hshown n.event (event_mem_of_mem_notificationsOf hn))
      fun n hn => hroom n.event (event_mem_of_mem_notificationsOf hn)
  obtain ⟨cost, text, last, hnotify, hprint, -, hcount, lines, hlength, htext, houtput⟩ :=
    hbefore.notify (hshownFinal final (List.mem_singleton_self final))
      (hroomFinal final (List.mem_singleton_self final)) (wallTime events.length)
  refine ⟨last, text, last.lastLineCount, ?_, ?_, hcount, ?_⟩
  · have hnotifications : notificationsOf wallTime peakMemoryUsage q.notified =
        notificationsOf wallTime peakMemoryUsage events ++
          [⟨final, wallTime events.length, peakMemoryUsage events.length⟩] := by
      rw [hnotified]
      exact List.mapIdx_concat
    have hlast : (ProfilerReporter.fp before).run
        [⟨final, wallTime events.length, peakMemoryUsage events.length⟩] = .ok (.fp last) := by
      rw [ProfilerReporter.run, runSteps, ProfilerReporter.step, ProfilerReporter.notify, hnotify]
      rfl
    rw [ProfilerReporter.run] at hrun hlast ⊢
    rw [hnotifications, runSteps_append, hrun]
    exact hlast
  · rw [← hview.printReport]
    exact hprint hfinal
  · intro s hs
    rw [houtput s hs, htext s hs]
    exact ⟨rfl, congrArg (s.row + ·) hlength, fun i hi => Screen.printed_above lines hi⟩

/-- `f` calls `g`, in a live profile of the wall time. -/
theorem live_report_in_place_two_calls :
    let p := spxProfilerTracerCreate ⟨8, 3, 1, by decide, by decide, by decide⟩ (fun _ => 0) 0
      (fun m => m = .wallTime) 0
    let ops := [callAt "f" 0, callAt "g" 1, .closing (endAt 3)]
    ∃ q events final, tracerProfile p ops (fun _ => endAt 10) = .ok q ∧
      q.notified = events ++ [final] ∧
      ∀ (terminal : Terminal) (focus : Metric) (inc rel : Bool) (limit : ℕ) (live color : Bool)
        (wallTime : ℕ → UInt64) (peakMemoryUsage : ℕ → ℕ),
        let reporter := spxReporterFpCreate terminal focus inc rel limit live color
        ∃ last text count,
          (ProfilerReporter.fp reporter).run
              (notificationsOf wallTime peakMemoryUsage q.notified) = .ok (.fp last) ∧
          reporter.printReport final = .ok (text, count) ∧
          text.count '\n' = count ∧
          ∀ s : Screen, s.Ready → s.run last.output = s.run text ∧
            (s.run text).row = s.row + count ∧
            ∀ i < s.row, (s.run text).lines i = s.lines i := by
  apply live_report_in_place ⟨8, 3, 1, by decide, by decide, by decide⟩ (fun _ => 0) 0
    (fun m => m = .wallTime) 0
    (show height 0 [callAt "f" 0, callAt "g" 1, .closing (endAt 3)] = some 1 from rfl)
    (fun _ => endAt 10)
  · intro call hcall
    have hfunction : call.function = ⟨"f", ""⟩ ∨ call.function = ⟨"g", ""⟩ := by
      simp only [List.mem_cons, callAt, Paren.opening.injEq, reduceCtorEq, List.not_mem_nil,
        or_false] at hcall
      rcases hcall with rfl | rfl
      · exact .inl rfl
      · exact .inr rfl
    rcases hfunction with hf | hf <;> rw [hf]
    · exact ⟨by decide, by decide⟩
    · exact ⟨by decide, by decide⟩
  · decide

end PhpSpx
