import PhpSpx.Engine.CommandLine
import PhpSpx.Reporter.Full
import PhpSpx.Request.Config
import PhpSpx.Text.JsonEscape

/-!
# The metadata of a report

`metadata_create` and `metadata_save` of `spx_reporter_full.c`, and the PHP function that
sets the custom string.

* `metadataSave` — the file, or the end of the process.
* `Metadata.Bounded` — the invariant of the records.
* `Metadata.Escapable` — the strings without a sufficient bound fit the buffer.
* `report_metadata_saved_iff` — whole runs.
-/

namespace PhpSpx

open Lib

/-! ## Data -/

/-- `metadata_t`. -/
structure Metadata extends ReportMetadata where
  key : NulTerminated
  execTs : ℕ
  hostname : NulTerminated
  processPid : ℤ
  processTid : ℤ
  processPwd : NulTerminated
  cli : Bool
  cliCommandLine : NulTerminated
  httpRequestUri : NulTerminated
  httpMethod : NulTerminated
  httpHost : NulTerminated
  customMetadataStr : Option NulTerminated

/-- What `metadata_create` is told by the system and by PHP: of `gethostname`, `getcwd` and
the members of `$_SERVER`, the string or none. -/
structure MetadataSources where
  time : ℕ
  gethostname : Option CStr
  getpid : ℤ
  gettid : ℤ
  date : CStr
  rand : ℤ
  getcwd : Option CStr
  cli : Bool
  argv : Option (List (Option NulTerminated))
  requestUri : Option NulTerminated
  requestMethod : Option NulTerminated
  httpHost : Option NulTerminated

/-- `"n/a"`. -/
def notAvailable : NulTerminated := ⟨['n', '/', 'a'], by decide⟩

/-- The size of `hostname`. -/
def hostnameSize : ℕ := 256

/-- The size of `key`. -/
def keySize : ℕ := 512

/-- The size of `pwd`. -/
def pwdSize : ℕ := 8 * 1024

/-- The size of `buf` in `metadata_save`. -/
def escapeBufSize : ℕ := 8 * 1024

/-- The size that `spx_profiler_full_report_set_custom_metadata_str` admits. -/
def customMetadataMax : ℕ := 4 * 1024

/-- The name of the host, cut off by the last byte of `hostname`. -/
def hostnameOf (gethostname : Option CStr) : NulTerminated :=
  match gethostname with
  | some name => .ofChars (name.take (hostnameSize - 1))
  | none => notAvailable

/-- `snprintf` into `key`. -/
def keyOf (sources : MetadataSources) (hostname : NulTerminated) : NulTerminated :=
  .ofChars (("spx-full-".toList ++ sources.date ++ ['-'] ++ hostname.chars ++ ['-'] ++
    (toString sources.getpid).toList ++ ['-'] ++ (toString sources.rand).toList).take
      (keySize - 1))

/-- `getcwd` fails when the path and its NUL do not fit in `pwd`. -/
def pwdOf (getcwd : Option CStr) : NulTerminated :=
  match getcwd with
  | some path => if path.length < pwdSize then .ofChars path else notAvailable
  | none => notAvailable

/-- `metadata_create`, the allocations succeeding. -/
def metadataCreate (sources : MetadataSources) : Metadata where
  wallTimeMs := 0
  peakMemoryUsage := 0
  calledFunctionCount := 0
  callCount := 0
  recordedCallCount := 0
  enabledMetrics := fun _ => false
  key := keyOf sources (hostnameOf sources.gethostname)
  execTs := sources.time
  hostname := hostnameOf sources.gethostname
  processPid := sources.getpid
  processTid := sources.gettid
  processPwd := pwdOf sources.getcwd
  cli := sources.cli
  cliCommandLine := (spxPhpBuildCommandLine sources.argv).getD notAvailable
  httpRequestUri := sources.requestUri.getD notAvailable
  httpMethod := sources.requestMethod.getD notAvailable
  httpHost := sources.httpHost.getD notAvailable
  customMetadataStr := none

/-! ## The custom string -/

/-- `spx_reporter_full_set_custom_metadata_str`, on the record of the reporter if there is
one; `allocated` tells if the copy could be made. -/
def spxReporterFullSetCustomMetadataStr (reporter : Option Metadata) (str : NulTerminated)
    (allocated : Bool) : Option Metadata :=
  reporter.map fun m => { m with customMetadataStr := if allocated then some str else none }

/-- `spx_profiler_full_report_set_custom_metadata_str`, with the notice it logs. -/
def spxProfilerFullReportSetCustomMetadataStr (report : ConfigReport)
    (reporter : Option Metadata) (str : List Char) (allocated : Bool) :
    Option String × Option Metadata :=
  if report ≠ .full then
    (some "spx_profiler_full_report_set_custom_metadata_str(): `full` report required", reporter)
  else if str.length > customMetadataMax then
    (some ("spx_profiler_full_report_set_custom_metadata_str(): too large " ++
      "$customMetadataStr string, it must not exceed 4KB"), reporter)
  else (none, spxReporterFullSetCustomMetadataStr reporter (.ofChars str) allocated)

/-! ## Saving -/

/-- A string value. -/
def jsonQuoted (s : CStr) : CStr := ['"'] ++ s ++ ['"']

/-- The line of a member. -/
def jsonMember (name : String) (value : CStr) : CStr :=
  "  \"".toList ++ name.toList ++ "\": ".toList ++ value ++ ",\n".toList

/-- The lines of the enabled metrics, with a comma before all but the first. -/
def enabledMetricLines (enabledMetrics : Metric → Bool) : List Metric → Bool → CStr
  | [], _ => []
  | m :: metrics, first =>
    if enabledMetrics m = false then enabledMetricLines enabledMetrics metrics first
    else
      "    ".toList ++ (if first then [] else [',']) ++ jsonQuoted m.key.toList ++ ['\n'] ++
        enabledMetricLines enabledMetrics metrics false

/-- The value of `custom_metadata_str`. -/
def customValue (str : Option NulTerminated) : Except String CStr :=
  match str with
  | some s => (spxUtilsJsonEscape s escapeBufSize).map jsonQuoted
  | none => .ok "null".toList

/-- `metadata_save`: the value returned and the file.  `opened` tells if `fopen` succeeded. -/
def metadataSave (opened : Bool) (m : Metadata) : Except String (ℤ × CStr) :=
  if opened = false then .ok (-1, [])
  else do
    let key ← spxUtilsJsonEscape m.key escapeBufSize
    let hostname ← spxUtilsJsonEscape m.hostname escapeBufSize
    let processPwd ← spxUtilsJsonEscape m.processPwd escapeBufSize
    let cliCommandLine ← spxUtilsJsonEscape m.cliCommandLine escapeBufSize
    let httpRequestUri ← spxUtilsJsonEscape m.httpRequestUri escapeBufSize
    let httpMethod ← spxUtilsJsonEscape m.httpMethod escapeBufSize
    let httpHost ← spxUtilsJsonEscape m.httpHost escapeBufSize
    let customMetadataStr ← customValue m.customMetadataStr
    return (0, "\x7b\n".toList ++
      jsonMember "key" (jsonQuoted key) ++
      jsonMember "exec_ts" (toString m.execTs).toList ++
      jsonMember "host_name" (jsonQuoted hostname) ++
      jsonMember "process_pid" (toString m.processPid).toList ++
      jsonMember "process_tid" (toString m.processTid).toList ++
      jsonMember "process_pwd" (jsonQuoted processPwd) ++
      jsonMember "cli" (if m.cli then ['1'] else ['0']) ++
      jsonMember "cli_command_line" (jsonQuoted cliCommandLine) ++
      jsonMember "http_request_uri" (jsonQuoted httpRequestUri) ++
      jsonMember "http_method" (jsonQuoted httpMethod) ++
      jsonMember "http_host" (jsonQuoted httpHost) ++
      jsonMember "custom_metadata_str" customMetadataStr ++
      jsonMember "wall_time_ms" (toString m.wallTimeMs).toList ++
      jsonMember "peak_memory_usage" (toString m.peakMemoryUsage).toList ++
      jsonMember "called_function_count" (toString m.calledFunctionCount).toList ++
      jsonMember "call_count" (toString m.callCount).toList ++
      jsonMember "recorded_call_count" (toString m.recordedCallCount).toList ++
      "  \"enabled_metrics\": [\n".toList ++
      enabledMetricLines m.enabledMetrics Metric.all true ++ "  ]\n\x7d\n".toList)

/-! ## A process -/

/-- What happens to the record of the full reporter: it is created with the reporter, the
custom string is set, events are counted, the profile is finalized and the reporter is
destroyed. -/
inductive MetadataOp where
  | start (sources : MetadataSources)
  | setCustom (report : ConfigReport) (str : List Char) (allocated : Bool)
  | notify (counts : ReportMetadata)
  | finalize (opened : Bool)
  | destroy

/-- One of them, on the record of the reporter if there is one. -/
def metadataStep (reporter : Option Metadata) (op : MetadataOp) :
    Except String (Option Metadata) :=
  match op, reporter with
  | .start sources, none => .ok (some (metadataCreate sources))
  | .start _, some m => .ok (some m)
  | .setCustom report str allocated, reporter =>
    .ok (spxProfilerFullReportSetCustomMetadataStr report reporter str allocated).2
  | .notify counts, reporter => .ok (reporter.map fun m => { m with toReportMetadata := counts })
  | .finalize opened, some m => (metadataSave opened m).map fun _ => some m
  | .finalize _, none => .ok none
  | .destroy, _ => .ok none

theorem metadataStep_finalize (m : Metadata) (opened : Bool) :
    metadataStep (some m) (.finalize opened) = (metadataSave opened m).map fun _ => some m := rfl

/-- A string within the limit is taken up to its first NUL. -/
theorem setCustom_admitted {str : List Char} (h : str.length ≤ customMetadataMax) (m : Metadata) :
    (spxProfilerFullReportSetCustomMetadataStr .full (some m) str true).2 =
      some { m with customMetadataStr := some (.ofChars str) } := by
  unfold spxProfilerFullReportSetCustomMetadataStr
  rw [if_neg (not_not_intro rfl), if_neg (Nat.not_lt.mpr h)]
  rfl

/-! ## What fits -/

/-- The escaped string and its NUL fit in `buf`: there are few enough characters, those with
a backslash before them counted twice. -/
def NulTerminated.FitsEscapeBuf (s : NulTerminated) : Prop :=
  s.strlen + s.chars.countP (fun c => (escapedChar c).isSome) < escapeBufSize

theorem succeeds_escape_iff {s : NulTerminated} :
    Succeeds (spxUtilsJsonEscape s escapeBufSize) ↔ s.FitsEscapeBuf := by
  rw [succeeds_spxUtilsJsonEscape_iff, length_jsonEscaped]
  exact Iff.rfl

/-- A string of less than 4 KiB fits, whatever its characters are. -/
theorem fitsEscapeBuf_of_lt {s : NulTerminated} (h : s.strlen < customMetadataMax) :
    s.FitsEscapeBuf := by
  have hcount : s.chars.countP (fun c => (escapedChar c).isSome) ≤ s.strlen :=
    List.countP_le_length
  unfold customMetadataMax at h
  unfold NulTerminated.FitsEscapeBuf escapeBufSize
  omega

/-- A string of 4 KiB fits unless all its characters are escaped: then there is no room for
the NUL. -/
theorem fitsEscapeBuf_iff_of_le {s : NulTerminated} (h : s.strlen ≤ customMetadataMax) :
    s.FitsEscapeBuf ↔
      ¬(s.strlen = customMetadataMax ∧ ∀ c ∈ s.chars, (escapedChar c).isSome = true) := by
  have hcount : s.chars.countP (fun c => (escapedChar c).isSome) ≤ s.strlen :=
    List.countP_le_length
  have hall : s.chars.countP (fun c => (escapedChar c).isSome) = s.strlen ↔
      ∀ c ∈ s.chars, (escapedChar c).isSome = true := List.countP_eq_length
  rw [← hall]
  unfold customMetadataMax at h ⊢
  unfold NulTerminated.FitsEscapeBuf escapeBufSize
  omega

namespace Metadata

/-- The strings of a record that the code puts a bound on. -/
structure Bounded (m : Metadata) : Prop where
  key : m.key.strlen < keySize
  hostname : m.hostname.strlen < hostnameSize
  cliCommandLine : m.cliCommandLine.strlen ≤ commandLineCapacity
  customMetadataStr : ∀ s, m.customMetadataStr = some s → s.strlen ≤ customMetadataMax

/-- The other strings of the record fit in `buf`, and the custom string is not one of
4 KiB in which all characters are escaped. -/
structure Escapable (m : Metadata) : Prop where
  processPwd : m.processPwd.FitsEscapeBuf
  httpRequestUri : m.httpRequestUri.FitsEscapeBuf
  httpMethod : m.httpMethod.FitsEscapeBuf
  httpHost : m.httpHost.FitsEscapeBuf
  customMetadataStr : ∀ s, m.customMetadataStr = some s →
    ¬(s.strlen = customMetadataMax ∧ ∀ c ∈ s.chars, (escapedChar c).isSome = true)

theorem succeeds_customValue_iff {m : Metadata} (h : m.Bounded) :
    Succeeds (customValue m.customMetadataStr) ↔ ∀ s, m.customMetadataStr = some s →
      ¬(s.strlen = customMetadataMax ∧ ∀ c ∈ s.chars, (escapedChar c).isSome = true) := by
  cases hs : m.customMetadataStr with
  | none => simp [customValue, succeeds_ok]
  | some s =>
    have hfits := fitsEscapeBuf_iff_of_le (h.customMetadataStr s hs)
    rw [← succeeds_escape_iff] at hfits
    simp only [Option.some.injEq, forall_eq']
    rw [← hfits, customValue]
    cases spxUtilsJsonEscape s escapeBufSize with
    | error d => exact iff_of_false (not_succeeds_error d) (not_succeeds_error d)
    | ok dst => exact iff_of_true (succeeds_ok _) (succeeds_ok _)

/-- A record within the bounds is saved when its other strings fit. -/
theorem succeeds_metadataSave_iff {m : Metadata} (h : m.Bounded) (opened : Bool) :
    Succeeds (metadataSave opened m) ↔ (opened = true → m.Escapable) := by
  have hkey : m.key.FitsEscapeBuf :=
    fitsEscapeBuf_of_lt (h.key.trans (by unfold keySize customMetadataMax; omega))
  have hhostname : m.hostname.FitsEscapeBuf :=
    fitsEscapeBuf_of_lt (h.hostname.trans (by unfold hostnameSize customMetadataMax; omega))
  have hline : m.cliCommandLine.FitsEscapeBuf :=
    fitsEscapeBuf_of_lt
      (h.cliCommandLine.trans_lt (by unfold commandLineCapacity customMetadataMax; omega))
  unfold metadataSave
  cases opened with
  | false => simp [succeeds_ok]
  | true =>
    rw [if_neg (by decide)]
    refine (succeeds_bind_iff_and fun _ => succeeds_bind_iff_and fun _ =>
      succeeds_bind_iff_and fun _ => succeeds_bind_iff_and fun _ =>
      succeeds_bind_iff_and fun _ => succeeds_bind_iff_and fun _ =>
      succeeds_bind_iff_and fun _ => succeeds_bind_iff_and fun _ =>
      iff_true_intro (succeeds_ok _)).trans ?_
    simp only [succeeds_escape_iff, succeeds_customValue_iff h, hkey, hhostname, hline, true_and,
      and_true, true_implies]
    constructor
    · rintro ⟨hpwd, huri, hmethod, hhost, hcustom⟩
      exact ⟨hpwd, huri, hmethod, hhost, hcustom⟩
    · rintro ⟨hpwd, huri, hmethod, hhost, hcustom⟩
      exact ⟨hpwd, huri, hmethod, hhost, hcustom⟩

end Metadata

/-! ## Records within the bounds -/

theorem strlen_hostnameOf_lt (gethostname : Option CStr) :
    (hostnameOf gethostname).strlen < hostnameSize := by
  cases gethostname with
  | none => decide
  | some name =>
    have hle := (NulTerminated.strlen_ofChars_le (name.take (hostnameSize - 1))).trans
      (List.length_take_le _ _)
    exact Nat.lt_of_le_of_lt hle (by decide)

theorem strlen_keyOf_lt (sources : MetadataSources) (hostname : NulTerminated) :
    (keyOf sources hostname).strlen < keySize := by
  have hle : (keyOf sources hostname).strlen ≤ keySize - 1 :=
    (NulTerminated.strlen_ofChars_le _).trans (List.length_take_le _ _)
  exact Nat.lt_of_le_of_lt hle (by decide)

theorem strlen_commandLine_le (argv : Option (List (Option NulTerminated))) :
    ((spxPhpBuildCommandLine argv).getD notAvailable).strlen ≤ commandLineCapacity := by
  cases hline : spxPhpBuildCommandLine argv with
  | none => decide
  | some line => exact strlen_spxPhpBuildCommandLine_le hline

theorem metadataCreate_bounded (sources : MetadataSources) :
    (metadataCreate sources).Bounded where
  key := strlen_keyOf_lt sources _
  hostname := strlen_hostnameOf_lt _
  cliCommandLine := strlen_commandLine_le sources.argv
  customMetadataStr := fun _ hs => nomatch hs

/-- A record that there is, is within the bounds. -/
def RecordBounded (reporter : Option Metadata) : Prop :=
  ∀ m, reporter = some m → m.Bounded

theorem recordBounded_none : RecordBounded none := fun _ h => nomatch h

/-- What `metadata_save` is called with can be escaped. -/
def Saveable (reporter : Option Metadata) (op : MetadataOp) : Prop :=
  ∀ m, reporter = some m → op = .finalize true → m.Escapable

/-- The custom string is set to one that is admitted, to none, or left alone. -/
theorem setCustom_bounded {reporter : Option Metadata} (h : RecordBounded reporter)
    (report : ConfigReport) (str : List Char) (allocated : Bool) :
    RecordBounded
      (spxProfilerFullReportSetCustomMetadataStr report reporter str allocated).2 := by
  unfold spxProfilerFullReportSetCustomMetadataStr
  split_ifs with hreport hlong
  · exact h
  · exact h
  · intro m hm
    obtain ⟨old, hold, rfl⟩ := Option.map_eq_some_iff.mp hm
    obtain ⟨hkey, hhostname, hline, -⟩ := h old hold
    refine ⟨hkey, hhostname, hline, ?_⟩
    intro s hs
    dsimp only at hs
    split at hs
    · obtain rfl := Option.some.inj hs
      exact (NulTerminated.strlen_ofChars_le str).trans (Nat.not_lt.mp hlong)
    · cases hs

/-- One step: the record stays within the bounds, and the process lives, when what is saved
can be escaped. -/
theorem metadataStep_ends (reporter : Option Metadata) (op : MetadataOp)
    (h : RecordBounded reporter) (hop : Saveable reporter op) :
    Ends (metadataStep reporter op) RecordBounded fun _ => False := by
  cases op with
  | start sources =>
    cases reporter with
    | none =>
      rintro m ⟨⟩
      exact metadataCreate_bounded sources
    | some m => exact h
  | setCustom report str allocated => exact setCustom_bounded h report str allocated
  | notify counts =>
    intro m hm
    obtain ⟨old, hold, rfl⟩ := Option.map_eq_some_iff.mp hm
    obtain ⟨hkey, hhostname, hline, hcustom⟩ := h old hold
    exact ⟨hkey, hhostname, hline, hcustom⟩
  | finalize opened =>
    cases reporter with
    | none => exact recordBounded_none
    | some m =>
      have hescapable : opened = true → m.Escapable := by
        rintro rfl
        exact hop m rfl rfl
      obtain ⟨saved, hsaved⟩ :=
        (Metadata.succeeds_metadataSave_iff (h m rfl) opened).mpr hescapable
      rw [metadataStep_finalize, hsaved]
      exact h
  | destroy => exact recordBounded_none

/-- Otherwise the process ends. -/
theorem metadataStep_dies (reporter : Option Metadata) (op : MetadataOp)
    (h : RecordBounded reporter) (hop : ¬Saveable reporter op) :
    ∃ d, metadataStep reporter op = .error d := by
  unfold Saveable at hop
  simp only [not_forall] at hop
  obtain ⟨m, rfl, rfl, hm⟩ := hop
  rw [metadataStep_finalize]
  cases hsaved : metadataSave true m with
  | error d => exact ⟨d, rfl⟩
  | ok saved =>
    have hescapable := (Metadata.succeeds_metadataSave_iff (h m rfl) true).mp ⟨saved, hsaved⟩ rfl
    exact absurd hescapable hm

/-- **Saving never ends the process**, along a run, exactly when at each finalization whose
file is opened the working directory, the request URI, the method and the host fit the
buffer and the custom string is not one of 4 KiB with all characters escaped.  The other
strings always fit. -/
theorem report_metadata_saved_iff (ops : List MetadataOp) :
    Succeeds (runSteps metadataStep ops none) ↔ Along metadataStep Saveable ops none := by
  have hdies : ∀ reporter op, RecordBounded reporter → ¬Saveable reporter op →
      ∃ d, metadataStep reporter op = .error d ∧ ¬False := by
    intro reporter op h hop
    obtain ⟨d, hd⟩ := metadataStep_dies reporter op h hop
    exact ⟨d, hd, not_false⟩
  have hends : Ends (runSteps metadataStep ops none) (fun _ => True) (fun _ => False) ↔
      Along metadataStep Saveable ops none :=
    ends_runSteps_iff metadataStep_ends hdies (fun _ _ => trivial) recordBounded_none
  rw [← hends]
  constructor
  · rintro ⟨reporter, hrun⟩
    exact ends_of_ok hrun trivial
  · intro h
    exact h.succeeds

/-- In a run that sets the custom string to one that is admitted and does not fit, the
process ends. -/
theorem not_succeeds_of_not_escapable {sources : MetadataSources} {str : List Char}
    (hadmitted : str.length ≤ customMetadataMax)
    (h : ¬({ metadataCreate sources with
      customMetadataStr := some (.ofChars str) } : Metadata).Escapable) :
    ¬Succeeds (runSteps metadataStep
      [.start sources, .setCustom .full str true, .finalize true] none) := by
  rintro ⟨reporter, hrun⟩
  have hset := setCustom_admitted hadmitted (metadataCreate sources)
  have hstart : RecordBounded (some (metadataCreate sources)) := by
    rintro _ ⟨⟩
    exact metadataCreate_bounded sources
  have hbounded := setCustom_bounded hstart .full str true _ hset
  change (metadataStep (spxProfilerFullReportSetCustomMetadataStr .full
    (some (metadataCreate sources)) str true).2 (.finalize true)).bind _ = _ at hrun
  rw [hset, metadataStep_finalize] at hrun
  cases hsaved : metadataSave true { metadataCreate sources with
      customMetadataStr := some (.ofChars str) } with
  | error d =>
    rw [hsaved] at hrun
    cases hrun
  | ok saved =>
    exact h ((Metadata.succeeds_metadataSave_iff hbounded true).mp ⟨saved, hsaved⟩ rfl)

/-- A custom string of 4096 slashes is admitted, and the process ends when the report is
saved. -/
theorem slashes_end_process :
    ¬∀ ops : List MetadataOp, Succeeds (runSteps metadataStep ops none) := by
  intro h
  let sources : MetadataSources := ⟨0, none, 1, 1, [], 0, none, true, none, none, none, none⟩
  have hchars : (NulTerminated.ofChars (List.replicate customMetadataMax '/')).chars =
      List.replicate customMetadataMax '/' := NulTerminated.chars_ofChars_replicate (by decide) _
  refine not_succeeds_of_not_escapable List.length_replicate.le ?_
    (h [.start sources, .setCustom .full (List.replicate customMetadataMax '/') true,
      .finalize true])
  intro hm
  refine hm.customMetadataStr _ rfl ⟨?_, ?_⟩
  · rw [NulTerminated.strlen, hchars, List.length_replicate]
  · rw [hchars]
    intro c hc
    rw [List.eq_of_mem_replicate hc]
    decide

end PhpSpx
