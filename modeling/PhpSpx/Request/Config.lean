import PhpSpx.Metric.Values
import PhpSpx.Text.Parse

/-!
# The configuration of a request

`spx_config.c`: the parameters of a source, their effect on `spx_config_t`, and
`spx_config_get`, which reads a list of sources over the defaults.  Notices
written to the PHP log are not modelled.
-/

namespace PhpSpx

/-! ## Data -/

/-- `spx_config_report_t`. -/
inductive ConfigReport where
  | full
  | flatProfile
  | trace
  deriving DecidableEq, Repr

/-- `spx_config_t`. -/
structure SpxConfig where
  enabled : Bool
  key : Option CStr
  uiUri : Option CStr
  autoStart : Bool
  samplingPeriod : ℕ
  builtins : Bool
  maxDepth : ℕ
  enabledMetrics : Metric → Bool
  report : ConfigReport
  fpFocus : Metric
  fpInc : Bool
  fpRel : Bool
  fpLimit : ℕ
  fpLive : Bool
  fpColor : Bool
  traceFile : Option CStr
  traceSafe : Bool
  deriving DecidableEq

/-- `source_data_t`: the parameter strings of one source, `none` for `NULL`. -/
structure SourceData where
  enabledStr : Option CStr
  keyStr : Option CStr
  uiUriStr : Option CStr
  autoStartStr : Option CStr
  samplingPeriodStr : Option CStr
  builtinsStr : Option CStr
  depthStr : Option CStr
  metricsStr : Option CStr
  reportStr : Option CStr
  fpFocusStr : Option CStr
  fpIncStr : Option CStr
  fpRelStr : Option CStr
  fpLimitStr : Option CStr
  fpLiveStr : Option CStr
  fpColorStr : Option CStr
  traceFile : Option CStr
  traceSafeStr : Option CStr
  deriving DecidableEq

/-- `spx_config_source_t`. -/
inductive ConfigSource where
  | ini
  | env
  | httpCookie
  | httpHeader
  | httpQueryString
  deriving DecidableEq, Repr

/-- The superglobals `spx_php_global_array_get` is asked for. -/
inductive GlobalArray where
  | cookie
  | server
  | get
  deriving DecidableEq, Repr

/-- What a request reads its parameters from: the INI directives, the process
environment and the superglobals. -/
structure Inputs where
  iniString : CStr → Option CStr
  getenv : CStr → Option CStr
  globalArrayGet : GlobalArray → CStr → Option CStr

/-- `spx_metric_get_by_key`, the built-in metrics being registered. -/
def metricGetByKey (key : CStr) : Option Metric :=
  Metric.all.find? fun m => m.key.toList = key

/-! ## Defaults -/

/-- `init_config`: every field of `config` is assigned. -/
def initConfig (config : SpxConfig) (cli : Bool) : SpxConfig :=
  { config with
    enabled := false
    key := none
    uiUri := none
    autoStart := true
    samplingPeriod := 0
    builtins := false
    maxDepth := 0
    enabledMetrics := fun m => m = .wallTime ∨ m = .zeMemoryUsage
    report := if cli then .flatProfile else .full
    fpFocus := .wallTime
    fpInc := false
    fpRel := false
    fpLimit := 10
    fpLive := false
    fpColor := true
    traceFile := none
    traceSafe := false }

/-- The configuration of a request no source says anything about. -/
def defaultConfig (cli : Bool) : SpxConfig where
  enabled := false
  key := none
  uiUri := none
  autoStart := true
  samplingPeriod := 0
  builtins := false
  maxDepth := 0
  enabledMetrics := fun m => m = .wallTime ∨ m = .zeMemoryUsage
  report := if cli then .flatProfile else .full
  fpFocus := .wallTime
  fpInc := false
  fpRel := false
  fpLimit := 10
  fpLive := false
  fpColor := true
  traceFile := none
  traceSafe := false

/-- Nothing of the configuration of a former pass is left. -/
theorem initConfig_eq (config : SpxConfig) (cli : Bool) :
    initConfig config cli = defaultConfig cli := rfl

/-- The metric `m` switched on. -/
def SpxConfig.enableMetric (config : SpxConfig) (m : Metric) : SpxConfig :=
  { config with enabledMetrics := Function.update config.enabledMetrics m true }

/-- `fix_config`. -/
def fixConfig (config : SpxConfig) (cli : Bool) : SpxConfig :=
  let config := if cli then { config with uiUri := none } else config
  let config := if !cli then { config with report := .full } else config
  let config :=
    if config.report = .full then
      (config.enableMetric .wallTime).enableMetric .zeMemoryUsage
    else config
  if config.report = .flatProfile then config.enableMetric config.fpFocus else config

/-! ## Sources -/

/-- `source_data_get`. -/
def sourceDataGet (handler : CStr → Option CStr) : SourceData where
  enabledStr := handler "SPX_ENABLED".toList
  keyStr := handler "SPX_KEY".toList
  uiUriStr := handler "SPX_UI_URI".toList
  autoStartStr := handler "SPX_AUTO_START".toList
  samplingPeriodStr := handler "SPX_SAMPLING_PERIOD".toList
  builtinsStr := handler "SPX_BUILTINS".toList
  depthStr := handler "SPX_DEPTH".toList
  metricsStr := handler "SPX_METRICS".toList
  reportStr := handler "SPX_REPORT".toList
  fpFocusStr := handler "SPX_FP_FOCUS".toList
  fpIncStr := handler "SPX_FP_INC".toList
  fpRelStr := handler "SPX_FP_REL".toList
  fpLimitStr := handler "SPX_FP_LIMIT".toList
  fpLiveStr := handler "SPX_FP_LIVE".toList
  fpColorStr := handler "SPX_FP_COLOR".toList
  traceFile := handler "SPX_TRACE_FILE".toList
  traceSafeStr := handler "SPX_TRACE_SAFE".toList

/-- `*str == '1' ? 1 : 0`. -/
def isOn (str : CStr) : Bool := str.head? = some '1'

/-- The block `source_data_to_config` runs on a parameter that is not `NULL`. -/
def ifGiven (str : Option CStr) (block : CStr → SpxConfig → SpxConfig) (config : SpxConfig) :
    SpxConfig :=
  match str with
  | none => config
  | some str => block str config

/-- A number parameter: `old` stays when the text is refused. -/
def sizeOr (old : ℕ) (str : CStr) (maxValue : ℤ) : ℕ :=
  match parseLong (some str) 0 maxValue with
  | .ok value => value.toNat
  | .error _ => old

/-- The metrics named by the tokens of `str`, and no others. -/
def metricsOfList (str : CStr) : Metric → Bool :=
  (tokenizeString str ',' 32).foldl
    (fun enabled token =>
      match metricGetByKey token with
      | some m => Function.update enabled m true
      | none => enabled)
    fun _ => false

/-- The report named by `str`, `old` when there is none of that name. -/
def reportOr (old : ConfigReport) (str : CStr) : ConfigReport :=
  if str = "full".toList then .full
  else if str = "fp".toList then .flatProfile
  else if str = "trace".toList then .trace
  else old

/-- `source_data_to_config`. -/
def sourceDataToConfig (source : SourceData) (config : SpxConfig) : SpxConfig :=
  let config := ifGiven source.enabledStr (fun s c => { c with enabled := isOn s }) config
  let config := ifGiven source.keyStr (fun s c => { c with key := some s }) config
  let config := ifGiven source.uiUriStr (fun s c => { c with uiUri := some s }) config
  let config := ifGiven source.autoStartStr (fun s c => { c with autoStart := isOn s }) config
  let config := ifGiven source.samplingPeriodStr
    (fun s c => { c with samplingPeriod := sizeOr c.samplingPeriod s 10000000 }) config
  let config := ifGiven source.builtinsStr (fun s c => { c with builtins := isOn s }) config
  let config := ifGiven source.depthStr
    (fun s c => { c with maxDepth := sizeOr c.maxDepth s 100000 }) config
  let config := ifGiven source.metricsStr
    (fun s c => { c with enabledMetrics := metricsOfList s }) config
  let config := ifGiven source.reportStr
    (fun s c => { c with report := reportOr c.report s }) config
  let config := ifGiven source.fpFocusStr
    (fun s c => { c with fpFocus := (metricGetByKey s).getD c.fpFocus }) config
  let config := ifGiven source.fpIncStr (fun s c => { c with fpInc := isOn s }) config
  let config := ifGiven source.fpRelStr (fun s c => { c with fpRel := isOn s }) config
  let config := ifGiven source.fpLimitStr
    (fun s c => { c with fpLimit := sizeOr c.fpLimit s 1000000 }) config
  let config := ifGiven source.fpLiveStr (fun s c => { c with fpLive := isOn s }) config
  let config := ifGiven source.fpColorStr (fun s c => { c with fpColor := isOn s }) config
  let config := ifGiven source.traceFile (fun s c => { c with traceFile := some s }) config
  ifGiven source.traceSafeStr (fun s c => { c with traceSafe := isOn s }) config

/-- A block that does not assign a field leaves it. -/
theorem ifGiven_field {α : Type} (field : SpxConfig → α) {str : Option CStr}
    {block : CStr → SpxConfig → SpxConfig} {config : SpxConfig}
    (h : ∀ s c, field (block s c) = field c) : field (ifGiven str block config) = field config := by
  cases str with
  | none => rfl
  | some s => exact h s config

/-- The block that assigns a field. -/
theorem ifGiven_assign {α : Type} (field : SpxConfig → α) (put : CStr → α → α)
    {str : Option CStr} {block : CStr → SpxConfig → SpxConfig} {config : SpxConfig}
    (h : ∀ s c, field (block s c) = put s (field c)) :
    field (ifGiven str block config)
      = (str.map fun s => put s (field config)).getD (field config) := by
  cases str with
  | none => rfl
  | some s => exact h s config

theorem sourceDataToConfig_report (source : SourceData) (config : SpxConfig) :
    (sourceDataToConfig source config).report
      = (source.reportStr.map (reportOr config.report)).getD config.report := by
  simp only [sourceDataToConfig, ifGiven_field SpxConfig.report,
    ifGiven_assign SpxConfig.report fun s old => reportOr old s, implies_true]

theorem sourceDataToConfig_enabledMetrics (source : SourceData) (config : SpxConfig) :
    (sourceDataToConfig source config).enabledMetrics
      = (source.metricsStr.map metricsOfList).getD config.enabledMetrics := by
  simp only [sourceDataToConfig, ifGiven_field SpxConfig.enabledMetrics,
    ifGiven_assign SpxConfig.enabledMetrics fun s _ => metricsOfList s, implies_true]

theorem sourceDataToConfig_fpFocus (source : SourceData) (config : SpxConfig) :
    (sourceDataToConfig source config).fpFocus
      = (source.fpFocusStr.map fun s => (metricGetByKey s).getD config.fpFocus).getD
        config.fpFocus := by
  simp only [sourceDataToConfig, ifGiven_field SpxConfig.fpFocus,
    ifGiven_assign SpxConfig.fpFocus fun s old => (metricGetByKey s).getD old, implies_true]

theorem sourceDataToConfig_traceFile (source : SourceData) (config : SpxConfig) :
    (sourceDataToConfig source config).traceFile
      = (source.traceFile.map some).getD config.traceFile := by
  simp only [sourceDataToConfig, ifGiven_field SpxConfig.traceFile,
    ifGiven_assign SpxConfig.traceFile fun s _ => some s, implies_true]

/-- `source_handler_ini_http`: `SPX_X` is the directive `spx.http_profiling_x`. -/
def sourceHandlerIniHttp (inputs : Inputs) (parameter : CStr) : Option CStr :=
  let prefixLen := "SPX_".toList.length
  if parameter.length ≤ prefixLen then none
  else
    let name := ("spx.http_profiling_".toList ++ parameter.drop prefixLen).take 127
    inputs.iniString (name.map Char.toLower)

/-- `source_handler_env`. -/
def sourceHandlerEnv (inputs : Inputs) (parameter : CStr) : Option CStr := inputs.getenv parameter

/-- `source_handler_http_cookie`. -/
def sourceHandlerHttpCookie (inputs : Inputs) (parameter : CStr) : Option CStr :=
  inputs.globalArrayGet .cookie parameter

/-- `source_handler_http_header`. -/
def sourceHandlerHttpHeader (inputs : Inputs) (parameter : CStr) : Option CStr :=
  inputs.globalArrayGet .server (("HTTP_".toList ++ parameter).take 127)

/-- `source_handler_http_query_string`. -/
def sourceHandlerHttpQueryString (inputs : Inputs) (parameter : CStr) : Option CStr :=
  inputs.globalArrayGet .get parameter

/-- The handler `spx_config_get` picks for a source: the INI source has none in
the CLI. -/
def sourceHandler (inputs : Inputs) (cli : Bool) : ConfigSource → Option (CStr → Option CStr)
  | .ini => if cli then none else some (sourceHandlerIniHttp inputs)
  | .env => some (sourceHandlerEnv inputs)
  | .httpCookie => some (sourceHandlerHttpCookie inputs)
  | .httpHeader => some (sourceHandlerHttpHeader inputs)
  | .httpQueryString => some (sourceHandlerHttpQueryString inputs)

/-- The loop of `spx_config_get` over its arguments, which ends at the first one
without a handler; the final `-1` is the end of the list. -/
def readSources (inputs : Inputs) (cli : Bool) : List ConfigSource → SpxConfig → SpxConfig
  | [], config => config
  | source :: sources, config =>
    match sourceHandler inputs cli source with
    | none => config
    | some handler =>
      readSources inputs cli sources (sourceDataToConfig (sourceDataGet handler) config)

/-- `spx_config_get`. -/
def spxConfigGet (inputs : Inputs) (config : SpxConfig) (cli : Bool)
    (sources : List ConfigSource) : SpxConfig :=
  fixConfig (readSources inputs cli sources (initConfig config cli)) cli

/-! ## Metrics that a report needs -/

/-- The wall time is enabled for a full report. -/
theorem fixConfig_wallTime {config : SpxConfig} {cli : Bool}
    (h : (fixConfig config cli).report = .full) :
    (fixConfig config cli).enabledMetrics .wallTime = true := by
  cases cli <;> cases hreport : config.report <;>
    simp_all [fixConfig, SpxConfig.enableMetric]

/-- The focus is enabled for a flat profile. -/
theorem fixConfig_fpFocus {config : SpxConfig} {cli : Bool}
    (h : (fixConfig config cli).report = .flatProfile) :
    (fixConfig config cli).enabledMetrics (fixConfig config cli).fpFocus = true := by
  cases cli <;> cases hreport : config.report <;>
    simp_all [fixConfig, SpxConfig.enableMetric]

/-! ## The configuration of the CLI -/

theorem fixConfig_cli_report (config : SpxConfig) :
    (fixConfig config true).report = config.report := by
  cases h : config.report <;> simp [fixConfig, h, SpxConfig.enableMetric]

theorem fixConfig_cli_traceFile (config : SpxConfig) :
    (fixConfig config true).traceFile = config.traceFile := by
  cases h : config.report <;> simp [fixConfig, h, SpxConfig.enableMetric]

/-- The metrics switched on for a report. -/
def metricsForReport (report : ConfigReport) (focus : Metric) (enabledMetrics : Metric → Bool) :
    Metric → Bool :=
  match report with
  | .full => Function.update (Function.update enabledMetrics .wallTime true) .zeMemoryUsage true
  | .flatProfile => Function.update enabledMetrics focus true
  | .trace => enabledMetrics

theorem fixConfig_cli_enabledMetrics (config : SpxConfig) :
    (fixConfig config true).enabledMetrics
      = metricsForReport config.report config.fpFocus config.enabledMetrics := by
  cases h : config.report <;> simp [fixConfig, h, metricsForReport, SpxConfig.enableMetric]

/-- The environment is all that the configuration of the CLI is read from. -/
theorem spxConfigGet_cli (inputs : Inputs) (config : SpxConfig) :
    spxConfigGet inputs config true [.env]
      = fixConfig (sourceDataToConfig (sourceDataGet (sourceHandlerEnv inputs))
        (defaultConfig true)) true := rfl

end PhpSpx
