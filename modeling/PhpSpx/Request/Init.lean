import PhpSpx.Request.Config

/-!
# Access control and request initialisation

`spx_utils_ip_match`, `spx_crypto_compare_strings_constant_time`, `check_access`
and `PHP_RINIT_FUNCTION(spx)`.  A request whose client is not authorised runs
under the configuration the INI settings alone give.
-/

namespace PhpSpx

/-! ## Data -/

/-- The module globals of the INI settings, `none` for `NULL`. -/
structure ModuleGlobals where
  debug : Bool
  httpEnabled : Bool
  httpKey : Option CStr
  httpIpVar : Option CStr
  httpTrustedProxies : Option CStr
  httpIpWhitelist : Option CStr

/-- `execution_handler_t`. -/
inductive ExecutionHandler where
  | profiling
  | httpUi
  deriving DecidableEq, Repr

/-- The part of `context` that request initialisation assigns, with the header
lines it outputs. -/
structure RequestContext where
  cliSapi : Bool
  config : SpxConfig
  executionHandler : Option ExecutionHandler
  headers : List String
  deriving DecidableEq

/-! ## `spx_utils_ip_match` -/

/-- `INADDR_NONE`. -/
def inaddrNone : UInt32 := 0xffffffff

/-- `spx_utils_ip_match`.  `inetAddr` is `inet_addr` in host byte order. -/
def ipMatch (inetAddr : CStr → UInt32) (ipAddressStr : Option CStr) (target : CStr) : Bool :=
  match ipAddressStr with
  | none => false
  | some ipAddressStr =>
    if target = ['*'] ∨ target = ipAddressStr then true
    else
      let targetIpAddressStr := target.takeWhile (· ≠ '/')
      let targetSuffix := target.dropWhile (· ≠ '/')
      if targetSuffix = [] then false
      else if ¬(7 ≤ targetIpAddressStr.length ∧ targetIpAddressStr.length ≤ 15) then false
      else if ¬(2 ≤ targetSuffix.length ∧ targetSuffix.length ≤ 3) then false
      else
        let targetIpAddress := inetAddr targetIpAddressStr
        let targetMaskBits := (strtol targetSuffix.tail).value
        let ipAddress := inetAddr ipAddressStr
        if targetIpAddress = inaddrNone then false
        else if ¬(1 ≤ targetMaskBits ∧ targetMaskBits ≤ 31) then false
        else if ipAddress = inaddrNone then false
        else
          let targetMask : UInt32 := 0xffffffff <<< UInt32.ofNat (32 - targetMaskBits.toNat)
          decide (ipAddress &&& targetMask = targetIpAddress &&& targetMask)

/-! ## Comparison of keys -/

/-- The bytes of a string. -/
def bytesOf (s : CStr) : List UInt8 := s.map fun c => UInt8.ofNat c.toNat

/-- `spx_crypto_compare_constant_time`. -/
def cryptoCompareConstantTime (a b : List UInt8) (len : ℕ) : UInt8 :=
  ((a.take len).zip (b.take len)).foldl (fun result p => result ||| (p.1 ^^^ p.2)) 0

/-- `spx_crypto_compare_strings_constant_time`, without its delay. -/
def cryptoCompareStringsConstantTime (a b : CStr) : UInt8 :=
  let lengthEqual := UInt8.ofNat (a.length ^^^ b.length)
  let compareLen := min a.length b.length
  cryptoCompareConstantTime (bytesOf a) (bytesOf b) compareLen ||| lengthEqual

/-! ## `check_access` -/

/-- Why access is not granted. -/
inductive AccessDenial where
  | httpDisabled
  | ipVarEmpty
  | trustedProxiesEmpty
  | untrustedProxy (proxyIpStr : Option CStr)
  | clientIpEmpty (ipVar : CStr)
  | whiteListEmpty
  | ipNotInWhiteList (ipStr : CStr)
  | httpKeyEmpty
  | clientKeyEmpty
  | authenticationFailed
  deriving DecidableEq

/-- The notice logged for a denial. -/
def AccessDenial.notice : AccessDenial → Option String
  | .httpDisabled => none
  | .ipVarEmpty => some "access not granted: http_ip_var is empty"
  | .trustedProxiesEmpty => some "access not granted: http_trusted_proxies is empty"
  | .untrustedProxy proxyIpStr =>
    some ("access not granted: '" ++ String.ofList (proxyIpStr.getD "(null)".toList) ++
      "' is not a trusted proxy")
  | .clientIpEmpty ipVar =>
    some ("access not granted: $_SERVER[\"" ++ String.ofList ipVar ++ "\"] is empty")
  | .whiteListEmpty => some "access not granted: IP white list is empty"
  | .ipNotInWhiteList ipStr =>
    some ("access not granted: \"" ++ String.ofList ipStr ++ "\" IP is not in white list")
  | .httpKeyEmpty => some "access not granted: http_key is empty"
  | .clientKeyEmpty => some "access not granted: client key is empty"
  | .authenticationFailed => some "access not granted: authentication failed"

/-- `!s || s[0] == 0`. -/
def isEmptyStr : Option CStr → Bool
  | none => true
  | some s => s.isEmpty

/-- Some token of the list `targets` matches the address. -/
def ipMatchAny (inetAddr : CStr → UInt32) (ipStr : Option CStr) (targets : CStr) : Bool :=
  (tokenizeString targets ',' 64).any (ipMatch inetAddr ipStr)

/-- The test of the proxy, made when the client address is not `REMOTE_ADDR`. -/
def checkProxy (inetAddr : CStr → UInt32) (globals : ModuleGlobals) (inputs : Inputs) :
    Except AccessDenial Unit :=
  if globals.httpIpVar = some "REMOTE_ADDR".toList then .ok ()
  else if isEmptyStr globals.httpTrustedProxies then .error .trustedProxiesEmpty
  else
    let proxyIpStr := inputs.globalArrayGet .server "REMOTE_ADDR".toList
    if ipMatchAny inetAddr proxyIpStr (globals.httpTrustedProxies.getD []) then .ok ()
    else .error (.untrustedProxy proxyIpStr)

/-- The test of the client address. -/
def checkClientIp (inetAddr : CStr → UInt32) (globals : ModuleGlobals) (inputs : Inputs) :
    Except AccessDenial Unit :=
  let ipVar := globals.httpIpVar.getD []
  match inputs.globalArrayGet .server ipVar with
  | none => .error (.clientIpEmpty ipVar)
  | some ipStr =>
    if ipStr = [] then .error (.clientIpEmpty ipVar)
    else if isEmptyStr globals.httpIpWhitelist then .error .whiteListEmpty
    else if ipMatchAny inetAddr (some ipStr) (globals.httpIpWhitelist.getD []) then .ok ()
    else .error (.ipNotInWhiteList ipStr)

/-- The test of the client's key. -/
def checkKey (globals : ModuleGlobals) (config : SpxConfig) : Except AccessDenial Unit :=
  if isEmptyStr globals.httpKey then .error .httpKeyEmpty
  else if isEmptyStr config.key then .error .clientKeyEmpty
  else if cryptoCompareStringsConstantTime (globals.httpKey.getD []) (config.key.getD []) ≠ 0 then
    .error .authenticationFailed
  else .ok ()

/-- `check_access`: `.ok ()` for 1, the reason for 0. -/
def checkAccess (inetAddr : CStr → UInt32) (globals : ModuleGlobals) (inputs : Inputs)
    (cliSapi : Bool) (config : SpxConfig) : Except AccessDenial Unit :=
  if cliSapi then .ok ()
  else if !globals.httpEnabled then .error .httpDisabled
  else if isEmptyStr globals.httpIpVar then .error .ipVarEmpty
  else do
    checkProxy inetAddr globals inputs
    checkClientIp inetAddr globals inputs
    checkKey globals config

/-! ## `PHP_RINIT_FUNCTION(spx)` -/

/-- The configuration the client sources of an HTTP request give. -/
def clientConfig (inputs : Inputs) (config : SpxConfig) : SpxConfig :=
  spxConfigGet inputs config false [.httpCookie, .httpHeader, .httpQueryString]

/-- `access_required`: the client asks for the web UI or for profiling. -/
def accessRequired (config : SpxConfig) : Bool := config.uiUri.isSome || config.enabled

/-- The configuration chosen by `PHP_RINIT_FUNCTION(spx)`; `config` is the one
the former request of the thread left. -/
def rinitConfig (inetAddr : CStr → UInt32) (globals : ModuleGlobals) (inputs : Inputs)
    (cliSapi : Bool) (config : SpxConfig) : SpxConfig :=
  if cliSapi then spxConfigGet inputs config cliSapi [.env]
  else
    let config := clientConfig inputs config
    if !accessRequired config || !(checkAccess inetAddr globals inputs cliSapi config).isOk then
      spxConfigGet inputs config cliSapi [.ini]
    else config

/-- The handler selected for a configuration. -/
def selectHandler (config : SpxConfig) : Option ExecutionHandler :=
  if config.uiUri.isSome then some .httpUi
  else if config.enabled then some .profiling
  else none

/-- `PHP_RINIT_FUNCTION(spx)`, up to the call of the handler's `init`. -/
def requestInit (inetAddr : CStr → UInt32) (globals : ModuleGlobals) (inputs : Inputs)
    (cliSapi : Bool) (context : RequestContext) : RequestContext :=
  let config := rinitConfig inetAddr globals inputs cliSapi context.config
  let debugHeader := config.uiUri.isNone && !cliSapi && globals.debug
  { cliSapi := cliSapi
    config := config
    executionHandler := selectHandler config
    headers :=
      if debugHeader then
        ["SPX-Debug-Profiling-Triggered: " ++ if config.enabled then "1" else "0"]
      else [] }

/-! ## Requests without authorisation -/

/-- The client sources ask for nothing, or `check_access` refuses. -/
def Unauthorised (inetAddr : CStr → UInt32) (globals : ModuleGlobals) (inputs : Inputs)
    (config : SpxConfig) : Prop :=
  accessRequired (clientConfig inputs config) = false ∨
    (checkAccess inetAddr globals inputs false (clientConfig inputs config)).isOk = false

instance (inetAddr : CStr → UInt32) (globals : ModuleGlobals) (inputs : Inputs)
    (config : SpxConfig) : Decidable (Unauthorised inetAddr globals inputs config) :=
  inferInstanceAs (Decidable (_ ∨ _))

/-- The INI source applied to the defaults. -/
def iniConfig (iniString : CStr → Option CStr) : SpxConfig :=
  let handler := sourceHandlerIniHttp ⟨iniString, fun _ => none, fun _ _ => none⟩
  fixConfig (sourceDataToConfig (sourceDataGet handler) (defaultConfig false)) false

/-- `spx_config_get` with no source but INI forgets the configuration it is given
and reads nothing of the client. -/
theorem spxConfigGet_ini (inputs : Inputs) (config : SpxConfig) :
    spxConfigGet inputs config false [.ini] = iniConfig inputs.iniString := by
  rw [spxConfigGet, initConfig_eq]
  rfl

/-- An unauthorised request is left with the INI configuration. -/
theorem rinitConfig_of_unauthorised {inetAddr : CStr → UInt32} {globals : ModuleGlobals}
    {inputs : Inputs} {config : SpxConfig} (h : Unauthorised inetAddr globals inputs config) :
    rinitConfig inetAddr globals inputs false config = iniConfig inputs.iniString := by
  have hagain : (!accessRequired (clientConfig inputs config) ||
      !(checkAccess inetAddr globals inputs false (clientConfig inputs config)).isOk) = true := by
    rcases h with h | h
    · rw [h]
      rfl
    · rw [h, Bool.not_false, Bool.or_true]
  rw [rinitConfig, if_neg Bool.false_ne_true]
  simp only [hagain, if_true]
  exact spxConfigGet_ini inputs _

/-- Two HTTP requests under the same INI settings, neither of them authorised, are
given the same configuration, that of the INI source over the defaults, and the
same handler, whatever their clients send and whatever ran before. -/
theorem unauthorised_requests_agree (inetAddr : CStr → UInt32) (globals : ModuleGlobals)
    (iniString : CStr → Option CStr) (inputs₁ inputs₂ : Inputs)
    (hini₁ : inputs₁.iniString = iniString) (hini₂ : inputs₂.iniString = iniString)
    (context₁ context₂ : RequestContext)
    (h₁ : Unauthorised inetAddr globals inputs₁ context₁.config)
    (h₂ : Unauthorised inetAddr globals inputs₂ context₂.config) :
    (requestInit inetAddr globals inputs₁ false context₁).config =
        (requestInit inetAddr globals inputs₂ false context₂).config ∧
      (requestInit inetAddr globals inputs₁ false context₁).executionHandler =
        (requestInit inetAddr globals inputs₂ false context₂).executionHandler ∧
      (requestInit inetAddr globals inputs₁ false context₁).config = iniConfig iniString := by
  have hc₁ : (requestInit inetAddr globals inputs₁ false context₁).config = iniConfig iniString := by
    rw [← hini₁]
    exact rinitConfig_of_unauthorised h₁
  have hc₂ : (requestInit inetAddr globals inputs₂ false context₂).config = iniConfig iniString := by
    rw [← hini₂]
    exact rinitConfig_of_unauthorised h₂
  refine ⟨hc₁.trans hc₂.symm, ?_, hc₁⟩
  show selectHandler (requestInit inetAddr globals inputs₁ false context₁).config =
    selectHandler (requestInit inetAddr globals inputs₂ false context₂).config
  rw [hc₁, hc₂]

/-- The inputs of a request, from tables of names and values. -/
def Inputs.ofTables (ini cookie server get : List (String × String)) : Inputs :=
  let find (table : List (String × String)) (name : CStr) : Option CStr :=
    (table.find? fun entry => entry.1.toList = name).map fun entry => entry.2.toList
  { iniString := find ini
    getenv := fun _ => none
    globalArrayGet := fun
      | .cookie => find cookie
      | .server => find server
      | .get => find get }

/-- The server profiles every request.  The first client asks for no profiling,
the second one for the web UI with a wrong key. -/
theorem unauthorised_requests_agree_profiled :
    let inetAddr : CStr → UInt32 := fun s =>
      if s = "127.0.0.1".toList then 0x7f000001 else inaddrNone
    let globals : ModuleGlobals :=
      ⟨true, true, some "dev".toList, some "REMOTE_ADDR".toList, some "127.0.0.1".toList,
        some "127.0.0.1".toList⟩
    let ini :=
      [("spx.http_profiling_enabled", "1"), ("spx.http_profiling_auto_start", "1"),
        ("spx.http_profiling_builtins", ""), ("spx.http_profiling_sampling_period", ""),
        ("spx.http_profiling_depth", ""), ("spx.http_profiling_metrics", "")]
    let server := [("REMOTE_ADDR", "127.0.0.1")]
    let inputs₁ := Inputs.ofTables ini [("SPX_DEPTH", "5")] server
      [("SPX_KEY", "dev"), ("SPX_ENABLED", "0")]
    let inputs₂ := Inputs.ofTables ini [("SPX_METRICS", "ct,zo")] server
      [("SPX_KEY", "aaa"), ("SPX_UI_URI", "/")]
    let context : RequestContext := ⟨false, defaultConfig false, none, []⟩
    (requestInit inetAddr globals inputs₂ false context).executionHandler = some .profiling ∧
      (requestInit inetAddr globals inputs₁ false context).config =
        (requestInit inetAddr globals inputs₂ false context).config ∧
      (requestInit inetAddr globals inputs₁ false context).executionHandler =
        (requestInit inetAddr globals inputs₂ false context).executionHandler ∧
      (requestInit inetAddr globals inputs₁ false context).config = iniConfig inputs₁.iniString := by
  intro inetAddr globals ini server inputs₁ inputs₂ context
  have h₁ : Unauthorised inetAddr globals inputs₁ context.config :=
    Or.inl (by decide +kernel +revert)
  have h₂ : Unauthorised inetAddr globals inputs₂ context.config :=
    Or.inr (by decide +kernel +revert)
  refine ⟨by decide +kernel +revert, ?_⟩
  exact unauthorised_requests_agree inetAddr globals inputs₁.iniString inputs₁ inputs₂ rfl rfl
    context context h₁ h₂

end PhpSpx
