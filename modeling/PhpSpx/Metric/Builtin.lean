import PhpSpx.Metric.Registry
import PhpSpx.Request.MetricList

/-!
# Initialising the metrics

`spx_metric_init`, `spx_metric_shutdown` and `spx_metric_get_by_key` of `spx_metric.c`, with
the registration of the built-in metrics of `spx_metric_builtin.c`.  Each of the two files
and the registry has a flag of its own.

* `MetricGlobals.spxMetricInit`, `MetricGlobals.spxMetricShutdown`.
* `MetricGlobals.Active` — the state between an initialisation and a shutdown.
* `metric_init_repeatable_iff` — whole runs of calls.
-/

namespace PhpSpx

/-! ## The built-in plugins -/

namespace Metric

/-- The `name` of a built-in metric. -/
def fullName : Metric → String
  | .wallTime => "Wall time"
  | .cpuTime => "CPU time"
  | .idleTime => "Idle time"
  | .zeMemoryUsage => "Zend Engine memory usage"
  | .zeMemoryAllocCount => "Zend Engine allocation count"
  | .zeMemoryAllocBytes => "Zend Engine allocated bytes"
  | .zeMemoryFreeCount => "Zend Engine free count"
  | .zeMemoryFreeBytes => "Zend Engine freed bytes"
  | .zeGcRuns => "Zend Engine GC run count"
  | .zeGcRootBuffer => "Zend Engine GC root buffer length"
  | .zeGcCollected => "Zend Engine GC collected cycle count"
  | .zeIncludedFileCount => "Zend Engine included file count"
  | .zeIncludedLineCount => "Zend Engine included line count"
  | .zeUserClassCount => "Zend Engine user class count"
  | .zeUserFunctionCount => "Zend Engine user function count"
  | .zeUserOpcodeCount => "Zend Engine user opcode count"
  | .zeObjectCount => "Zend Engine object count"
  | .zeErrorCount => "Zend Engine error count"
  | .memOwnRss => "Process's own RSS"
  | .ioBytes => "I/O Bytes (reads + writes)"
  | .ioRbytes => "I/O Read Bytes"
  | .ioWbytes => "I/O Written Bytes"

/-- A string of the table of plugins. -/
def pluginString (s : String) : Option NulTerminated := some (.ofChars s.toList)

/-- The plugin of a built-in metric; its handler is named by the metric. -/
def plugin (m : Metric) : MetricPlugin Metric where
  key := pluginString m.key
  shortName := pluginString m.shortName
  name := pluginString m.fullName
  type := m.fmtType
  releasable := m.releasable
  handler := some m

end Metric

/-! ## State -/

/-- How an initialisation may end the process. -/
inductive MetricDie where
  | undefined
  | fatal (message : String)
  deriving DecidableEq, Repr

/-- The global variables: `metrics_initialized`, `registry`, `builtin_registry_ids`, where
none is `SPX_METRIC_ID_NONE`, `builtin_registered`, and `spx_metric_info`, where none is an
element not written yet. -/
structure MetricGlobals where
  metricsInitialized : Bool
  registry : MetricRegistry Metric
  builtinRegistryIds : Metric → Option ℕ
  builtinRegistered : Bool
  metricInfo : Metric → Option (MetricInfoEx Metric)

namespace MetricGlobals

/-- The variables of a process that has just started; the ids are all 0. -/
def zero : MetricGlobals := ⟨false, .zero, fun _ => some 0, false, fun _ => none⟩

/-- The loop of `spx_metric_builtin_register_all`, over the metrics of its two tables. -/
def registerLoop (realloc : Option ℕ) : List Metric → MetricGlobals → Except MetricDie MetricGlobals
  | [], g => .ok g
  | m :: ms, g =>
    match g.registry.register realloc (some m.plugin) with
    | none => .error .undefined
    | some (.error _, _) => .error (.fatal "Failed to register built-in metric")
    | some (.ok id, registry) =>
      let builtinRegistryIds := Function.update g.builtinRegistryIds m (some id)
      registerLoop realloc ms { g with registry, builtinRegistryIds }

/-- `spx_metric_builtin_register_all`. -/
def builtinRegisterAll (realloc : Option ℕ) (g : MetricGlobals) : Except MetricDie MetricGlobals :=
  if g.builtinRegistered then .ok g
  else
    (registerLoop realloc Metric.all { g with builtinRegistryIds := fun _ => none }).map
      fun g => { g with builtinRegistered := true }

/-- `spx_metric_builtin_get_registry_id`. -/
def builtinGetRegistryId (g : MetricGlobals) (m : Metric) : Option ℕ :=
  if g.builtinRegistered then g.builtinRegistryIds m else none

/-- `spx_metric_builtin_get_info`. -/
def builtinGetInfo (g : MetricGlobals) (m : Metric) : Option (MetricInfoEx Metric) :=
  (g.builtinGetRegistryId m).bind g.registry.getInfo

/-- `spx_metric_init`; `malloc` and `realloc` are what these answer in it. -/
def spxMetricInit (malloc realloc : Option ℕ) (g : MetricGlobals) :
    Except MetricDie MetricGlobals :=
  if g.metricsInitialized then .ok g
  else
    (builtinRegisterAll realloc { g with registry := (g.registry.init malloc).2 }).map fun g =>
      { g with
        metricInfo := fun m => (g.builtinGetInfo m).or (g.metricInfo m)
        metricsInitialized := true }

/-- `spx_metric_shutdown`. -/
def spxMetricShutdown (g : MetricGlobals) : MetricGlobals :=
  if g.metricsInitialized then
    { g with registry := g.registry.shutdown, metricsInitialized := false }
  else g

/-- `spx_metric_get_by_key`: within, none is `SPX_METRIC_NONE`. -/
def spxMetricGetByKey (g : MetricGlobals) (key : NulTerminated) : Option (Option Metric) :=
  if g.metricsInitialized = false then some none
  else
    (g.registry.getByKey (some key)).map fun id =>
      id.bind fun id => Metric.all.find? fun m => g.builtinGetRegistryId m = some id

/-! ## Registering -/

/-- The metrics of `done` are registered, each under the id that the table keeps. -/
structure Registered (g : MetricGlobals) (done : List Metric) : Prop where
  initialized : g.registry.initialized = true
  registry : g.registry.Ok (done.map fun m => m.key.toList)
  ids : ∀ m ∈ done, g.builtinRegistryIds m = (done.map fun m => m.key.toList).idxOf? m.key.toList
  capacity : registryInitialCapacity ≤ g.registry.capacity

variable {g : MetricGlobals} {done : List Metric}

/-- The keys of the table have no NUL. -/
theorem chars_pluginKey (m : Metric) : (NulTerminated.ofChars m.key.toList).chars = m.key.toList := by
  cases m <;> decide

theorem requiredKey_plugin (m : Metric) :
    MetricRegistry.requiredKey (some m.plugin) = some (.ofChars m.key.toList) := rfl

/-- A key put behind others is found at its place, and the others at theirs. -/
theorem idxOf?_concat_of_mem {keys : List CStr} {k : CStr} (hk : k ∈ keys) (key : CStr) :
    (keys ++ [key]).idxOf? k = keys.idxOf? k := by
  obtain ⟨i, hi⟩ := Option.isSome_iff_exists.mp (List.isSome_idxOf?.mpr hk)
  rw [List.idxOf?, List.findIdx?_append, ← List.idxOf?, hi, Option.some_or]

theorem idxOf?_concat_self {keys : List CStr} {key : CStr} (hkey : key ∉ keys) :
    (keys ++ [key]).idxOf? key = some keys.length := by
  rw [List.idxOf?, List.findIdx?_append, ← List.idxOf?, List.idxOf?_eq_none_iff.mpr hkey]
  simp

theorem key_mem_map_iff {m : Metric} {ms : List Metric} :
    m.key.toList ∈ ms.map (fun m => m.key.toList) ↔ m ∈ ms := by
  constructor
  · intro h
    obtain ⟨m', hm', hkey⟩ := List.mem_map.mp h
    exact Metric.eq_of_key_eq hkey ▸ hm'
  · intro h
    exact List.mem_map.mpr ⟨m, h, rfl⟩

/-- One more built-in metric is registered. -/
theorem Registered.register (h : g.Registered done) (realloc : Option ℕ) {m : Metric}
    (hm : m ∉ done) (hlen : done.length < registryInitialCapacity) :
    ∃ id registry, g.registry.register realloc (some m.plugin) = some (.ok id, registry) ∧
      Registered { g with
        registry, builtinRegistryIds := Function.update g.builtinRegistryIds m (some id) }
        (done ++ [m]) := by
  have hnew : m.key.toList ∉ done.map fun m => m.key.toList := key_mem_map_iff.not.mpr hm
  have hroom : g.registry.entries.length < g.registry.capacity := by
    rw [h.registry.length_entries, List.length_map]
    exact hlen.trans_le h.capacity
  have hshort : (NulTerminated.ofChars m.key.toList).strlen < maxKeyLength := by
    rw [NulTerminated.strlen, chars_pluginKey]
    exact m.length_key_lt.trans (by decide)
  have hcases := h.registry.register_cases realloc h.initialized (requiredKey_plugin m)
  rw [chars_pluginKey] at hcases
  rcases hcases with ⟨hold, -⟩ | ⟨-, -, hfull, -⟩ | ⟨-, entry, registry, hok, hr⟩
  · exact absurd hold hnew
  · exact absurd hroom hfull
  · refine ⟨_, registry, hok, ?_⟩
    have hregistry := h.registry.appended hr h.initialized (by rwa [chars_pluginKey]) hshort
      (.inl hroom)
    rw [chars_pluginKey] at hregistry
    constructor
    · exact hr.initialized.trans h.initialized
    · simpa using hregistry
    · intro m' hm'
      dsimp only
      rw [List.map_append, List.map_singleton]
      rcases List.mem_append.mp hm' with hm' | hm'
      · have hne : m' ≠ m := fun heq => hm (heq ▸ hm')
        rw [Function.update_of_ne hne, h.ids m' hm',
          idxOf?_concat_of_mem (key_mem_map_iff.mpr hm')]
      · rw [List.mem_singleton.mp hm', Function.update_self, idxOf?_concat_self hnew,
          h.registry.length_entries]
    · exact h.capacity.trans hr.capacity

/-- All the metrics of the tables are registered. -/
theorem Registered.registerLoop (h : g.Registered done) (realloc : Option ℕ) {ms : List Metric}
    (hms : (done ++ ms).Nodup) (hlen : (done ++ ms).length ≤ registryInitialCapacity) :
    ∃ g', MetricGlobals.registerLoop realloc ms g = .ok g' ∧ g'.Registered (done ++ ms) := by
  induction ms generalizing g done with
  | nil => exact ⟨g, rfl, by rwa [List.append_nil]⟩
  | cons m ms ih =>
    have hm : m ∉ done := by
      intro hmem
      exact List.disjoint_of_nodup_append hms hmem List.mem_cons_self
    have hshort : done.length < registryInitialCapacity := by
      rw [List.length_append, List.length_cons] at hlen
      omega
    obtain ⟨id, registry, hok, hnext⟩ := h.register realloc hm hshort
    rw [List.append_cons] at hms hlen ⊢
    obtain ⟨g', hloop, hg'⟩ := ih hnext hms hlen
    exact ⟨g', by rw [MetricGlobals.registerLoop, hok]; exact hloop, hg'⟩

/-! ## Initialisation and shutdown -/

/-- The metrics are initialised. -/
structure Active (g : MetricGlobals) : Prop where
  initialized : g.metricsInitialized = true
  builtin : g.builtinRegistered = true
  registered : g.Registered Metric.all

theorem eq_of_idxOf?_eq {keys : List CStr} {k k' : CStr} {i : ℕ} (h : keys.idxOf? k = some i)
    (h' : keys.idxOf? k' = some i) : k = k' := by
  obtain ⟨hi, hk, _⟩ := List.idxOf?_eq_some_iff.mp h
  obtain ⟨hi', hk', _⟩ := List.idxOf?_eq_some_iff.mp h'
  exact hk.symm.trans hk'

/-- The table of ids leads from the id of a metric back to the metric. -/
theorem Active.find?_id (h : g.Active) {m : Metric} {id : ℕ}
    (hid : (Metric.all.map fun m => m.key.toList).idxOf? m.key.toList = some id) :
    (Metric.all.find? fun m => g.builtinGetRegistryId m = some id) = some m := by
  have hget : ∀ m, g.builtinGetRegistryId m =
      (Metric.all.map fun m => m.key.toList).idxOf? m.key.toList := by
    intro m
    rw [builtinGetRegistryId, if_pos h.builtin, h.registered.ids m m.mem_all]
  cases hfind : Metric.all.find? fun m => g.builtinGetRegistryId m = some id with
  | none =>
    have hno := List.find?_eq_none.mp hfind m m.mem_all
    rw [hget, hid] at hno
    exact absurd (decide_eq_true rfl) hno
  | some m' =>
    have hm' : g.builtinGetRegistryId m' = some id := by simpa using List.find?_some hfind
    rw [hget] at hm'
    rw [Metric.eq_of_key_eq (eq_of_idxOf?_eq hm' hid)]

/-- In an active state the keys give the built-in metrics. -/
theorem Active.getByKey (h : g.Active) (key : NulTerminated) :
    g.spxMetricGetByKey key = some (metricGetByKey key.chars) := by
  unfold spxMetricGetByKey
  rw [if_neg (by simp [h.initialized]), h.registered.registry.faithfulIndex.2, Option.map_some]
  congr 1
  cases hid : (Metric.all.map fun m => m.key.toList).idxOf? key.chars with
  | none =>
    have hnone : ∀ m, metricGetByKey key.chars ≠ some m := by
      intro m hm
      rw [metricGetByKey_eq_some_iff.mp hm, List.idxOf?_eq_none_iff] at hid
      exact hid (key_mem_map_iff.mpr m.mem_all)
    exact (Option.eq_none_iff_forall_ne_some.mpr hnone).symm
  | some id =>
    have hmem := List.isSome_idxOf?.mp (Option.isSome_iff_exists.mpr ⟨id, hid⟩)
    obtain ⟨m, -, hkey⟩ := List.mem_map.mp hmem
    rw [← hkey] at hid ⊢
    rw [Option.bind_some, h.find?_id hid, metricGetByKey_eq_some_iff.mpr rfl]

/-- The first initialisation leads to an active state, unless there is no memory. -/
theorem spxMetricInit_first (realloc : Option ℕ) (hinit : g.metricsInitialized = false)
    (hbuiltin : g.builtinRegistered = false) (block : ℕ) :
    ∃ g', g.spxMetricInit (some block) realloc = .ok g' ∧ g'.Active := by
  have hstart : Registered { g with
      registry := (g.registry.init (some block)).2, builtinRegistryIds := fun _ => none } [] := by
    constructor
    · rfl
    · exact Registering.start_ok (some block)
    · intro m hm
      exact absurd hm List.not_mem_nil
    · exact le_rfl
  obtain ⟨g', hloop, hg'⟩ :=
    @Registered.registerLoop _ _ hstart realloc Metric.all Metric.nodup_all (by decide)
  have hinit : g.spxMetricInit (some block) realloc = .ok { g' with
      builtinRegistered := true
      metricInfo := fun m =>
        (MetricGlobals.builtinGetInfo { g' with builtinRegistered := true } m).or (g'.metricInfo m)
      metricsInitialized := true } := by
    rw [spxMetricInit, if_neg (by simp [hinit]), builtinRegisterAll, if_neg (by simp [hbuiltin]),
      hloop]
    rfl
  exact ⟨_, hinit, rfl, rfl, hg'.initialized, hg'.registry, hg'.ids, hg'.capacity⟩

/-- Without memory for the registry the first metric cannot be registered. -/
theorem spxMetricInit_noMemory (realloc : Option ℕ) (hinit : g.metricsInitialized = false)
    (hbuiltin : g.builtinRegistered = false) :
    g.spxMetricInit none realloc = .error (.fatal "Failed to register built-in metric") := by
  obtain ⟨e, herror⟩ := MetricRegistry.register_of_uninitialized realloc
    (some Metric.wallTime.plugin) (MetricRegistry.initialized_init_none g.registry)
  rw [spxMetricInit, if_neg (by simp [hinit]), builtinRegisterAll, if_neg (by simp [hbuiltin]),
    Metric.all, MetricGlobals.registerLoop, herror]
  rfl

/-- Another initialisation after a shutdown leaves the registry empty. -/
theorem spxMetricInit_again (malloc realloc : Option ℕ) (hinit : g.metricsInitialized = false)
    (hbuiltin : g.builtinRegistered = true) :
    ∃ g', g.spxMetricInit malloc realloc = .ok g' ∧
      ∀ key, g'.spxMetricGetByKey key = some none := by
  rw [spxMetricInit, if_neg (by simp [hinit]), builtinRegisterAll, if_pos (by simp [hbuiltin])]
  refine ⟨_, rfl, ?_⟩
  intro key
  rw [spxMetricGetByKey, if_neg (by simp), MetricRegistry.getByKey_init]
  rfl

/-- After a shutdown no key is known. -/
theorem spxMetricGetByKey_of_closed (h : g.metricsInitialized = false) (key : NulTerminated) :
    g.spxMetricGetByKey key = some none := if_pos h

theorem metricsInitialized_spxMetricShutdown (g : MetricGlobals) :
    g.spxMetricShutdown.metricsInitialized = false := by
  unfold spxMetricShutdown
  split
  · rfl
  · rename_i hfalse
    exact Bool.eq_false_iff.mpr hfalse

end MetricGlobals

/-! ## Runs -/

/-- A call of `spx_metric_init`, with what `malloc` and `realloc` answer in it, or of
`spx_metric_shutdown`. -/
inductive MetricCall where
  | init (malloc realloc : Option ℕ)
  | shutdown

/-- The variables, or how the process ended, and the last call made. -/
structure MetricProcess where
  globals : Except MetricDie MetricGlobals
  last : Option MetricCall

namespace MetricProcess

/-- A process that has just started. -/
def start : MetricProcess := ⟨.ok .zero, none⟩

/-- One call. -/
def step (p : MetricProcess) (c : MetricCall) : MetricProcess where
  globals := p.globals.bind fun g =>
    match c with
    | .init malloc realloc => g.spxMetricInit malloc realloc
    | .shutdown => .ok g.spxMetricShutdown
  last := some c

/-- After an initialisation the key of every built-in metric gives the metric, after a
shutdown no key gives one. -/
def Resolves (p : MetricProcess) : Prop :=
  match p.globals, p.last with
  | .error d, _ => d ≠ .undefined
  | .ok g, some (.init _ _) =>
      ∀ m : Metric, g.spxMetricGetByKey (.ofChars m.key.toList) = some (some m)
  | .ok g, some .shutdown => ∀ key, g.spxMetricGetByKey key = some none
  | .ok _, none => True

/-- An initialisation is not made after a shutdown of metrics that were registered. -/
def Once (p : MetricProcess) (c : MetricCall) : Prop :=
  ∀ g malloc realloc, p.globals = .ok g → c = .init malloc realloc →
    g.metricsInitialized = false → g.builtinRegistered = false

/-- The metrics are initialised exactly when the last call is an initialisation. -/
inductive Ok : MetricProcess → Prop
  | dead {message : String} {last : Option MetricCall} :
      Ok ⟨.error (.fatal message), last⟩
  | active {g : MetricGlobals} {malloc realloc : Option ℕ} (hactive : g.Active) :
      Ok ⟨.ok g, some (.init malloc realloc)⟩
  | closed {g : MetricGlobals} (hclosed : g.metricsInitialized = false) :
      Ok ⟨.ok g, some .shutdown⟩
  | fresh : Ok start

variable {p : MetricProcess} {c : MetricCall}

theorem step_init {g : MetricGlobals} (hg : p.globals = .ok g) (malloc realloc : Option ℕ) :
    p.step (.init malloc realloc) =
      ⟨g.spxMetricInit malloc realloc, some (.init malloc realloc)⟩ := by
  rw [step, hg]
  rfl

theorem Ok.resolves (h : p.Ok) : p.Resolves := by
  cases h with
  | dead => exact MetricDie.noConfusion
  | active hactive =>
    intro m
    rw [hactive.getByKey, MetricGlobals.chars_pluginKey]
    exact congrArg some (metricGetByKey_eq_some_iff.mpr rfl)
  | closed hclosed => exact MetricGlobals.spxMetricGetByKey_of_closed hclosed
  | fresh => trivial

/-- An initialisation before the metrics were registered. -/
theorem Ok.init {g : MetricGlobals} (malloc realloc : Option ℕ)
    (hinit : g.metricsInitialized = false) (hbuiltin : g.builtinRegistered = false) :
    Ok ⟨g.spxMetricInit malloc realloc, some (.init malloc realloc)⟩ := by
  cases malloc with
  | none =>
    rw [MetricGlobals.spxMetricInit_noMemory realloc hinit hbuiltin]
    exact .dead
  | some block =>
    obtain ⟨g', hg', hactive⟩ := MetricGlobals.spxMetricInit_first realloc hinit hbuiltin block
    rw [hg']
    exact .active hactive

theorem Ok.step (h : p.Ok) (honce : p.Once c) : (p.step c).Ok := by
  cases c with
  | init malloc realloc =>
    cases h with
    | dead => exact .dead
    | @active g _ _ hactive =>
      have hsame : g.spxMetricInit malloc realloc = .ok g := if_pos hactive.initialized
      rw [step_init rfl, hsame]
      exact .active hactive
    | closed hclosed => exact Ok.init malloc realloc hclosed (honce _ _ _ rfl rfl hclosed)
    | fresh => exact Ok.init malloc realloc rfl rfl
  | shutdown =>
    cases h with
    | dead => exact .dead
    | active => exact .closed (MetricGlobals.metricsInitialized_spxMetricShutdown _)
    | closed => exact .closed (MetricGlobals.metricsInitialized_spxMetricShutdown _)
    | fresh => exact .closed rfl

/-- An initialisation after the metrics were registered and shut down loses the keys. -/
theorem Resolves.once (h : (p.step c).Resolves) : p.Once c := by
  rintro g malloc realloc hg rfl hinit
  by_contra hbuiltin
  obtain ⟨g', hg', hnone⟩ :=
    MetricGlobals.spxMetricInit_again malloc realloc hinit (Bool.not_eq_false _ ▸ hbuiltin)
  rw [step_init hg, hg'] at h
  exact nomatch (hnone _).symm.trans (h .wallTime)

/-- **Metric initialisation is repeatable** in a run of calls exactly when none is made after
a shutdown of metrics that were registered. -/
theorem metric_init_repeatable_iff (calls : List MetricCall) :
    Lib.Throughout step Resolves calls start ↔ Lib.EachStep step Once calls start := by
  have hpromised : Lib.EachStep step (fun _ _ => True) calls start :=
    (Lib.eachStep_iff_forall_mem _ _ _).mpr fun _ _ => trivial
  exact Lib.throughout_iff_of_invariant (fun _ h => h.resolves) (fun _ _ h _ honce => h.step honce)
    (fun _ _ _ _ h => h.once) Ok.fresh hpromised

/-- The keys are lost by an initialisation, a shutdown and another initialisation. -/
theorem metric_init_loses_keys :
    ¬∀ calls : List MetricCall, Lib.Throughout step Resolves calls start := by
  intro h
  obtain ⟨g, hg, hactive⟩ :=
    @MetricGlobals.spxMetricInit_first .zero none rfl rfl 0
  have hregistered : g.spxMetricShutdown.builtinRegistered = true := by
    rw [MetricGlobals.spxMetricShutdown, if_pos hactive.initialized]
    exact hactive.builtin
  have hstopped : ((start.step (.init (some 0) none)).step .shutdown).globals =
      .ok g.spxMetricShutdown := by
    rw [step_init rfl, hg]
    rfl
  have hthird := h [.init (some 0) none, .shutdown, .init (some 1) none] _ List.prefix_rfl
  simp only [List.foldl_cons, List.foldl_nil] at hthird
  have hbuiltin := hthird.once _ _ _ hstopped rfl g.metricsInitialized_spxMetricShutdown
  exact nomatch hregistered.symm.trans hbuiltin

end MetricProcess

end PhpSpx
