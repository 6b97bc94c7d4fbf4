import PhpSpx.Lib.Run
import PhpSpx.Text.Fmt

/-!
# The metric registry

`spx_metric_registry.c`.  An entry keeps copies of its strings in its own storage, and
its `info` points to them: a pointer is the block of memory it was taken in and the index
of the entry there.  After a reallocation has moved the entries the old block is gone,
and what is read through a pointer into it is undefined.

* `MetricRegistry.register`, `MetricRegistry.getByKey` — none when such a pointer is read.
* `MetricRegistry.Ok` — the invariant, `Ok.register_cases` what a registration comes to.
* `Registering.Fits.step`, `Registering.Faithful.fits` — one registration.
* `registry_is_key_index_iff` — whole runs.
-/

namespace PhpSpx

/-! ## Data -/

/-- The codes the registry sets. -/
inductive SpxErrorCode where
  | outOfMemory
  | internal
  | invalidConfig
  deriving DecidableEq, Repr

/-- What `spx_error_set` is given. -/
structure SpxError where
  code : SpxErrorCode
  message : String
  deriving DecidableEq, Repr

/-- `spx_metric_plugin_t`, a NULL pointer being none.  `F` are the functions that read a
metric. -/
structure MetricPlugin (F : Type) where
  key : Option NulTerminated
  shortName : Option NulTerminated
  name : Option NulTerminated
  type : FmtValueType
  releasable : Bool
  handler : Option F

/-- A pointer into the storage of the entry at `index` of `block`. -/
structure StoragePtr where
  block : Option ℕ
  index : ℕ
  deriving DecidableEq, Repr

/-- `spx_metric_info_ex_t`. -/
structure MetricInfoEx (F : Type) where
  id : ℕ
  key : StoragePtr
  shortName : StoragePtr
  name : StoragePtr
  type : FmtValueType
  releasable : Bool
  handler : F

/-- `metric_entry_t`. -/
structure MetricEntry (F : Type) where
  info : MetricInfoEx F
  keyStorage : NulTerminated
  shortNameStorage : NulTerminated
  nameStorage : NulTerminated

/-- `registry`: `metrics` is the block, or NULL, with its first `count` entries. -/
structure MetricRegistry (F : Type) where
  block : Option ℕ
  entries : List (MetricEntry F)
  capacity : ℕ
  initialized : Bool

/-- `INITIAL_CAPACITY`. -/
def registryInitialCapacity : ℕ := 32

/-- `MAX_KEY_LENGTH`. -/
def maxKeyLength : ℕ := 64

/-- What `snprintf` with `"%s"` leaves in a buffer of `size` characters. -/
def NulTerminated.snprintf (s : NulTerminated) (size : ℕ) : NulTerminated where
  chars := snprintfText size s.chars
  nul_notMem h := s.nul_notMem (List.mem_of_mem_take h)

theorem NulTerminated.length_snprintf_le (s : NulTerminated) (size : ℕ) :
    (s.snprintf size).chars.length ≤ size - 1 := List.length_take_le _ _

variable {F : Type}

namespace MetricRegistry

/-- `registry` before its first initialisation. -/
def zero : MetricRegistry F := ⟨none, [], 0, false⟩

/-! ## Operations -/

/-- `spx_metric_registry_shutdown`. -/
def shutdown (r : MetricRegistry F) : MetricRegistry F :=
  if r.initialized then zero else r

/-- `spx_metric_registry_init`; `malloc` is the block allocated, none when there is no
memory. -/
def init (malloc : Option ℕ) (r : MetricRegistry F) : Option SpxError × MetricRegistry F :=
  let r := r.shutdown
  match malloc with
  | none => (some ⟨.outOfMemory, "Failed to allocate metric registry"⟩, { r with block := none })
  | some block => (none, ⟨some block, [], registryInitialCapacity, true⟩)

/-- `ensure_capacity`; `realloc` is the block the entries are in afterwards, none when there
is no memory. -/
def ensureCapacity (realloc : Option ℕ) (r : MetricRegistry F) :
    Except SpxError (MetricRegistry F) :=
  if r.entries.length < r.capacity then .ok r
  else
    match realloc with
    | none => .error ⟨.outOfMemory, "Failed to expand metric registry"⟩
    | some block => .ok { r with block := some block, capacity := r.capacity * 2 }

/-- The key a pointer leads to: the storage of an entry, unless the block is gone. -/
def readKey (r : MetricRegistry F) (p : StoragePtr) : Option NulTerminated :=
  if p.block = r.block then (r.entries[p.index]?).map (·.keyStorage) else none

/-- The loops that compare a key with those of the entries, up to the first that is equal. -/
def findKey (r : MetricRegistry F) (key : CStr) :
    List (MetricEntry F) → Option (Option (MetricEntry F))
  | [] => some none
  | entry :: entries =>
    (r.readKey entry.info.key).bind fun stored =>
      if stored.chars = key then some (some entry) else r.findKey key entries

/-- The entry `spx_metric_registry_register` writes at `id`. -/
def newEntry (r : MetricRegistry F) (id : ℕ) (plugin : MetricPlugin F)
    (key shortName name : NulTerminated) (handler : F) : MetricEntry F where
  info :=
    { id
      key := ⟨r.block, id⟩
      shortName := ⟨r.block, id⟩
      name := ⟨r.block, id⟩
      type := plugin.type
      releasable := plugin.releasable
      handler }
  keyStorage := key.snprintf maxKeyLength
  shortNameStorage := shortName.snprintf 256
  nameStorage := name.snprintf 256

/-- The part of `spx_metric_registry_register` that is reached with all the fields. -/
def insert (r : MetricRegistry F) (realloc : Option ℕ) (plugin : MetricPlugin F)
    (key shortName name : NulTerminated) (handler : F) :
    Option (Except SpxError ℕ × MetricRegistry F) :=
  (r.findKey key.chars r.entries).map fun found =>
    match found with
    | some _ => (.error ⟨.invalidConfig, "Metric key already registered"⟩, r)
    | none =>
      match r.ensureCapacity realloc with
      | .error e => (.error e, r)
      | .ok r =>
        let id := r.entries.length
        let entry := r.newEntry id plugin key shortName name handler
        (.ok id, { r with entries := r.entries ++ [entry] })

/-- `spx_metric_registry_register`: the id, or what is set as error when
`SPX_METRIC_ID_NONE` is returned. -/
def register (r : MetricRegistry F) (realloc : Option ℕ) (plugin : Option (MetricPlugin F)) :
    Option (Except SpxError ℕ × MetricRegistry F) :=
  if r.initialized = false then some (.error ⟨.internal, "Registry not initialized"⟩, r)
  else
    match plugin with
    | none => some (.error ⟨.invalidConfig, "Plugin cannot be NULL"⟩, r)
    | some plugin =>
      match plugin.key, plugin.shortName, plugin.name, plugin.handler with
      | some key, some shortName, some name, some handler =>
        r.insert realloc plugin key shortName name handler
      | _, _, _, _ => some (.error ⟨.invalidConfig, "Plugin missing required fields"⟩, r)

/-- `spx_metric_registry_get_by_key`: the id, or none within for `SPX_METRIC_ID_NONE`. -/
def getByKey (r : MetricRegistry F) (key : Option NulTerminated) : Option (Option ℕ) :=
  if r.initialized = false then some none
  else
    match key with
    | none => some none
    | some key => (r.findKey key.chars r.entries).map fun found => found.map (·.info.id)

/-- `spx_metric_registry_get_info`. -/
def getInfo (r : MetricRegistry F) (id : ℕ) : Option (MetricInfoEx F) :=
  if r.initialized = false then none else (r.entries[id]?).map (·.info)

/-- Without memory the registry is not initialised. -/
theorem initialized_init_none (r : MetricRegistry F) : (r.init none).2.initialized = false := by
  unfold init shutdown
  split
  · rfl
  · rename_i hfalse
    exact Bool.eq_false_iff.mpr hfalse

/-- The registry has no key right after its initialisation. -/
theorem getByKey_init (r : MetricRegistry F) (malloc : Option ℕ) (key : NulTerminated) :
    (r.init malloc).2.getByKey (some key) = some none := by
  cases malloc with
  | none => rw [getByKey, if_pos r.initialized_init_none]
  | some block => rfl

/-! ## The invariant -/

/-- The keys in the storage of the entries. -/
def storedKeys (r : MetricRegistry F) : List CStr := r.entries.map (·.keyStorage.chars)

/-- Each entry is at its id and points into the block the entries are in; the stored keys
are those accepted, whole and different. -/
structure Ok (r : MetricRegistry F) (accepted : List CStr) : Prop where
  info : ∀ (i : ℕ) (entry : MetricEntry F), r.entries[i]? = some entry →
    entry.info.id = i ∧ entry.info.key = ⟨r.block, i⟩
  stored : r.storedKeys = accepted
  short : ∀ key ∈ accepted, key.length < maxKeyLength
  nodup : accepted.Nodup
  uninitialized : r.initialized = false → r.entries = []
  allocated : r.initialized = true → r.block.isSome = true ∧ 0 < r.capacity

variable {r : MetricRegistry F} {accepted : List CStr}

theorem Ok.length_entries (h : r.Ok accepted) : r.entries.length = accepted.length := by
  rw [← h.stored, storedKeys, List.length_map]

/-- Every pointer leads to the key in the storage of its entry. -/
theorem Ok.readKey (h : r.Ok accepted) {i : ℕ} {entry : MetricEntry F}
    (hentry : r.entries[i]? = some entry) :
    r.readKey entry.info.key = some entry.keyStorage := by
  rw [MetricRegistry.readKey, (h.info i entry hentry).2, if_pos rfl, hentry, Option.map_some]

/-- Comparing keys goes over the storage of the entries. -/
theorem findKey_eq_find? {entries : List (MetricEntry F)} (key : CStr)
    (h : ∀ entry ∈ entries, r.readKey entry.info.key = some entry.keyStorage) :
    r.findKey key entries = some (entries.find? fun entry => entry.keyStorage.chars = key) := by
  induction entries with
  | nil => rfl
  | cons entry entries ih =>
    rw [findKey, h entry List.mem_cons_self, Option.bind_some,
      ih fun e he => h e (List.mem_cons_of_mem _ he)]
    by_cases hkey : entry.keyStorage.chars = key
    · simp [hkey]
    · simp [hkey]

theorem Ok.findKey (h : r.Ok accepted) (key : CStr) :
    r.findKey key r.entries = some (r.entries.find? fun entry => entry.keyStorage.chars = key) := by
  apply findKey_eq_find?
  intro entry hentry
  obtain ⟨i, hi⟩ := List.getElem?_of_mem hentry
  exact h.readKey hi

theorem find?_map_id {entries : List (MetricEntry F)} {first : ℕ} (key : CStr)
    (h : ∀ (i : ℕ) (entry : MetricEntry F), entries[i]? = some entry →
      entry.info.id = first + i) :
    (entries.find? fun entry => entry.keyStorage.chars = key).map (·.info.id) =
      ((entries.map (·.keyStorage.chars)).idxOf? key).map (first + ·) := by
  induction entries generalizing first with
  | nil => rfl
  | cons entry entries ih =>
    have hnext := @ih (first + 1) fun i e he => by
      rw [h (i + 1) e he]
      omega
    by_cases hkey : entry.keyStorage.chars = key
    · simpa [hkey, List.idxOf?_cons] using h 0 entry rfl
    · simp [hkey, List.idxOf?_cons, hnext, Function.comp_def, Nat.add_assoc, Nat.add_comm 1]

/-- The entry found for a key is the one at the place of the key among those accepted. -/
theorem Ok.find?_id (h : r.Ok accepted) (key : CStr) :
    (r.entries.find? fun entry => entry.keyStorage.chars = key).map (·.info.id) =
      accepted.idxOf? key := by
  have hid : ∀ (i : ℕ) (entry : MetricEntry F), r.entries[i]? = some entry →
      entry.info.id = 0 + i := fun i entry he => by rw [(h.info i entry he).1, Nat.zero_add]
  rw [find?_map_id key hid, ← storedKeys, h.stored]
  simp

theorem Ok.find?_eq_none_iff (h : r.Ok accepted) (key : CStr) :
    (r.entries.find? fun entry => entry.keyStorage.chars = key) = none ↔ key ∉ accepted := by
  rw [← h.stored, storedKeys, List.find?_eq_none]
  simp

/-! ## What is required of the registry -/

/-- Every key gives the id under which it was accepted, or nothing, and no two stored keys
are equal. -/
def FaithfulIndex (r : MetricRegistry F) (accepted : List CStr) : Prop :=
  r.storedKeys.Nodup ∧
    ∀ key : NulTerminated, r.getByKey (some key) = some (accepted.idxOf? key.chars)

theorem Ok.faithfulIndex (h : r.Ok accepted) : r.FaithfulIndex accepted := by
  refine ⟨h.stored ▸ h.nodup, ?_⟩
  intro key
  by_cases hinit : r.initialized = false
  · have hnil : accepted = [] := by
      rw [← h.stored, storedKeys, h.uninitialized hinit, List.map_nil]
    rw [getByKey, if_pos hinit, hnil]
    rfl
  · rw [getByKey, if_neg hinit]
    simp only [h.findKey, Option.map_some, h.find?_id]

/-! ## One registration -/

/-- The key of a plugin that has all the required fields. -/
def requiredKey (plugin : Option (MetricPlugin F)) : Option NulTerminated :=
  plugin.bind fun plugin =>
    if plugin.shortName.isSome ∧ plugin.name.isSome ∧ plugin.handler.isSome then plugin.key
    else none

/-- Without a required field nothing is registered. -/
theorem register_of_missing (r : MetricRegistry F) (realloc : Option ℕ)
    {plugin : Option (MetricPlugin F)} (h : requiredKey plugin = none) :
    ∃ e, r.register realloc plugin = some (.error e, r) := by
  unfold register
  split
  · exact ⟨_, rfl⟩
  · cases plugin with
    | none => exact ⟨_, rfl⟩
    | some plugin =>
      dsimp only
      split
      · rename_i hkey hshort hname hhandler
        simp [requiredKey, hkey, hshort, hname, hhandler] at h
      · exact ⟨_, rfl⟩

/-- With all of them the registration gets to the comparison of the keys. -/
theorem register_of_required (r : MetricRegistry F) (realloc : Option ℕ)
    {plugin : Option (MetricPlugin F)} {key : NulTerminated} (hinit : r.initialized = true)
    (h : requiredKey plugin = some key) :
    ∃ plugin' shortName name handler,
      r.register realloc plugin = r.insert realloc plugin' key shortName name handler := by
  obtain ⟨plugin, rfl, hkey⟩ := Option.bind_eq_some_iff.mp h
  split_ifs at hkey with hfields
  obtain ⟨hshort, hname, hhandler⟩ := hfields
  obtain ⟨shortName, hshort⟩ := Option.isSome_iff_exists.mp hshort
  obtain ⟨name, hname⟩ := Option.isSome_iff_exists.mp hname
  obtain ⟨handler, hhandler⟩ := Option.isSome_iff_exists.mp hhandler
  refine ⟨plugin, shortName, name, handler, ?_⟩
  simp only [register, hinit, Bool.true_eq_false, if_false, hkey, hshort, hname, hhandler]

theorem register_of_uninitialized {r : MetricRegistry F} (realloc : Option ℕ)
    (plugin : Option (MetricPlugin F)) (h : r.initialized = false) :
    ∃ e, r.register realloc plugin = some (.error e, r) := ⟨_, if_pos h⟩

/-- The registry with room for one more entry. -/
def grown (r : MetricRegistry F) (realloc : Option ℕ) : MetricRegistry F :=
  if r.entries.length < r.capacity then r
  else { r with block := realloc, capacity := r.capacity * 2 }

theorem entries_grown (r : MetricRegistry F) (realloc : Option ℕ) :
    (r.grown realloc).entries = r.entries := by
  rw [grown]
  split <;> rfl

theorem initialized_grown (r : MetricRegistry F) (realloc : Option ℕ) :
    (r.grown realloc).initialized = r.initialized := by
  rw [grown]
  split <;> rfl

theorem block_grown (r : MetricRegistry F) (realloc : Option ℕ) :
    (r.grown realloc).block = if r.entries.length < r.capacity then r.block else realloc := by
  rw [grown]
  split <;> rfl

theorem capacity_le_grown (r : MetricRegistry F) (realloc : Option ℕ) :
    r.capacity ≤ (r.grown realloc).capacity := by
  rw [grown]
  split
  · exact le_rfl
  · exact Nat.le_mul_of_pos_right _ Nat.two_pos

theorem ensureCapacity_eq (r : MetricRegistry F) (realloc : Option ℕ) :
    (∃ e, r.ensureCapacity realloc = .error e ∧ realloc = none ∧
      ¬r.entries.length < r.capacity) ∨
    r.ensureCapacity realloc = .ok (r.grown realloc) := by
  unfold ensureCapacity grown
  split
  · exact .inr rfl
  · rename_i hfull
    cases realloc with
    | none => exact .inl ⟨_, rfl, rfl, hfull⟩
    | some block => exact .inr rfl

/-- What an accepted plugin leaves: an entry more, which points to itself. -/
structure Appended (r : MetricRegistry F) (realloc : Option ℕ) (key : NulTerminated)
    (entry : MetricEntry F) (r' : MetricRegistry F) : Prop where
  entries : r'.entries = r.entries ++ [entry]
  block : r'.block = if r.entries.length < r.capacity then r.block else realloc
  capacity : r.capacity ≤ r'.capacity
  initialized : r'.initialized = r.initialized
  id : entry.info.id = r.entries.length
  pointer : entry.info.key = ⟨r'.block, r.entries.length⟩
  storage : entry.keyStorage = key.snprintf maxKeyLength

/-- What a registration with all the required fields comes to. -/
theorem Ok.register_cases (h : r.Ok accepted) (realloc : Option ℕ)
    {plugin : Option (MetricPlugin F)} {key : NulTerminated} (hinit : r.initialized = true)
    (hplugin : requiredKey plugin = some key) :
    (key.chars ∈ accepted ∧ ∃ e, r.register realloc plugin = some (.error e, r)) ∨
    (key.chars ∉ accepted ∧ realloc = none ∧ ¬r.entries.length < r.capacity ∧
      ∃ e, r.register realloc plugin = some (.error e, r)) ∨
    (key.chars ∉ accepted ∧ ∃ entry r',
      r.register realloc plugin = some (.ok r.entries.length, r') ∧
      r.Appended realloc key entry r') := by
  obtain ⟨plugin', shortName, name, handler, heq⟩ := register_of_required r realloc hinit hplugin
  rw [heq, insert, h.findKey, Option.map_some]
  cases hfind : r.entries.find? fun entry => entry.keyStorage.chars = key.chars with
  | some entry =>
    have hmem : key.chars ∈ accepted := by
      by_contra hnew
      rw [(h.find?_eq_none_iff _).mpr hnew] at hfind
      exact nomatch hfind
    exact .inl ⟨hmem, _, rfl⟩
  | none =>
    have hnew := (h.find?_eq_none_iff _).mp hfind
    rcases ensureCapacity_eq r realloc with ⟨e, hfail, hnone, hfull⟩ | hroom
    · simp only [hfail]
      exact .inr (.inl ⟨hnew, hnone, hfull, _, rfl⟩)
    · simp only [hroom, entries_grown]
      refine .inr (.inr ⟨hnew, (r.grown realloc).newEntry r.entries.length plugin' key shortName
        name handler, _, rfl, ?_⟩)
      constructor
      · rfl
      · exact block_grown r realloc
      · exact capacity_le_grown r realloc
      · exact initialized_grown r realloc
      · rfl
      · rfl
      · rfl

section Appended

variable {realloc : Option ℕ} {key : NulTerminated} {entry : MetricEntry F}
  {r' : MetricRegistry F}

theorem Appended.storedKeys (hr' : r.Appended realloc key entry r') :
    r'.storedKeys = r.storedKeys ++ [(key.snprintf maxKeyLength).chars] := by
  simp [MetricRegistry.storedKeys, hr'.entries, hr'.storage]

/-- An entry more keeps the invariant when its key is whole and the entries stay where
they are. -/
theorem Ok.appended (h : r.Ok accepted) (hr' : r.Appended realloc key entry r')
    (hinit : r.initialized = true) (hnew : key.chars ∉ accepted)
    (hshort : key.strlen < maxKeyLength)
    (hplace : r.entries.length < r.capacity ∨ realloc = r.block) :
    r'.Ok (accepted ++ [key.chars]) := by
  have hwhole : (key.snprintf maxKeyLength).chars = key.chars :=
    List.take_of_length_le (Nat.le_sub_one_of_lt hshort)
  have hblock : r'.block = r.block := by
    rw [hr'.block]
    split
    · rfl
    · rename_i hfull
      exact hplace.resolve_left hfull
  obtain ⟨hsome, hpos⟩ := h.allocated hinit
  constructor
  · intro i e he
    rw [hr'.entries] at he
    rcases Nat.lt_or_ge i r.entries.length with hi | hi
    · rw [List.getElem?_append_left hi] at he
      rw [hblock]
      exact h.info i e he
    · rw [List.getElem?_append_right hi, List.getElem?_singleton] at he
      split_ifs at he with hlast
      obtain rfl := Option.some.inj he
      obtain rfl : i = r.entries.length := by omega
      exact ⟨hr'.id, hr'.pointer⟩
  · rw [hr'.storedKeys, h.stored, hwhole]
  · intro k hk
    rcases List.mem_append.mp hk with hk | hk
    · exact h.short k hk
    · rwa [List.mem_singleton.mp hk]
  · rw [List.nodup_append]
    refine ⟨h.nodup, List.nodup_singleton _, ?_⟩
    rintro k hk k' hk' rfl
    exact hnew (List.mem_singleton.mp hk' ▸ hk)
  · intro hfalse
    rw [hr'.initialized, hinit] at hfalse
    exact nomatch hfalse
  · intro _
    exact ⟨hblock.symm ▸ hsome, hpos.trans_le hr'.capacity⟩

/-- A key that is found has been read. -/
theorem readKey_of_findKey {r : MetricRegistry F} {key : CStr} {entries : List (MetricEntry F)}
    {entry : MetricEntry F} (h : r.findKey key entries = some (some entry)) :
    key ∈ r.storedKeys := by
  induction entries with
  | nil => exact nomatch h
  | cons first entries ih =>
    obtain ⟨stored, hread, hrest⟩ := Option.bind_eq_some_iff.mp h
    split_ifs at hrest with hkey
    · rw [readKey] at hread
      split_ifs at hread
      obtain ⟨e, he, rfl⟩ := Option.map_eq_some_iff.mp hread
      exact List.mem_map.mpr ⟨e, List.mem_of_getElem? he, hkey⟩
    · exact ih hrest

theorem mem_storedKeys_of_getByKey {r : MetricRegistry F} {key : NulTerminated} {id : ℕ}
    (h : r.getByKey (some key) = some (some id)) : key.chars ∈ r.storedKeys := by
  unfold getByKey at h
  split_ifs at h with hinit
  · exact nomatch h
  · obtain ⟨found, hfound, hid⟩ := Option.map_eq_some_iff.mp h
    obtain ⟨entry, rfl, -⟩ := Option.map_eq_some_iff.mp hid
    exact readKey_of_findKey hfound

/-- A key too long for the storage is not found again. -/
theorem Ok.appended_long (h : r.Ok accepted) (hr' : r.Appended realloc key entry r')
    (hlong : maxKeyLength ≤ key.strlen) : ¬r'.FaithfulIndex (accepted ++ [key.chars]) := by
  rintro ⟨-, hindex⟩
  have hmem : key.chars ∈ accepted ++ [key.chars] := List.mem_append_right _ List.mem_cons_self
  obtain ⟨id, hid⟩ := Option.isSome_iff_exists.mp (List.isSome_idxOf?.mpr hmem)
  have hstored := mem_storedKeys_of_getByKey ((hindex key).trans (congrArg some hid))
  rw [hr'.storedKeys, h.stored, List.mem_append, List.mem_singleton] at hstored
  rcases hstored with hstored | hstored
  · exact absurd (h.short _ hstored) (Nat.not_lt.mpr hlong)
  · have hcut := key.length_snprintf_le maxKeyLength
    rw [← hstored] at hcut
    have hlen : key.strlen = key.chars.length := rfl
    have hpos : 0 < maxKeyLength := by decide
    omega

/-- After the entries have moved no key can be looked up. -/
theorem Ok.appended_moved (h : r.Ok accepted) (hr' : r.Appended realloc key entry r')
    (hinit : r.initialized = true) (hfull : ¬r.entries.length < r.capacity)
    (hmoved : realloc ≠ r.block) (keys : List CStr) : ¬r'.FaithfulIndex keys := by
  rintro ⟨-, hindex⟩
  have hpos : 0 < r.entries.length := (h.allocated hinit).2.trans_le (Nat.not_lt.mp hfull)
  obtain ⟨first, entries, hentries⟩ := List.exists_cons_of_length_pos hpos
  have hgone : r'.readKey first.info.key = none := by
    rw [(h.info 0 first (by rw [hentries, List.getElem?_cons_zero])).2, MetricRegistry.readKey,
      hr'.block, if_neg hfull, if_neg hmoved.symm]
  have hlookup := hindex key
  unfold getByKey at hlookup
  rw [hr'.initialized, hinit, if_neg (by simp)] at hlookup
  simp only [hr'.entries, hentries, List.cons_append, MetricRegistry.findKey, hgone] at hlookup
  exact nomatch hlookup

end Appended

end MetricRegistry

/-! ## Runs -/

/-- A call of `spx_metric_registry_register`, with the block `realloc` would answer. -/
structure RegisterCall (F : Type) where
  plugin : Option (MetricPlugin F)
  realloc : Option ℕ

/-- The registry and the keys accepted so far, by their ids. -/
structure Registering (F : Type) where
  registry : MetricRegistry F
  accepted : List CStr

namespace Registering

open MetricRegistry (requiredKey)

/-- The registry after `spx_metric_registry_init`. -/
def start (malloc : Option ℕ) : Registering F := ⟨(MetricRegistry.zero.init malloc).2, []⟩

/-- One registration; a key is accepted when an id is returned. -/
def step (s : Registering F) (c : RegisterCall F) : Registering F :=
  match s.registry.register c.realloc c.plugin with
  | some (.ok _, r) => ⟨r, s.accepted ++ ((requiredKey c.plugin).map (·.chars)).toList⟩
  | some (.error _, r) => ⟨r, s.accepted⟩
  | none => s

/-- A registration is to be refused when a required field is missing or its key was
accepted before. -/
def ToRefuse (s : Registering F) (c : RegisterCall F) : Prop :=
  ∀ key, requiredKey c.plugin = some key → key.chars ∈ s.accepted

/-- The registration is refused exactly when it is to be, it gets the next id otherwise, and
the registry is a faithful index afterwards. -/
def Faithful (s : Registering F) (c : RegisterCall F) : Prop :=
  (∃ result r, s.registry.register c.realloc c.plugin = some (result, r) ∧
    ((∃ e, result = .error e) ↔ s.ToRefuse c) ∧
    ∀ id, result = .ok id → id = s.accepted.length) ∧
  (s.step c).registry.FaithfulIndex (s.step c).accepted

/-- A key not accepted before is shorter than its storage, and there is room for its entry
where the others are. -/
def Fits (s : Registering F) (c : RegisterCall F) : Prop :=
  ∀ key, requiredKey c.plugin = some key → key.chars ∉ s.accepted →
    s.registry.initialized = true ∧ key.strlen < maxKeyLength ∧
      (s.registry.entries.length < s.registry.capacity ∨ c.realloc = s.registry.block)

theorem start_ok (malloc : Option ℕ) :
    (start malloc : Registering F).registry.Ok (start malloc : Registering F).accepted where
  info i entry h := by
    cases malloc <;> exact nomatch h
  stored := by
    cases malloc <;> rfl
  short key hkey := absurd hkey List.not_mem_nil
  nodup := .nil
  uninitialized _ := by
    cases malloc <;> rfl
  allocated h := by
    cases malloc with
    | none => exact nomatch h
    | some block => exact ⟨rfl, (by decide : 0 < registryInitialCapacity)⟩

section Step

variable {s : Registering F} {c : RegisterCall F}

/-- A registration that comes to an error leaves everything as it was. -/
theorem step_of_error {e : SpxError}
    (h : s.registry.register c.realloc c.plugin = some (.error e, s.registry)) : s.step c = s := by
  rw [step, h]

theorem step_of_ok {id : ℕ} {r : MetricRegistry F} {key : NulTerminated}
    (h : s.registry.register c.realloc c.plugin = some (.ok id, r))
    (hkey : requiredKey c.plugin = some key) : s.step c = ⟨r, s.accepted ++ [key.chars]⟩ := by
  rw [step, h, hkey]
  rfl

/-- An error is right when the registration is to be refused, and only then. -/
theorem faithful_of_error (h : s.registry.Ok s.accepted) {e : SpxError}
    (herror : s.registry.register c.realloc c.plugin = some (.error e, s.registry)) :
    s.Faithful c ↔ s.ToRefuse c := by
  constructor
  · rintro ⟨⟨result, r, hresult, hiff, -⟩, -⟩
    rw [herror] at hresult
    obtain ⟨rfl, rfl⟩ := Prod.mk.inj (Option.some.inj hresult)
    exact hiff.mp ⟨e, rfl⟩
  · intro hrefuse
    refine ⟨⟨_, _, herror, ⟨fun _ => hrefuse, fun _ => ⟨e, rfl⟩⟩, fun id hid => nomatch hid⟩, ?_⟩
    rw [step_of_error herror]
    exact h.faithfulIndex

/-- A registration that is to be refused comes to an error. -/
theorem ToRefuse.error (h : s.registry.Ok s.accepted) (hrefuse : s.ToRefuse c) :
    ∃ e, s.registry.register c.realloc c.plugin = some (.error e, s.registry) := by
  cases hkey : requiredKey c.plugin with
  | none => exact MetricRegistry.register_of_missing s.registry c.realloc hkey
  | some key =>
    by_cases hinit : s.registry.initialized = true
    · rcases h.register_cases c.realloc hinit hkey with ⟨-, he⟩ | ⟨-, -, -, he⟩ | ⟨hnew, -⟩
      · exact he
      · exact he
      · exact absurd (hrefuse key hkey) hnew
    · exact MetricRegistry.register_of_uninitialized _ _ (by simpa using hinit)

/-- A registration that fits keeps the invariant and is faithful. -/
theorem Fits.step (h : s.registry.Ok s.accepted) (hfits : s.Fits c) :
    (s.step c).registry.Ok (s.step c).accepted ∧ s.Faithful c := by
  by_cases hrefuse : s.ToRefuse c
  · obtain ⟨e, herror⟩ := hrefuse.error h
    refine ⟨?_, (faithful_of_error h herror).mpr hrefuse⟩
    rwa [step_of_error herror]
  · simp only [ToRefuse, not_forall] at hrefuse
    obtain ⟨key, hkey, hnew⟩ := hrefuse
    obtain ⟨hinit, hshort, hplace⟩ := hfits key hkey hnew
    rcases h.register_cases c.realloc hinit hkey with
      ⟨hold, -⟩ | ⟨-, hnone, hfull, -⟩ | ⟨-, entry, r, hok, hr⟩
    · exact absurd hold hnew
    · have hblock := (h.allocated hinit).1
      rw [← hplace.resolve_left hfull, hnone] at hblock
      exact nomatch hblock
    · have hr' := h.appended hr hinit hnew hshort hplace
      rw [Faithful, step_of_ok hok hkey]
      refine ⟨hr', ⟨_, _, hok, ?_, ?_⟩, hr'.faithfulIndex⟩
      · refine iff_of_false ?_ fun hrefuse => hnew (hrefuse key hkey)
        rintro ⟨e, he⟩
        exact nomatch he
      · rintro id hid
        rw [← h.length_entries]
        exact (Except.ok.inj hid).symm

/-- A faithful registration fits. -/
theorem Faithful.fits (h : s.registry.Ok s.accepted) (hfaithful : s.Faithful c) : s.Fits c := by
  intro key hkey hnew
  have hrefuse : ¬s.ToRefuse c := fun hrefuse => hnew (hrefuse key hkey)
  by_cases hinit : s.registry.initialized = true
  · rcases h.register_cases c.realloc hinit hkey with
      ⟨hold, -⟩ | ⟨-, -, -, e, herror⟩ | ⟨-, entry, r, hok, hr⟩
    · exact absurd hold hnew
    · exact absurd ((faithful_of_error h herror).mp hfaithful) hrefuse
    · have hindex := hfaithful.2
      rw [step_of_ok hok hkey] at hindex
      refine ⟨hinit, ?_, ?_⟩
      · by_contra hlong
        exact h.appended_long hr (Nat.not_lt.mp hlong) hindex
      · by_contra hmoved
        obtain ⟨hfull, hmoved⟩ := not_or.mp hmoved
        exact h.appended_moved hr hinit hfull hmoved _ hindex
  · obtain ⟨e, herror⟩ :=
      MetricRegistry.register_of_uninitialized c.realloc c.plugin (Bool.eq_false_iff.mpr hinit)
    exact absurd ((faithful_of_error h herror).mp hfaithful) hrefuse

end Step

/-- **The registry is a faithful key index** after its initialisation and every registration
of a sequence exactly when each registration that is not to be refused fits. -/
theorem registry_is_key_index_iff (malloc : Option ℕ) (calls : List (RegisterCall F)) :
    ((start malloc : Registering F).registry.FaithfulIndex [] ∧
        Lib.EachStep step Faithful calls (start malloc)) ↔
      Lib.EachStep step Fits calls (start malloc : Registering F) := by
  have hstart := start_ok (F := F) malloc
  have hiff : ∀ (s : Registering F) c, s.registry.Ok s.accepted → True →
      (s.Faithful c ↔ s.Fits c) :=
    fun s c h _ => ⟨Faithful.fits h, fun hfits => (hfits.step h).2⟩
  have hkeep : ∀ (s : Registering F) c, s.registry.Ok s.accepted → True → s.Fits c →
      (s.step c).registry.Ok (s.step c).accepted := fun s c h _ hfits => (hfits.step h).1
  have hpromised : Lib.EachStep step (fun _ _ => True) calls (start malloc : Registering F) :=
    (Lib.eachStep_iff_forall_mem _ _ _).mpr fun _ _ => trivial
  have hindex : (start malloc : Registering F).registry.FaithfulIndex [] := hstart.faithfulIndex
  rw [and_iff_right hindex]
  exact Lib.eachStep_iff_of_invariant hiff hkeep hstart hpromised

/-- A plugin whose key has as many characters as there are places in its storage. -/
def longPlugin : MetricPlugin Unit where
  key := some (.ofChars (List.replicate 64 'k'))
  shortName := some (.ofChars ['k'])
  name := some (.ofChars ['k'])
  type := .quantity
  releasable := false
  handler := some ()

/-- A key of 64 characters is accepted and then not found. -/
theorem registry_loses_long_key :
    ¬∀ (malloc : Option ℕ) (calls : List (RegisterCall Unit)),
      (start malloc : Registering Unit).registry.FaithfulIndex [] ∧
        Lib.EachStep step Faithful calls (start malloc) := by
  intro h
  obtain ⟨-, hfaithful, -⟩ := h (some 0) [⟨some longPlugin, none⟩]
  have hfits := hfaithful.fits (start_ok (some 0))
  obtain ⟨-, hshort, -⟩ := hfits (.ofChars (List.replicate 64 'k')) rfl List.not_mem_nil
  have hlen : (NulTerminated.ofChars (List.replicate 64 'k')).strlen = 64 := by
    rw [NulTerminated.strlen, NulTerminated.chars_ofChars_replicate (by decide),
      List.length_replicate]
  rw [hlen] at hshort
  exact absurd hshort (by decide)

end Registering

end PhpSpx
