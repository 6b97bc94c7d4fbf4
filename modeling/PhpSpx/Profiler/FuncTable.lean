import PhpSpx.Profiler.Event
import PhpSpx.Profiler.Hmap

/-!
# The function table of the tracing profiler

`func_table_t` of `spx_profiler_tracer.c`: an array of entries in the order of
first use, and a hash map from functions to their index.  The functions of this
table have names for values: the copies in the string pool, and the map key that
is rebound to them, are those of `PhpSpx.Profiler.PooledFuncTable`, which has
this table for its abstraction.

* `FuncTable.getEntry` — the lookup, which records a function it meets for the
  first time while there is room and answers `none` once the table is full.
* `FuncTable.Ok` — the invariant: the hash map knows exactly the recorded
  functions, each under its own index.
* `FuncTable.getEntry_spec` — on such a table the lookup is a search of the
  list of recorded functions.
-/

namespace PhpSpx

/-- `strcmp`, of whose result C promises only the sign. -/
def strcmp (a b : String) : ℤ := if a = b then 0 else if a < b then -1 else 1

@[simp] theorem strcmp_eq_zero_iff (a b : String) : strcmp a b = 0 ↔ a = b := by
  unfold strcmp
  split
  · simp [*]
  · split <;> simp [*]

/-- `func_table_hmap_cmp_key`. -/
def funcTableHmapCmpKey (a b : PhpFunction) : ℤ :=
  if strcmp a.funcName b.funcName ≠ 0 then strcmp a.funcName b.funcName
  else if strcmp a.className b.className ≠ 0 then strcmp a.className b.className
  else 0

/-- `func_table_hmap_hash_key`. -/
def funcTableHmapHashKey (zendInlineHashFunc : String → UInt64) (f : PhpFunction) : UInt64 :=
  f.hashCode zendInlineHashFunc

/-- `func_table_t`.  `entries` holds the first `size` entries of the array. -/
structure FuncTable where
  hmap : Hmap PhpFunction ℕ
  capacity : ℕ
  entries : List FuncTableEntry

/-- The `size` field. -/
def FuncTable.size (t : FuncTable) : ℕ := t.entries.length

/-- The table of a new profiler. -/
def funcTableCreate (zendInlineHashFunc : String → UInt64) (capacity : ℕ) : FuncTable where
  hmap := hmapCreate capacity (funcTableHmapHashKey zendInlineHashFunc) funcTableHmapCmpKey
  capacity := capacity
  entries := []

/-- A new table for any hash codes of functions. -/
def funcTableWith (hashCode : PhpFunction → UInt64) (capacity : ℕ) : FuncTable where
  hmap := hmapCreate capacity hashCode funcTableHmapCmpKey
  capacity := capacity
  entries := []

/-- `func_table_reset` on names as values. -/
def FuncTable.reset (t : FuncTable) : FuncTable :=
  { t with hmap := hmapReset t.hmap, entries := [] }

/-- `func_table_get_entry` on names as values: the index of the entry, `none` for
`NULL`. -/
def FuncTable.getEntry (t : FuncTable) (f : PhpFunction) : Option ℕ × FuncTable :=
  if t.size = t.capacity then (hmapGetValue t.hmap f, t)
  else
    match hmapEnsureEntry t.hmap f with
    | (none, _) => (none, t)  -- only when an allocation failed: the process dies there
    | (some (pos, false), hmap) => (hmapEntryGetValue hmap pos, { t with hmap := hmap })
    | (some (pos, true), hmap) =>
        let idx := t.size
        (some idx,
          { t with
            hmap := hmapFill hmap pos f idx
            entries := t.entries ++ [⟨idx, f, FuncStats.zero⟩] })

/-- The recorded functions, in index order. -/
def FuncTable.functions (t : FuncTable) : List PhpFunction := t.entries.map FuncTableEntry.function

/-! ## The comparison and the hash of functions -/

theorem funcTableHmapCmpKey_eq_zero_iff (a b : PhpFunction) :
    funcTableHmapCmpKey a b = 0 ↔ a = b := by
  unfold funcTableHmapCmpKey
  rcases a with ⟨af, ac⟩
  rcases b with ⟨bf, bc⟩
  by_cases hf : af = bf
  · by_cases hc : ac = bc <;> simp [hf, hc]
  · simp [hf]

/-! ## The invariant -/

/-- The hash map holds exactly the recorded functions under their indices, the
entries are numbered from `0`, and no function is recorded twice. -/
structure FuncTable.Ok (t : FuncTable) : Prop where
  capacity_pos : 0 < t.capacity
  hmap_size : t.hmap.size = t.capacity
  size_le : t.size ≤ t.capacity
  wf : t.hmap.WF
  filled : t.hmap.Filled
  cmp_eq : t.hmap.cmp = funcTableHmapCmpKey
  nodup : t.functions.Nodup
  idx_eq : ∀ i (h : i < t.entries.length), t.entries[i].idx = i
  get_eq : ∀ f, hmapGetValue t.hmap f = t.functions.findIdx? (· = f)

theorem FuncTable.Ok.lawfulKeys {t : FuncTable} (ok : t.Ok) : t.hmap.LawfulKeys := by
  have hz : ∀ a b, t.hmap.cmp a b = 0 ↔ a = b := fun a b => by
    rw [ok.cmp_eq]
    exact funcTableHmapCmpKey_eq_zero_iff a b
  refine ⟨fun a => (hz a a).2 rfl, fun a b h => (hz b a).2 ((hz a b).1 h).symm,
    fun a b c h h' => (hz a c).2 (((hz a b).1 h).trans ((hz b c).1 h')), fun a b h => ?_⟩
  rw [(hz a b).1 h]

theorem ok_funcTableWith (hashCode : PhpFunction → UInt64) {capacity : ℕ} (h : 0 < capacity) :
    (funcTableWith hashCode capacity).Ok where
  capacity_pos := h
  hmap_size := rfl
  size_le := Nat.zero_le _
  wf := wf_hmapCreate _ _ _
  filled := filled_hmapCreate _ _ _
  cmp_eq := rfl
  nodup := List.nodup_nil
  idx_eq := fun i hi => absurd hi (Nat.not_lt_zero i)
  get_eq := fun f => hmapGetValue_hmapCreate _ _ _ f

theorem ok_funcTableCreate (zendInlineHashFunc : String → UInt64) {capacity : ℕ}
    (h : 0 < capacity) : (funcTableCreate zendInlineHashFunc capacity).Ok :=
  ok_funcTableWith (funcTableHmapHashKey zendInlineHashFunc) h

/-- Resetting a table empties it, whatever its entries had become. -/
theorem FuncTable.ok_reset {t : FuncTable} (hc : 0 < t.capacity) (hs : t.hmap.size = t.capacity)
    (wf : t.hmap.WF) (filled : t.hmap.Filled) (hcmp : t.hmap.cmp = funcTableHmapCmpKey) :
    t.reset.Ok where
  capacity_pos := hc
  hmap_size := hs
  size_le := Nat.zero_le _
  wf := wf_hmapReset wf
  filled := filled_hmapReset filled
  cmp_eq := hcmp
  nodup := List.nodup_nil
  idx_eq := fun i hi => absurd hi (Nat.not_lt_zero i)
  get_eq := fun f => hmapGetValue_hmapReset (by omega) f

/-! ## What a lookup does -/

/-- The recorded functions after a lookup of `f`. -/
def recordFunction (capacity : ℕ) (fs : List PhpFunction) (f : PhpFunction) : List PhpFunction :=
  if f ∈ fs ∨ fs.length = capacity then fs else fs ++ [f]

/-- Recording a function extends the table. -/
theorem prefix_recordFunction (capacity : ℕ) (fs : List PhpFunction) (f : PhpFunction) :
    fs <+: recordFunction capacity fs f := by
  unfold recordFunction
  split
  · exact List.prefix_rfl
  · exact List.prefix_append _ _

theorem mem_recordFunction_of_mem {capacity : ℕ} {fs : List PhpFunction} {f g : PhpFunction}
    (h : g ∈ fs) : g ∈ recordFunction capacity fs f :=
  (prefix_recordFunction capacity fs f).subset h

/-- Nothing else is recorded. -/
theorem mem_or_eq_of_mem_recordFunction {capacity : ℕ} {fs : List PhpFunction}
    {f g : PhpFunction} (h : g ∈ recordFunction capacity fs f) : g ∈ fs ∨ g = f := by
  unfold recordFunction at h
  split at h
  · exact Or.inl h
  · rcases List.mem_append.1 h with h | h
    · exact Or.inl h
    · exact Or.inr (List.mem_singleton.1 h)

theorem mem_recordFunction_iff {capacity : ℕ} {fs : List PhpFunction} {f g : PhpFunction}
    (hf : f ∈ recordFunction capacity fs f) :
    g ∈ recordFunction capacity fs f ↔ g ∈ fs ∨ g = f := by
  refine ⟨mem_or_eq_of_mem_recordFunction, ?_⟩
  rintro (hg | rfl)
  · exact mem_recordFunction_of_mem hg
  · exact hf

theorem recordFunction_of_full {fs : List PhpFunction} {capacity : ℕ} (h : fs.length = capacity)
    (f : PhpFunction) : recordFunction capacity fs f = fs := if_pos (Or.inr h)

/-- A lookup that fails finds the table full and leaves it alone. -/
theorem recordFunction_of_notMem {capacity : ℕ} {fs : List PhpFunction} {f : PhpFunction}
    (h : f ∉ recordFunction capacity fs f) :
    recordFunction capacity fs f = fs ∧ fs.length = capacity := by
  unfold recordFunction at h ⊢
  by_cases hfull : f ∈ fs ∨ fs.length = capacity
  · rw [if_pos hfull] at h ⊢
    exact ⟨rfl, hfull.resolve_left h⟩
  · rw [if_neg hfull] at h
    exact absurd (List.mem_append_right fs (List.mem_singleton_self f)) h

/-- A function is recorded when the table has room for all the functions `S` of
a run. -/
theorem mem_recordFunction_of_room {capacity : ℕ} {fs : List PhpFunction} (hnodup : fs.Nodup)
    {S : Finset PhpFunction} (hS : S.card ≤ capacity) (hfs : ∀ g ∈ fs, g ∈ S) {f : PhpFunction}
    (hf : f ∈ S) : f ∈ recordFunction capacity fs f := by
  unfold recordFunction
  split
  · rename_i hfull
    rcases hfull with hmem | hlen
    · exact hmem
    · -- a full table holds all of `S`
      have hsub : fs.toFinset ⊆ S := fun g hg => hfs g (List.mem_toFinset.1 hg)
      have hcard : fs.toFinset.card = fs.length := List.toFinset_card_of_nodup hnodup
      have heq : fs.toFinset = S := Finset.eq_of_subset_of_card_le hsub (by omega)
      exact List.mem_toFinset.1 (heq ▸ hf)
  · exact List.mem_append_right _ (List.mem_singleton_self f)

theorem findIdx?_eq_none_of_notMem {fs : List PhpFunction} {f : PhpFunction} (h : f ∉ fs) :
    fs.findIdx? (· = f) = none := by
  rw [List.findIdx?_eq_none_iff]
  intro g hg
  have hne : g ≠ f := fun hgf => h (hgf ▸ hg)
  simpa using hne

theorem findIdx?_eq_some_of_mem {fs : List PhpFunction} {f : PhpFunction} (h : f ∈ fs) :
    fs.findIdx? (· = f) = some (fs.idxOf f) := by
  induction fs with
  | nil => simp at h
  | cons g fs ih =>
    rw [List.findIdx?_cons]
    by_cases hg : g = f
    · simp [hg]
    · have hf : f ∈ fs := (List.mem_cons.1 h).resolve_left (Ne.symm hg)
      simp [hg, ih hf]

/-- The table after a new entry for `f` was appended keeps the invariant. -/
theorem FuncTable.Ok.record {t : FuncTable} (ok : t.Ok) {f : PhpFunction}
    {h' : Hmap PhpFunction ℕ} {es : List (HmapEntry PhpFunction ℕ)} {n m : ℕ}
    (hnew : EnsureNew t.hmap h' f es n m) (hmem : f ∉ t.functions) (hroom : t.size ≠ t.capacity) :
    FuncTable.Ok
      { t with
        hmap := hmapFill h' (t.hmap.bucketIdx f, es.length) f t.size
        entries := t.entries ++ [⟨t.size, f, FuncStats.zero⟩] } := by
  have hk := ok.lawfulKeys
  have hfill := hmapFill_new hnew (hk.refl f) t.size
  have hfs : t.functions.length = t.size := by simp [FuncTable.functions, FuncTable.size]
  refine ⟨ok.capacity_pos, by simp [hfill, ok.hmap_size], ?_, wf_hmapFill ok.wf hk hnew _,
    filled_hmapFill ok.filled hk hnew _, by simp [hfill, ok.cmp_eq], ?_, ?_, ?_⟩
  · have := ok.size_le
    simp only [FuncTable.size, List.length_append, List.length_singleton] at this hroom ⊢
    omega
  · rw [FuncTable.functions, List.map_append]
    exact ok.nodup.append (by simp) (by simpa using hmem)
  · intro i hi
    simp only [List.length_append, List.length_singleton] at hi
    rw [List.getElem_append]
    split
    · rename_i hlt
      exact ok.idx_eq i hlt
    · rename_i hge
      have : i = t.size := by simp only [FuncTable.size]; omega
      simpa using this.symm
  · intro g
    rw [hmapGetValue_hmapFill ok.wf hk hnew, ok.cmp_eq, ok.get_eq]
    simp only [FuncTable.functions, List.map_append, List.findIdx?_append]
    by_cases hgf : g = f
    · subst hgf
      rw [if_pos ((funcTableHmapCmpKey_eq_zero_iff _ _).2 rfl)]
      show some t.size = (t.functions.findIdx? (· = g)).or _
      rw [findIdx?_eq_none_of_notMem hmem]
      simp [FuncTable.size]
    · rw [if_neg fun h => hgf ((funcTableHmapCmpKey_eq_zero_iff _ _).1 h)]
      simp [Ne.symm hgf]

/-- **A lookup searches the recorded functions**, and records a function that
is not among them while there is room. -/
theorem FuncTable.getEntry_spec {t : FuncTable} (ok : t.Ok) (f : PhpFunction) :
    (t.getEntry f).2.Ok
    ∧ (t.getEntry f).2.capacity = t.capacity
    ∧ (t.getEntry f).2.functions = recordFunction t.capacity t.functions f
    ∧ (t.getEntry f).1
        = (recordFunction t.capacity t.functions f).findIdx? (· = f)
    ∧ (t.getEntry f).2.entries
        = if f ∈ t.functions ∨ t.size = t.capacity then t.entries
          else t.entries ++ [⟨t.size, f, FuncStats.zero⟩] := by
  have hlen : t.functions.length = t.size := by simp [FuncTable.functions, FuncTable.size]
  unfold FuncTable.getEntry recordFunction
  rw [hlen]
  by_cases hfull : t.size = t.capacity
  · rw [if_pos hfull, if_pos (Or.inr hfull), if_pos (Or.inr hfull)]
    exact ⟨ok, rfl, rfl, ok.get_eq f, rfl⟩
  · rw [if_neg hfull]
    rcases hmapEnsureEntry_cases ok.wf f with ⟨pos, hfound⟩ | ⟨h', es, n, m, hnew⟩
    · have hmem : f ∈ t.functions := by
        obtain ⟨e, he, -⟩ := hfound.taken
        have hvalue : hmapGetValue t.hmap f = e.value := by
          rw [← hfound.value, hmapEntryGetValue, he, Option.bind_some]
        by_contra hf
        have hsome := ok.filled _ e (entryAt_mem he)
        rw [← hvalue, ok.get_eq, findIdx?_eq_none_of_notMem hf] at hsome
        simp at hsome
      simp only [hfound.ensure, hmem, true_or, if_true]
      exact ⟨ok, trivial, trivial, hfound.value.trans (ok.get_eq f), trivial⟩
    · have hget : hmapGetValue t.hmap f = none := by
        rw [hmapGetValue_packed hnew.before, hnew.absent, Option.bind_none]
      have hmem : f ∉ t.functions := by
        intro hf
        rw [ok.get_eq, findIdx?_eq_some_of_mem hf] at hget
        simp at hget
      simp only [hnew.ensure, hmem, hfull, or_self, if_false]
      refine ⟨ok.record hnew hmem hfull, trivial, by simp [FuncTable.functions], ?_, trivial⟩
      · rw [List.findIdx?_append, findIdx?_eq_none_of_notMem hmem]
        simp [hlen]

/-! ## The three cases of a lookup -/

namespace FuncTable

/-- A recorded function is found, and the table is left as it is. -/
theorem Ok.getEntry_recorded {t : FuncTable} (ok : t.Ok) {f : PhpFunction} (hf : f ∈ t.functions) :
    t.getEntry f = (some (t.functions.idxOf f), t) := by
  have hget : hmapGetValue t.hmap f = some (t.functions.idxOf f) :=
    (ok.get_eq f).trans (findIdx?_eq_some_of_mem hf)
  rw [getEntry]
  split
  · rw [hget]
  · rcases hmapEnsureEntry_cases ok.wf f with ⟨pos, hfound⟩ | ⟨h', es, n, m, hnew⟩
    · rw [hfound.ensure]
      show (hmapEntryGetValue t.hmap pos, t) = _
      rw [hfound.value, hget]
    · rw [hmapGetValue_packed hnew.before, hnew.absent] at hget
      exact nomatch hget

/-- A full table records nothing. -/
theorem Ok.getEntry_full {t : FuncTable} (ok : t.Ok) (hfull : t.size = t.capacity)
    {f : PhpFunction} (hf : f ∉ t.functions) : t.getEntry f = (none, t) := by
  rw [getEntry, if_pos hfull, ok.get_eq, findIdx?_eq_none_of_notMem hf]

/-- A new function is given the next index. -/
theorem Ok.getEntry_new {t : FuncTable} (ok : t.Ok) (hroom : t.size < t.capacity)
    {f : PhpFunction} (hf : f ∉ t.functions) :
    (t.getEntry f).1 = some t.size ∧
      (t.getEntry f).2.entries = t.entries ++ [⟨t.size, f, FuncStats.zero⟩] := by
  obtain ⟨-, -, -, hidx, hentries⟩ := FuncTable.getEntry_spec ok f
  have hlen : t.functions.length = t.size := List.length_map _
  have hnot : ¬(f ∈ t.functions ∨ t.size = t.capacity) := not_or.mpr ⟨hf, hroom.ne⟩
  rw [if_neg hnot] at hentries
  refine ⟨?_, hentries⟩
  rw [hidx, recordFunction, hlen, if_neg hnot, List.findIdx?_append,
    findIdx?_eq_none_of_notMem hf, hlen]
  simp

end FuncTable

end PhpSpx
