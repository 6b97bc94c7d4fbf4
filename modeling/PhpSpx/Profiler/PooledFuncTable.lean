import PhpSpx.Lib.Run
import PhpSpx.Profiler.FuncTable
import PhpSpx.Profiler.StringPool

/-!
# The function table and its string pool

`func_table_t` with the names where `spx_profiler_tracer.c` has them: an entry points to
copies of the two names in the string pool, and the hash map to the entry.  While a new
entry is made its key points to a variable of the caller, and is rebound to the entry only
if the copies compare equal to what the variable names.

* `funcTableGetEntry` — the lookup.
* `PooledFuncTable.byName` — the same table with names as values.
* `PooledFuncTable.Ok` — the invariant.
* `PooledFuncTable.getEntry_byName` — a lookup with names that fit into the pool is a lookup
  in the abstract table.
* `PooledFuncTable.Ok.run_byName` — so are whole runs.
* `func_table_indexes_uniquely_iff` — the entries and answers of whole runs.
-/

namespace PhpSpx

open Lib

/-! ## Reading the pool -/

/-- The string in the cells from `a` on, if there is a NUL among the first `n` of them. -/
def readCells (f : ℕ → Char) : ℕ → ℕ → Option CStr
  | 0, _ => none
  | n + 1, a => if f a = nul then some [] else (readCells f n (a + 1)).map (f a :: ·)

theorem readCells_of_holds {f : ℕ → Char} {chars : CStr} (hnul : nul ∉ chars) {n a : ℕ}
    (hn : chars.length < n) (h : Holds f a (chars ++ [nul])) : readCells f n a = some chars := by
  induction chars generalizing n a with
  | nil =>
    obtain ⟨n, rfl⟩ := Nat.exists_eq_succ_of_ne_zero (Nat.ne_zero_of_lt hn)
    exact if_pos (holds_singleton.mp h)
  | cons c chars ih =>
    obtain ⟨n, rfl⟩ := Nat.exists_eq_succ_of_ne_zero (Nat.ne_zero_of_lt hn)
    rw [List.length_cons] at hn
    have hc : f a = c := h 0 c rfl
    have hrest : Holds f (a + 1) (chars ++ [nul]) := by
      intro i x hx
      rw [Nat.add_assoc, Nat.add_comm 1 i]
      exact h (i + 1) x hx
    have hne : f a ≠ nul := by
      intro heq
      exact hnul (heq ▸ hc ▸ List.mem_cons_self)
    rw [readCells, if_neg hne,
      ih (fun hmem => hnul (List.mem_cons_of_mem _ hmem)) (by omega) hrest, hc]
    rfl

/-- What is read has its NUL among the cells. -/
theorem length_lt_of_readCells {f : ℕ → Char} {n a : ℕ} {chars : CStr}
    (h : readCells f n a = some chars) : chars.length < n := by
  induction n generalizing a chars with
  | zero => cases h
  | succ n ih =>
    rw [readCells] at h
    split at h
    · rw [← Option.some.inj h]
      exact Nat.succ_pos n
    · obtain ⟨rest, hrest, rfl⟩ := Option.map_eq_some_iff.mp h
      exact Nat.succ_lt_succ (ih hrest)

/-- The string a pointer into the pool points to.  `none` when it runs beyond the `data` of
its block: what follows there is `used`, which the call that wrote it changes. -/
def StringPool.read (pool : StringPool) (p : PoolPointer) : Option CStr :=
  pool.blocks[p.block]?.bind fun block => readCells block.data (poolBlockSize - p.offset) p.offset

/-- What was interned is read back. -/
theorem StringPool.Packed.read_eq {pool : StringPool} (h : pool.Packed) {a : Interned}
    (ha : a ∈ pool.interned) : pool.read a.pointer = some a.string.chars := by
  obtain ⟨block, hblock, hholds, hfits⟩ := h.intact.stands a ha
  rw [NulTerminated.length_bytes, NulTerminated.strlen] at hfits
  rw [StringPool.read, hblock]
  exact readCells_of_holds a.string.nul_notMem (by omega) hholds

theorem StringPool.length_lt_of_read {pool : StringPool} {p : PoolPointer} {chars : CStr}
    (h : pool.read p = some chars) : chars.length < poolBlockSize := by
  obtain ⟨block, -, hread⟩ := Option.bind_eq_some_iff.mp h
  have hlt := length_lt_of_readCells hread
  omega

/-! ## The table -/

/-- The `spx_php_function_t` of a caller.  Its `hash_code` is a function of the names. -/
structure CalledFunction where
  funcName : NulTerminated
  className : NulTerminated

namespace CalledFunction

/-- The names as values. -/
def toPhp (f : CalledFunction) : PhpFunction :=
  ⟨String.ofList f.funcName.chars, String.ofList f.className.chars⟩

/-- Both names fit into a block of the pool, with their NUL. -/
def Fits (f : CalledFunction) : Prop :=
  f.funcName.strlen + 1 ≤ poolBlockSize ∧ f.className.strlen + 1 ≤ poolBlockSize

instance (f : CalledFunction) : Decidable f.Fits := inferInstanceAs (Decidable (_ ∧ _))

end CalledFunction

/-- The `spx_php_function_t` of an entry. -/
structure StoredFunction where
  hashCode : UInt64
  funcName : PoolPointer
  className : PoolPointer

/-- `spx_profiler_func_table_entry_t`. -/
structure StoredEntry where
  idx : ℕ
  function : StoredFunction
  stats : FuncStats

/-- A key of the hash map: a pointer to the variable of a caller, which holds a function
during the call, or to the `function` of an entry. -/
inductive FuncKey where
  | caller (function : CalledFunction)
  | entry (idx : ℕ)

/-- `func_table_t` and the `string_pool` of the profiler.  `hashCode` is the `hash_code` that
the engine hooks give a function. -/
structure PooledFuncTable where
  hashCode : PhpFunction → UInt64
  capacity : ℕ
  buckets : ℕ → Bucket FuncKey ℕ
  entries : List StoredEntry
  pool : StringPool

namespace PooledFuncTable

/-- The table of a new profiler, with what `malloc` left in the first block of the pool. -/
def create (hashCode : PhpFunction → UInt64) (capacity : ℕ) (data : ℕ → Char) :
    PooledFuncTable where
  hashCode := hashCode
  capacity := capacity
  buckets := fun _ => bucketInit FuncKey ℕ
  entries := []
  pool := stringPoolCreate data

/-- The `size` field. -/
def size (t : PooledFuncTable) : ℕ := t.entries.length

/-- The names of a stored function. -/
def namesOf (t : PooledFuncTable) (f : StoredFunction) : Option PhpFunction :=
  (t.pool.read f.funcName).bind fun funcName =>
    (t.pool.read f.className).map fun className =>
      ⟨String.ofList funcName, String.ofList className⟩

/-- The function a key points to. -/
def deref (t : PooledFuncTable) : FuncKey → Option PhpFunction
  | .caller f => some f.toPhp
  | .entry idx => t.entries[idx]?.bind fun entry => t.namesOf entry.function

/-- `func_table_hmap_hash_key`. -/
def hashKey (t : PooledFuncTable) : FuncKey → UInt64
  | .caller f => t.hashCode f.toPhp
  | .entry idx => (t.entries[idx]?.map fun entry => entry.function.hashCode).getD 0

/-- `func_table_hmap_cmp_key`.  A name that cannot be read is equal to none. -/
def cmpKey (t : PooledFuncTable) (a b : FuncKey) : ℤ :=
  match t.deref a, t.deref b with
  | some f, some g => funcTableHmapCmpKey f g
  | _, _ => 1

/-- The `hmap` field: its keys are hashed and compared through the memory they point to. -/
def hmap (t : PooledFuncTable) : Hmap FuncKey ℕ where
  hash := t.hashKey
  cmp := t.cmpKey
  size := t.capacity
  buckets := t.buckets

/-- The table after a call of `spx_hmap.c`. -/
def setHmap (t : PooledFuncTable) (h : Hmap FuncKey ℕ) : PooledFuncTable :=
  { t with buckets := h.buckets }

/-- The entry of a new function, whose names are interned.  `malloc` has what is left in a
new block for each of them.  The process dies where a name is not interned. -/
def appendEntry (t : PooledFuncTable) (f : CalledFunction) (malloc : (ℕ → Char) × (ℕ → Char)) :
    PooledFuncTable :=
  let funcName := stringPoolIntern t.pool ⟨some f.funcName, some malloc.1⟩
  let className := stringPoolIntern funcName.1 ⟨some f.className, some malloc.2⟩
  match funcName.2, className.2 with
  | some funcPointer, some classPointer =>
      { t with
        pool := className.1
        entries :=
          t.entries ++
            [⟨t.size, ⟨t.hashCode f.toPhp, funcPointer, classPointer⟩, FuncStats.zero⟩] }
  | _, _ => t

end PooledFuncTable

/-- `func_table_get_entry`: the index of the entry, `none` for `NULL`. -/
def funcTableGetEntry (t : PooledFuncTable) (f : CalledFunction)
    (malloc : (ℕ → Char) × (ℕ → Char)) : Option ℕ × PooledFuncTable :=
  if t.size = t.capacity then (hmapGetValue t.hmap (.caller f), t)
  else
    match hmapEnsureEntry t.hmap (.caller f) with
    | (none, _) => (none, t)  -- only when an allocation failed: the process dies there
    | (some (pos, false), hmap) => (hmapEntryGetValue hmap pos, t.setHmap hmap)
    | (some (pos, true), hmap) =>
        let idx := t.size
        let t := (t.setHmap hmap).appendEntry f malloc
        let t := t.setHmap (hmapEntrySetValue t.hmap pos idx)
        (some idx, t.setHmap (hmapSetEntryKey t.hmap pos (.entry idx)).2)

/-- `func_table_reset`.  The pool keeps its strings. -/
def funcTableReset (t : PooledFuncTable) : PooledFuncTable :=
  { t with buckets := (hmapReset t.hmap).buckets, entries := [] }

namespace PooledFuncTable

/-! ## The table with names as values -/

/-- The function of a key, where there is one. -/
def name (t : PooledFuncTable) (key : FuncKey) : PhpFunction := (t.deref key).getD default

/-- The abstract table: the names of the keys and of the entries for what points to them. -/
def byName (t : PooledFuncTable) : FuncTable where
  hmap :=
    { hash := t.hashCode
      cmp := funcTableHmapCmpKey
      size := t.capacity
      buckets := fun i => bucketMapKey t.name (t.buckets i) }
  capacity := t.capacity
  entries :=
    t.entries.map fun entry => ⟨entry.idx, (t.namesOf entry.function).getD default, entry.stats⟩

/-- The names of the stored function are those of `f`, in the pool. -/
def Stores (pool : StringPool) (s : StoredFunction) (f : CalledFunction) : Prop :=
  ⟨s.funcName, f.funcName⟩ ∈ pool.interned ∧ ⟨s.className, f.className⟩ ∈ pool.interned

/-- The strings stand in the pool, the names of the entries among them; the map has keys of
entries only, and no chain beyond its size; and the abstract table is in order. -/
structure Ok (t : PooledFuncTable) : Prop where
  named : t.byName.Ok
  pool : t.pool.Packed
  stored : ∀ entry ∈ t.entries, ∃ f, Stores t.pool entry.function f
  keys : ∀ i e, some e ∈ t.buckets i → ∃ idx < t.entries.length, e.key = .entry idx
  outside : ∀ i, t.capacity ≤ i → t.buckets i = bucketInit FuncKey ℕ

@[simp] theorem size_byName (t : PooledFuncTable) : t.byName.size = t.size := by
  simp [byName, FuncTable.size, size]

theorem Stores.namesOf_eq {t : PooledFuncTable} {s : StoredFunction} {f : CalledFunction}
    (h : Stores t.pool s f) (hpool : t.pool.Packed) : t.namesOf s = some f.toPhp := by
  rw [namesOf, hpool.read_eq h.1, hpool.read_eq h.2]
  rfl

@[simp] theorem deref_caller (t : PooledFuncTable) (f : CalledFunction) :
    t.deref (.caller f) = some f.toPhp := rfl

@[simp] theorem name_caller (t : PooledFuncTable) (f : CalledFunction) :
    t.name (.caller f) = f.toPhp := rfl

/-- The names that are read fit into a block. -/
theorem fits_of_namesOf {t : PooledFuncTable} {s : StoredFunction} {f : CalledFunction}
    (h : t.namesOf s = some f.toPhp) : f.Fits := by
  obtain ⟨funcName, hfunc, hrest⟩ := Option.bind_eq_some_iff.mp h
  obtain ⟨className, hclass, heq⟩ := Option.map_eq_some_iff.mp hrest
  obtain ⟨hf, hc⟩ := PhpFunction.mk.inj heq
  rw [String.ofList_injective hf] at hfunc
  rw [String.ofList_injective hc] at hclass
  exact ⟨StringPool.length_lt_of_read hfunc, StringPool.length_lt_of_read hclass⟩

/-- Every entry of the table is read. -/
theorem Ok.deref_entry {t : PooledFuncTable} (ok : t.Ok) {idx : ℕ} (h : idx < t.entries.length) :
    ∃ f, t.deref (.entry idx) = some f ∧ t.byName.functions[idx]? = some f := by
  obtain ⟨f, hf⟩ := ok.stored t.entries[idx] (List.getElem_mem h)
  have hnames := hf.namesOf_eq ok.pool
  refine ⟨f.toPhp, ?_, ?_⟩
  · rw [deref, List.getElem?_eq_getElem h]
    exact hnames
  · simp [byName, FuncTable.functions, h, hnames]

/-! ## The map with names as keys -/

section Ok

variable {t : PooledFuncTable} (ok : t.Ok) (f : CalledFunction)

include ok

theorem Ok.wf : t.hmap.WF := fun i => packed_of_bucketMapKey (ok.named.wf i)

/-- A function of a caller is looked for under its name. -/
theorem Ok.renamed : Renamed t.name t.hmap t.byName.hmap (.caller f) where
  size_eq := rfl
  buckets_eq _ := rfl
  hash_eq := rfl
  cmp_iff := by
    intro i e he
    obtain ⟨idx, hidx, hkey⟩ := ok.keys i e he
    obtain ⟨g, hg, -⟩ := ok.deref_entry hidx
    simp [byName, name, hmap, cmpKey, hkey, hg]

theorem Ok.getValue_eq :
    hmapGetValue t.hmap (.caller f) = t.byName.functions.findIdx? (· = f.toPhp) :=
  (ok.renamed f).getValue_eq.symm.trans (ok.named.get_eq f.toPhp)

/-! ## The three cases of a lookup -/

variable {f}

/-- A recorded function is found, and the table is left as it is. -/
theorem Ok.getEntry_recorded (hf : f.toPhp ∈ t.byName.functions)
    (malloc : (ℕ → Char) × (ℕ → Char)) :
    funcTableGetEntry t f malloc = (some (t.byName.functions.idxOf f.toPhp), t) := by
  have hget : hmapGetValue t.hmap (.caller f) = some (t.byName.functions.idxOf f.toPhp) :=
    (ok.getValue_eq f).trans (findIdx?_eq_some_of_mem hf)
  rw [funcTableGetEntry]
  split
  · rw [hget]
  · rcases hmapEnsureEntry_cases ok.wf (.caller f) with ⟨pos, hfound⟩ | ⟨h', es, n, m, hnew⟩
    · rw [hfound.ensure]
      show (hmapEntryGetValue t.hmap pos, t) = _
      rw [hfound.value, hget]
    · rw [hmapGetValue_packed hnew.before, hnew.absent] at hget
      cases hget

/-- A full table records nothing. -/
theorem Ok.getEntry_full (hfull : t.size = t.capacity) (hf : f.toPhp ∉ t.byName.functions)
    (malloc : (ℕ → Char) × (ℕ → Char)) : funcTableGetEntry t f malloc = (none, t) := by
  rw [funcTableGetEntry, if_pos hfull, ok.getValue_eq, findIdx?_eq_none_of_notMem hf]

/-- A new function takes a slot of the map. -/
theorem Ok.ensureNew (hf : f.toPhp ∉ t.byName.functions) :
    ∃ h' es n m, EnsureNew t.hmap h' (.caller f) es n m := by
  rcases hmapEnsureEntry_cases ok.wf (.caller f) with ⟨pos, hfound⟩ | hnew
  · exfalso
    obtain ⟨e, he, -⟩ := hfound.taken
    have hvalue : e.value = none := by
      have hget := hfound.value.trans
        ((ok.getValue_eq f).trans (findIdx?_eq_none_of_notMem hf))
      rwa [hmapEntryGetValue, he, Option.bind_some] at hget
    have hmem : some (e.mapKey t.name) ∈ t.byName.hmap.buckets pos.1 :=
      List.mem_map.mpr ⟨some e, entryAt_mem he, rfl⟩
    have hfilled := ok.named.filled pos.1 _ hmem
    rw [HmapEntry.mapKey, hvalue] at hfilled
    cases hfilled
  · exact hnew

end Ok

/-- The pool after the names of a new function were interned. -/
def internNames (pool : StringPool) (f : CalledFunction) (malloc : (ℕ → Char) × (ℕ → Char)) :
    StringPool :=
  (pool.after ⟨some f.funcName, some malloc.1⟩).after ⟨some f.className, some malloc.2⟩

theorem packed_internNames {pool : StringPool} (h : pool.Packed) {f : CalledFunction}
    (hf : f.Fits) (malloc : (ℕ → Char) × (ℕ → Char)) : (internNames pool f malloc).Packed := by
  have hfunc : InternOp.Fits ⟨some f.funcName, some malloc.1⟩ := by
    intro _ str hstr
    exact Option.mem_some.mp hstr ▸ hf.1
  have hclass : InternOp.Fits ⟨some f.className, some malloc.2⟩ := by
    intro _ str hstr
    exact Option.mem_some.mp hstr ▸ hf.2
  exact (h.after hfunc).after hclass

/-- Both names of an appended entry are interned. -/
theorem exists_appendEntry (t : PooledFuncTable) (f : CalledFunction)
    (malloc : (ℕ → Char) × (ℕ → Char)) :
    ∃ s : StoredFunction,
      t.appendEntry f malloc =
          { t with
            pool := internNames t.pool f malloc
            entries := t.entries ++ [⟨t.size, s, FuncStats.zero⟩] }
        ∧ (internNames t.pool f malloc).interned =
          t.pool.interned ++ [⟨s.funcName, f.funcName⟩] ++ [⟨s.className, f.className⟩] := by
  obtain ⟨funcPointer, hfunc, hfuncs⟩ :=
    t.pool.interned_after_some f.funcName malloc.1
  obtain ⟨classPointer, hclass, hclasses⟩ :=
    (t.pool.after ⟨some f.funcName, some malloc.1⟩).interned_after_some f.className malloc.2
  refine ⟨⟨t.hashCode f.toPhp, funcPointer, classPointer⟩, ?_,
    by rw [internNames, hclasses, hfuncs]⟩
  rw [appendEntry, hfunc]
  show (match some funcPointer, (stringPoolIntern (t.pool.after _) _).2 with
    | some funcPointer, some classPointer => _
    | _, _ => _) = _
  rw [hclass]
  rfl

/-- An entry stays as it is when strings and entries are added. -/
theorem Ok.deref_of_extends {t t' : PooledFuncTable} (ok : t.Ok) (hpool : t'.pool.Packed)
    (hinterned : t.pool.interned ⊆ t'.pool.interned) (hentries : t.entries <+: t'.entries)
    {idx : ℕ} (h : idx < t.entries.length) : t'.deref (.entry idx) = t.deref (.entry idx) := by
  obtain ⟨f, hfunc, hclass⟩ := ok.stored t.entries[idx] (List.getElem_mem h)
  have hnames := Stores.namesOf_eq ⟨hfunc, hclass⟩ ok.pool
  have hnames' : t'.namesOf t.entries[idx].function = some f.toPhp :=
    Stores.namesOf_eq ⟨hinterned hfunc, hinterned hclass⟩ hpool
  have hentry : t'.entries[idx]? = some t.entries[idx] := by
    obtain ⟨added, hadded⟩ := hentries
    rw [← hadded, List.getElem?_append_left h, List.getElem?_eq_getElem h]
  rw [deref, deref, hentry, List.getElem?_eq_getElem h, Option.bind_some, Option.bind_some,
    hnames, hnames']

/-- A new entry of the map is given its value, and its key is rebound where both keys point
to the same names. -/
theorem setHmap_fill {t : PooledFuncTable} {f : CalledFunction} {i idx m : ℕ}
    {es : List (HmapEntry FuncKey ℕ)} (hb : t.buckets i = packed (es ++ [⟨.caller f, none⟩]) m)
    (hderef : t.deref (.entry idx) = some f.toPhp) :
    (t.setHmap (hmapEntrySetValue t.hmap (i, es.length) idx)).setHmap
        (hmapSetEntryKey (t.setHmap (hmapEntrySetValue t.hmap (i, es.length) idx)).hmap
          (i, es.length) (.entry idx)).2 =
      t.setHmap (t.hmap.setBucket i (packed (es ++ [⟨.entry idx, some idx⟩]) m)) := by
  rw [hmapEntrySetValue_last (h := t.hmap) hb]
  set t' := t.setHmap (t.hmap.setBucket i (packed (es ++ [⟨.caller f, some idx⟩]) m)) with ht'
  have hb' : t'.hmap.buckets i = packed (es ++ [⟨.caller f, some idx⟩]) m :=
    setBucket_buckets_self t.hmap i _
  have hcmp : t'.hmap.cmp (.caller f) (.entry idx) = 0 := by
    show (match some f.toPhp, t.deref (.entry idx) with
      | some f, some g => funcTableHmapCmpKey f g
      | _, _ => 1) = 0
    rw [hderef]
    exact (funcTableHmapCmpKey_eq_zero_iff _ _).mpr rfl
  rw [hmapSetEntryKey_last hb' hcmp, ht']
  simp [setHmap, hmap, Hmap.setBucket]

section New

variable {t : PooledFuncTable} {f : CalledFunction} {h' : Hmap FuncKey ℕ}
  {es : List (HmapEntry FuncKey ℕ)} {n m : ℕ}

/-- The table with an entry for a new function. -/
def recorded (t : PooledFuncTable) (f : CalledFunction) (s : StoredFunction) (pool : StringPool)
    (es : List (HmapEntry FuncKey ℕ)) (m : ℕ) : PooledFuncTable :=
  { t with
    buckets :=
      (t.hmap.setBucket (t.hmap.bucketIdx (.caller f))
        (packed (es ++ [⟨.entry t.size, some t.size⟩]) m)).buckets
    entries := t.entries ++ [⟨t.size, s, FuncStats.zero⟩]
    pool := pool }

/-- What a lookup of a new function does.  Its key is rebound where the names of the entry
are read as those of the function. -/
theorem getEntry_new (hroom : t.size ≠ t.capacity) (hnew : EnsureNew t.hmap h' (.caller f) es n m)
    (malloc : (ℕ → Char) × (ℕ → Char)) :
    ∃ s : StoredFunction,
      (internNames t.pool f malloc).interned
          = t.pool.interned ++ [⟨s.funcName, f.funcName⟩] ++ [⟨s.className, f.className⟩]
      ∧ (funcTableGetEntry t f malloc).1 = some t.size
      ∧ (funcTableGetEntry t f malloc).2.pool = internNames t.pool f malloc
      ∧ (funcTableGetEntry t f malloc).2.entries = t.entries ++ [⟨t.size, s, FuncStats.zero⟩]
      ∧ ((funcTableGetEntry t f malloc).2.deref (.entry t.size) = some f.toPhp →
          (funcTableGetEntry t f malloc).2
            = t.recorded f s (internNames t.pool f malloc) es m) := by
  obtain ⟨s, happend, hinterned⟩ := (t.setHmap h').exists_appendEntry f malloc
  set t' : PooledFuncTable :=
    { t with
      buckets := h'.buckets
      pool := internNames t.pool f malloc
      entries := t.entries ++ [⟨t.size, s, FuncStats.zero⟩] } with ht'
  set pos := (t.hmap.bucketIdx (.caller f), es.length) with hpos
  have hget : funcTableGetEntry t f malloc =
      (some t.size,
        (t'.setHmap (hmapEntrySetValue t'.hmap pos t.size)).setHmap
          (hmapSetEntryKey (t'.setHmap (hmapEntrySetValue t'.hmap pos t.size)).hmap pos
            (.entry t.size)).2) := by
    rw [funcTableGetEntry, if_neg hroom, hnew.ensure]
    dsimp only
    rw [happend]
    rfl
  refine ⟨s, hinterned, by rw [hget], by rw [hget]; rfl, by rw [hget]; rfl, ?_⟩
  rw [hget]
  intro hderef
  have hbucket : t'.buckets (t.hmap.bucketIdx (.caller f))
      = packed (es ++ [⟨.caller f, none⟩]) m := by
    show h'.buckets _ = _
    rw [hnew.after, setBucket_buckets_self]
  have hfill := setHmap_fill hbucket hderef
  refine hfill.trans ?_
  simp [recorded, setHmap, hmap, Hmap.setBucket, ht', hnew.after]

section Recorded

variable {s : StoredFunction} {pool : StringPool} (ok : t.Ok)
  (hnew : EnsureNew t.hmap h' (.caller f) es n m) (hpool : pool.Packed)
  (hinterned : pool.interned
    = t.pool.interned ++ [⟨s.funcName, f.funcName⟩] ++ [⟨s.className, f.className⟩])

include hpool hinterned

theorem namesOf_recorded_new : (t.recorded f s pool es m).namesOf s = some f.toPhp := by
  refine Stores.namesOf_eq ⟨?_, ?_⟩ hpool
  · rw [recorded, hinterned]
    simp
  · rw [recorded, hinterned]
    simp

theorem deref_recorded_new :
    (t.recorded f s pool es m).deref (.entry t.size) = some f.toPhp := by
  have hentry : (t.recorded f s pool es m).entries[t.size]? = some ⟨t.size, s, FuncStats.zero⟩ :=
    List.getElem?_concat_length
  rw [deref, hentry]
  exact namesOf_recorded_new hpool hinterned

include ok

theorem Ok.deref_recorded {idx : ℕ} (h : idx < t.entries.length) :
    (t.recorded f s pool es m).deref (.entry idx) = t.deref (.entry idx) := by
  apply ok.deref_of_extends hpool ?_ (List.prefix_append _ _) h
  show t.pool.interned ⊆ pool.interned
  rw [hinterned, List.append_assoc]
  exact List.subset_append_left _ _

theorem Ok.namesOf_recorded {entry : StoredEntry} (hentry : entry ∈ t.entries) :
    (t.recorded f s pool es m).namesOf entry.function = t.namesOf entry.function := by
  obtain ⟨idx, hidx, rfl⟩ := List.mem_iff_getElem.mp hentry
  have hderef : (t.recorded f s pool es m).deref (.entry idx) = t.deref (.entry idx) :=
    ok.deref_recorded hpool hinterned hidx
  have hentry' : (t.recorded f s pool es m).entries[idx]? = some t.entries[idx] := by
    rw [recorded, List.getElem?_append_left hidx, List.getElem?_eq_getElem hidx]
  rwa [deref, deref, hentry', List.getElem?_eq_getElem hidx] at hderef

theorem Ok.name_recorded {i : ℕ} {e : HmapEntry FuncKey ℕ} (he : some e ∈ t.buckets i) :
    (t.recorded f s pool es m).name e.key = t.name e.key := by
  obtain ⟨idx, hidx, hkey⟩ := ok.keys i e he
  rw [hkey, name, name, ok.deref_recorded hpool hinterned hidx]

/-- The chains with names as keys after the entry was made. -/
theorem Ok.bucketMapKey_recorded (i : ℕ) :
    bucketMapKey (t.recorded f s pool es m).name (t.buckets i)
      = bucketMapKey t.name (t.buckets i) := by
  apply List.map_congr_left
  intro slot hslot
  cases slot with
  | none => rfl
  | some e =>
    simp only [Option.map_some, HmapEntry.mapKey, ok.name_recorded hpool hinterned hslot]

include hnew

/-- The names of the new table are those of the abstract table after it recorded the name. -/
theorem Ok.byName_recorded :
    (t.recorded f s pool es m).byName =
      { t.byName with
        hmap := hmapFill
          (t.byName.hmap.setBucket (t.hmap.bucketIdx (.caller f))
            (packed (es.map (HmapEntry.mapKey t.name) ++ [⟨f.toPhp, none⟩]) m))
          (t.byName.hmap.bucketIdx f.toPhp, (es.map (HmapEntry.mapKey t.name)).length)
          f.toPhp t.byName.size
        entries := t.byName.entries ++ [⟨t.byName.size, f.toPhp, FuncStats.zero⟩] } := by
  have hnew' := (ok.renamed f).ensureNew hnew
  have hidx : t.byName.hmap.bucketIdx f.toPhp = t.hmap.bucketIdx (.caller f) :=
    (ok.renamed f).bucketIdx_eq
  have hfill := hmapFill_new hnew' (ok.named.lawfulKeys.refl f.toPhp) t.byName.size
  rw [name_caller] at hfill
  rw [hfill, hidx, size_byName]
  have hes : es.map (HmapEntry.mapKey (t.recorded f s pool es m).name)
      = es.map (HmapEntry.mapKey t.name) := by
    apply List.map_congr_left
    intro e he
    have hmem : some e ∈ t.buckets (t.hmap.bucketIdx (.caller f)) := by
      have hbefore : t.buckets (t.hmap.bucketIdx (.caller f)) = packed es n := hnew.before
      rw [hbefore]
      exact List.mem_append_left _ (List.mem_map_of_mem he)
    rw [HmapEntry.mapKey, HmapEntry.mapKey, ok.name_recorded hpool hinterned hmem]
  have hname : (t.recorded f s pool es m).name (.entry t.size) = f.toPhp := by
    rw [name, deref_recorded_new hpool hinterned]
    rfl
  have hbuckets : (fun i => bucketMapKey (t.recorded f s pool es m).name
        ((t.recorded f s pool es m).buckets i)) =
      (t.byName.hmap.setBucket (t.hmap.bucketIdx (.caller f))
        (packed (es.map (HmapEntry.mapKey t.name) ++ [⟨f.toPhp, some t.size⟩]) m)).buckets := by
    funext i
    by_cases hi : i = t.hmap.bucketIdx (.caller f)
    · subst hi
      have hchain : (t.recorded f s pool es m).buckets (t.hmap.bucketIdx (.caller f))
          = packed (es ++ [⟨.entry t.size, some t.size⟩]) m := setBucket_buckets_self ..
      rw [hchain, setBucket_buckets_self, bucketMapKey_packed, List.map_append, hes,
        List.map_singleton, HmapEntry.mapKey, hname]
    · have hchain : (t.recorded f s pool es m).buckets i = t.buckets i :=
        setBucket_buckets_of_ne hi _
      rw [hchain, setBucket_buckets_of_ne hi, ok.bucketMapKey_recorded hpool hinterned]
      rfl
  have hentries : (t.recorded f s pool es m).byName.entries
      = t.byName.entries ++ [⟨t.size, f.toPhp, FuncStats.zero⟩] := by
    have hold : t.entries.map (fun entry => (⟨entry.idx,
          ((t.recorded f s pool es m).namesOf entry.function).getD default,
          entry.stats⟩ : FuncTableEntry)) = t.byName.entries := by
      apply List.map_congr_left
      intro entry hentry
      rw [ok.namesOf_recorded hpool hinterned hentry]
    rw [← hold, byName, recorded, List.map_append, List.map_singleton]
    rw [← recorded, namesOf_recorded_new hpool hinterned]
    rfl
  have hhmap : (t.recorded f s pool es m).byName.hmap =
      t.byName.hmap.setBucket (t.hmap.bucketIdx (.caller f))
        (packed (es.map (HmapEntry.mapKey t.name) ++ [⟨f.toPhp, some t.size⟩]) m) := by
    rw [byName, hbuckets]
    rfl
  rw [← hentries, ← hhmap]
  rfl

/-- The entry of a function whose names stand in the pool keeps the invariant. -/
theorem Ok.recorded (hroom : t.size ≠ t.capacity) (hf : f.toPhp ∉ t.byName.functions) :
    (t.recorded f s pool es m).Ok where
  named := by
    rw [ok.byName_recorded hnew hpool hinterned]
    have hnew' := (ok.renamed f).ensureNew hnew
    exact ok.named.record hnew' hf (by rw [size_byName]; exact hroom)
  pool := hpool
  stored := by
    intro entry hentry
    rcases List.mem_append.mp hentry with hold | hnewest
    · obtain ⟨g, hfunc, hclass⟩ := ok.stored entry hold
      refine ⟨g, ?_, ?_⟩
      · rw [PooledFuncTable.recorded, hinterned]
        simp [hfunc]
      · rw [PooledFuncTable.recorded, hinterned]
        simp [hclass]
    · rw [List.mem_singleton.mp hnewest]
      refine ⟨f, ?_, ?_⟩
      · rw [PooledFuncTable.recorded, hinterned]
        simp
      · rw [PooledFuncTable.recorded, hinterned]
        simp
  keys := by
    intro i e he
    have hlen : (t.recorded f s pool es m).entries.length = t.entries.length + 1 :=
      List.length_append
    rw [hlen]
    by_cases hi : i = t.hmap.bucketIdx (.caller f)
    · subst hi
      have hchain : (t.recorded f s pool es m).buckets (t.hmap.bucketIdx (.caller f))
          = packed (es ++ [⟨.entry t.size, some t.size⟩]) m := setBucket_buckets_self ..
      have hbefore : t.buckets (t.hmap.bucketIdx (.caller f)) = packed es n := hnew.before
      rw [hchain, packed, List.mem_append, List.mem_map] at he
      rcases he with ⟨e', he', heq⟩ | hfree
      · rcases List.mem_append.mp he' with hold | hnewest
        · have hmem : some e' ∈ t.buckets (t.hmap.bucketIdx (.caller f)) := by
            rw [hbefore]
            exact List.mem_append_left _ (List.mem_map_of_mem hold)
          obtain ⟨idx, hidx, hkey⟩ := ok.keys _ e' hmem
          exact ⟨idx, by omega, Option.some.inj heq ▸ hkey⟩
        · rw [List.mem_singleton.mp hnewest] at heq
          exact ⟨t.size, Nat.lt_succ_self _, (Option.some.inj heq).symm ▸ rfl⟩
      · exact absurd (List.eq_of_mem_replicate hfree) (Option.some_ne_none e)
    · have hchain : (t.recorded f s pool es m).buckets i = t.buckets i :=
        setBucket_buckets_of_ne hi _
      obtain ⟨idx, hidx, hkey⟩ := ok.keys i e (hchain ▸ he)
      exact ⟨idx, by omega, hkey⟩
  outside := by
    intro i hi
    have hlt : t.hmap.bucketIdx (.caller f) < t.capacity := Nat.mod_lt _ ok.named.capacity_pos
    have hne : i ≠ t.hmap.bucketIdx (.caller f) := by
      have hi : t.capacity ≤ i := hi
      omega
    exact (setBucket_buckets_of_ne hne _).trans (ok.outside i hi)

end Recorded

end New

theorem ok_create (hashCode : PhpFunction → UInt64) {capacity : ℕ} (h : 0 < capacity)
    (data : ℕ → Char) : (create hashCode capacity data).Ok where
  named := by
    have hsame : (create hashCode capacity data).byName = funcTableWith hashCode capacity := by
      simp [byName, create, funcTableWith, hmapCreate, bucketInit, bucketMapKey]
    rw [hsame]
    exact ok_funcTableWith hashCode h
  pool := StringPool.packed_create data
  stored := fun entry hentry => absurd hentry List.not_mem_nil
  keys := fun i e he => absurd he (not_mem_bucketInit e)
  outside := fun i hi => rfl

theorem bucketMapKey_bucketInit {K K' V : Type} (φ : K → K') :
    bucketMapKey φ (bucketInit K V) = bucketInit K' V := by
  simp [bucketMapKey, bucketInit]

section Reset

variable {t : PooledFuncTable} (ok : t.Ok)

include ok

theorem Ok.buckets_reset (i : ℕ) : (funcTableReset t).buckets i = bucketInit FuncKey ℕ := by
  show (if i < t.capacity then bucketInit FuncKey ℕ else t.buckets i) = _
  split
  · rfl
  · rename_i hi
    exact ok.outside i (not_lt.mp hi)

theorem Ok.byName_reset : (funcTableReset t).byName = t.byName.reset := by
  have hbuckets : ∀ i, bucketMapKey (funcTableReset t).name ((funcTableReset t).buckets i)
      = (hmapReset t.byName.hmap).buckets i := by
    intro i
    show _ = if i < t.capacity then bucketInit PhpFunction ℕ else bucketMapKey t.name (t.buckets i)
    rw [ok.buckets_reset, bucketMapKey_bucketInit]
    split
    · rfl
    · rename_i hi
      rw [ok.outside i (not_lt.mp hi), bucketMapKey_bucketInit]
  have hhmap : (funcTableReset t).byName.hmap = hmapReset t.byName.hmap := by
    rw [byName, funext hbuckets]
    rfl
  rw [FuncTable.reset, ← hhmap]
  rfl

/-- A reset keeps the invariant. -/
theorem Ok.reset : (funcTableReset t).Ok where
  named := by
    rw [ok.byName_reset]
    exact FuncTable.ok_reset ok.named.capacity_pos ok.named.hmap_size ok.named.wf ok.named.filled
      ok.named.cmp_eq
  pool := ok.pool
  stored := fun entry hentry => absurd hentry List.not_mem_nil
  keys := fun i e he => absurd (ok.buckets_reset i ▸ he) (not_mem_bucketInit e)
  outside := fun i _ => ok.buckets_reset i

end Reset

/-! ## One lookup -/

/-- An entry of the table has the names of the function. -/
def Records (t : PooledFuncTable) (f : CalledFunction) : Prop :=
  ∃ i, t.deref (.entry i) = some f.toPhp

theorem Ok.deref_entry_eq_some_iff {t : PooledFuncTable} (ok : t.Ok) {i : ℕ} {f : PhpFunction} :
    t.deref (.entry i) = some f ↔ t.byName.functions[i]? = some f := by
  by_cases hi : i < t.entries.length
  · obtain ⟨g, hderef, hnamed⟩ := ok.deref_entry hi
    rw [hderef, hnamed]
  · have hnone : t.entries[i]? = none := List.getElem?_eq_none (not_lt.mp hi)
    have hnone' : t.byName.functions[i]? = none := by
      rw [FuncTable.functions, byName, List.map_map, List.getElem?_map, hnone]
      rfl
    rw [deref, hnone, hnone']
    rfl

theorem Ok.records_iff {t : PooledFuncTable} (ok : t.Ok) {f : CalledFunction} :
    t.Records f ↔ f.toPhp ∈ t.byName.functions := by
  rw [Records, List.mem_iff_getElem?]
  exact exists_congr fun _ => ok.deref_entry_eq_some_iff

/-- A lookup that records a function: its names fit into the pool. -/
def NamesFit (t : PooledFuncTable) (f : CalledFunction) : Prop :=
  ¬t.Records f → t.size < t.capacity → f.Fits

theorem deref_last {t T : PooledFuncTable} {s : StoredFunction}
    (hentries : T.entries = t.entries ++ [⟨t.size, s, FuncStats.zero⟩]) :
    T.deref (.entry t.size) = T.namesOf s := by
  rw [deref, hentries, size, List.getElem?_concat_length]
  rfl

/-- What a lookup is to do: a recorded function is found and nothing changes; another one is
given a zeroed entry under its own names at the end, or nothing when the table is full. -/
structure Serves (t : PooledFuncTable) (f : CalledFunction) (malloc : (ℕ → Char) × (ℕ → Char)) :
    Prop where
  recorded : ∀ i, t.deref (.entry i) = some f.toPhp → funcTableGetEntry t f malloc = (some i, t)
  full : ¬t.Records f → t.size = t.capacity → funcTableGetEntry t f malloc = (none, t)
  new : ¬t.Records f → t.size < t.capacity →
    (funcTableGetEntry t f malloc).1 = some t.size
      ∧ (∃ s, (funcTableGetEntry t f malloc).2.entries
          = t.entries ++ [⟨t.size, s, FuncStats.zero⟩])
      ∧ (funcTableGetEntry t f malloc).2.deref (.entry t.size) = some f.toPhp
      ∧ ∀ i < t.size,
          (funcTableGetEntry t f malloc).2.deref (.entry i) = t.deref (.entry i)

section Lookup

variable {t : PooledFuncTable} (ok : t.Ok) {f : CalledFunction}

include ok

/-- A lookup that records a function with names that fit. -/
theorem Ok.exists_getEntry_eq_recorded (hmem : f.toPhp ∉ t.byName.functions)
    (hroom : t.size ≠ t.capacity) (hfits : f.Fits) (malloc : (ℕ → Char) × (ℕ → Char)) :
    ∃ h' es n m, EnsureNew t.hmap h' (.caller f) es n m
      ∧ ∃ s pool, pool.Packed
        ∧ pool.interned
            = t.pool.interned ++ [⟨s.funcName, f.funcName⟩] ++ [⟨s.className, f.className⟩]
        ∧ funcTableGetEntry t f malloc = (some t.size, t.recorded f s pool es m) := by
  obtain ⟨h', es, n, m, hnew⟩ := ok.ensureNew hmem
  obtain ⟨s, hinterned, hidx, hpool, hentries, hrecorded⟩ := getEntry_new hroom hnew malloc
  have hpacked := packed_internNames ok.pool hfits malloc
  have hstores : Stores (funcTableGetEntry t f malloc).2.pool s f := by
    rw [hpool]
    refine ⟨?_, ?_⟩
    · rw [hinterned]
      simp
    · rw [hinterned]
      simp
  have hderef : (funcTableGetEntry t f malloc).2.deref (.entry t.size) = some f.toPhp :=
    (deref_last hentries).trans (hstores.namesOf_eq (hpool ▸ hpacked))
  exact ⟨h', es, n, m, hnew, s, _, hpacked, hinterned, Prod.ext hidx (hrecorded hderef)⟩

/-- **A lookup is one in the table with names as values** when the names it records fit. -/
theorem Ok.getEntry_byName (hfit : t.NamesFit f) (malloc : (ℕ → Char) × (ℕ → Char)) :
    (funcTableGetEntry t f malloc).2.Ok
      ∧ (funcTableGetEntry t f malloc).1 = (t.byName.getEntry f.toPhp).1
      ∧ (funcTableGetEntry t f malloc).2.byName = (t.byName.getEntry f.toPhp).2 := by
  by_cases hmem : f.toPhp ∈ t.byName.functions
  · rw [ok.getEntry_recorded hmem, ok.named.getEntry_recorded hmem]
    exact ⟨ok, rfl, rfl⟩
  by_cases hfull : t.size = t.capacity
  · rw [ok.getEntry_full hfull hmem, ok.named.getEntry_full (t.size_byName.trans hfull) hmem]
    exact ⟨ok, rfl, rfl⟩
  have hroom : t.size < t.capacity := by
    have hle := ok.named.size_le
    rw [size_byName] at hle
    exact lt_of_le_of_ne hle hfull
  have hfits := hfit (ok.records_iff.not.mpr hmem) hroom
  obtain ⟨h', es, n, m, hnew, s, pool, hpacked, hinterned, hget⟩ :=
    ok.exists_getEntry_eq_recorded hmem hfull hfits malloc
  have hensure := ((ok.renamed f).ensureNew hnew).ensure
  rw [name_caller] at hensure
  have hbyName : t.byName.getEntry f.toPhp =
      (some t.byName.size, (t.recorded f s pool es m).byName) := by
    rw [ok.byName_recorded hnew hpacked hinterned, FuncTable.getEntry,
      if_neg (by rw [size_byName]; exact hfull), hensure]
  rw [hget, hbyName, size_byName]
  exact ⟨ok.recorded hnew hpacked hinterned hfull hmem, rfl, rfl⟩

/-- **A lookup does what it is to do** exactly when the names it records fit. -/
theorem Ok.serves_iff (malloc : (ℕ → Char) × (ℕ → Char)) :
    t.Serves f malloc ↔ t.NamesFit f := by
  constructor
  · intro h hnot hroom
    obtain ⟨-, ⟨s, hentries⟩, hderef, -⟩ := h.new hnot hroom
    rw [deref_last hentries] at hderef
    exact fits_of_namesOf hderef
  · intro hfit
    refine ⟨?_, ?_, ?_⟩
    · intro i hi
      have hnamed := ok.deref_entry_eq_some_iff.mp hi
      have hmem := List.mem_of_getElem? hnamed
      obtain ⟨hlt, hget⟩ := List.getElem?_eq_some_iff.mp hnamed
      rw [ok.getEntry_recorded hmem, ← hget, ok.named.nodup.idxOf_getElem]
    · intro hnot hfull
      exact ok.getEntry_full hfull (ok.records_iff.not.mp hnot) malloc
    · intro hnot hroom
      obtain ⟨h', es, n, m, hnew, s, pool, hpacked, hinterned, hget⟩ :=
        ok.exists_getEntry_eq_recorded (ok.records_iff.not.mp hnot) hroom.ne (hfit hnot hroom)
          malloc
      rw [hget]
      refine ⟨rfl, ⟨s, rfl⟩, deref_recorded_new hpacked hinterned, ?_⟩
      intro i hi
      exact ok.deref_recorded hpacked hinterned hi

end Lookup

end PooledFuncTable

/-! ## Any sequence of lookups and resets -/

/-- The calls made to a table, with what `malloc` has left in new blocks of the pool. -/
inductive FuncTableOp where
  | getEntry (f : CalledFunction) (malloc : (ℕ → Char) × (ℕ → Char))
  | reset

namespace PooledFuncTable

/-- One call. -/
def step (t : PooledFuncTable) : FuncTableOp → PooledFuncTable
  | .getEntry f malloc => (funcTableGetEntry t f malloc).2
  | .reset => funcTableReset t

/-- One call on the table with names as values. -/
def stepByName (t : FuncTable) : FuncTableOp → FuncTable
  | .getEntry f _ => (t.getEntry f.toPhp).2
  | .reset => t.reset

/-- What a call is to do. -/
def ServesCall (t : PooledFuncTable) : FuncTableOp → Prop
  | .getEntry f malloc => t.Serves f malloc
  | .reset => (funcTableReset t).size = 0

/-- The names a call records fit into the pool. -/
def CallFits (t : PooledFuncTable) : FuncTableOp → Prop
  | .getEntry f _ => t.NamesFit f
  | .reset => True

/-- Every entry has its index and names of its own. -/
structure IndexesUniquely (t : PooledFuncTable) : Prop where
  size_le : t.size ≤ t.capacity
  idx_eq : ∀ i (entry : StoredEntry), t.entries[i]? = some entry → entry.idx = i
  named : ∀ i < t.size, ∃ f, t.deref (.entry i) = some f
  distinct : ∀ i j f, t.deref (.entry i) = some f → t.deref (.entry j) = some f → i = j

theorem Ok.indexesUniquely {t : PooledFuncTable} (ok : t.Ok) : t.IndexesUniquely where
  size_le := t.size_byName ▸ ok.named.size_le
  idx_eq := by
    intro i entry hentry
    obtain ⟨hi, rfl⟩ := List.getElem?_eq_some_iff.mp hentry
    have hidx := ok.named.idx_eq i (by simpa [byName] using hi)
    simpa [byName] using hidx
  named := by
    intro i hi
    obtain ⟨f, hf, -⟩ := ok.deref_entry hi
    exact ⟨f, hf⟩
  distinct := by
    intro i j f hi hj
    have hi := ok.deref_entry_eq_some_iff.mp hi
    have hj := ok.deref_entry_eq_some_iff.mp hj
    have hlt := (List.getElem?_eq_some_iff.mp hi).1
    exact (List.getElem?_inj hlt ok.named.nodup).mp (hi.trans hj.symm)

theorem Ok.servesCall_iff {t : PooledFuncTable} (ok : t.Ok) (op : FuncTableOp) :
    t.ServesCall op ↔ t.CallFits op := by
  cases op with
  | getEntry f malloc => exact ok.serves_iff malloc
  | reset => exact iff_of_true rfl trivial

/-- A call whose names fit is one on the table with names as values. -/
theorem Ok.step {t : PooledFuncTable} (ok : t.Ok) {op : FuncTableOp} (hfit : t.CallFits op) :
    (t.step op).Ok ∧ (t.step op).byName = stepByName t.byName op := by
  cases op with
  | getEntry f malloc =>
    obtain ⟨hok, -, hnamed⟩ := ok.getEntry_byName hfit malloc
    exact ⟨hok, hnamed⟩
  | reset => exact ⟨ok.reset, ok.byName_reset⟩

/-- **The tables with names in the pool and with names as values go through the same
states** in every run in which the names fit. -/
theorem Ok.run_byName {ops : List FuncTableOp} {t : PooledFuncTable} (ok : t.Ok)
    (hfit : EachStep PooledFuncTable.step CallFits ops t) :
    (ops.foldl PooledFuncTable.step t).byName = ops.foldl stepByName t.byName := by
  induction ops generalizing t with
  | nil => rfl
  | cons op ops ih =>
    obtain ⟨hok, hnamed⟩ := ok.step hfit.1
    rw [List.foldl_cons, List.foldl_cons, ← hnamed]
    exact ih hok hfit.2

end PooledFuncTable

/-- **The function table indexes functions uniquely** exactly as long as the names it records
fit into the pool: through any lookups and resets every entry has its own index and names, and
each lookup does what it is to do. -/
theorem func_table_indexes_uniquely_iff (hashCode : PhpFunction → UInt64) {capacity : ℕ}
    (hcapacity : 0 < capacity) (data : ℕ → Char) (ops : List FuncTableOp) :
    Throughout PooledFuncTable.step PooledFuncTable.IndexesUniquely ops
          (.create hashCode capacity data)
        ∧ EachStep PooledFuncTable.step PooledFuncTable.ServesCall ops
          (.create hashCode capacity data) ↔
      EachStep PooledFuncTable.step PooledFuncTable.CallFits ops
        (.create hashCode capacity data) := by
  have ok := PooledFuncTable.ok_create hashCode hcapacity data
  have hiff : EachStep PooledFuncTable.step PooledFuncTable.ServesCall ops
        (.create hashCode capacity data) ↔
      EachStep PooledFuncTable.step PooledFuncTable.CallFits ops (.create hashCode capacity data) :=
    eachStep_iff_of_invariant (V := fun _ _ => True) (fun _ op ok _ => ok.servesCall_iff op)
      (fun _ _ ok _ hfit => (ok.step hfit).1) ok
      ((eachStep_iff_forall_mem _ _ _).mpr fun _ _ => trivial)
  rw [hiff]
  refine and_iff_right_of_imp fun hfit => ?_
  exact Throughout.of_eachStep (fun _ ok => ok.indexesUniquely)
    (fun _ _ ok hfit => (ok.step hfit).1) ok hfit

namespace PooledFuncTable

/-- Names that fit are all that the calls need. -/
theorem eachStep_callFits {ops : List FuncTableOp}
    (h : ∀ f malloc, .getEntry f malloc ∈ ops → f.Fits) (t : PooledFuncTable) :
    EachStep step CallFits ops t := by
  induction ops generalizing t with
  | nil => trivial
  | cons op ops ih =>
    refine ⟨?_, ih (fun f malloc hmem => h f malloc (List.mem_cons_of_mem _ hmem)) _⟩
    cases op with
    | getEntry f malloc => exact fun _ _ => h f malloc List.mem_cons_self
    | reset => trivial

end PooledFuncTable

/-- Lookups of `a`, `A::f`, `B::f` and `g`, with a reset after the first one. -/
def collidingLookups : List FuncTableOp :=
  let malloc := (fun _ => 'x', fun _ => 'y')
  let none : NulTerminated := ⟨[], by decide⟩
  let f : NulTerminated := ⟨['f'], by decide⟩
  [.getEntry ⟨⟨['a'], by decide⟩, none⟩ malloc, .reset,
    .getEntry ⟨f, ⟨['A'], by decide⟩⟩ malloc, .getEntry ⟨f, ⟨['B'], by decide⟩⟩ malloc,
    .getEntry ⟨f, ⟨['A'], by decide⟩⟩ malloc, .getEntry ⟨⟨['g'], by decide⟩, none⟩ malloc]

/-- One hash code for all functions, and room for two of them. -/
theorem func_table_indexes_uniquely_colliding :
    Throughout PooledFuncTable.step PooledFuncTable.IndexesUniquely collidingLookups
        (.create (fun _ => 7) 2 fun _ => 'z')
      ∧ EachStep PooledFuncTable.step PooledFuncTable.ServesCall collidingLookups
        (.create (fun _ => 7) 2 fun _ => 'z')
      ∧ (collidingLookups.foldl PooledFuncTable.step
          (.create (fun _ => 7) 2 fun _ => 'z')).byName.functions = [⟨"f", "A"⟩, ⟨"f", "B"⟩] := by
  have h := (func_table_indexes_uniquely_iff (fun _ => 7) Nat.two_pos (fun _ => 'z')
    collidingLookups).mpr (PooledFuncTable.eachStep_callFits (by
      intro f malloc hmem
      simp only [collidingLookups, List.mem_cons, FuncTableOp.getEntry.injEq, reduceCtorEq,
        List.not_mem_nil, or_false, false_or] at hmem
      rcases hmem with ⟨rfl, -⟩ | ⟨rfl, -⟩ | ⟨rfl, -⟩ | ⟨rfl, -⟩ | ⟨rfl, -⟩ <;> decide) _)
  exact ⟨h.1, h.2, by decide +kernel⟩

/-- A function whose name needs a byte more than a block has, with its NUL. -/
def longNamed : CalledFunction := ⟨StringPool.longName, ⟨[], by decide⟩⟩

/-- **A long name is lost**: the function is given the entry `0`, whose name is not that of
the function. -/
theorem func_table_loses_long_name :
    let t := PooledFuncTable.create (fun _ => 7) 1 fun _ => 'x'
    let malloc := (fun _ => 'y', fun _ => 'z')
    (funcTableGetEntry t longNamed malloc).1 = some 0
      ∧ (funcTableGetEntry t longNamed malloc).2.deref (.entry 0) ≠ some longNamed.toPhp
      ∧ ¬EachStep PooledFuncTable.step PooledFuncTable.ServesCall
          [.getEntry longNamed malloc] t := by
  intro t malloc
  have ok : t.Ok := PooledFuncTable.ok_create (fun _ => 7) Nat.one_pos _
  have hfits : ¬longNamed.Fits := by
    intro h
    have hlen : StringPool.longName.strlen + 1 ≤ poolBlockSize := h.1
    have hstrlen : StringPool.longName.strlen = 8192 := List.length_replicate
    rw [hstrlen] at hlen
    exact absurd hlen (by decide)
  have hroom : t.size < t.capacity := Nat.one_pos
  have hnot : ¬t.Records longNamed := by
    rintro ⟨i, hi⟩
    cases hi
  obtain ⟨h', es, n, m, hnew⟩ := ok.ensureNew (ok.records_iff.not.mp hnot)
  obtain ⟨s, -, hidx, -, hentries, -⟩ := PooledFuncTable.getEntry_new hroom.ne hnew malloc
  refine ⟨hidx, ?_, ?_⟩
  · intro hderef
    rw [show (0 : ℕ) = t.size from rfl, PooledFuncTable.deref_last hentries] at hderef
    exact hfits (PooledFuncTable.fits_of_namesOf hderef)
  · intro h
    exact hfits ((ok.serves_iff malloc).mp h.1 hnot hroom)

end PhpSpx
