import Mathlib

/-!
# The hash map of `spx_hmap.c`

A fixed array of buckets, each the head of a chain of blocks of
`HSET_BUCKET_SIZE` slots.  A chain is modelled by the slots of its blocks in
order, `none` for a free one; appending a block is appending four free slots.
Memory allocation is taken to succeed.

* `bucketGetEntry` — the one search loop, with its `existing` flag: it stops at
  the first free slot, which is right because free slots are always at the end
  of a chain (`Packed`).
* `bucketGetEntry_existing` and `bucketGetEntry_ensure` — what the loop returns
  on a packed chain, in terms of the list of its entries.
* `hmapEnsureEntry_cases` and `hmapGetValue_hmapFill` — making an entry and
  giving it its value adds exactly one binding.
-/

namespace PhpSpx

/-- `spx_hmap_entry_t` with `free` unset.  The value is `none` until
`spx_hmap_entry_set_value` gives it one. -/
structure HmapEntry (K V : Type) where
  key : K
  value : Option V
  deriving DecidableEq, Repr

/-- The slots of a chain of `hmap_bucket_t`. -/
abbrev Bucket (K V : Type) := List (Option (HmapEntry K V))

/-- `HSET_BUCKET_SIZE`. -/
def hsetBucketSize : ℕ := 4

/-- `bucket_init`: one block, all slots free. -/
def bucketInit (K V : Type) : Bucket K V := List.replicate hsetBucketSize none

/-- `spx_hmap_t`. -/
structure Hmap (K V : Type) where
  hash : K → UInt64
  cmp : K → K → ℤ
  size : ℕ
  buckets : ℕ → Bucket K V

variable {K V : Type}

/-- `bucket_get_entry`: the slot found, whether it was taken just now (`*new`),
and the chain.  With `existing` no slot is ever taken. -/
def bucketGetEntry (cmp : K → K → ℤ) (key : K) (existing : Bool) :
    Bucket K V → Option (ℕ × Bool) × Bucket K V
  | [] =>
      -- the last block is full and has no successor
      if existing then (none, [])
      else (some (0, true), some ⟨key, none⟩ :: List.replicate (hsetBucketSize - 1) none)
  | none :: rest =>
      if existing then (none, none :: rest)
      else (some (0, true), some ⟨key, none⟩ :: rest)
  | some e :: rest =>
      if cmp key e.key = 0 then (some (0, false), some e :: rest)
      else
        let found := bucketGetEntry cmp key existing rest
        (found.1.map fun p => (p.1 + 1, p.2), some e :: found.2)

/-- `spx_hmap_create`. -/
def hmapCreate (size : ℕ) (hash : K → UInt64) (cmp : K → K → ℤ) : Hmap K V where
  hash := hash
  cmp := cmp
  size := size
  buckets := fun _ => bucketInit K V

/-- `spx_hmap_reset`. -/
def hmapReset (h : Hmap K V) : Hmap K V :=
  { h with buckets := fun i => if i < h.size then bucketInit K V else h.buckets i }

/-- The bucket of a key. -/
def Hmap.bucketIdx (h : Hmap K V) (key : K) : ℕ := (h.hash key).toNat % h.size

/-- Replace one chain. -/
def Hmap.setBucket (h : Hmap K V) (i : ℕ) (b : Bucket K V) : Hmap K V :=
  { h with buckets := Function.update h.buckets i b }

@[simp] theorem setBucket_hash (h : Hmap K V) (i : ℕ) (b : Bucket K V) :
    (h.setBucket i b).hash = h.hash := rfl

@[simp] theorem setBucket_cmp (h : Hmap K V) (i : ℕ) (b : Bucket K V) :
    (h.setBucket i b).cmp = h.cmp := rfl

@[simp] theorem setBucket_size (h : Hmap K V) (i : ℕ) (b : Bucket K V) :
    (h.setBucket i b).size = h.size := rfl

@[simp] theorem setBucket_bucketIdx (h : Hmap K V) (i : ℕ) (b : Bucket K V) (key : K) :
    (h.setBucket i b).bucketIdx key = h.bucketIdx key := rfl

@[simp] theorem setBucket_buckets_self (h : Hmap K V) (i : ℕ) (b : Bucket K V) :
    (h.setBucket i b).buckets i = b := Function.update_self ..

theorem setBucket_buckets_of_ne {h : Hmap K V} {i j : ℕ} (hij : j ≠ i) (b : Bucket K V) :
    (h.setBucket i b).buckets j = h.buckets j := Function.update_of_ne hij ..

@[simp] theorem setBucket_setBucket (h : Hmap K V) (i : ℕ) (b c : Bucket K V) :
    (h.setBucket i b).setBucket i c = h.setBucket i c := by
  simp [Hmap.setBucket]

@[simp] theorem setBucket_eq_self (h : Hmap K V) (i : ℕ) : h.setBucket i (h.buckets i) = h := by
  simp [Hmap.setBucket]

/-- `spx_hmap_ensure_entry`: the entry as bucket and slot, and `*new`. -/
def hmapEnsureEntry (h : Hmap K V) (key : K) : Option ((ℕ × ℕ) × Bool) × Hmap K V :=
  let b := h.bucketIdx key
  let found := bucketGetEntry h.cmp key false (h.buckets b)
  (found.1.map fun p => ((b, p.1), p.2), h.setBucket b found.2)

/-- The entry at a slot, if the slot is taken. -/
def Hmap.entryAt (h : Hmap K V) (pos : ℕ × ℕ) : Option (HmapEntry K V) :=
  (h.buckets pos.1)[pos.2]?.join

/-- Write an entry into a slot. -/
def Hmap.setEntry (h : Hmap K V) (pos : ℕ × ℕ) (e : HmapEntry K V) : Hmap K V :=
  h.setBucket pos.1 ((h.buckets pos.1).set pos.2 (some e))

/-- `spx_hmap_get_value`. -/
def hmapGetValue (h : Hmap K V) (key : K) : Option V :=
  let b := h.bucketIdx key
  match (bucketGetEntry h.cmp key true (h.buckets b)).1 with
  | none => none
  | some p => (h.entryAt (b, p.1)).bind HmapEntry.value

/-- `spx_hmap_set_entry_key`: only a key equal to the present one is accepted. -/
def hmapSetEntryKey (h : Hmap K V) (pos : ℕ × ℕ) (key : K) : ℤ × Hmap K V :=
  match h.entryAt pos with
  | none => (0, h)
  | some e => if h.cmp e.key key ≠ 0 then (0, h) else (1, h.setEntry pos { e with key := key })

/-- `spx_hmap_entry_set_value`. -/
def hmapEntrySetValue (h : Hmap K V) (pos : ℕ × ℕ) (value : V) : Hmap K V :=
  match h.entryAt pos with
  | none => h
  | some e => h.setEntry pos { e with value := some value }

/-- `spx_hmap_entry_get_value`. -/
def hmapEntryGetValue (h : Hmap K V) (pos : ℕ × ℕ) : Option V :=
  (h.entryAt pos).bind HmapEntry.value

/-! ## Packed chains -/

/-- The chain of the entries `es` followed by `n` free slots. -/
def packed (es : List (HmapEntry K V)) (n : ℕ) : Bucket K V :=
  es.map some ++ List.replicate n none

/-- Free slots form a suffix of the chain. -/
def Packed (b : Bucket K V) : Prop := ∃ es n, b = packed es n

theorem packed_cons (e : HmapEntry K V) (es : List (HmapEntry K V)) (n : ℕ) :
    packed (e :: es) n = some e :: packed es n := rfl

theorem packed_bucketInit : Packed (bucketInit K V) := ⟨[], hsetBucketSize, rfl⟩

theorem packed_getElem? (es : List (HmapEntry K V)) (n i : ℕ) (h : i < es.length) :
    (packed es n)[i]?.join = es[i]? := by
  simp [packed, List.getElem?_append_left, h]

theorem packed_set (es : List (HmapEntry K V)) (n i : ℕ) (h : i < es.length)
    (e : HmapEntry K V) : (packed es n).set i (some e) = packed (es.set i e) n := by
  rw [packed, List.set_append_left _ _ (by simpa using h), packed, List.map_set]

/-- Searching an existing entry leaves the chain alone and finds the first
entry with an equal key. -/
theorem bucketGetEntry_existing (cmp : K → K → ℤ) (key : K) (es : List (HmapEntry K V)) (n : ℕ) :
    bucketGetEntry cmp key true (packed es n)
      = ((es.findIdx? fun e => cmp key e.key = 0).map fun i => (i, false), packed es n) := by
  induction es with
  | nil => cases n <;> rfl
  | cons e es ih =>
    rw [packed_cons, bucketGetEntry, List.findIdx?_cons]
    by_cases he : cmp key e.key = 0
    · simp [he]
    · simp only [he, if_false, decide_false, Bool.false_eq_true, ih]
      cases es.findIdx? fun e => decide (cmp key e.key = 0) <;> rfl

/-- Ensuring an entry finds the first entry with an equal key or appends one. -/
theorem bucketGetEntry_ensure (cmp : K → K → ℤ) (key : K) (es : List (HmapEntry K V)) (n : ℕ) :
    ∃ m, bucketGetEntry cmp key false (packed es n)
      = match es.findIdx? fun e => cmp key e.key = 0 with
        | some i => (some (i, false), packed es n)
        | none => (some (es.length, true), packed (es ++ [⟨key, none⟩]) m) := by
  induction es with
  | nil =>
    cases n with
    | zero => exact ⟨hsetBucketSize - 1, rfl⟩
    | succ n => exact ⟨n, rfl⟩
  | cons e es ih =>
    obtain ⟨m, ih⟩ := ih
    refine ⟨m, ?_⟩
    rw [packed_cons, bucketGetEntry, List.findIdx?_cons]
    by_cases he : cmp key e.key = 0
    · simp [he]
    · simp only [he, if_false, decide_false, Bool.false_eq_true, ih]
      cases es.findIdx? fun e => decide (cmp key e.key = 0) <;> rfl

/-! ## Well-formed maps -/

/-- Every chain is packed. -/
def Hmap.WF (h : Hmap K V) : Prop := ∀ i, Packed (h.buckets i)

theorem wf_hmapCreate (size : ℕ) (hash : K → UInt64) (cmp : K → K → ℤ) :
    (hmapCreate size hash cmp : Hmap K V).WF := fun _ => packed_bucketInit

theorem wf_hmapReset {h : Hmap K V} (wf : h.WF) : (hmapReset h).WF := by
  intro i
  show Packed (if i < h.size then bucketInit K V else h.buckets i)
  split
  · exact packed_bucketInit
  · exact wf i

/-- Every taken slot was given a value. -/
def Hmap.Filled (h : Hmap K V) : Prop := ∀ i e, some e ∈ h.buckets i → e.value.isSome

theorem not_mem_bucketInit (e : HmapEntry K V) : some e ∉ bucketInit K V := by
  simp [bucketInit]

theorem filled_hmapCreate (size : ℕ) (hash : K → UInt64) (cmp : K → K → ℤ) :
    (hmapCreate size hash cmp : Hmap K V).Filled :=
  fun _ e he => absurd he (not_mem_bucketInit e)

theorem filled_hmapReset {h : Hmap K V} (hf : h.Filled) : (hmapReset h).Filled := by
  intro i e he
  change some e ∈ (if i < h.size then bucketInit K V else h.buckets i) at he
  split at he
  · exact absurd he (not_mem_bucketInit e)
  · exact hf i e he

theorem entryAt_mem {h : Hmap K V} {pos : ℕ × ℕ} {e : HmapEntry K V}
    (he : h.entryAt pos = some e) : some e ∈ h.buckets pos.1 := by
  rw [Hmap.entryAt, Option.join_eq_some_iff] at he
  exact List.mem_of_getElem? he

/-- Reading a packed chain. -/
theorem hmapGetValue_packed {h : Hmap K V} {key : K} {es : List (HmapEntry K V)} {n : ℕ}
    (hb : h.buckets (h.bucketIdx key) = packed es n) :
    hmapGetValue h key = (es.find? fun e => h.cmp key e.key = 0).bind HmapEntry.value := by
  simp only [hmapGetValue, hb, bucketGetEntry_existing]
  cases hf : es.findIdx? fun e => decide (h.cmp key e.key = 0) with
  | none =>
    have hnone : es.find? (fun e => decide (h.cmp key e.key = 0)) = none := by
      rw [List.findIdx?_eq_none_iff] at hf
      exact List.find?_eq_none.2 fun e he => by simp [hf e he]
    simp [hnone]
  | some i =>
    obtain ⟨hi, hp, hlt⟩ := List.findIdx?_eq_some_iff_getElem.1 hf
    have hfind : es.find? (fun e => decide (h.cmp key e.key = 0)) = some es[i] := by
      rw [List.find?_eq_some_iff_getElem]
      exact ⟨hp, i, hi, rfl, fun j hj => by simpa using hlt j hj⟩
    simp [Hmap.entryAt, hb, packed_getElem? es n i hi, hfind, List.getElem?_eq_getElem hi]

/-- A map all of whose buckets in range are fresh holds nothing. -/
theorem hmapGetValue_hmapReset {h : Hmap K V} (hsize : 0 < h.size) (key : K) :
    hmapGetValue (hmapReset h) key = none := by
  have hlt : (hmapReset h).bucketIdx key < h.size := Nat.mod_lt _ hsize
  have hb : (hmapReset h).buckets ((hmapReset h).bucketIdx key) = packed [] hsetBucketSize := by
    show (if _ < h.size then bucketInit K V else _) = _
    rw [if_pos hlt]
    rfl
  rw [hmapGetValue_packed hb]
  rfl

theorem hmapGetValue_hmapCreate (size : ℕ) (hash : K → UInt64) (cmp : K → K → ℤ) (key : K) :
    hmapGetValue (hmapCreate size hash cmp : Hmap K V) key = none := by
  have hb : (hmapCreate size hash cmp : Hmap K V).buckets
      ((hmapCreate size hash cmp : Hmap K V).bucketIdx key) = packed [] hsetBucketSize := rfl
  rw [hmapGetValue_packed hb]
  rfl

/-- The comparison is an equivalence with which the hash is compatible. -/
structure Hmap.LawfulKeys (h : Hmap K V) : Prop where
  refl : ∀ a, h.cmp a a = 0
  symm : ∀ a b, h.cmp a b = 0 → h.cmp b a = 0
  trans : ∀ a b c, h.cmp a b = 0 → h.cmp b c = 0 → h.cmp a c = 0
  hash_eq : ∀ a b, h.cmp a b = 0 → h.hash a = h.hash b

/-- What `spx_hmap_ensure_entry` does when an equal key is present. -/
structure EnsureFound (h : Hmap K V) (key : K) (pos : ℕ × ℕ) : Prop where
  ensure : hmapEnsureEntry h key = (some (pos, false), h)
  value : hmapEntryGetValue h pos = hmapGetValue h key
  taken : ∃ e, h.entryAt pos = some e ∧ h.cmp key e.key = 0

/-- What it does when there is none: the entry is the first one past the `es`
of the key's chain. -/
structure EnsureNew (h h' : Hmap K V) (key : K) (es : List (HmapEntry K V)) (n m : ℕ) : Prop where
  ensure : hmapEnsureEntry h key = (some ((h.bucketIdx key, es.length), true), h')
  before : h.buckets (h.bucketIdx key) = packed es n
  after : h' = h.setBucket (h.bucketIdx key) (packed (es ++ [⟨key, none⟩]) m)
  absent : es.find? (fun e => h.cmp key e.key = 0) = none

theorem hmapEnsureEntry_cases {h : Hmap K V} (wf : h.WF) (key : K) :
    (∃ pos, EnsureFound h key pos) ∨ ∃ h' es n m, EnsureNew h h' key es n m := by
  obtain ⟨es, n, hb⟩ := wf (h.bucketIdx key)
  obtain ⟨m, hm⟩ := bucketGetEntry_ensure h.cmp key es n
  cases hf : es.findIdx? fun e => decide (h.cmp key e.key = 0) with
  | some i =>
    obtain ⟨hi, hp, hlt⟩ := List.findIdx?_eq_some_iff_getElem.1 hf
    have hat : h.entryAt (h.bucketIdx key, i) = some es[i] := by
      simp [Hmap.entryAt, hb, packed_getElem? es n i hi]
    have hfind : es.find? (fun e => decide (h.cmp key e.key = 0)) = some es[i] := by
      rw [List.find?_eq_some_iff_getElem]
      exact ⟨hp, i, hi, rfl, fun j hj => by simpa using hlt j hj⟩
    refine Or.inl ⟨(h.bucketIdx key, i), ?_, ?_, es[i], hat, by simpa using hp⟩
    · rw [hf] at hm
      simp only [hmapEnsureEntry, hb, hm, Option.map_some]
      rw [← hb, setBucket_eq_self]
    · rw [hmapEntryGetValue, hat, hmapGetValue_packed hb, hfind]
  | none =>
    refine Or.inr ⟨_, es, n, m, ?_, hb, rfl, ?_⟩
    · rw [hf] at hm
      simp only [hmapEnsureEntry, hb, hm, Option.map_some]
    · rw [List.findIdx?_eq_none_iff] at hf
      exact List.find?_eq_none.2 fun e he => by simp [hf e he]

/-- Writing the value of the last entry of a chain. -/
theorem hmapEntrySetValue_last {h : Hmap K V} {i m : ℕ} {es : List (HmapEntry K V)}
    {e : HmapEntry K V} (hb : h.buckets i = packed (es ++ [e]) m) (value : V) :
    hmapEntrySetValue h (i, es.length) value =
      h.setBucket i (packed (es ++ [{ e with value := some value }]) m) := by
  have hlen : es.length < (es ++ [e]).length := by simp
  simp [hmapEntrySetValue, Hmap.entryAt, Hmap.setEntry, hb, packed_getElem? _ m _ hlen,
    packed_set _ m _ hlen]

/-- Rebinding the key of the last entry of a chain. -/
theorem hmapSetEntryKey_last {h : Hmap K V} {i m : ℕ} {es : List (HmapEntry K V)}
    {e : HmapEntry K V} (hb : h.buckets i = packed (es ++ [e]) m) {key : K}
    (hcmp : h.cmp e.key key = 0) :
    hmapSetEntryKey h (i, es.length) key =
      (1, h.setBucket i (packed (es ++ [{ e with key := key }]) m)) := by
  have hlen : es.length < (es ++ [e]).length := by simp
  simp [hmapSetEntryKey, Hmap.entryAt, Hmap.setEntry, hb, packed_getElem? _ m _ hlen,
    packed_set _ m _ hlen, hcmp]

/-- The map after a new entry was given its value and its final key. -/
def hmapFill (h : Hmap K V) (pos : ℕ × ℕ) (key : K) (value : V) : Hmap K V :=
  (hmapSetEntryKey (hmapEntrySetValue h pos value) pos key).2

theorem hmapFill_new {h h' : Hmap K V} {key : K} {es : List (HmapEntry K V)} {n m : ℕ}
    (hn : EnsureNew h h' key es n m) (hrefl : h.cmp key key = 0) (value : V) :
    hmapFill h' (h.bucketIdx key, es.length) key value =
      h.setBucket (h.bucketIdx key) (packed (es ++ [⟨key, some value⟩]) m) := by
  have hbucket : h'.buckets (h.bucketIdx key) = packed (es ++ [⟨key, none⟩]) m := by
    rw [hn.after, setBucket_buckets_self]
  have hvalue := hmapEntrySetValue_last hbucket value
  have hcmp : h'.cmp key key = 0 := by
    rw [hn.after]
    exact hrefl
  rw [hmapFill, hvalue,
    hmapSetEntryKey_last (e := ⟨key, some value⟩) (setBucket_buckets_self ..) hcmp,
    setBucket_setBucket, hn.after, setBucket_setBucket]

/-- **Filling a new entry adds one binding**: it is read back under every equal
key, and every other key reads as before. -/
theorem hmapGetValue_hmapFill {h h' : Hmap K V} (wf : h.WF) (hk : h.LawfulKeys) {key : K}
    {es : List (HmapEntry K V)} {n m : ℕ} (hn : EnsureNew h h' key es n m) (value : V) (k : K) :
    hmapGetValue (hmapFill h' (h.bucketIdx key, es.length) key value) k
      = if h.cmp k key = 0 then some value else hmapGetValue h k := by
  set h'' : Hmap K V := h.setBucket (h.bucketIdx key) (packed (es ++ [⟨key, some value⟩]) m)
    with hh
  rw [hmapFill_new hn (hk.refl key)]
  by_cases hidx : h.bucketIdx k = h.bucketIdx key
  · have hbk : h''.buckets (h''.bucketIdx k) = packed (es ++ [⟨key, some value⟩]) m := by
      show Function.update h.buckets _ _ (h.bucketIdx k) = _
      rw [hidx, Function.update_self]
    rw [hmapGetValue_packed hbk, hmapGetValue_packed (hidx ▸ hn.before), List.find?_append]
    by_cases hcmp : h.cmp k key = 0
    · have habsent : es.find? (fun e => decide (h.cmp k e.key = 0)) = none := by
        refine List.find?_eq_none.2 fun e he => ?_
        have hkey := List.find?_eq_none.1 hn.absent e he
        intro hke
        exact hkey (by simpa using hk.trans _ _ _ (hk.symm _ _ hcmp) (by simpa using hke))
      simp [hh, habsent, hcmp]
    · simp [hh, hcmp]
  · have hcmp : h.cmp k key ≠ 0 := fun hc => hidx (by simp [Hmap.bucketIdx, hk.hash_eq k key hc])
    obtain ⟨es', n', hb'⟩ := wf (h.bucketIdx k)
    have hbk : h''.buckets (h''.bucketIdx k) = packed es' n' := by
      rw [hh, setBucket_bucketIdx, setBucket_buckets_of_ne hidx, hb']
    rw [hmapGetValue_packed hbk, hmapGetValue_packed hb', if_neg hcmp, hh, setBucket_cmp]

theorem wf_hmapFill {h h' : Hmap K V} (wf : h.WF) (hk : h.LawfulKeys) {key : K}
    {es : List (HmapEntry K V)} {n m : ℕ} (hn : EnsureNew h h' key es n m) (value : V) :
    (hmapFill h' (h.bucketIdx key, es.length) key value).WF := by
  rw [hmapFill_new hn (hk.refl key)]
  intro i
  by_cases hi : i = h.bucketIdx key
  · subst hi
    rw [setBucket_buckets_self]
    exact ⟨_, _, rfl⟩
  · rw [setBucket_buckets_of_ne hi]
    exact wf i

theorem filled_hmapFill {h h' : Hmap K V} (hf : h.Filled) (hk : h.LawfulKeys) {key : K}
    {es : List (HmapEntry K V)} {n m : ℕ} (hn : EnsureNew h h' key es n m) (value : V) :
    (hmapFill h' (h.bucketIdx key, es.length) key value).Filled := by
  rw [hmapFill_new hn (hk.refl key)]
  intro i e he
  by_cases hi : i = h.bucketIdx key
  · subst hi
    rw [setBucket_buckets_self] at he
    have hmem : some e ∈ packed es n ∨ e = ⟨key, some value⟩ := by
      simp only [packed, List.mem_append, List.mem_map, List.mem_replicate] at he ⊢
      aesop
    rcases hmem with hmem | rfl
    · exact hf _ e (hn.before ▸ hmem)
    · rfl
  · rw [setBucket_buckets_of_ne hi] at he
    exact hf i e he

/-! ## Maps with the same chains under other keys -/

variable {K' : Type}

/-- An entry under the key that `φ` makes of its own. -/
def HmapEntry.mapKey (φ : K → K') (e : HmapEntry K V) : HmapEntry K' V := ⟨φ e.key, e.value⟩

/-- A chain whose entries have the keys that `φ` makes of theirs. -/
def bucketMapKey (φ : K → K') (b : Bucket K V) : Bucket K' V :=
  b.map (Option.map (HmapEntry.mapKey φ))

theorem bucketMapKey_packed (φ : K → K') (es : List (HmapEntry K V)) (n : ℕ) :
    bucketMapKey φ (packed es n) = packed (es.map (HmapEntry.mapKey φ)) n := by
  simp [bucketMapKey, packed, Function.comp_def]

/-- A chain is packed when it is under other keys. -/
theorem packed_of_bucketMapKey {φ : K → K'} {b : Bucket K V} (h : Packed (bucketMapKey φ b)) :
    Packed b := by
  obtain ⟨es, n, hes⟩ := h
  induction b generalizing es n with
  | nil => exact ⟨[], 0, rfl⟩
  | cons slot rest ih =>
    rw [bucketMapKey, List.map_cons] at hes
    cases es with
    | nil =>
      -- nothing but free slots
      cases n with
      | zero => simp [packed] at hes
      | succ n =>
        obtain ⟨hslot, hrest⟩ := List.cons.inj hes
        have hfree : ∀ slot' ∈ rest, slot' = none := by
          intro slot' hslot'
          have hmem := List.mem_map_of_mem (f := Option.map (HmapEntry.mapKey φ)) hslot'
          rw [hrest] at hmem
          exact Option.map_eq_none_iff.mp (List.eq_of_mem_replicate hmem)
        refine ⟨[], rest.length + 1, ?_⟩
        rw [Option.map_eq_none_iff.mp hslot, List.eq_replicate_of_mem hfree]
        simp [packed, List.replicate_succ]
    | cons e es =>
      obtain ⟨hslot, hrest⟩ := List.cons.inj hes
      obtain ⟨es', n', hes'⟩ := ih es n hrest
      obtain ⟨e', rfl, -⟩ := Option.map_eq_some_iff.mp hslot
      exact ⟨e' :: es', n', by rw [packed_cons, hes']⟩

/-- The search compares equal keys only, so it goes the same way under other keys. -/
theorem bucketGetEntry_mapKey {cmp : K → K → ℤ} {cmp' : K' → K' → ℤ} {φ : K → K'} {key : K}
    (existing : Bool) {b : Bucket K V}
    (hcmp : ∀ e, some e ∈ b → (cmp' (φ key) (φ e.key) = 0 ↔ cmp key e.key = 0)) :
    bucketGetEntry cmp' (φ key) existing (bucketMapKey φ b) =
      ((bucketGetEntry cmp key existing b).1,
        bucketMapKey φ (bucketGetEntry cmp key existing b).2) := by
  induction b with
  | nil => cases existing <;> simp [bucketMapKey, bucketGetEntry, HmapEntry.mapKey]
  | cons slot rest ih =>
    cases slot with
    | none => cases existing <;> simp [bucketMapKey, bucketGetEntry, HmapEntry.mapKey]
    | some e =>
      have hrest := ih fun e' he' => hcmp e' (List.mem_cons_of_mem _ he')
      have hhead := hcmp e List.mem_cons_self
      rw [bucketMapKey] at hrest ⊢
      by_cases he : cmp key e.key = 0
      · simp [bucketGetEntry, he, hhead.mpr he, HmapEntry.mapKey, bucketMapKey]
      · simp [bucketGetEntry, he, hhead.not.mpr he, HmapEntry.mapKey, bucketMapKey, hrest]

/-- `h'` has the chains of `h` under the keys that `φ` makes of theirs, and `key` is hashed
and compared alike in both. -/
structure Renamed (φ : K → K') (h : Hmap K V) (h' : Hmap K' V) (key : K) : Prop where
  size_eq : h'.size = h.size
  buckets_eq : ∀ i, h'.buckets i = bucketMapKey φ (h.buckets i)
  hash_eq : h'.hash (φ key) = h.hash key
  cmp_iff : ∀ i e, some e ∈ h.buckets i → (h'.cmp (φ key) (φ e.key) = 0 ↔ h.cmp key e.key = 0)

namespace Renamed

variable {φ : K → K'} {h : Hmap K V} {h' : Hmap K' V} {key : K} (r : Renamed φ h h' key)

include r

theorem bucketIdx_eq : h'.bucketIdx (φ key) = h.bucketIdx key := by
  rw [Hmap.bucketIdx, Hmap.bucketIdx, r.hash_eq, r.size_eq]

theorem entryAt_eq (pos : ℕ × ℕ) :
    h'.entryAt pos = (h.entryAt pos).map (HmapEntry.mapKey φ) := by
  simp only [Hmap.entryAt, r.buckets_eq, bucketMapKey, List.getElem?_map]
  cases (h.buckets pos.1)[pos.2]? with
  | none => rfl
  | some slot => rfl

/-- The same value is read. -/
theorem getValue_eq : hmapGetValue h' (φ key) = hmapGetValue h key := by
  have hsearch := bucketGetEntry_mapKey true (r.cmp_iff (h.bucketIdx key))
  simp only [hmapGetValue, r.bucketIdx_eq, r.buckets_eq, hsearch, r.entryAt_eq]
  cases (bucketGetEntry h.cmp key true (h.buckets (h.bucketIdx key))).1 with
  | none => rfl
  | some p =>
    cases hentry : h.entryAt (h.bucketIdx key, p.1) with
    | none => simp [hentry]
    | some e => simp [hentry, HmapEntry.mapKey]

/-- The same slot is taken. -/
theorem ensureNew {hnew : Hmap K V} {es : List (HmapEntry K V)} {n m : ℕ}
    (hn : EnsureNew h hnew key es n m) :
    EnsureNew h'
      (h'.setBucket (h.bucketIdx key) (packed (es.map (HmapEntry.mapKey φ) ++ [⟨φ key, none⟩]) m))
      (φ key) (es.map (HmapEntry.mapKey φ)) n m where
  ensure := by
    have hsearch := bucketGetEntry_mapKey false (r.cmp_iff (h.bucketIdx key))
    obtain ⟨hfound, hmap⟩ := Prod.mk.inj hn.ensure
    rw [hn.after] at hmap
    have hbucket := congrArg (fun map => map.buckets (h.bucketIdx key)) hmap
    simp only [setBucket_buckets_self] at hbucket
    have hslot : (bucketGetEntry h.cmp key false (h.buckets (h.bucketIdx key))).1
        = some (es.length, true) := by
      obtain ⟨p, hp, hpos⟩ := Option.map_eq_some_iff.mp hfound
      obtain ⟨hplace, hflag⟩ := Prod.mk.inj hpos
      rw [hp, ← hflag, ← (Prod.mk.inj hplace).2]
    simp only [hmapEnsureEntry, r.bucketIdx_eq, r.buckets_eq, hsearch, hslot, hbucket,
      bucketMapKey_packed, Option.map_some, List.map_append, List.length_map]
    rfl
  before := by rw [r.bucketIdx_eq, r.buckets_eq, hn.before, bucketMapKey_packed]
  after := by rw [r.bucketIdx_eq]
  absent := by
    have hall := List.find?_eq_none.mp hn.absent
    apply List.find?_eq_none.mpr
    intro e he
    obtain ⟨e', he', rfl⟩ := List.mem_map.mp he
    have hmem : some e' ∈ h.buckets (h.bucketIdx key) := by
      rw [hn.before]
      exact List.mem_append_left _ (List.mem_map_of_mem he')
    have hiff := r.cmp_iff _ e' hmem
    simpa [HmapEntry.mapKey, hiff] using hall e' he'

end Renamed

end PhpSpx
