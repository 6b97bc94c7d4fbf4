import PhpSpx.Profiler.Hmap

/-!
# The hash map as a finite map

A client of `spx_hmap_t` keeps the entries it was given and calls the functions of
the map in any order.  What it reads is what a finite map would answer, the keys
being taken up to the comparison.

* `Hmap.Ok` — the invariant: packed chains, every entry in the bucket of its key,
  and no two entries with equal keys.
* `Writes` — a map that differs from another one in one entry.
* `hmap_is_finite_map` — the invariant and the answers after any sequence of calls.
-/

namespace PhpSpx

variable {K V : Type}

/-! ## Entries by their place -/

theorem entryAt_of_packed {h : Hmap K V} {i n : ℕ} {es : List (HmapEntry K V)}
    (hb : h.buckets i = packed es n) (j : ℕ) : h.entryAt (i, j) = es[j]? := by
  rw [Hmap.entryAt, hb]
  by_cases hj : j < es.length
  · exact packed_getElem? es n j hj
  · have hlen : es.length ≤ j := not_lt.mp hj
    rw [packed, List.getElem?_append_right (by simpa using hlen), List.getElem?_eq_none hlen,
      List.getElem?_replicate]
    split <;> rfl

/-- Every chain is packed, every entry is in the bucket of its key, and the keys of
two entries are not equal. -/
structure Hmap.Ok (h : Hmap K V) : Prop where
  size_pos : 0 < h.size
  lawful : h.LawfulKeys
  wf : h.WF
  bucket : ∀ pos e, h.entryAt pos = some e → pos.1 = h.bucketIdx e.key
  distinct : ∀ pos pos' e e', h.entryAt pos = some e → h.entryAt pos' = some e' →
    h.cmp e.key e'.key = 0 → pos = pos'

theorem Hmap.LawfulKeys.bucketIdx_eq {h : Hmap K V} (lawful : h.LawfulKeys) {a b : K}
    (hcmp : h.cmp a b = 0) : h.bucketIdx a = h.bucketIdx b := by
  rw [Hmap.bucketIdx, Hmap.bucketIdx, lawful.hash_eq a b hcmp]

/-- Two keys equal to a third one are equal. -/
theorem Hmap.LawfulKeys.equal {h : Hmap K V} (lawful : h.LawfulKeys) {a b c : K}
    (hab : h.cmp a b = 0) (hac : h.cmp a c = 0) : h.cmp b c = 0 :=
  lawful.trans _ _ _ (lawful.symm _ _ hab) hac

theorem entryAt_hmapCreate (size : ℕ) (hash : K → UInt64) (cmp : K → K → ℤ) (pos : ℕ × ℕ) :
    (hmapCreate size hash cmp : Hmap K V).entryAt pos = none := by
  have hb : (hmapCreate size hash cmp : Hmap K V).buckets pos.1 = packed [] hsetBucketSize := rfl
  exact entryAt_of_packed hb pos.2

theorem ok_hmapCreate {size : ℕ} (hsize : 0 < size) {hash : K → UInt64} {cmp : K → K → ℤ}
    (lawful : (hmapCreate size hash cmp : Hmap K V).LawfulKeys) :
    (hmapCreate size hash cmp : Hmap K V).Ok where
  size_pos := hsize
  lawful := lawful
  wf := wf_hmapCreate size hash cmp
  bucket := fun pos _ he => nomatch (entryAt_hmapCreate size hash cmp pos).symm.trans he
  distinct := fun pos _ _ _ he => nomatch (entryAt_hmapCreate size hash cmp pos).symm.trans he

/-- The buckets past the last one are never used, so nothing is left. -/
theorem Hmap.Ok.entryAt_hmapReset {h : Hmap K V} (ok : h.Ok) (pos : ℕ × ℕ) :
    (hmapReset h).entryAt pos = none := by
  by_cases hlt : pos.1 < h.size
  · have hb : (hmapReset h).buckets pos.1 = packed [] hsetBucketSize := if_pos hlt
    exact entryAt_of_packed hb pos.2
  · have hsame : (hmapReset h).entryAt pos = h.entryAt pos := by
      have hb : (hmapReset h).buckets pos.1 = h.buckets pos.1 := if_neg hlt
      rw [Hmap.entryAt, hb, Hmap.entryAt]
    rw [hsame]
    cases hat : h.entryAt pos with
    | none => rfl
    | some e =>
      rw [ok.bucket pos e hat] at hlt
      exact absurd (Nat.mod_lt _ ok.size_pos) hlt

theorem Hmap.Ok.reset {h : Hmap K V} (ok : h.Ok) : (hmapReset h).Ok where
  size_pos := ok.size_pos
  lawful := ⟨ok.lawful.refl, ok.lawful.symm, ok.lawful.trans, ok.lawful.hash_eq⟩
  wf := wf_hmapReset ok.wf
  bucket := fun pos _ he => nomatch (ok.entryAt_hmapReset pos).symm.trans he
  distinct := fun pos _ _ _ he => nomatch (ok.entryAt_hmapReset pos).symm.trans he

/-! ## What the functions return -/

/-- A key equal to that of an entry is found there. -/
theorem Hmap.Ok.hmapEnsureEntry_taken {h : Hmap K V} (ok : h.Ok) {pos : ℕ × ℕ}
    {e : HmapEntry K V} (hat : h.entryAt pos = some e) {k : K} (hk : h.cmp k e.key = 0) :
    EnsureFound h k pos := by
  rcases hmapEnsureEntry_cases ok.wf k with ⟨pos', hfound⟩ | ⟨h', es, n, m, hnew⟩
  · obtain ⟨e', hat', hk'⟩ := hfound.taken
    rwa [ok.distinct pos pos' e e' hat hat' (ok.lawful.equal hk hk')]
  · have hidx : pos.1 = h.bucketIdx k :=
      (ok.bucket pos e hat).trans (ok.lawful.bucketIdx_eq hk).symm
    have hget : h.entryAt pos = es[pos.2]? := entryAt_of_packed (hidx ▸ hnew.before) pos.2
    have hmem : e ∈ es := List.mem_of_getElem? (hget.symm.trans hat)
    exact absurd (List.find?_eq_none.mp hnew.absent e hmem) (by simp [hk])

theorem Hmap.Ok.hmapGetValue_taken {h : Hmap K V} (ok : h.Ok) {pos : ℕ × ℕ}
    {e : HmapEntry K V} (hat : h.entryAt pos = some e) {k : K} (hk : h.cmp k e.key = 0) :
    hmapGetValue h k = e.value := by
  rw [← (ok.hmapEnsureEntry_taken hat hk).value, hmapEntryGetValue, hat, Option.bind_some]

/-- A key unequal to those of all entries is not found. -/
theorem Hmap.Ok.hmapEnsureEntry_absent {h : Hmap K V} (ok : h.Ok) {k : K}
    (habsent : ∀ pos e, h.entryAt pos = some e → h.cmp k e.key ≠ 0) :
    ∃ h' es n m, EnsureNew h h' k es n m := by
  rcases hmapEnsureEntry_cases ok.wf k with ⟨pos, hfound⟩ | hnew
  · obtain ⟨e, hat, hk⟩ := hfound.taken
    exact absurd hk (habsent pos e hat)
  · exact hnew

theorem Hmap.Ok.hmapGetValue_absent {h : Hmap K V} (ok : h.Ok) {k : K}
    (habsent : ∀ pos e, h.entryAt pos = some e → h.cmp k e.key ≠ 0) : hmapGetValue h k = none := by
  obtain ⟨h', es, n, m, hnew⟩ := ok.hmapEnsureEntry_absent habsent
  rw [hmapGetValue_packed hnew.before, hnew.absent, Option.bind_none]

/-! ## One entry written -/

/-- The map `h'` is `h` with the entry `e'` at `pos`. -/
structure Writes (h h' : Hmap K V) (pos : ℕ × ℕ) (e' : HmapEntry K V) : Prop where
  hash_eq : h'.hash = h.hash
  cmp_eq : h'.cmp = h.cmp
  size_eq : h'.size = h.size
  wf : h'.WF
  entryAt_eq : ∀ p, h'.entryAt p = if p = pos then some e' else h.entryAt p

theorem wf_setBucket {h : Hmap K V} (wf : h.WF) (i : ℕ) (es : List (HmapEntry K V)) (n : ℕ) :
    (h.setBucket i (packed es n)).WF := by
  intro j
  by_cases hj : j = i
  · subst hj
    rw [setBucket_buckets_self]
    exact ⟨es, n, rfl⟩
  · rw [setBucket_buckets_of_ne hj]
    exact wf j

/-- A chain is replaced by one with the same entries but for one of them. -/
theorem writes_setBucket {h : Hmap K V} (wf : h.WF) {i n n' j : ℕ} {es es' : List (HmapEntry K V)}
    {e' : HmapEntry K V} (hb : h.buckets i = packed es n)
    (hes : ∀ k, es'[k]? = if k = j then some e' else es[k]?) :
    Writes h (h.setBucket i (packed es' n')) (i, j) e' where
  hash_eq := rfl
  cmp_eq := rfl
  size_eq := rfl
  wf := wf_setBucket wf i es' n'
  entryAt_eq := by
    rintro ⟨i', k⟩
    by_cases hi : i' = i
    · subst hi
      rw [entryAt_of_packed (setBucket_buckets_self h i' _) k, entryAt_of_packed hb k, hes k]
      simp only [Prod.mk.injEq, true_and]
    · rw [if_neg fun heq => hi (congrArg Prod.fst heq), Hmap.entryAt, Hmap.entryAt,
        setBucket_buckets_of_ne hi]

/-- An entry is written over another one. -/
theorem writes_setEntry {h : Hmap K V} (wf : h.WF) {pos : ℕ × ℕ} {e e' : HmapEntry K V}
    (hat : h.entryAt pos = some e) : Writes h (h.setEntry pos e') pos e' := by
  obtain ⟨es, n, hb⟩ := wf pos.1
  have hget : es[pos.2]? = some e := (entryAt_of_packed hb pos.2).symm.trans hat
  obtain ⟨hlt, -⟩ := List.getElem?_eq_some_iff.mp hget
  rw [Hmap.setEntry, hb, packed_set es n pos.2 hlt]
  apply writes_setBucket wf hb
  intro k
  rw [List.getElem?_set]
  by_cases hk : pos.2 = k
  · rw [if_pos hk, if_pos hk.symm, if_pos (hk ▸ hlt)]
  · rw [if_neg hk, if_neg (Ne.symm hk)]

/-- A new entry is given its value. -/
theorem EnsureNew.writes {h h' : Hmap K V} {key : K} {es : List (HmapEntry K V)} {n m : ℕ}
    (hnew : EnsureNew h h' key es n m) (wf : h.WF) (value : V) :
    Writes h (hmapEntrySetValue h' (h.bucketIdx key, es.length) value)
      (h.bucketIdx key, es.length) ⟨key, some value⟩ := by
  have hlen : es.length < (es ++ [(⟨key, none⟩ : HmapEntry K V)]).length := by simp
  have hvalue : hmapEntrySetValue h' (h.bucketIdx key, es.length) value =
      h.setBucket (h.bucketIdx key) (packed (es ++ [⟨key, some value⟩]) m) := by
    rw [hnew.after]
    simp [hmapEntrySetValue, Hmap.entryAt, Hmap.setEntry, packed_getElem? _ m _ hlen,
      packed_set _ m _ hlen]
  rw [hvalue]
  apply writes_setBucket wf hnew.before
  intro k
  rcases lt_trichotomy k es.length with hk | hk | hk
  · rw [List.getElem?_append_left hk, if_neg hk.ne]
  · rw [hk, if_pos rfl, List.getElem?_append_right le_rfl, Nat.sub_self]
    rfl
  · rw [if_neg hk.ne', List.getElem?_eq_none (by simp; omega), List.getElem?_eq_none hk.le]

/-- The place of a new entry was free. -/
theorem EnsureNew.free {h h' : Hmap K V} {key : K} {es : List (HmapEntry K V)} {n m : ℕ}
    (hnew : EnsureNew h h' key es n m) : h.entryAt (h.bucketIdx key, es.length) = none := by
  rw [entryAt_of_packed hnew.before, List.getElem?_eq_none le_rfl]

/-- There is no entry with an equal key. -/
theorem EnsureNew.absent_entry {h h' : Hmap K V} (ok : h.Ok) {key : K}
    {es : List (HmapEntry K V)} {n m : ℕ} (hnew : EnsureNew h h' key es n m) {pos : ℕ × ℕ}
    {e : HmapEntry K V} (hat : h.entryAt pos = some e) : h.cmp key e.key ≠ 0 := by
  intro hk
  have hfound := (ok.hmapEnsureEntry_taken hat hk).ensure
  rw [hnew.ensure] at hfound
  simp at hfound

/-- The invariant is kept when only an entry with an equal key is written over. -/
theorem Hmap.Ok.writes {h h' : Hmap K V} (ok : h.Ok) {pos : ℕ × ℕ} {e' : HmapEntry K V}
    (hw : Writes h h' pos e') (hbucket : pos.1 = h.bucketIdx e'.key)
    (hsame : ∀ p e, h.entryAt p = some e → h.cmp e'.key e.key = 0 → p = pos) : h'.Ok := by
  have hidx (k : K) : h'.bucketIdx k = h.bucketIdx k := by
    rw [Hmap.bucketIdx, Hmap.bucketIdx, hw.hash_eq, hw.size_eq]
  have hold {p : ℕ × ℕ} {e : HmapEntry K V} (hp : p ≠ pos) (hat : h'.entryAt p = some e) :
      h.entryAt p = some e := by
    rwa [hw.entryAt_eq, if_neg hp] at hat
  have hnew {e : HmapEntry K V} (hat : h'.entryAt pos = some e) : e' = e := by
    rw [hw.entryAt_eq, if_pos rfl] at hat
    exact Option.some.inj hat
  refine ⟨hw.size_eq ▸ ok.size_pos, ?_, hw.wf, ?_, ?_⟩
  · exact ⟨hw.cmp_eq ▸ ok.lawful.refl, hw.cmp_eq ▸ ok.lawful.symm, hw.cmp_eq ▸ ok.lawful.trans,
      hw.cmp_eq ▸ hw.hash_eq ▸ ok.lawful.hash_eq⟩
  · intro p e hat
    rw [hidx]
    by_cases hp : p = pos
    · subst hp
      rw [← hnew hat]
      exact hbucket
    · exact ok.bucket p e (hold hp hat)
  · intro p p' e e₂ hat hat' hcmp
    rw [hw.cmp_eq] at hcmp
    by_cases hp : p = pos
    · subst hp
      rw [← hnew hat] at hcmp
      by_cases hp' : p' = p
      · exact hp'.symm
      · exact (hsame p' e₂ (hold hp' hat') hcmp).symm
    · by_cases hp' : p' = pos
      · subst hp'
        rw [← hnew hat'] at hcmp
        exact hsame p e (hold hp hat) (ok.lawful.symm _ _ hcmp)
      · exact ok.distinct p p' e e₂ (hold hp hat) (hold hp' hat') hcmp

/-! ## Clients -/

/-- A client of a map, with the entries that it was given since the last reset and the
keys it asked for them with. -/
structure HmapClient (K V : Type) where
  hmap : Hmap K V
  entries : List (K × (ℕ × ℕ))

/-- The calls of a client. -/
inductive HmapOp (K V : Type) where
  /-- `spx_hmap_ensure_entry`, then `spx_hmap_entry_set_value`. -/
  | put (key : K) (value : V)
  /-- `spx_hmap_set_entry_key` for the `i`-th entry that the client was given. -/
  | setEntryKey (i : ℕ) (key : K)
  /-- `spx_hmap_get_value`. -/
  | getValue (key : K)
  /-- `spx_hmap_reset`. -/
  | reset

namespace HmapClient

/-- A client with a new map. -/
def create (size : ℕ) (hash : K → UInt64) (cmp : K → K → ℤ) : HmapClient K V :=
  ⟨hmapCreate size hash cmp, []⟩

/-- One call.  A client that has no `i`-th entry does not call. -/
def step (c : HmapClient K V) : HmapOp K V → HmapClient K V
  | .put key value =>
    match hmapEnsureEntry c.hmap key with
    | (some (pos, _), hmap) => ⟨hmapEntrySetValue hmap pos value, c.entries ++ [(key, pos)]⟩
    | (none, hmap) => ⟨hmap, c.entries⟩
  | .setEntryKey i key =>
    match c.entries[i]? with
    | some entry => { c with hmap := (hmapSetEntryKey c.hmap entry.2 key).2 }
    | none => c
  | .getValue _ => c
  | .reset => ⟨hmapReset c.hmap, []⟩

/-- A sequence of calls. -/
def run (ops : List (HmapOp K V)) (c : HmapClient K V) : HmapClient K V := ops.foldl step c

end HmapClient

/-- The values of the keys after one more call. -/
def setSince (cmp : K → K → ℤ) (values : K → Option V) : HmapOp K V → K → Option V
  | .put key value => fun k => if cmp k key = 0 then some value else values k
  | .setEntryKey _ _ => values
  | .getValue _ => values
  | .reset => fun _ => none

/-- The value last set for a key equal to `k` since the last reset. -/
def lastSet (cmp : K → K → ℤ) (ops : List (HmapOp K V)) (k : K) : Option V :=
  ops.foldl (setSince cmp) (fun _ => none) k

/-- The keys asked for after one more call. -/
def askedSince (keys : List K) : HmapOp K V → List K
  | .put key _ => keys ++ [key]
  | .setEntryKey _ _ => keys
  | .getValue _ => keys
  | .reset => []

/-- The keys that the client asked entries for since the last reset. -/
def keysSince (ops : List (HmapOp K V)) : List K := ops.foldl askedSince []

namespace HmapClient

/-- The map of the client shows the values of the keys, and the client holds exactly
the entries of the map. -/
structure Shows (c : HmapClient K V) (values : K → Option V) : Prop where
  ok : c.hmap.Ok
  taken : ∀ pos e, c.hmap.entryAt pos = some e →
    e.value.isSome ∧ ∀ k, c.hmap.cmp k e.key = 0 → values k = e.value
  absent : ∀ k, (∀ pos e, c.hmap.entryAt pos = some e → c.hmap.cmp k e.key ≠ 0) →
    values k = none
  held : ∀ entry ∈ c.entries, ∃ e, c.hmap.entryAt entry.2 = some e ∧ c.hmap.cmp entry.1 e.key = 0
  known : ∀ pos e, c.hmap.entryAt pos = some e → ∃ entry ∈ c.entries, entry.2 = pos

theorem shows_create {size : ℕ} (hsize : 0 < size) {hash : K → UInt64} {cmp : K → K → ℤ}
    (lawful : (hmapCreate size hash cmp : Hmap K V).LawfulKeys) :
    (create size hash cmp : HmapClient K V).Shows fun _ => none where
  ok := ok_hmapCreate hsize lawful
  taken := fun pos _ he => nomatch (entryAt_hmapCreate size hash cmp pos).symm.trans he
  absent := fun _ _ => rfl
  held := fun _ hmem => nomatch hmem
  known := fun pos _ he => nomatch (entryAt_hmapCreate size hash cmp pos).symm.trans he

/-- A key is read as its value. -/
theorem Shows.getValue {c : HmapClient K V} {values : K → Option V} (h : c.Shows values) (k : K) :
    hmapGetValue c.hmap k = values k := by
  by_cases hk : ∃ pos e, c.hmap.entryAt pos = some e ∧ c.hmap.cmp k e.key = 0
  · obtain ⟨pos, e, hat, hk⟩ := hk
    rw [h.ok.hmapGetValue_taken hat hk, (h.taken pos e hat).2 k hk]
  · have habsent : ∀ pos e, c.hmap.entryAt pos = some e → c.hmap.cmp k e.key ≠ 0 :=
      fun pos e hat hcmp => hk ⟨pos, e, hat, hcmp⟩
    rw [h.ok.hmapGetValue_absent habsent, h.absent k habsent]

/-- The entry of a key is the one given for an equal key. -/
theorem Shows.ensure_held {c : HmapClient K V} {values : K → Option V} (h : c.Shows values)
    {entry : K × (ℕ × ℕ)} (hmem : entry ∈ c.entries) {k : K} (hk : c.hmap.cmp k entry.1 = 0) :
    EnsureFound c.hmap k entry.2 := by
  obtain ⟨e, hat, hkey⟩ := h.held entry hmem
  exact h.ok.hmapEnsureEntry_taken hat (h.ok.lawful.trans _ _ _ hk hkey)

/-- A key unequal to those asked for has no entry. -/
theorem Shows.absent_of_unheld {c : HmapClient K V} {values : K → Option V} (h : c.Shows values)
    {k : K} (hk : ∀ entry ∈ c.entries, c.hmap.cmp k entry.1 ≠ 0) :
    ∀ pos e, c.hmap.entryAt pos = some e → c.hmap.cmp k e.key ≠ 0 := by
  intro pos e hat hcmp
  obtain ⟨entry, hmem, rfl⟩ := h.known pos e hat
  obtain ⟨e', hat', hkey⟩ := h.held entry hmem
  cases hat.symm.trans hat'
  exact hk entry hmem (h.ok.lawful.trans _ _ _ hcmp (h.ok.lawful.symm _ _ hkey))

/-- One entry is written: the values of the keys equal to its own may change. -/
theorem Shows.of_writes {c : HmapClient K V} {values values' : K → Option V} (h : c.Shows values)
    {h' : Hmap K V} {pos : ℕ × ℕ} {e' : HmapEntry K V} {entries : List (K × (ℕ × ℕ))}
    (hw : Writes c.hmap h' pos e') (hbucket : pos.1 = c.hmap.bucketIdx e'.key)
    (hsame : ∀ p e, c.hmap.entryAt p = some e → c.hmap.cmp e'.key e.key = 0 → p = pos)
    (hover : ∀ e, c.hmap.entryAt pos = some e → c.hmap.cmp e.key e'.key = 0)
    (hvalue : e'.value.isSome ∧ ∀ k, c.hmap.cmp k e'.key = 0 → values' k = e'.value)
    (hother : ∀ k, c.hmap.cmp k e'.key ≠ 0 → values' k = values k)
    (hkept : ∀ entry ∈ c.entries, entry ∈ entries) (hpos : ∃ entry ∈ entries, entry.2 = pos)
    (hnew : ∀ entry ∈ entries, entry ∈ c.entries ∨
      entry.2 = pos ∧ c.hmap.cmp entry.1 e'.key = 0) :
    Shows ⟨h', entries⟩ values' where
  ok := h.ok.writes hw hbucket hsame
  taken := by
    intro p e hat
    change h'.entryAt p = some e at hat
    show e.value.isSome ∧ ∀ k, h'.cmp k e.key = 0 → values' k = e.value
    rw [hw.cmp_eq]
    rw [hw.entryAt_eq] at hat
    by_cases hp : p = pos
    · rw [if_pos hp] at hat
      cases hat
      exact hvalue
    · rw [if_neg hp] at hat
      refine ⟨(h.taken p e hat).1, ?_⟩
      intro k hk
      rw [hother k fun hk' => hp (hsame p e hat (h.ok.lawful.equal hk' hk)), (h.taken p e hat).2 k hk]
  absent := by
    intro k habsent
    change ∀ p e, h'.entryAt p = some e → h'.cmp k e.key ≠ 0 at habsent
    simp only [hw.cmp_eq, hw.entryAt_eq] at habsent
    have hne : c.hmap.cmp k e'.key ≠ 0 := habsent pos e' (if_pos rfl)
    rw [hother k hne]
    apply h.absent k
    intro p e hat hk
    by_cases hp : p = pos
    · subst hp
      exact hne (h.ok.lawful.trans _ _ _ hk (hover e hat))
    · exact habsent p e (by rw [if_neg hp, hat]) hk
  held := by
    intro entry hmem
    show ∃ e, h'.entryAt entry.2 = some e ∧ h'.cmp entry.1 e.key = 0
    rw [hw.cmp_eq]
    rcases hnew entry hmem with hmem | ⟨hp, hcmp⟩
    · obtain ⟨e, hat, hcmp⟩ := h.held entry hmem
      by_cases hp : entry.2 = pos
      · refine ⟨e', (hw.entryAt_eq _).trans (if_pos hp), ?_⟩
        exact h.ok.lawful.trans _ _ _ hcmp (hover e (hp ▸ hat))
      · exact ⟨e, by rw [hw.entryAt_eq, if_neg hp, hat], hcmp⟩
    · exact ⟨e', (hw.entryAt_eq _).trans (if_pos hp), hcmp⟩
  known := by
    intro p e hat
    change h'.entryAt p = some e at hat
    rw [hw.entryAt_eq] at hat
    by_cases hp : p = pos
    · exact hp ▸ hpos
    · rw [if_neg hp] at hat
      obtain ⟨entry, hmem, hentry⟩ := h.known p e hat
      exact ⟨entry, hkept entry hmem, hentry⟩

/-- The value of a key is set. -/
theorem Shows.put_of_writes {c : HmapClient K V} {values : K → Option V} (h : c.Shows values)
    {h' : Hmap K V} {pos : ℕ × ℕ} {key key' : K} {value : V}
    (hw : Writes c.hmap h' pos ⟨key', some value⟩) (hkey : c.hmap.cmp key key' = 0)
    (hbucket : pos.1 = c.hmap.bucketIdx key')
    (hsame : ∀ p e, c.hmap.entryAt p = some e → c.hmap.cmp key' e.key = 0 → p = pos)
    (hover : ∀ e, c.hmap.entryAt pos = some e → c.hmap.cmp e.key key' = 0) :
    Shows ⟨h', c.entries ++ [(key, pos)]⟩ (setSince c.hmap.cmp values (.put key value)) := by
  have hlast : (key, pos) ∈ c.entries ++ [(key, pos)] :=
    List.mem_append_right _ (List.mem_singleton_self _)
  refine h.of_writes hw hbucket hsame hover ⟨rfl, fun k hk => if_pos ?_⟩
    (fun k hk => if_neg fun hk' => hk (h.ok.lawful.trans _ _ _ hk' hkey))
    (fun entry hmem => List.mem_append_left _ hmem) ⟨_, hlast, rfl⟩ fun entry hmem => ?_
  · exact h.ok.lawful.trans _ _ _ hk (h.ok.lawful.symm _ _ hkey)
  · apply (List.mem_append.mp hmem).imp_right
    intro hmem
    obtain rfl := List.mem_singleton.mp hmem
    exact ⟨rfl, hkey⟩

theorem Shows.put {c : HmapClient K V} {values : K → Option V} (h : c.Shows values) (key : K)
    (value : V) : (c.step (.put key value)).Shows (setSince c.hmap.cmp values (.put key value)) := by
  rcases hmapEnsureEntry_cases h.ok.wf key with ⟨pos, hfound⟩ | ⟨h', es, n, m, hnew⟩
  · -- an equal key is present: its entry is given another value
    obtain ⟨e, hat, hkey⟩ := hfound.taken
    have hset : hmapEntrySetValue c.hmap pos value
        = c.hmap.setEntry pos { e with value := some value } := by
      rw [hmapEntrySetValue, hat]
    rw [step, hfound.ensure]
    refine h.put_of_writes (hset ▸ writes_setEntry h.ok.wf hat) hkey (h.ok.bucket pos e hat)
      (fun p e' hat' hcmp => ?_) fun e' hat' => ?_
    · exact h.ok.distinct p pos e' e hat' hat (h.ok.lawful.symm _ _ hcmp)
    · cases hat.symm.trans hat'
      exact h.ok.lawful.refl e.key
  · rw [step, hnew.ensure]
    refine h.put_of_writes (hnew.writes h.ok.wf value) (h.ok.lawful.refl key) rfl
      (fun p e hat hcmp => absurd hcmp (hnew.absent_entry h.ok hat)) fun e hat => ?_
    cases hnew.free.symm.trans hat

/-- A key is replaced by an equal one, or by none. -/
theorem Shows.setEntryKey {c : HmapClient K V} {values : K → Option V} (h : c.Shows values)
    (i : ℕ) (key : K) : (c.step (.setEntryKey i key)).Shows values := by
  rw [step]
  cases hentry : c.entries[i]? with
  | none => exact h
  | some entry =>
    obtain ⟨e, hat, hheld⟩ := h.held entry (List.mem_of_getElem? hentry)
    by_cases hcmp : c.hmap.cmp e.key key = 0
    · have hset : (hmapSetEntryKey c.hmap entry.2 key).2
          = c.hmap.setEntry entry.2 { e with key := key } := by
        rw [hmapSetEntryKey, hat]
        exact congrArg Prod.snd (if_neg (not_not.mpr hcmp))
      have hw : Writes c.hmap (hmapSetEntryKey c.hmap entry.2 key).2 entry.2 { e with key := key } :=
        hset ▸ writes_setEntry h.ok.wf hat
      refine h.of_writes hw ?_ (fun p e' hat' hcmp' => ?_) (fun e' hat' => ?_)
        ⟨(h.taken _ e hat).1, fun k hk => (h.taken _ e hat).2 k ?_⟩ (fun k _ => rfl)
        (fun entry' hmem => hmem) ⟨entry, List.mem_of_getElem? hentry, rfl⟩
        fun entry' hmem => .inl hmem
      · rw [h.ok.bucket _ e hat]
        exact h.ok.lawful.bucketIdx_eq hcmp
      · exact h.ok.distinct p entry.2 e' e hat' hat
          (h.ok.lawful.symm _ _ (h.ok.lawful.trans _ _ _ hcmp hcmp'))
      · cases hat.symm.trans hat'
        exact hcmp
      · exact h.ok.lawful.trans _ _ _ hk (h.ok.lawful.symm _ _ hcmp)
    · have hset : (hmapSetEntryKey c.hmap entry.2 key).2 = c.hmap := by
        rw [hmapSetEntryKey, hat]
        exact congrArg Prod.snd (if_pos hcmp)
      show Shows ⟨(hmapSetEntryKey c.hmap entry.2 key).2, c.entries⟩ values
      rw [hset]
      exact h

theorem Shows.reset {c : HmapClient K V} {values : K → Option V} (h : c.Shows values) :
    (c.step .reset).Shows fun _ => none where
  ok := h.ok.reset
  taken := fun pos _ he => nomatch (h.ok.entryAt_hmapReset pos).symm.trans he
  absent := fun _ _ => rfl
  held := fun _ hmem => nomatch hmem
  known := fun pos _ he => nomatch (h.ok.entryAt_hmapReset pos).symm.trans he

/-- No call changes the comparison. -/
theorem Shows.cmp_step {c : HmapClient K V} {values : K → Option V} (h : c.Shows values)
    (op : HmapOp K V) : (c.step op).hmap.cmp = c.hmap.cmp := by
  cases op with
  | put key value =>
    rcases hmapEnsureEntry_cases h.ok.wf key with ⟨pos, hfound⟩ | ⟨h', es, n, m, hnew⟩
    · obtain ⟨e, hat, -⟩ := hfound.taken
      rw [step, hfound.ensure]
      show (hmapEntrySetValue c.hmap pos value).cmp = _
      rw [hmapEntrySetValue, hat]
      rfl
    · rw [step, hnew.ensure]
      exact (hnew.writes h.ok.wf value).cmp_eq
  | setEntryKey i key =>
    rw [step]
    cases c.entries[i]? with
    | none => rfl
    | some entry =>
      show (hmapSetEntryKey c.hmap entry.2 key).2.cmp = c.hmap.cmp
      rw [hmapSetEntryKey]
      cases c.hmap.entryAt entry.2 with
      | none => rfl
      | some e =>
        show (if c.hmap.cmp e.key key ≠ 0 then ((0 : ℤ), c.hmap) else _).2.cmp = c.hmap.cmp
        split <;> rfl
  | getValue key => rfl
  | reset => rfl

/-- **One call.** -/
theorem Shows.step {c : HmapClient K V} {values : K → Option V} (h : c.Shows values)
    (op : HmapOp K V) : (c.step op).Shows (setSince c.hmap.cmp values op) := by
  cases op with
  | put key value => exact h.put key value
  | setEntryKey i key => exact h.setEntryKey i key
  | getValue key => exact h
  | reset => exact h.reset

/-- **A sequence of calls.** -/
theorem Shows.run {c : HmapClient K V} {values : K → Option V} (h : c.Shows values)
    (ops : List (HmapOp K V)) :
    (c.run ops).Shows (ops.foldl (setSince c.hmap.cmp) values) ∧
      (c.run ops).hmap.cmp = c.hmap.cmp := by
  induction ops generalizing c values with
  | nil => exact ⟨h, rfl⟩
  | cons op ops ih =>
    obtain ⟨hshows, hcmp⟩ := ih (h.step op)
    rw [h.cmp_step op] at hshows hcmp
    exact ⟨hshows, hcmp⟩

/-- An entry is always given. -/
theorem Shows.keys_run {c : HmapClient K V} {values : K → Option V} (h : c.Shows values)
    (ops : List (HmapOp K V)) {keys : List K} (hkeys : c.entries.map Prod.fst = keys) :
    (c.run ops).entries.map Prod.fst = ops.foldl askedSince keys := by
  induction ops generalizing c values keys with
  | nil => exact hkeys
  | cons op ops ih =>
    apply ih (h.step op)
    cases op with
    | put key value =>
      rcases hmapEnsureEntry_cases h.ok.wf key with ⟨pos, hfound⟩ | ⟨h', es, n, m, hnew⟩
      · rw [HmapClient.step, hfound.ensure, ← hkeys]
        exact List.map_append
      · rw [HmapClient.step, hnew.ensure, ← hkeys]
        exact List.map_append
    | setEntryKey i key =>
      rw [HmapClient.step]
      cases c.entries[i]? <;> exact hkeys
    | getValue key => exact hkeys
    | reset => rfl

end HmapClient

/-- **The hash map is a finite map.**  After any calls every chain is packed; a key reads as the
value last set for an equal key; an entry asked for again is the same one, and a new one is
given exactly to a key that no equal key came before; and no call for one key changes what an
unequal one reads. -/
theorem hmap_is_finite_map {size : ℕ} (hsize : 0 < size) {hash : K → UInt64} {cmp : K → K → ℤ}
    (lawful : (hmapCreate size hash cmp : Hmap K V).LawfulKeys) (ops : List (HmapOp K V)) :
    let c := (HmapClient.create size hash cmp).run ops
    c.hmap.WF ∧
      (∀ k, hmapGetValue c.hmap k = lastSet cmp ops k) ∧
      c.entries.map Prod.fst = keysSince ops ∧
      (∀ entry ∈ c.entries, ∀ k, cmp k entry.1 = 0 →
        hmapEnsureEntry c.hmap k = (some (entry.2, false), c.hmap)) ∧
      (∀ k, (∀ key ∈ keysSince ops, cmp k key ≠ 0) → ∃ pos hmap,
        hmapEnsureEntry c.hmap k = (some (pos, true), hmap) ∧ hmap.WF ∧
          ∀ entry ∈ c.entries, entry.2 ≠ pos) ∧
      (∀ key value k, cmp k key ≠ 0 →
        hmapGetValue (c.step (.put key value)).hmap k = hmapGetValue c.hmap k) ∧
      ∀ i key k, hmapGetValue (c.step (.setEntryKey i key)).hmap k = hmapGetValue c.hmap k := by
  intro c
  obtain ⟨hshows, hcmp⟩ := (HmapClient.shows_create hsize lawful).run ops
  have hkeys : c.entries.map Prod.fst = keysSince ops :=
    (HmapClient.shows_create hsize lawful).keys_run ops rfl
  change c.Shows (lastSet cmp ops) at hshows
  change c.hmap.cmp = cmp at hcmp
  refine ⟨hshows.ok.wf, hshows.getValue, hkeys, fun entry hmem k hk => ?_, fun k hk => ?_,
    fun key value k hk => ?_, fun i key k => ?_⟩
  · exact (hshows.ensure_held hmem (hcmp ▸ hk)).ensure
  · have hunheld : ∀ entry ∈ c.entries, c.hmap.cmp k entry.1 ≠ 0 := fun entry hmem =>
      hcmp ▸ hk _ (hkeys ▸ List.mem_map_of_mem hmem)
    obtain ⟨hmap, es, n, m, hnew⟩ :=
      hshows.ok.hmapEnsureEntry_absent (hshows.absent_of_unheld hunheld)
    refine ⟨_, hmap, hnew.ensure, ?_, ?_⟩
    · rw [hnew.after]
      exact wf_setBucket hshows.ok.wf _ _ m
    · intro entry hmem hpos
      obtain ⟨e, hat, -⟩ := hshows.held entry hmem
      rw [hpos, hnew.free] at hat
      exact nomatch hat
  · rw [(hshows.step (.put key value)).getValue, hshows.getValue, hcmp]
    exact if_neg hk
  · rw [(hshows.step (.setEntryKey i key)).getValue, hshows.getValue]
    rfl

/-- Numbers taken up to their last digit, in one bucket: five entries, so two blocks. -/
theorem hmap_is_finite_map_one_bucket :
    let cmp : ℕ → ℕ → ℤ := fun a b => (a % 10 : ℤ) - b % 10
    let ops : List (HmapOp ℕ Char) :=
      [.put 7 'z', .reset, .put 1 'a', .put 2 'b', .put 3 'c', .put 4 'd', .put 5 'e',
        .setEntryKey 4 15, .put 11 'f', .getValue 2]
    let c := (HmapClient.create 1 (fun _ => 0) cmp).run ops
    hmapGetValue c.hmap 21 = some 'f' ∧ hmapGetValue c.hmap 25 = some 'e' ∧
      hmapGetValue c.hmap 7 = none ∧ c.entries.map Prod.fst = [1, 2, 3, 4, 5, 11] := by
  intro cmp ops c
  have hcmp (a b : ℕ) : cmp a b = 0 ↔ a % 10 = b % 10 := by
    simp only [cmp]
    omega
  have lawful : (hmapCreate 1 (fun _ => 0) cmp : Hmap ℕ Char).LawfulKeys :=
    ⟨fun a => (hcmp a a).mpr rfl, fun a b h => (hcmp b a).mpr ((hcmp a b).mp h).symm,
      fun a b c h h' => (hcmp a c).mpr (((hcmp a b).mp h).trans ((hcmp b c).mp h')),
      fun _ _ _ => rfl⟩
  have hmap := hmap_is_finite_map Nat.one_pos lawful ops
  exact ⟨(hmap.2.1 21).trans (by decide), (hmap.2.1 25).trans (by decide),
    (hmap.2.1 7).trans (by decide), hmap.2.2.1.trans (by decide)⟩

end PhpSpx
