import PhpSpx.WebUi.PackedRecordArray
import PhpSpx.WebUi.ProfileData

/-!
# Chunks of packed records

`ChunkedRecordArray` of `utils.js`: a growing array of records in chunks, each of them a
`PackedRecordArray`.  It refines the array of records that the lists of calls and of samples are
read as: whatever is stored in it, each field of each record keeps the number stored last.

* `ChunkedRecordArray` — the array and its operations.
* `Refines` — it shows an array of records.
* `packed_records_do_not_interfere` — after any operations it shows what was stored last.
-/

namespace PhpSpx.WebUi.Packed

/-- `ChunkedRecordArray`. -/
structure ChunkedRecordArray where
  fields : List (String × String)
  chunkSize : ℕ
  chunks : List PackedRecordArray
  size : ℕ

variable {Num : Type} [Zero Num]

namespace ChunkedRecordArray

/-- The constructor of `ChunkedRecordArray`. -/
def new (fields : List (String × String)) (chunkSize : ℕ) : ChunkedRecordArray where
  fields := fields
  chunkSize := chunkSize
  chunks := []
  size := 0

/-- The loop of `resize`, for the number of chunks that are missing. -/
def pushChunks (fields : List (String × String)) (chunkSize : ℕ) :
    ℕ → List PackedRecordArray → Except RecordError (List PackedRecordArray)
  | 0, chunks => .ok chunks
  | missing + 1, chunks => do
    let chunk ← PackedRecordArray.new fields chunkSize
    pushChunks fields chunkSize missing (chunks ++ [chunk])

/-- `ChunkedRecordArray.resize`. -/
def resize (array : ChunkedRecordArray) (newSize : ℕ) : Except RecordError ChunkedRecordArray := do
  let chunkCount := ⌈(newSize : ℚ) / array.chunkSize⌉₊
  let chunks ← pushChunks array.fields array.chunkSize (chunkCount - array.chunks.length)
    array.chunks
  .ok { array with chunks := chunks, size := newSize }

/-- `this.chunks[Math.floor(idx / this.chunkSize)]`.  A method of `undefined` throws. -/
def chunk (array : ChunkedRecordArray) (idx : ℕ) : Except RecordError PackedRecordArray :=
  match array.chunks[idx / array.chunkSize]? with
  | none => .error .typeError
  | some chunk => .ok chunk

/-- The array with another chunk for an index. -/
def setChunk (array : ChunkedRecordArray) (idx : ℕ) (chunk : PackedRecordArray) :
    ChunkedRecordArray :=
  { array with chunks := array.chunks.set (idx / array.chunkSize) chunk }

/-- The start of `setElement`, which makes the array large enough. -/
def extend (array : ChunkedRecordArray) (idx : ℕ) : Except RecordError ChunkedRecordArray :=
  if idx + 1 > array.size then array.resize (idx + 1) else .ok array

/-- `ChunkedRecordArray.setElement`. -/
def setElement (codec : NumberCodec Num) (array : ChunkedRecordArray) (idx : ℕ)
    (obj : String → Option Num) : Except RecordError ChunkedRecordArray := do
  let array ← array.extend idx
  let chunk ← array.chunk idx
  .ok (array.setChunk idx (chunk.setElement codec (idx % array.chunkSize) obj))

/-- `ChunkedRecordArray.setElementFieldValue`. -/
def setElementFieldValue (codec : NumberCodec Num) (array : ChunkedRecordArray) (idx : ℕ)
    (fieldName : String) (fieldValue : Option Num) : Except RecordError ChunkedRecordArray := do
  let chunk ← array.chunk idx
  let chunk ← chunk.setElementFieldValue codec (idx % array.chunkSize) fieldName fieldValue
  .ok (array.setChunk idx chunk)

/-- `ChunkedRecordArray.getElement`. -/
def getElement (codec : NumberCodec Num) (array : ChunkedRecordArray) (idx : ℕ) :
    Except RecordError (List (String × Option Num)) := do
  let chunk ← array.chunk idx
  .ok (chunk.getElement codec (idx % array.chunkSize))

/-- `ChunkedRecordArray.getElementFieldValue`. -/
def getElementFieldValue (codec : NumberCodec Num) (array : ChunkedRecordArray) (idx : ℕ)
    (fieldName : String) : Except RecordError (Option Num) := do
  let chunk ← array.chunk idx
  chunk.getElementFieldValue codec (idx % array.chunkSize) fieldName

end ChunkedRecordArray

/-! ## Runs of operations -/

/-- An operation that stores something. -/
inductive RecordOp (Num : Type) where
  | setElement (idx : ℕ) (obj : String → Option Num)
  | setElementFieldValue (idx : ℕ) (fieldName : String) (fieldValue : Option Num)

/-- The operation on the chunks. -/
def RecordOp.apply (codec : NumberCodec Num) (array : ChunkedRecordArray) :
    RecordOp Num → Except RecordError ChunkedRecordArray
  | setElement idx obj => array.setElement codec idx obj
  | setElementFieldValue idx fieldName fieldValue =>
    array.setElementFieldValue codec idx fieldName fieldValue

/-- The records, as an array without chunks. -/
abbrev Records (Num : Type) := WebUi.ChunkedRecordArray (String → Num)

/-- What the operation stores, each number as its type keeps it. -/
def RecordOp.store (codec : NumberCodec Num) (types : String → FieldType) (records : Records Num) :
    RecordOp Num → Records Num
  | setElement idx obj =>
    records.setElement idx fun name => codec.convert (types name) ((obj name).getD 0)
  | setElementFieldValue idx fieldName fieldValue =>
    { records with
      element := Function.update records.element idx
        (Function.update (records.element idx) fieldName
          (codec.convert (types fieldName) (fieldValue.getD 0))) }

/-- What was stored last; 0 where nothing was. -/
def lastStored (codec : NumberCodec Num) (types : String → FieldType) (ops : List (RecordOp Num)) :
    Records Num :=
  ops.foldl (RecordOp.store codec types) (.new fun _ => 0)

/-- The number of records that the chunks have room for. -/
def capacity (chunkSize size : ℕ) : ℕ := ⌈(size : ℚ) / chunkSize⌉₊ * chunkSize

/-- A record may be stored anywhere, a number in an existing field of a record that there is a
chunk for. -/
def RecordOp.Valid (fields : List (String × String)) (chunkSize : ℕ) (records : Records Num) :
    RecordOp Num → Prop
  | setElement _ _ => True
  | setElementFieldValue idx fieldName _ =>
    idx < capacity chunkSize records.size ∧ fieldName ∈ fields.map Prod.fst

/-- All operations are valid when they are made. -/
def ValidOps (codec : NumberCodec Num) (fields : List (String × String)) (chunkSize : ℕ) :
    Records Num → List (RecordOp Num) → Prop
  | _, [] => True
  | records, op :: ops =>
    op.Valid fields chunkSize records ∧
      ValidOps codec fields chunkSize
        (op.store codec (PackedRecordArray.fieldType fields) records) ops

/-! ## The refinement -/

/-- A chunk has the fields given and a size. -/
structure IsChunk (fields : List (String × String)) (chunkSize : ℕ) (chunk : PackedRecordArray) :
    Prop where
  wellLaid : chunk.WellLaid
  size : chunk.size = chunkSize
  names : (chunk.fields.map Field.name).Perm (fields.map Prod.fst)
  types : ∀ field ∈ chunk.fields, field.type = PackedRecordArray.fieldType fields field.name

/-- **The chunks show the records**, and behind them nothing was stored. -/
structure ChunksShow (codec : NumberCodec Num) (fields : List (String × String)) (chunkSize : ℕ)
    (chunks : List PackedRecordArray) (element : ℕ → String → Num) : Prop where
  isChunk : ∀ (c : ℕ) chunk, chunks[c]? = some chunk → IsChunk fields chunkSize chunk
  shows : ∀ (c : ℕ) chunk, chunks[c]? = some chunk →
    chunk.Shows codec fun i => element (c * chunkSize + i)
  fresh : ∀ idx, chunks.length * chunkSize ≤ idx → element idx = fun _ => 0

/-- **The array shows the records.** -/
structure Refines (codec : NumberCodec Num) (fields : List (String × String)) (chunkSize : ℕ)
    (array : ChunkedRecordArray) (records : Records Num) : Prop where
  fields_eq : array.fields = fields
  chunkSize_eq : array.chunkSize = chunkSize
  size_eq : array.size = records.size
  length_eq : array.chunks.length = ⌈(records.size : ℚ) / chunkSize⌉₊
  chunksShow : ChunksShow codec fields chunkSize array.chunks records.element

section Refines

variable {codec : NumberCodec Num} {fields : List (String × String)} {chunkSize : ℕ}
  {chunks : List PackedRecordArray} {element : ℕ → String → Num}
  {array : ChunkedRecordArray} {records : Records Num}

theorem refines_new :
    Refines codec fields chunkSize (.new fields chunkSize) (.new fun _ => (0 : Num)) where
  fields_eq := rfl
  chunkSize_eq := rfl
  size_eq := rfl
  length_eq := by
    rw [WebUi.ChunkedRecordArray.new, Nat.cast_zero, zero_div, Nat.ceil_zero]
    rfl
  chunksShow :=
    { isChunk := fun _ _ h => nomatch h
      shows := fun _ _ h => nomatch h
      fresh := fun _ _ => rfl }

/-- One more chunk. -/
theorem ChunksShow.append (h : ChunksShow codec fields chunkSize chunks element)
    {chunk : PackedRecordArray} (hchunk : IsChunk fields chunkSize chunk)
    (hbuffer : chunk.buffer = .new (chunk.size * chunk.elemSize)) :
    ChunksShow codec fields chunkSize (chunks ++ [chunk]) element := by
  have hget : ∀ (c : ℕ) chunk', (chunks ++ [chunk])[c]? = some chunk' →
      chunks[c]? = some chunk' ∨ chunks.length ≤ c ∧ chunk' = chunk := by
    intro c chunk' hget
    rcases Nat.lt_or_ge c chunks.length with hlt | hge
    · rw [List.getElem?_append_left hlt] at hget
      exact .inl hget
    · rw [List.getElem?_append_right hge, List.getElem?_singleton] at hget
      split at hget
      · exact .inr ⟨hge, (Option.some.inj hget).symm⟩
      · exact nomatch hget
  constructor
  · intro c chunk' h'
    rcases hget c chunk' h' with hold | ⟨-, rfl⟩
    · exact h.isChunk c chunk' hold
    · exact hchunk
  · intro c chunk' h'
    rcases hget c chunk' h' with hold | ⟨hge, rfl⟩
    · exact h.shows c chunk' hold
    · have hzero : (fun i => element (c * chunkSize + i)) = fun _ _ => 0 := by
        funext i
        exact h.fresh _ ((Nat.mul_le_mul_right chunkSize hge).trans (Nat.le_add_right _ _))
      rw [hzero]
      exact PackedRecordArray.shows_new hchunk.wellLaid hbuffer
  · intro idx hle
    rw [List.length_append, List.length_singleton, Nat.add_one_mul] at hle
    exact h.fresh idx ((Nat.le_add_right _ _).trans hle)

/-- **More chunks** show what the chunks showed. -/
theorem ChunksShow.pushChunks (hne : fields ≠ []) (hkeys : (fields.map Prod.fst).Nodup)
    (hsupported : ∀ field ∈ fields, (typesInfo field.2).isSome = true) (missing : ℕ)
    (h : ChunksShow codec fields chunkSize chunks element) :
    ∃ chunks', ChunkedRecordArray.pushChunks fields chunkSize missing chunks = .ok chunks' ∧
      chunks'.length = chunks.length + missing ∧
      ChunksShow codec fields chunkSize chunks' element := by
  induction missing generalizing chunks with
  | zero => exact ⟨chunks, rfl, rfl, h⟩
  | succ missing ih =>
    obtain ⟨chunk, hchunk, hwell, hsize, hbuffer, hnames, htypes⟩ :=
      PackedRecordArray.exists_new hne hkeys hsupported chunkSize
    rw [← hsize] at hbuffer
    obtain ⟨chunks', hchunks, hlen, hshow⟩ := ih (h.append ⟨hwell, hsize, hnames, htypes⟩ hbuffer)
    refine ⟨chunks', ?_, ?_, hshow⟩
    · rw [ChunkedRecordArray.pushChunks, hchunk]
      exact hchunks
    · rw [hlen, List.length_append, List.length_singleton, Nat.add_assoc, Nat.add_comm 1]

/-- A larger array needs as many chunks. -/
theorem ceil_mono {size size' : ℕ} (h : size ≤ size') (chunkSize : ℕ) :
    ⌈(size : ℚ) / chunkSize⌉₊ ≤ ⌈(size' : ℚ) / chunkSize⌉₊ :=
  Nat.ceil_mono (div_le_div_of_nonneg_right (Nat.cast_le.mpr h) (Nat.cast_nonneg _))

/-- **`resize`** to a larger size. -/
theorem Refines.resize (hne : fields ≠ []) (hkeys : (fields.map Prod.fst).Nodup)
    (hsupported : ∀ field ∈ fields, (typesInfo field.2).isSome = true)
    (h : Refines codec fields chunkSize array records) {newSize : ℕ}
    (hle : records.size ≤ newSize) :
    ∃ array', array.resize newSize = .ok array' ∧
      Refines codec fields chunkSize array' { records with size := newSize } := by
  obtain ⟨chunks', hchunks, hlen, hshow⟩ := h.chunksShow.pushChunks hne hkeys hsupported
    (⌈(newSize : ℚ) / chunkSize⌉₊ - array.chunks.length)
  refine ⟨{ array with chunks := chunks', size := newSize }, ?_, h.fields_eq, h.chunkSize_eq, rfl,
    ?_, hshow⟩
  · rw [ChunkedRecordArray.resize, h.fields_eq, h.chunkSize_eq, hchunks]
    rfl
  · have hmono := ceil_mono hle chunkSize
    rw [← h.length_eq] at hmono
    dsimp only
    omega

theorem pos_of_lt_capacity {idx size : ℕ} (h : idx < capacity chunkSize size) : 0 < chunkSize :=
  Nat.pos_of_mul_pos_left (Nat.zero_lt_of_lt h)

/-- The chunk of an index. -/
theorem Refines.exists_chunk (h : Refines codec fields chunkSize array records) {idx : ℕ}
    (hidx : idx < capacity chunkSize records.size) :
    ∃ chunk, array.chunk idx = .ok chunk ∧ array.chunks[idx / chunkSize]? = some chunk ∧
      IsChunk fields chunkSize chunk ∧ idx % chunkSize < chunk.size ∧
      chunk.Shows codec fun i => records.element (idx / chunkSize * chunkSize + i) := by
  have hpos : 0 < chunkSize := pos_of_lt_capacity hidx
  have hlt : idx / chunkSize < array.chunks.length := by
    rw [Nat.div_lt_iff_lt_mul hpos, h.length_eq]
    exact hidx
  have hget := List.getElem?_eq_getElem hlt
  have hisChunk := h.chunksShow.isChunk _ _ hget
  refine ⟨_, ?_, hget, hisChunk, ?_, h.chunksShow.shows _ _ hget⟩
  · rw [ChunkedRecordArray.chunk, h.chunkSize_eq, hget]
  · rw [hisChunk.size]
    exact Nat.mod_lt idx hpos

/-- The chunks after a chunk was replaced. -/
theorem getElem?_setChunk {idx c : ℕ} {chunk chunk' : PackedRecordArray}
    (hget : (array.setChunk idx chunk).chunks[c]? = some chunk') :
    c = idx / array.chunkSize ∧ chunk' = chunk ∨
      c ≠ idx / array.chunkSize ∧ array.chunks[c]? = some chunk' := by
  rw [ChunkedRecordArray.setChunk] at hget
  dsimp only at hget
  by_cases hc : idx / array.chunkSize = c
  · subst hc
    rw [List.getElem?_set_self'] at hget
    obtain ⟨_, -, heq⟩ := Option.map_eq_some_iff.mp hget
    exact .inl ⟨rfl, heq.symm⟩
  · rw [List.getElem?_set_ne hc] at hget
    exact .inr ⟨Ne.symm hc, hget⟩

omit [Zero Num] in
/-- The records of the chunk of an index, after the record of the index was replaced. -/
theorem update_chunk (element : ℕ → String → Num) (idx : ℕ) (record : String → Num) (i : ℕ) :
    Function.update (fun i => element (idx / chunkSize * chunkSize + i)) (idx % chunkSize) record i =
      Function.update element idx record (idx / chunkSize * chunkSize + i) := by
  have hidx := Nat.div_add_mod' idx chunkSize
  by_cases hmod : i = idx % chunkSize
  · rw [hmod, Function.update_self, hidx, Function.update_self]
  · have hne : idx / chunkSize * chunkSize + i ≠ idx := by omega
    rw [Function.update_of_ne hmod, Function.update_of_ne hne]

theorem mul_add_ne_of_ne_div {c i idx : ℕ} (hc : c ≠ idx / chunkSize) (hi : i < chunkSize) :
    c * chunkSize + i ≠ idx := by
  rintro rfl
  apply hc
  rw [Nat.add_comm, Nat.add_mul_div_right _ _ (Nat.zero_lt_of_lt hi), Nat.div_eq_of_lt hi,
    Nat.zero_add]

/-- **A write into a chunk** changes the record of the index alone. -/
theorem Refines.setChunk (h : Refines codec fields chunkSize array records) {idx : ℕ}
    (hidx : idx < capacity chunkSize records.size) {chunk : PackedRecordArray}
    (hchunk : IsChunk fields chunkSize chunk) {record : String → Num}
    (hshows : chunk.Shows codec (Function.update
      (fun i => records.element (idx / chunkSize * chunkSize + i)) (idx % chunkSize) record)) :
    Refines codec fields chunkSize (array.setChunk idx chunk)
      { records with element := Function.update records.element idx record } := by
  have hsize := h.chunkSize_eq
  refine ⟨h.fields_eq, hsize, h.size_eq, List.length_set.trans h.length_eq, ?_, ?_, ?_⟩
  · intro c chunk' hget
    rcases getElem?_setChunk hget with ⟨-, rfl⟩ | ⟨-, hold⟩
    · exact hchunk
    · exact h.chunksShow.isChunk c chunk' hold
  · intro c chunk' hget i hi field hfield
    rcases getElem?_setChunk hget with ⟨rfl, rfl⟩ | ⟨hc, hold⟩
    · rw [hshows i hi field hfield, update_chunk, hsize]
    · rw [(h.chunksShow.isChunk c chunk' hold).size] at hi
      rw [hsize] at hc
      rw [h.chunksShow.shows c chunk' hold i (by rwa [(h.chunksShow.isChunk c chunk' hold).size])
        field hfield]
      dsimp only
      rw [Function.update_of_ne (mul_add_ne_of_ne_div hc hi)]
  · intro idx' hle
    have hlen : (array.setChunk idx chunk).chunks.length = ⌈(records.size : ℚ) / chunkSize⌉₊ :=
      List.length_set.trans h.length_eq
    rw [hlen] at hle
    have hne : idx' ≠ idx := (hidx.trans_le hle).ne'
    rw [← h.length_eq] at hle
    dsimp only
    rw [Function.update_of_ne hne]
    exact h.chunksShow.fresh idx' hle

theorem IsChunk.of_sameLayout {chunk chunk' : PackedRecordArray}
    (h : IsChunk fields chunkSize chunk) (hwell : chunk'.WellLaid)
    (hsame : chunk'.SameLayout chunk) : IsChunk fields chunkSize chunk' where
  wellLaid := hwell
  size := hsame.size.trans h.size
  names := by rw [hsame.fields]; exact h.names
  types := by rw [hsame.fields]; exact h.types

/-- An index inside the array has a chunk. -/
theorem lt_capacity {idx size : ℕ} (hpos : 0 < chunkSize) (h : idx < size) :
    idx < capacity chunkSize size := h.trans_le (PackedRecordArray.le_ceil_mul size hpos)

/-- **Every valid operation** stores what it should. -/
theorem Refines.apply (hne : fields ≠ []) (hkeys : (fields.map Prod.fst).Nodup)
    (hsupported : ∀ field ∈ fields, (typesInfo field.2).isSome = true) (hpos : 0 < chunkSize)
    (h : Refines codec fields chunkSize array records) {op : RecordOp Num}
    (hvalid : op.Valid fields chunkSize records) :
    ∃ array', op.apply codec array = .ok array' ∧
      Refines codec fields chunkSize array'
        (op.store codec (PackedRecordArray.fieldType fields) records) := by
  cases op with
  | setElement idx obj =>
    -- the array once there is a chunk for the index
    have hgrown : ∃ array', array.extend idx = .ok array' ∧
        Refines codec fields chunkSize array'
          { records with size := if idx + 1 > records.size then idx + 1 else records.size } := by
      rw [ChunkedRecordArray.extend, h.size_eq]
      split
      · rename_i hgt
        exact h.resize hne hkeys hsupported hgt.le
      · exact ⟨array, rfl, h⟩
    obtain ⟨array', harray, hgrown⟩ := hgrown
    have hidx : idx < if idx + 1 > records.size then idx + 1 else records.size := by
      split <;> omega
    obtain ⟨chunk, hchunk, -, hisChunk, hmod, hshows⟩ :=
      hgrown.exists_chunk (lt_capacity hpos hidx)
    obtain ⟨hwell, hsame, hshows'⟩ := hshows.setElement hisChunk.wellLaid hisChunk.types hmod obj
    refine ⟨_, ?_, hgrown.setChunk (lt_capacity hpos hidx) (hisChunk.of_sameLayout hwell hsame)
      hshows'⟩
    rw [RecordOp.apply, ChunkedRecordArray.setElement, harray]
    change (array'.chunk idx).bind _ = _
    rw [hchunk, hgrown.chunkSize_eq]
    rfl
  | setElementFieldValue idx fieldName fieldValue =>
    obtain ⟨hidx, hname⟩ := hvalid
    obtain ⟨chunk, hchunk, -, hisChunk, hmod, hshows⟩ := h.exists_chunk hidx
    obtain ⟨field, hfield, rfl⟩ := List.mem_map.mp (hisChunk.names.symm.subset hname)
    obtain ⟨chunk', hchunk', hwell, hsame, hshows'⟩ :=
      hshows.setElementFieldValue hisChunk.wellLaid hfield hmod fieldValue
    rw [hisChunk.types field hfield, Nat.div_add_mod'] at hshows'
    refine ⟨_, ?_, h.setChunk hidx (hisChunk.of_sameLayout hwell hsame) hshows'⟩
    rw [RecordOp.apply, ChunkedRecordArray.setElementFieldValue, hchunk, h.chunkSize_eq]
    change (chunk.setElementFieldValue codec _ _ _).bind _ = _
    rw [hchunk']
    rfl

/-- **Any valid operations** store what they should. -/
theorem Refines.run (hne : fields ≠ []) (hkeys : (fields.map Prod.fst).Nodup)
    (hsupported : ∀ field ∈ fields, (typesInfo field.2).isSome = true) (hpos : 0 < chunkSize)
    {ops : List (RecordOp Num)} (h : Refines codec fields chunkSize array records)
    (hvalid : ValidOps codec fields chunkSize records ops) :
    ∃ array', ops.foldlM (RecordOp.apply codec) array = .ok array' ∧
      Refines codec fields chunkSize array'
        (ops.foldl (RecordOp.store codec (PackedRecordArray.fieldType fields)) records) := by
  induction ops generalizing array records with
  | nil => exact ⟨array, rfl, h⟩
  | cons op ops ih =>
    obtain ⟨next, hnext, hrefines⟩ := h.apply hne hkeys hsupported hpos hvalid.1
    obtain ⟨array', harray, hfinal⟩ := ih hrefines hvalid.2
    refine ⟨array', ?_, hfinal⟩
    rw [List.foldlM_cons, hnext]
    exact harray

/-! ## What the array reads as -/

theorem Refines.getElementFieldValue (h : Refines codec fields chunkSize array records) {idx : ℕ}
    (hidx : idx < capacity chunkSize records.size) {fieldName : String}
    (hname : fieldName ∈ fields.map Prod.fst) :
    array.getElementFieldValue codec idx fieldName =
      .ok (some (records.element idx fieldName)) := by
  obtain ⟨chunk, hchunk, -, hisChunk, hmod, hshows⟩ := h.exists_chunk hidx
  obtain ⟨field, hfield, rfl⟩ := List.mem_map.mp (hisChunk.names.symm.subset hname)
  have hread := hshows.getElementFieldValue hisChunk.wellLaid hfield hmod
  rw [Nat.div_add_mod'] at hread
  rw [ChunkedRecordArray.getElementFieldValue, hchunk, h.chunkSize_eq]
  exact hread

theorem Refines.getElement (h : Refines codec fields chunkSize array records) {idx : ℕ}
    (hidx : idx < capacity chunkSize records.size) :
    ∃ names : List String, names.Perm (fields.map Prod.fst) ∧
      array.getElement codec idx =
        .ok (names.map fun name => (name, some (records.element idx name))) := by
  obtain ⟨chunk, hchunk, -, hisChunk, hmod, hshows⟩ := h.exists_chunk hidx
  refine ⟨chunk.fields.map Field.name, hisChunk.names, ?_⟩
  have hread := hshows.getElement hmod
  rw [Nat.div_add_mod'] at hread
  rw [ChunkedRecordArray.getElement, hchunk, h.chunkSize_eq, List.map_map]
  exact congrArg Except.ok hread

end Refines

/-- The slots of a chunk: each is aligned and inside the buffer, and no two of them overlap. -/
structure SlotsApart (chunk : PackedRecordArray) : Prop where
  aligned : ∀ idx < chunk.size, ∀ field ∈ chunk.fields, ∃ start,
    chunk.slot idx field = Finset.Ico start (start + field.type.bytesPerElement) ∧
      field.type.bytesPerElement ∣ start ∧
      start + field.type.bytesPerElement ≤ chunk.buffer.byteLength
  disjoint : ∀ idx < chunk.size, ∀ idx' < chunk.size, ∀ field ∈ chunk.fields,
    ∀ field' ∈ chunk.fields, (idx, field) ≠ (idx', field') →
      Disjoint (chunk.slot idx field) (chunk.slot idx' field')

theorem slotsApart {chunk : PackedRecordArray} (h : chunk.WellLaid) : SlotsApart chunk where
  aligned idx hidx field hfield := by
    refine ⟨chunk.start idx field, h.slot_eq hfield hidx, h.dvd_start hfield idx, ?_⟩
    rw [h.byteLength]
    exact h.start_add_le hfield hidx
  disjoint idx hidx idx' hidx' field hfield field' hfield' hne := by
    apply h.disjoint_slot hfield hfield' hidx hidx'
    rw [Ne, Prod.mk.injEq, not_and_or] at hne
    exact hne

/-- **Packed records do not interfere**: after any valid operations the slots of every chunk are
apart, and every field of every record reads as what was stored last. -/
theorem packed_records_do_not_interfere {codec : NumberCodec Num} {fields : List (String × String)}
    (hne : fields ≠ []) (hkeys : (fields.map Prod.fst).Nodup)
    (hsupported : ∀ field ∈ fields, (typesInfo field.2).isSome = true)
    {chunkSize : ℕ} (hpos : 0 < chunkSize) {ops : List (RecordOp Num)}
    (hvalid : ValidOps codec fields chunkSize (.new fun _ => 0) ops) :
    ∃ array records, ops.foldlM (RecordOp.apply codec) (.new fields chunkSize) = .ok array ∧
      records = lastStored codec (PackedRecordArray.fieldType fields) ops ∧
      array.size = records.size ∧
      (∀ chunk ∈ array.chunks, chunk.size = chunkSize ∧
        (chunk.fields.map Field.name).Perm (fields.map Prod.fst) ∧ SlotsApart chunk) ∧
      ∀ idx < capacity chunkSize records.size,
        (∀ fieldName ∈ fields.map Prod.fst, array.getElementFieldValue codec idx fieldName =
          .ok (some (records.element idx fieldName))) ∧
        ∃ names : List String, names.Perm (fields.map Prod.fst) ∧
          array.getElement codec idx =
            .ok (names.map fun name => (name, some (records.element idx name))) := by
  obtain ⟨array, harray, hrefines⟩ := refines_new.run hne hkeys hsupported hpos hvalid
  refine ⟨array, _, harray, rfl, hrefines.size_eq, ?_, ?_⟩
  · intro chunk hmem
    obtain ⟨c, hget⟩ := List.mem_iff_getElem?.mp hmem
    have hisChunk := hrefines.chunksShow.isChunk c chunk hget
    exact ⟨hisChunk.size, hisChunk.names, slotsApart hisChunk.wellLaid⟩
  · intro idx hidx
    exact ⟨fun _ hname => hrefines.getElementFieldValue hidx hname, hrefines.getElement hidx⟩

/-- The integers of typed arrays: two's complement, the lowest byte first. -/
def twosComplement : NumberCodec ℤ where
  encode _ value k := UInt8.ofNat (value / 256 ^ (k : ℕ) % 256).toNat
  decode type bytes :=
    let unsigned : ℤ := ∑ k : Fin type.bytesPerElement, (bytes k).toNat * 256 ^ (k : ℕ)
    if 2 * unsigned < 256 ^ type.bytesPerElement then unsigned
    else unsigned - 256 ^ type.bytesPerElement
  decode_zero type := by
    have hsum : (∑ k : Fin type.bytesPerElement, ((0 : UInt8).toNat : ℤ) * 256 ^ (k : ℕ)) = 0 :=
      Finset.sum_eq_zero fun _ _ => zero_mul _
    simp only [hsum, mul_zero]
    rw [if_pos (by positivity)]

/-- Two records of different chunks are stored, then a field of the first is changed. -/
def storeTwo : List (RecordOp ℤ) :=
  [.setElement 1 fun name => if name = "s" then some (-3) else some 70000,
    .setElement 2 fun _ => some 300,
    .setElementFieldValue 1 "v" (some (-5))]

/-- An 8-bit and a 32-bit field in chunks of two records. -/
theorem packed_records_do_not_interfere_int8_int32 :
    ∃ array, storeTwo.foldlM (RecordOp.apply twosComplement)
        (.new [("s", "int8"), ("v", "int32")] 2) = .ok array ∧
      array.getElementFieldValue twosComplement 0 "v" = .ok (some 0) ∧
      array.getElementFieldValue twosComplement 1 "s" = .ok (some (-3)) ∧
      array.getElementFieldValue twosComplement 1 "v" = .ok (some (-5)) ∧
      array.getElementFieldValue twosComplement 2 "s" = .ok (some 44) := by
  obtain ⟨array, records, harray, rfl, -, -, hread⟩ :=
    @packed_records_do_not_interfere ℤ _ twosComplement [("s", "int8"), ("v", "int32")]
      (by decide) (by decide) (by decide) 2 (by decide) storeTwo
      ⟨trivial, trivial, ⟨by decide +kernel, by decide⟩, trivial⟩
  refine ⟨array, harray, ?_, ?_, ?_, ?_⟩
  · exact ((hread 0 (by decide +kernel)).1 "v" (by decide)).trans (by decide +kernel)
  · exact ((hread 1 (by decide +kernel)).1 "s" (by decide)).trans (by decide +kernel)
  · exact ((hread 1 (by decide +kernel)).1 "v" (by decide)).trans (by decide +kernel)
  · exact ((hread 2 (by decide +kernel)).1 "s" (by decide)).trans (by decide +kernel)

end PhpSpx.WebUi.Packed
