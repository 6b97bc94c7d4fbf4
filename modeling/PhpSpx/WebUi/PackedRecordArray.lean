import Mathlib.Algebra.Order.Floor.Ring
import Mathlib.Data.List.Sort
import Mathlib.Data.Nat.Cast.Field
import Mathlib.Data.Nat.Cast.Order.Field
import Mathlib.Data.Rat.Floor
import Mathlib.Order.Interval.Finset.Nat

/-!
# Packed arrays of records

`PackedRecordArray` of `utils.js`: records of numbers in one buffer, each field read and written
through a typed array over the whole buffer.  The fields are placed one after the other, those of
the largest type first, and a record takes a multiple of the size of its largest field.

* `PackedRecordArray` — the array and its operations.
* `PackedRecordArray.WellLaid` — where the fields are.
* `PackedRecordArray.slot` — the bytes of a field of a record.
* `WellLaid.typedRead_write` — a read after a write.
-/

namespace PhpSpx.WebUi.Packed

/-! ## Typed arrays -/

/-- The keys of `typesInfo`. -/
inductive FieldType where
  | int8
  | int32
  | float32
  | float64
  deriving DecidableEq, Repr

/-- `BYTES_PER_ELEMENT`. -/
def FieldType.bytesPerElement : FieldType → ℕ
  | int8 => 1
  | int32 => 4
  | float32 => 4
  | float64 => 8

/-- `typesInfo`, by the name of the type. -/
def typesInfo : String → Option FieldType
  | "int8" => some .int8
  | "int32" => some .int32
  | "float32" => some .float32
  | "float64" => some .float64
  | _ => none

/-- How a typed array keeps a number in its bytes.  Bytes that are all zero are the number 0. -/
structure NumberCodec (Num : Type) [Zero Num] where
  encode : (type : FieldType) → Num → Fin type.bytesPerElement → UInt8
  decode : (type : FieldType) → (Fin type.bytesPerElement → UInt8) → Num
  decode_zero : ∀ type, decode type (fun _ => 0) = 0

variable {Num : Type} [Zero Num]

/-- A number as a typed array gives it back. -/
def NumberCodec.convert (codec : NumberCodec Num) (type : FieldType) (value : Num) : Num :=
  codec.decode type (codec.encode type value)

/-- `ArrayBuffer`. -/
structure ArrayBuffer where
  byteLength : ℕ
  bytes : ℕ → UInt8

/-- The constructor of `ArrayBuffer`. -/
def ArrayBuffer.new (byteLength : ℕ) : ArrayBuffer where
  byteLength := byteLength
  bytes := fun _ => 0

/-- The element of a typed array that a number is the index of, if it is one. -/
def elementIdx (buffer : ArrayBuffer) (type : FieldType) (idx : ℚ) : Option ℕ :=
  if idx.den = 1 ∧ 0 ≤ idx ∧ (⌊idx⌋₊ + 1) * type.bytesPerElement ≤ buffer.byteLength then
    some ⌊idx⌋₊
  else none

/-- `typeArray[idx]`, none for `undefined`. -/
def typedRead (codec : NumberCodec Num) (buffer : ArrayBuffer) (type : FieldType) (idx : ℚ) :
    Option Num :=
  (elementIdx buffer type idx).map fun i =>
    codec.decode type fun k => buffer.bytes (i * type.bytesPerElement + k)

/-- The bytes of an element written. -/
def ArrayBuffer.writeElement (buffer : ArrayBuffer) (type : FieldType) (i : ℕ)
    (element : Fin type.bytesPerElement → UInt8) : ArrayBuffer where
  byteLength := buffer.byteLength
  bytes a :=
    if h : i * type.bytesPerElement ≤ a ∧ a < i * type.bytesPerElement + type.bytesPerElement then
      element ⟨a - i * type.bytesPerElement, by omega⟩
    else buffer.bytes a

/-- `typeArray[idx] = value`, which does nothing when there is no such element. -/
def typedWrite (codec : NumberCodec Num) (buffer : ArrayBuffer) (type : FieldType) (idx : ℚ)
    (value : Num) : ArrayBuffer :=
  match elementIdx buffer type idx with
  | none => buffer
  | some i => buffer.writeElement type i (codec.encode type value)

/-! ## The array -/

/-- What the arrays throw. -/
inductive RecordError where
  | unsupportedType (type : String)
  | unknownField (fieldName : String)
  | typeError
  | rangeError
  deriving DecidableEq, Repr

/-- An element of `PackedRecordArray.fields`. -/
structure Field where
  name : String
  type : FieldType
  typeElemSize : ℚ
  typeOffset : ℚ
  deriving DecidableEq

/-- `PackedRecordArray`. -/
structure PackedRecordArray where
  fields : List Field
  elemSize : ℕ
  size : ℕ
  buffer : ArrayBuffer

namespace PackedRecordArray

/-- The first loop of the constructor. -/
def readFields : List (String × String) → Except RecordError (List (String × FieldType))
  | [] => .ok []
  | (fieldName, type) :: fields =>
    match typesInfo type with
    | none => .error (.unsupportedType type)
    | some typeInfo => (readFields fields).map ((fieldName, typeInfo) :: ·)

/-- The sort of the fields, the largest type first. -/
def sortFields (fields : List (String × FieldType)) : List (String × FieldType) :=
  fields.mergeSort fun a b => b.2.bytesPerElement ≤ a.2.bytesPerElement

/-- The sum of the sizes of fields. -/
def fieldsSize (fields : List (String × FieldType)) : ℕ :=
  (fields.map fun field => field.2.bytesPerElement).sum

/-- The last loop of the constructor, from `currentOffset` on. -/
def layFields (elemSize : ℕ) : ℕ → List (String × FieldType) → List Field
  | _, [] => []
  | currentOffset, (name, type) :: fields =>
    { name := name
      type := type
      typeElemSize := (elemSize : ℚ) / type.bytesPerElement
      typeOffset := (currentOffset : ℚ) / type.bytesPerElement } ::
        layFields elemSize (currentOffset + type.bytesPerElement) fields

/-- The constructor of `PackedRecordArray`.  A typed array over a buffer that is no multiple of
its elements throws. -/
def new (fields : List (String × String)) (size : ℕ) : Except RecordError PackedRecordArray := do
  let fields ← readFields fields
  match sortFields fields with
  | [] => .error .typeError
  | first :: rest =>
    let alignment := first.2.bytesPerElement
    let elemSize := ⌈(fieldsSize fields : ℚ) / alignment⌉₊ * alignment
    let buffer := ArrayBuffer.new (size * elemSize)
    if ∀ field ∈ first :: rest, buffer.byteLength % field.2.bytesPerElement = 0 then
      .ok ⟨layFields elemSize 0 (first :: rest), elemSize, size, buffer⟩
    else .error .rangeError

/-- The index of a field of a record in the typed array of the field. -/
def typedIdx (idx : ℕ) (field : Field) : ℚ := idx * field.typeElemSize + field.typeOffset

/-- The loop body of `setElement`.  A value `undefined` or `NaN` is none. -/
def setField (codec : NumberCodec Num) (idx : ℕ) (obj : String → Option Num)
    (buffer : ArrayBuffer) (field : Field) : ArrayBuffer :=
  typedWrite codec buffer field.type (typedIdx idx field) ((obj field.name).getD 0)

/-- `PackedRecordArray.setElement`. -/
def setElement (codec : NumberCodec Num) (array : PackedRecordArray) (idx : ℕ)
    (obj : String → Option Num) : PackedRecordArray :=
  { array with buffer := array.fields.foldl (setField codec idx obj) array.buffer }

/-- `this.fields[this.fieldIndexes[fieldName]]`. -/
def field (array : PackedRecordArray) (fieldName : String) : Except RecordError Field :=
  match array.fields.find? fun field => field.name = fieldName with
  | none => .error (.unknownField fieldName)
  | some field => .ok field

/-- `PackedRecordArray.setElementFieldValue`. -/
def setElementFieldValue (codec : NumberCodec Num) (array : PackedRecordArray) (idx : ℕ)
    (fieldName : String) (fieldValue : Option Num) : Except RecordError PackedRecordArray := do
  let field ← array.field fieldName
  .ok { array with
    buffer := typedWrite codec array.buffer field.type (typedIdx idx field) (fieldValue.getD 0) }

/-- `PackedRecordArray.getElement`, by the names of the fields. -/
def getElement (codec : NumberCodec Num) (array : PackedRecordArray) (idx : ℕ) :
    List (String × Option Num) :=
  array.fields.map fun field =>
    (field.name, typedRead codec array.buffer field.type (typedIdx idx field))

/-- `PackedRecordArray.getElementFieldValue`. -/
def getElementFieldValue (codec : NumberCodec Num) (array : PackedRecordArray) (idx : ℕ)
    (fieldName : String) : Except RecordError (Option Num) := do
  let field ← array.field fieldName
  .ok (typedRead codec array.buffer field.type (typedIdx idx field))

end PackedRecordArray

/-! ## Sizes -/

theorem FieldType.bytesPerElement_pos (type : FieldType) : 0 < type.bytesPerElement := by
  cases type <;> decide

/-- A smaller type divides a larger one. -/
theorem FieldType.bytesPerElement_dvd {a b : FieldType}
    (h : a.bytesPerElement ≤ b.bytesPerElement) : a.bytesPerElement ∣ b.bytesPerElement := by
  revert h
  cases a <;> cases b <;> decide

/-- The offset of a field in its record, in bytes. -/
def Field.offset (field : Field) : ℕ := ⌊field.typeOffset * field.type.bytesPerElement⌋₊

/-- A field lies in records of a size. -/
structure Field.LiesIn (field : Field) (elemSize : ℕ) : Prop where
  dvd_offset : field.type.bytesPerElement ∣ field.offset
  dvd_elemSize : field.type.bytesPerElement ∣ elemSize
  typeOffset : field.typeOffset = field.offset / field.type.bytesPerElement
  typeElemSize : field.typeElemSize = elemSize / field.type.bytesPerElement
  fits : field.offset + field.type.bytesPerElement ≤ elemSize

namespace PackedRecordArray

theorem offset_mk (name : String) (type : FieldType) (typeElemSize : ℚ) (o : ℕ) :
    (Field.mk name type typeElemSize ((o : ℚ) / type.bytesPerElement)).offset = o := by
  have hne : (type.bytesPerElement : ℚ) ≠ 0 := Nat.cast_ne_zero.mpr type.bytesPerElement_pos.ne'
  rw [Field.offset, div_mul_cancel₀ _ hne, Nat.floor_natCast]

/-- What the loop that lays the fields does with one of them. -/
structure Laid (elemSize currentOffset : ℕ) (fields : List (String × FieldType)) (field : Field) :
    Prop where
  mem : (field.name, field.type) ∈ fields
  typeElemSize : field.typeElemSize = (elemSize : ℚ) / field.type.bytesPerElement
  typeOffset : field.typeOffset = (field.offset : ℚ) / field.type.bytesPerElement
  le_offset : currentOffset ≤ field.offset
  fits : field.offset + field.type.bytesPerElement ≤ currentOffset + fieldsSize fields

theorem fieldsSize_cons (name : String) (type : FieldType) (fields : List (String × FieldType)) :
    fieldsSize ((name, type) :: fields) = type.bytesPerElement + fieldsSize fields := rfl

theorem laid_layFields {elemSize currentOffset : ℕ} {fields : List (String × FieldType)} :
    ∀ field ∈ layFields elemSize currentOffset fields, Laid elemSize currentOffset fields field := by
  induction fields generalizing currentOffset with
  | nil => exact fun _ hmem => absurd hmem List.not_mem_nil
  | cons first fields ih =>
    obtain ⟨name, type⟩ := first
    rw [layFields, List.forall_mem_cons]
    constructor
    · refine ⟨List.mem_cons_self, rfl, ?_, (offset_mk _ _ _ _).ge, ?_⟩
      · rw [offset_mk]
      · rw [offset_mk, fieldsSize_cons]
        dsimp only
        omega
    · intro field hmem
      have h := ih field hmem
      have hfits := h.fits
      have hle := h.le_offset
      refine ⟨List.mem_cons_of_mem _ h.mem, h.typeElemSize, h.typeOffset, by omega, ?_⟩
      rw [fieldsSize_cons]
      omega

/-- **The fields of a record** are one behind the other. -/
theorem pairwise_layFields {elemSize currentOffset : ℕ} {fields : List (String × FieldType)} :
    (layFields elemSize currentOffset fields).Pairwise fun a b =>
      a.offset + a.type.bytesPerElement ≤ b.offset := by
  induction fields generalizing currentOffset with
  | nil => exact .nil
  | cons first fields ih =>
    obtain ⟨name, type⟩ := first
    rw [layFields, List.pairwise_cons]
    refine ⟨?_, ih⟩
    intro field hmem
    rw [offset_mk]
    exact (laid_layFields field hmem).le_offset

theorem map_layFields (elemSize currentOffset : ℕ) (fields : List (String × FieldType)) :
    (layFields elemSize currentOffset fields).map (fun field => (field.name, field.type)) =
      fields := by
  induction fields generalizing currentOffset with
  | nil => rfl
  | cons first fields ih => exact congrArg (first :: ·) (ih _)

/-- **Every field is aligned**: what is before it are fields of its size or larger ones. -/
theorem dvd_offset_layFields {elemSize currentOffset : ℕ} {fields : List (String × FieldType)}
    (hsorted : fields.Pairwise fun a b => b.2.bytesPerElement ≤ a.2.bytesPerElement)
    (hdvd : ∀ field ∈ fields, field.2.bytesPerElement ∣ currentOffset) :
    ∀ field ∈ layFields elemSize currentOffset fields,
      field.type.bytesPerElement ∣ field.offset := by
  induction fields generalizing currentOffset with
  | nil => exact fun _ hmem => absurd hmem List.not_mem_nil
  | cons first fields ih =>
    obtain ⟨name, type⟩ := first
    obtain ⟨hfirst, hrest⟩ := List.pairwise_cons.mp hsorted
    obtain ⟨hdvdFirst, hdvdRest⟩ := List.forall_mem_cons.mp hdvd
    rw [layFields, List.forall_mem_cons]
    constructor
    · rw [offset_mk]
      exact hdvdFirst
    · apply ih hrest
      intro field hmem
      exact dvd_add (hdvdRest field hmem) (FieldType.bytesPerElement_dvd (hfirst field hmem))

/-! ## A new array -/

/-- **Where the fields of an array are**: each has a name of its own and lies in the records, and
they are one behind the other. -/
structure WellLaid (array : PackedRecordArray) : Prop where
  nodup : (array.fields.map Field.name).Nodup
  liesIn : ∀ field ∈ array.fields, field.LiesIn array.elemSize
  pairwise : array.fields.Pairwise fun a b => a.offset + a.type.bytesPerElement ≤ b.offset
  byteLength : array.buffer.byteLength = array.size * array.elemSize

/-- The constructor reads fields of supported types. -/
theorem readFields_eq {fields : List (String × String)}
    (hsupported : ∀ field ∈ fields, (typesInfo field.2).isSome = true) :
    ∃ read, readFields fields = .ok read ∧ read.map Prod.fst = fields.map Prod.fst ∧
      ∀ field ∈ read, ∃ type, (field.1, type) ∈ fields ∧ typesInfo type = some field.2 := by
  induction fields with
  | nil => exact ⟨[], rfl, rfl, fun _ hmem => absurd hmem List.not_mem_nil⟩
  | cons first fields ih =>
    obtain ⟨name, type⟩ := first
    obtain ⟨hfirst, hrest⟩ := List.forall_mem_cons.mp hsupported
    obtain ⟨read, hread, hnames, htypes⟩ := ih hrest
    obtain ⟨typeInfo, htype⟩ := Option.isSome_iff_exists.mp hfirst
    refine ⟨(name, typeInfo) :: read, ?_, congrArg (name :: ·) hnames, ?_⟩
    · simp only [readFields, htype, hread]
      rfl
    · rw [List.forall_mem_cons]
      refine ⟨⟨type, List.mem_cons_self, htype⟩, ?_⟩
      intro field hmem
      obtain ⟨type', hmem', htype'⟩ := htypes field hmem
      exact ⟨type', List.mem_cons_of_mem _ hmem', htype'⟩

theorem sortFields_perm (fields : List (String × FieldType)) : (sortFields fields).Perm fields :=
  List.mergeSort_perm _ _

theorem pairwise_sortFields (fields : List (String × FieldType)) :
    (sortFields fields).Pairwise fun a b => b.2.bytesPerElement ≤ a.2.bytesPerElement := by
  have hsorted := @List.pairwise_mergeSort _
    (fun a b : String × FieldType => decide (b.2.bytesPerElement ≤ a.2.bytesPerElement))
    (fun a b c hab hbc =>
      decide_eq_true ((of_decide_eq_true hbc).trans (of_decide_eq_true hab)))
    (fun a b => by
      rw [Bool.or_eq_true, decide_eq_true_eq, decide_eq_true_eq]
      exact Nat.le_total _ _)
    fields
  exact hsorted.imp of_decide_eq_true

theorem le_ceil_mul (n : ℕ) {a : ℕ} (h : 0 < a) : n ≤ ⌈(n : ℚ) / a⌉₊ * a := by
  have hpos : (0 : ℚ) < a := Nat.cast_pos.mpr h
  rw [← Nat.cast_le (α := ℚ), Nat.cast_mul, ← div_le_iff₀ hpos]
  exact Nat.le_ceil _

/-- The type of a field, by its name. -/
def fieldType (fields : List (String × String)) (fieldName : String) : FieldType :=
  ((fields.find? fun field => field.1 = fieldName).bind fun field => typesInfo field.2).getD .int8

theorem fieldType_of_mem {fields : List (String × String)} (hkeys : (fields.map Prod.fst).Nodup)
    {name type : String} (hmem : (name, type) ∈ fields) {typeInfo : FieldType}
    (htype : typesInfo type = some typeInfo) : fieldType fields name = typeInfo := by
  have hfind : (fields.find? fun field => field.1 = name) = some (name, type) := by
    induction fields with
    | nil => exact absurd hmem List.not_mem_nil
    | cons first fields ih =>
      obtain ⟨hnotMem, hrest⟩ := List.nodup_cons.mp hkeys
      rcases List.mem_cons.mp hmem with rfl | hmem
      · exact List.find?_cons_of_pos (decide_eq_true rfl)
      · have hne : first.1 ≠ name := fun h =>
          hnotMem (h ▸ List.mem_map_of_mem (f := Prod.fst) hmem)
        rw [List.find?_cons_of_neg (by rw [decide_eq_true_eq]; exact hne)]
        exact ih hrest hmem
  rw [fieldType, hfind, Option.bind_some, htype, Option.getD_some]

theorem map_name_layFields (elemSize currentOffset : ℕ) (fields : List (String × FieldType)) :
    (layFields elemSize currentOffset fields).map Field.name = fields.map Prod.fst := by
  have hmap := congrArg (List.map Prod.fst) (map_layFields elemSize currentOffset fields)
  rwa [List.map_map] at hmap

/-- **Sorted fields** are well laid in records that have room for them. -/
theorem wellLaid_layFields {fields : List (String × FieldType)} {elemSize : ℕ}
    (hnodup : (fields.map Prod.fst).Nodup)
    (hsorted : fields.Pairwise fun a b => b.2.bytesPerElement ≤ a.2.bytesPerElement)
    (hle : fieldsSize fields ≤ elemSize)
    (hdvd : ∀ field ∈ fields, field.2.bytesPerElement ∣ elemSize) (size : ℕ) :
    WellLaid ⟨layFields elemSize 0 fields, elemSize, size, .new (size * elemSize)⟩ where
  nodup := by
    dsimp only
    rwa [map_name_layFields]
  liesIn field hmem := by
    have h := laid_layFields field hmem
    have hfits := h.fits
    exact ⟨dvd_offset_layFields hsorted (fun _ _ => dvd_zero _) field hmem, hdvd _ h.mem,
      h.typeOffset, h.typeElemSize, by dsimp only; omega⟩
  pairwise := pairwise_layFields
  byteLength := rfl

/-- **A new array** is well laid, whatever its size, and has the fields given. -/
theorem exists_new {fields : List (String × String)} (hne : fields ≠ [])
    (hkeys : (fields.map Prod.fst).Nodup)
    (hsupported : ∀ field ∈ fields, (typesInfo field.2).isSome = true) (size : ℕ) :
    ∃ array, new fields size = .ok array ∧ array.WellLaid ∧ array.size = size ∧
      array.buffer = .new (size * array.elemSize) ∧
      (array.fields.map Field.name).Perm (fields.map Prod.fst) ∧
      ∀ field ∈ array.fields, field.type = fieldType fields field.name := by
  obtain ⟨read, hread, hnames, htypes⟩ := readFields_eq hsupported
  have hperm := sortFields_perm read
  have hsorted := pairwise_sortFields read
  have hsize : fieldsSize (sortFields read) = fieldsSize read := (hperm.map _).sum_eq
  have hnodup : ((sortFields read).map Prod.fst).Nodup :=
    (hperm.map _).symm.nodup (hnames ▸ hkeys)
  cases hsort : sortFields read with
  | nil =>
    rw [hsort] at hperm
    have hlen : fields.length = 0 := by
      rw [← List.length_map Prod.fst, ← hnames, hperm.nil_eq.symm]
      rfl
    exact absurd (List.length_eq_zero_iff.mp hlen) hne
  | cons first rest =>
    rw [hsort] at hperm hsorted hsize hnodup
    generalize hE : ⌈(fieldsSize read : ℚ) / first.2.bytesPerElement⌉₊ * first.2.bytesPerElement =
      elemSize
    have hle : fieldsSize (first :: rest) ≤ elemSize := by
      rw [hsize, ← hE]
      exact le_ceil_mul _ first.2.bytesPerElement_pos
    have hdvd : ∀ field ∈ first :: rest, field.2.bytesPerElement ∣ elemSize := by
      have hfirst : first.2.bytesPerElement ∣ elemSize := hE ▸ Nat.dvd_mul_left _ _
      rw [List.forall_mem_cons]
      refine ⟨hfirst, fun field hmem => dvd_trans ?_ hfirst⟩
      exact FieldType.bytesPerElement_dvd (List.rel_of_pairwise_cons hsorted hmem)
    have hwhole : ∀ field ∈ first :: rest,
        (ArrayBuffer.new (size * elemSize)).byteLength % field.2.bytesPerElement = 0 :=
      fun field hmem => Nat.mod_eq_zero_of_dvd (dvd_mul_of_dvd_right (hdvd field hmem) size)
    refine ⟨⟨layFields elemSize 0 (first :: rest), elemSize, size, .new (size * elemSize)⟩, ?_,
      wellLaid_layFields hnodup hsorted hle hdvd size, rfl, rfl, ?_, ?_⟩
    · rw [new, hread]
      change (match sortFields read with
        | [] => _
        | first :: rest => _) = _
      rw [hsort]
      subst hE
      exact if_pos hwhole
    · rw [map_name_layFields, ← hnames]
      exact hperm.map Prod.fst
    · intro field hmem
      obtain ⟨type, hmemType, htype⟩ := htypes _ (hperm.subset (laid_layFields field hmem).mem)
      exact (fieldType_of_mem hkeys hmemType htype).symm

/-! ## The bytes of a field -/

/-- The bytes of a field of a record. -/
def slot (array : PackedRecordArray) (idx : ℕ) (field : Field) : Finset ℕ :=
  match elementIdx array.buffer field.type (typedIdx idx field) with
  | none => ∅
  | some i =>
    Finset.Ico (i * field.type.bytesPerElement)
      (i * field.type.bytesPerElement + field.type.bytesPerElement)

/-- The first byte of a field of a record. -/
def start (array : PackedRecordArray) (idx : ℕ) (field : Field) : ℕ :=
  idx * array.elemSize + field.offset

section Slots

variable {array : PackedRecordArray} {idx idx' : ℕ} {field field' : Field}

theorem WellLaid.dvd_start (h : array.WellLaid) (hfield : field ∈ array.fields) (idx : ℕ) :
    field.type.bytesPerElement ∣ array.start idx field :=
  dvd_add (dvd_mul_of_dvd_right (h.liesIn field hfield).dvd_elemSize idx)
    (h.liesIn field hfield).dvd_offset

theorem WellLaid.start_add_le (h : array.WellLaid) (hfield : field ∈ array.fields)
    (hidx : idx < idx') :
    array.start idx field + field.type.bytesPerElement ≤ idx' * array.elemSize := by
  have hfits := (h.liesIn field hfield).fits
  have hnext : (idx + 1) * array.elemSize ≤ idx' * array.elemSize := Nat.mul_le_mul_right _ hidx
  rw [Nat.add_one_mul] at hnext
  rw [start]
  omega

/-- **The index in the typed array** is that of the first byte. -/
theorem WellLaid.elementIdx_eq (h : array.WellLaid) (hfield : field ∈ array.fields)
    (hidx : idx < array.size) :
    elementIdx array.buffer field.type (typedIdx idx field) =
      some (array.start idx field / field.type.bytesPerElement) := by
  have hne : (field.type.bytesPerElement : ℚ) ≠ 0 :=
    Nat.cast_ne_zero.mpr field.type.bytesPerElement_pos.ne'
  have hdvd := h.dvd_start hfield idx
  have htyped : typedIdx idx field =
      ((array.start idx field / field.type.bytesPerElement : ℕ) : ℚ) := by
    rw [Nat.cast_div hdvd hne, typedIdx, (h.liesIn field hfield).typeElemSize,
      (h.liesIn field hfield).typeOffset, start, Nat.cast_add, Nat.cast_mul]
    ring
  have hinside : (array.start idx field / field.type.bytesPerElement + 1) *
      field.type.bytesPerElement ≤ array.buffer.byteLength := by
    rw [Nat.add_one_mul, Nat.div_mul_cancel hdvd, h.byteLength]
    exact h.start_add_le hfield hidx
  rw [elementIdx, htyped, Nat.floor_natCast, if_pos ⟨Rat.den_natCast _, Nat.cast_nonneg _, hinside⟩]

theorem WellLaid.slot_eq (h : array.WellLaid) (hfield : field ∈ array.fields)
    (hidx : idx < array.size) :
    array.slot idx field =
      Finset.Ico (array.start idx field) (array.start idx field + field.type.bytesPerElement) := by
  rw [slot, h.elementIdx_eq hfield hidx]
  dsimp only
  rw [Nat.div_mul_cancel (h.dvd_start hfield idx)]

/-- **The slots of an array** do not overlap. -/
theorem WellLaid.start_add_le_or (h : array.WellLaid) (hfield : field ∈ array.fields)
    (hfield' : field' ∈ array.fields) (hne : idx ≠ idx' ∨ field ≠ field') :
    array.start idx field + field.type.bytesPerElement ≤ array.start idx' field' ∨
      array.start idx' field' + field'.type.bytesPerElement ≤ array.start idx field := by
  rcases Nat.lt_trichotomy idx idx' with hlt | rfl | hlt
  · left
    exact (h.start_add_le hfield hlt).trans (Nat.le_add_right _ _)
  · have hfields : ∀ a ∈ array.fields, ∀ b ∈ array.fields, a ≠ b →
        a.offset + a.type.bytesPerElement ≤ b.offset ∨
          b.offset + b.type.bytesPerElement ≤ a.offset := by
      intro a ha b hb hab
      have hsymm : Std.Symm fun a b : Field => a.offset + a.type.bytesPerElement ≤ b.offset ∨
          b.offset + b.type.bytesPerElement ≤ a.offset := ⟨fun _ _ => Or.symm⟩
      have hor : array.fields.Pairwise fun a b => a.offset + a.type.bytesPerElement ≤ b.offset ∨
          b.offset + b.type.bytesPerElement ≤ a.offset := h.pairwise.imp Or.inl
      exact hor.forall ha hb hab
    have hor := hfields _ hfield _ hfield' (hne.resolve_left fun hidx => hidx rfl)
    rw [start, start]
    omega
  · right
    exact (h.start_add_le hfield' hlt).trans (Nat.le_add_right _ _)

theorem WellLaid.disjoint_slot (h : array.WellLaid) (hfield : field ∈ array.fields)
    (hfield' : field' ∈ array.fields) (hidx : idx < array.size) (hidx' : idx' < array.size)
    (hne : idx ≠ idx' ∨ field ≠ field') :
    Disjoint (array.slot idx field) (array.slot idx' field') := by
  rw [h.slot_eq hfield hidx, h.slot_eq hfield' hidx', Finset.disjoint_left]
  intro a ha ha'
  rw [Finset.mem_Ico] at ha ha'
  have hor := h.start_add_le_or hfield hfield' hne
  omega

end Slots

/-! ## Reads and writes -/

section Access

variable {codec : NumberCodec Num} {array : PackedRecordArray} {idx idx' : ℕ}
  {field field' : Field}

/-- What is read is what the bytes of the field hold. -/
theorem WellLaid.typedRead_eq (h : array.WellLaid) (hfield : field ∈ array.fields)
    (hidx : idx < array.size) :
    typedRead codec array.buffer field.type (typedIdx idx field) =
      some (codec.decode field.type fun k => array.buffer.bytes (array.start idx field + k)) := by
  rw [typedRead, h.elementIdx_eq hfield hidx, Option.map_some,
    Nat.div_mul_cancel (h.dvd_start hfield idx)]

/-- The array after a write. -/
def write (codec : NumberCodec Num) (array : PackedRecordArray) (idx : ℕ) (field : Field)
    (value : Num) : PackedRecordArray :=
  { array with buffer := typedWrite codec array.buffer field.type (typedIdx idx field) value }

theorem WellLaid.write (h : array.WellLaid) (idx : ℕ) (field : Field) (value : Num) :
    (array.write codec idx field value).WellLaid where
  nodup := h.nodup
  liesIn := h.liesIn
  pairwise := h.pairwise
  byteLength := by
    rw [PackedRecordArray.write, typedWrite]
    dsimp only
    split
    · exact h.byteLength
    · exact h.byteLength

/-- The bytes after a write. -/
theorem WellLaid.bytes_write (h : array.WellLaid) (hfield : field ∈ array.fields)
    (hidx : idx < array.size) (value : Num) (a : ℕ) :
    (array.write codec idx field value).buffer.bytes a =
      if ha : array.start idx field ≤ a ∧
          a < array.start idx field + field.type.bytesPerElement then
        codec.encode field.type value ⟨a - array.start idx field, by omega⟩
      else array.buffer.bytes a := by
  rw [PackedRecordArray.write, typedWrite, h.elementIdx_eq hfield hidx]
  simp only [ArrayBuffer.writeElement, Nat.div_mul_cancel (h.dvd_start hfield idx)]

/-- **A read after a write** gives what was written, converted, or what was there before. -/
theorem WellLaid.typedRead_write (h : array.WellLaid) (hfield : field ∈ array.fields)
    (hfield' : field' ∈ array.fields) (hidx : idx < array.size) (hidx' : idx' < array.size)
    (value : Num) :
    typedRead codec (array.write codec idx field value).buffer field'.type (typedIdx idx' field') =
      if idx' = idx ∧ field' = field then some (codec.convert field.type value)
      else typedRead codec array.buffer field'.type (typedIdx idx' field') := by
  have hread : typedRead codec (array.write codec idx field value).buffer field'.type
      (typedIdx idx' field') = _ := (h.write idx field value).typedRead_eq hfield' hidx'
  rw [hread, h.typedRead_eq hfield' hidx']
  split
  · rename_i hsame
    obtain ⟨rfl, rfl⟩ := hsame
    congr 2
    funext k
    have hk := k.isLt
    change (array.write codec idx' field' value).buffer.bytes (array.start idx' field' + k) = _
    rw [h.bytes_write hfield hidx, dif_pos ⟨Nat.le_add_right _ _, by omega⟩]
    congr 1
    exact Fin.ext (Nat.add_sub_cancel_left _ _)
  · rename_i hdifferent
    congr 2
    funext k
    have hk := k.isLt
    change (array.write codec idx field value).buffer.bytes (array.start idx' field' + k) = _
    rw [h.bytes_write hfield hidx, dif_neg]
    have hor := h.start_add_le_or hfield hfield'
      ((not_and_or.mp hdifferent).imp Ne.symm Ne.symm)
    omega

/-- The array reads as these values. -/
def Shows (codec : NumberCodec Num) (array : PackedRecordArray) (values : ℕ → String → Num) :
    Prop :=
  ∀ idx < array.size, ∀ field ∈ array.fields,
    typedRead codec array.buffer field.type (typedIdx idx field) = some (values idx field.name)

theorem WellLaid.eq_of_name_eq (h : array.WellLaid) (hfield : field ∈ array.fields)
    (hfield' : field' ∈ array.fields) (hname : field.name = field'.name) : field = field' :=
  List.inj_on_of_nodup_map h.nodup hfield hfield' hname

/-- A write of one field. -/
theorem Shows.write {values : ℕ → String → Num} (hshows : array.Shows codec values)
    (h : array.WellLaid) (hfield : field ∈ array.fields) (hidx : idx < array.size) (value : Num) :
    (array.write codec idx field value).Shows codec
      (Function.update values idx
        (Function.update (values idx) field.name (codec.convert field.type value))) := by
  intro idx' hidx' field' hfield'
  rw [h.typedRead_write hfield hfield' hidx hidx']
  by_cases hi : idx' = idx
  · subst hi
    rw [Function.update_self]
    by_cases hf : field' = field
    · subst hf
      rw [if_pos ⟨rfl, rfl⟩, Function.update_self]
    · have hname : field'.name ≠ field.name := fun hname =>
        hf (h.eq_of_name_eq hfield' hfield hname)
      rw [if_neg fun hsame => hf hsame.2, Function.update_of_ne hname]
      exact hshows idx' hidx' field' hfield'
  · rw [if_neg fun hsame => hi hsame.1, Function.update_of_ne hi]
    exact hshows idx' hidx' field' hfield'

/-! ## The operations -/

/-- The array has the layout of another one. -/
structure SameLayout (array other : PackedRecordArray) : Prop where
  fields : array.fields = other.fields
  size : array.size = other.size

variable {types : String → FieldType} {values : ℕ → String → Num}

/-- The writes of `setElement`, field by field. -/
theorem Shows.foldl_write (obj : String → Option Num) {fields : List Field}
    (hfields : ∀ field ∈ fields, field ∈ array.fields ∧ field.type = types field.name)
    (h : array.WellLaid) (hshows : array.Shows codec values) (hidx : idx < array.size) :
    ∃ array', { array with buffer := fields.foldl (setField codec idx obj) array.buffer } = array' ∧
      array'.WellLaid ∧ array'.SameLayout array ∧
      array'.Shows codec (Function.update values idx fun name =>
        if name ∈ fields.map Field.name then codec.convert (types name) ((obj name).getD 0)
        else values idx name) := by
  induction fields generalizing array values with
  | nil =>
    refine ⟨_, rfl, h, ⟨rfl, rfl⟩, ?_⟩
    simp only [List.map_nil, List.not_mem_nil, if_false, Function.update_eq_self]
    exact hshows
  | cons first fields ih =>
    obtain ⟨⟨hfirst, htype⟩, hrest⟩ := List.forall_mem_cons.mp hfields
    obtain ⟨array', harray, hwell, hsame, hreads⟩ :=
      @ih (array.write codec idx first ((obj first.name).getD 0)) _ hrest (h.write idx first _)
        (hshows.write h hfirst hidx _) hidx
    refine ⟨array', harray, hwell, ⟨hsame.fields, hsame.size⟩, ?_⟩
    rw [Function.update_idem, Function.update_self] at hreads
    have hrecord : (fun name =>
        if name ∈ (first :: fields).map Field.name then
          codec.convert (types name) ((obj name).getD 0)
        else values idx name) = fun name =>
        if name ∈ fields.map Field.name then codec.convert (types name) ((obj name).getD 0)
        else Function.update (values idx) first.name
          (codec.convert first.type ((obj first.name).getD 0)) name := by
      funext name
      by_cases hname : name = first.name
      · subst hname
        have hmem : first.name ∈ (first :: fields).map Field.name := List.mem_cons_self
        rw [if_pos hmem, Function.update_self, htype, ite_self]
      · rw [Function.update_of_ne hname]
        simp only [List.map_cons, List.mem_cons, hname, false_or]
    rw [hrecord]
    exact hreads

/-- **`setElement`** stores a record. -/
theorem Shows.setElement (hshows : array.Shows codec values) (h : array.WellLaid)
    (htypes : ∀ field ∈ array.fields, field.type = types field.name) (hidx : idx < array.size)
    (obj : String → Option Num) :
    (array.setElement codec idx obj).WellLaid ∧
      (array.setElement codec idx obj).SameLayout array ∧
      (array.setElement codec idx obj).Shows codec (Function.update values idx fun name =>
        codec.convert (types name) ((obj name).getD 0)) := by
  obtain ⟨array', harray, hwell, hsame, hreads⟩ := hshows.foldl_write obj
    (fun field hfield => ⟨hfield, htypes field hfield⟩) h hidx
  rw [PackedRecordArray.setElement, harray]
  refine ⟨hwell, hsame, ?_⟩
  intro idx' hidx' field hfield
  rw [hreads idx' hidx' field hfield]
  by_cases hi : idx' = idx
  · subst hi
    rw [hsame.fields] at hfield
    rw [Function.update_self, Function.update_self, if_pos (List.mem_map_of_mem hfield)]
  · rw [Function.update_of_ne hi, Function.update_of_ne hi]

theorem WellLaid.field_eq (h : array.WellLaid) (hfield : field ∈ array.fields) :
    array.field field.name = .ok field := by
  have hfind : (array.fields.find? fun f => f.name = field.name) = some field := by
    cases hf : array.fields.find? fun f => f.name = field.name with
    | none =>
      exact absurd (decide_eq_true rfl) (List.find?_eq_none.mp hf field hfield)
    | some found =>
      have hname : found.name = field.name := by simpa using List.find?_some hf
      rw [h.eq_of_name_eq (List.mem_of_find?_eq_some hf) hfield hname]
  rw [PackedRecordArray.field, hfind]

/-- **`setElementFieldValue`** stores a number. -/
theorem Shows.setElementFieldValue (hshows : array.Shows codec values) (h : array.WellLaid)
    (hfield : field ∈ array.fields) (hidx : idx < array.size) (fieldValue : Option Num) :
    ∃ array', array.setElementFieldValue codec idx field.name fieldValue = .ok array' ∧
      array'.WellLaid ∧ array'.SameLayout array ∧
      array'.Shows codec (Function.update values idx (Function.update (values idx) field.name
        (codec.convert field.type (fieldValue.getD 0)))) := by
  refine ⟨array.write codec idx field (fieldValue.getD 0), ?_, h.write _ _ _, ⟨rfl, rfl⟩,
    hshows.write h hfield hidx _⟩
  rw [PackedRecordArray.setElementFieldValue, h.field_eq hfield]
  rfl

/-- **What is read** is what the array shows. -/
theorem Shows.getElementFieldValue (hshows : array.Shows codec values) (h : array.WellLaid)
    (hfield : field ∈ array.fields) (hidx : idx < array.size) :
    array.getElementFieldValue codec idx field.name = .ok (some (values idx field.name)) := by
  rw [PackedRecordArray.getElementFieldValue, h.field_eq hfield]
  exact congrArg Except.ok (hshows idx hidx field hfield)

theorem Shows.getElement (hshows : array.Shows codec values) (hidx : idx < array.size) :
    array.getElement codec idx =
      array.fields.map fun field => (field.name, some (values idx field.name)) := by
  rw [PackedRecordArray.getElement]
  apply List.map_congr_left
  intro field hfield
  rw [hshows idx hidx field hfield]

/-- A new array reads as zeros. -/
theorem shows_new (h : array.WellLaid)
    (hbuffer : array.buffer = .new (array.size * array.elemSize)) :
    array.Shows codec fun _ _ => 0 := by
  intro idx hidx field hfield
  rw [h.typedRead_eq hfield hidx, hbuffer]
  exact congrArg some (codec.decode_zero field.type)

end Access

end PackedRecordArray

end PhpSpx.WebUi.Packed
