import PhpSpx.Lib.Cells
import PhpSpx.Lib.Filling
import PhpSpx.Text.JsonEscape

/-!
# Sanitising into a buffer

`spx_string_sanitize_json` and `spx_string_sanitize_path` of `spx_string_safe.c`, write by
write.  Both stop at an index computed from the size of the buffer, in the arithmetic of
`size_t`.

* `SafeBuffer` — the buffer with the next index, and where it was written.
* `sanitize_eq` — what is written: pieces of text, one for each character.
* `Sanitized` — it stays inside the buffer, and ends with a NUL.
* `sanitize_json_stays_inside_iff` — when `spx_string_sanitize_json` does.
-/

namespace PhpSpx

open Lib

/-! ## The functions -/

/-- The characters allowed in paths; `isalnum` is that of the C locale. -/
def SafeInPath (c : Char) : Prop := c.isAlphanum ∨ c = '_' ∨ c = '-' ∨ c = '.' ∨ c = '/'

instance : DecidablePred SafeInPath := fun c =>
  inferInstanceAs (Decidable (c.isAlphanum ∨ c = '_' ∨ c = '-' ∨ c = '.' ∨ c = '/'))

/-- `dst` and `dst_idx`.  The cells from `dst_size` on are what lies behind the buffer.  Where
it was written so far is kept beside. -/
structure SafeBuffer where
  dst : ℕ → Char
  dstIdx : BitVec 64
  writes : List ℕ

namespace SafeBuffer

/-- The buffer before the loop. -/
def start (dst : ℕ → Char) : SafeBuffer := ⟨dst, 0, []⟩

/-- `dst[dst_idx] = c`. -/
def set (b : SafeBuffer) (c : Char) : SafeBuffer :=
  { b with
    dst := Function.update b.dst b.dstIdx.toNat c
    writes := b.writes ++ [b.dstIdx.toNat] }

/-- `dst[dst_idx++] = c`. -/
def put (b : SafeBuffer) (c : Char) : SafeBuffer := { b.set c with dstIdx := b.dstIdx + 1 }

/-- A branch of `spx_string_sanitize_json` that escapes. -/
def putEscaped (dstSize : BitVec 64) (c : Char) (b : SafeBuffer) : SafeBuffer :=
  if b.dstIdx < dstSize - 2 then (b.put '\\').put c else b

/-- The body of the loop of `spx_string_sanitize_json`. -/
def putJson (dstSize : BitVec 64) (c : Char) (b : SafeBuffer) : SafeBuffer :=
  if c = '"' ∨ c = '\\' ∨ c = '/' then b.putEscaped dstSize c
  else if c = '\x08' then b.putEscaped dstSize 'b'
  else if c = '\x0c' then b.putEscaped dstSize 'f'
  else if c = '\n' then b.putEscaped dstSize 'n'
  else if c = '\r' then b.putEscaped dstSize 'r'
  else if c = '\t' then b.putEscaped dstSize 't'
  else if c.toNat < 0x20 then b
  else b.put c

/-- The body of the loop of `spx_string_sanitize_path`. -/
def putPath (c : Char) (b : SafeBuffer) : SafeBuffer :=
  if SafeInPath c then b.put c else b.put '_'

/-- The loops, which stop at the index `room`; the rest of the source stands for `src_idx`. -/
def loop (room : BitVec 64) (body : Char → SafeBuffer → SafeBuffer) : CStr → SafeBuffer → SafeBuffer
  | [], b => b
  | c :: src, b => if b.dstIdx < room then loop room body src (body c b) else b

end SafeBuffer

/-- What the two functions have in common; none is a NULL. -/
def sanitize (room : BitVec 64) (body : Char → SafeBuffer → SafeBuffer) (dst : Option (ℕ → Char))
    (dstSize : BitVec 64) (src : Option NulTerminated) : Option SafeBuffer :=
  dst.map fun dst =>
    let b := SafeBuffer.start dst
    if dstSize = 0 then b
    else
      match src with
      | none => b.set nul
      | some src => (b.loop room body src.chars).set nul

/-- `spx_string_sanitize_json`. -/
def spxStringSanitizeJson (dst : Option (ℕ → Char)) (dstSize : BitVec 64)
    (src : Option NulTerminated) : Option SafeBuffer :=
  sanitize (dstSize - 2) (SafeBuffer.putJson dstSize) dst dstSize src

/-- `spx_string_sanitize_path`. -/
def spxStringSanitizePath (dst : Option (ℕ → Char)) (dstSize : BitVec 64)
    (src : Option NulTerminated) : Option SafeBuffer :=
  sanitize (dstSize - 1) SafeBuffer.putPath dst dstSize src

/-- The characters of the source string, none for a NULL. -/
def sourceChars (src : Option NulTerminated) : CStr := src.elim [] NulTerminated.chars

/-! ## What is written -/

namespace SafeBuffer

/-- Characters are written one after the other. -/
def putAll (b : SafeBuffer) (text : CStr) : SafeBuffer := text.foldl put b

@[simp] theorem putAll_nil (b : SafeBuffer) : b.putAll [] = b := rfl

theorem putAll_append (b : SafeBuffer) (text text' : CStr) :
    b.putAll (text ++ text') = (b.putAll text).putAll text' := List.foldl_append

theorem putAll_append_singleton (b : SafeBuffer) (text : CStr) (c : Char) :
    b.putAll (text ++ [c]) = (b.putAll text).put c := putAll_append b text [c]

section Start

variable (dst : ℕ → Char) (text : CStr)

theorem dstIdx_putAll : ((start dst).putAll text).dstIdx = BitVec.ofNat 64 text.length := by
  induction text using List.reverseRecOn with
  | nil => rfl
  | append_singleton text c ih =>
    rw [putAll_append_singleton, List.length_append, List.length_singleton, BitVec.ofNat_add, ← ih]
    rfl

/-- The indexes written are those up to the length, modulo `2 ^ 64`. -/
theorem writes_putAll :
    ((start dst).putAll text).writes = (List.range text.length).map (· % 2 ^ 64) := by
  induction text using List.reverseRecOn with
  | nil => rfl
  | append_singleton text c ih =>
    have hidx : ((start dst).putAll text).dstIdx.toNat = text.length % 2 ^ 64 := by
      rw [dstIdx_putAll, BitVec.toNat_ofNat]
    rw [putAll_append_singleton, List.length_append, List.length_singleton, List.range_succ,
      List.map_append, ← ih, List.map_singleton, ← hidx]
    rfl

/-- As long as the index does not wrap, the text stands in the buffer. -/
theorem holds_putAll (h : text.length ≤ 2 ^ 64) : Holds ((start dst).putAll text).dst 0 text := by
  induction text using List.reverseRecOn with
  | nil => exact holds_nil
  | append_singleton text c ih =>
    rw [List.length_append, List.length_singleton] at h
    have hidx : ((start dst).putAll text).dstIdx.toNat = 0 + text.length := by
      rw [dstIdx_putAll, BitVec.toNat_ofNat, Nat.mod_eq_of_lt h, Nat.zero_add]
    have hsnoc := (ih (Nat.le_of_succ_le h)).snoc c
    rw [← hidx] at hsnoc
    rw [putAll_append_singleton]
    exact hsnoc

/-- A cell that is not written keeps what it holds. -/
theorem dst_putAll_of_notMem {i : ℕ} (h : i ∉ ((start dst).putAll text).writes) :
    ((start dst).putAll text).dst i = dst i := by
  induction text using List.reverseRecOn with
  | nil => rfl
  | append_singleton text c ih =>
    rw [putAll_append_singleton] at h ⊢
    have hwrites : ((start dst).putAll text |>.put c).writes =
        ((start dst).putAll text).writes ++ [((start dst).putAll text).dstIdx.toNat] := rfl
    rw [hwrites, List.mem_append, List.mem_singleton, not_or] at h
    rw [← ih h.1]
    exact Function.update_of_ne h.2 _ _

end Start

/-- **The loop**: each character adds its piece while the index is below `room`. -/
theorem loop_eq {room : BitVec 64} {body : Char → SafeBuffer → SafeBuffer} {piece : Char → CStr}
    (hbody : ∀ c b, b.dstIdx < room → body c b = b.putAll (piece c)) (dst : ℕ → Char)
    (src text : CStr) :
    loop room body src ((start dst).putAll text) =
      (start dst).putAll (fillWhile (fun n => BitVec.ofNat 64 n < room) piece src text) := by
  induction src generalizing text with
  | nil => rfl
  | cons c src ih =>
    rw [loop, dstIdx_putAll]
    by_cases hroom : BitVec.ofNat 64 text.length < room
    · have hidx : ((start dst).putAll text).dstIdx < room := by
        rw [dstIdx_putAll]
        exact hroom
      rw [if_pos hroom, hbody c _ hidx, ← putAll_append, ih, fillWhile_cons_of_goesOn hroom]
    · rw [if_neg hroom, fillWhile_of_not_goesOn hroom]

end SafeBuffer

open SafeBuffer

/-- The text written before the NUL. -/
def sanitizedText (room : BitVec 64) (piece : Char → CStr) (src : CStr) : CStr :=
  fillWhile (fun n => BitVec.ofNat 64 n < room) piece src []

/-- What a buffer that is not empty is left with. -/
theorem sanitize_eq {room : BitVec 64} {body : Char → SafeBuffer → SafeBuffer}
    {piece : Char → CStr} (hbody : ∀ c b, b.dstIdx < room → body c b = b.putAll (piece c))
    (dst : ℕ → Char) {dstSize : BitVec 64} (hsize : dstSize ≠ 0) (src : Option NulTerminated) :
    sanitize room body (some dst) dstSize src =
      some (((start dst).putAll (sanitizedText room piece (sourceChars src))).set nul) := by
  rw [sanitize, Option.map_some]
  dsimp only
  rw [if_neg hsize]
  cases src with
  | none => rfl
  | some src =>
    have hloop := loop_eq hbody dst src.chars []
    rw [putAll_nil] at hloop
    dsimp only
    rw [hloop]
    rfl

/-! ## Inside the buffer -/

/-- The buffer after a call: nothing is written outside it, and it holds a string made of the
whole pieces of the first characters. -/
structure Sanitized (piece : Char → CStr) (dst : ℕ → Char) (dstSize : BitVec 64) (src : CStr)
    (b : SafeBuffer) (out : NulTerminated) : Prop where
  inside : ∀ i ∈ b.writes, i < dstSize.toNat
  behind : ∀ i, dstSize.toNat ≤ i → b.dst i = dst i
  fits : out.strlen < dstSize.toNat
  terminated : Holds b.dst 0 out.bytes
  whole : ∃ done, done <+: src ∧ out.chars = done.flatMap piece

section

variable {room dstSize : BitVec 64} {piece : Char → CStr} {src : CStr}

theorem ne_zero_of_one_le (h : 1 ≤ dstSize) : dstSize ≠ 0 := by
  rintro rfl
  exact absurd h (by decide)

theorem exists_sanitizedText_eq (room : BitVec 64) (piece : Char → CStr) (src : CStr) :
    ∃ done, done <+: src ∧ sanitizedText room piece src = done.flatMap piece := by
  obtain ⟨done, hdone, heq, -⟩ :=
    exists_fillWhile_eq (fun n => BitVec.ofNat 64 n < room) piece src []
  exact ⟨done, hdone, heq⟩

/-- Nothing is written before the NUL only when there is nothing to write. -/
theorem sanitizedText_eq_nil_iff (hroom : 0 < room) :
    sanitizedText room piece src = [] ↔ ∀ c ∈ src, piece c = [] := by
  obtain ⟨done, hdone, heq, hend⟩ :=
    exists_fillWhile_eq (fun n => BitVec.ofNat 64 n < room) piece src []
  rw [List.nil_append] at heq hend
  rw [sanitizedText, heq]
  constructor
  · intro hnil
    rw [hnil] at hend
    rcases hend with rfl | hfull
    · exact List.flatMap_eq_nil_iff.mp hnil
    · exact absurd hroom hfull
  · intro hsrc
    exact List.flatMap_eq_nil_iff.mpr fun c hc => hsrc c (hdone.subset hc)

/-- Where the subtraction does not wrap, an index below `dst_size - k` leaves room for `k`
characters and the NUL. -/
theorem add_lt_of_lt_room {k n : ℕ} (hk : k ≤ dstSize.toNat) (hn : n < dstSize.toNat)
    (hroom : BitVec.ofNat 64 n < dstSize - BitVec.ofNat 64 k) : n + k < dstSize.toNat := by
  have hlt := dstSize.isLt
  have hk' : (BitVec.ofNat 64 k).toNat = k := by
    rw [BitVec.toNat_ofNat, Nat.mod_eq_of_lt (Nat.lt_of_le_of_lt hk hlt)]
  have hle : BitVec.ofNat 64 k ≤ dstSize := by
    rw [BitVec.le_def, hk']
    exact hk
  rw [BitVec.lt_def, BitVec.toNat_sub_of_le hle, hk', BitVec.toNat_ofNat,
    Nat.mod_eq_of_lt (Nat.lt_trans hn hlt)] at hroom
  omega

/-- The text and its NUL fit when no piece is longer than the room that is left for it. -/
theorem length_sanitizedText_lt {k : ℕ} (hsize : dstSize ≠ 0) (hk : k ≤ dstSize.toNat)
    (hpiece : ∀ c, (piece c).length ≤ k) (src : CStr) :
    (sanitizedText (dstSize - BitVec.ofNat 64 k) piece src).length < dstSize.toNat := by
  have hpos : 0 < dstSize.toNat :=
    Nat.pos_of_ne_zero fun hzero => hsize (BitVec.eq_of_toNat_eq hzero)
  have hle : (sanitizedText (dstSize - BitVec.ofNat 64 k) piece src).length ≤
      dstSize.toNat - 1 := by
    apply length_fillWhile_le _ src (Nat.zero_le _)
    intro n c hn hroom
    have hlt := add_lt_of_lt_room hk (by omega) hroom
    have hlength := hpiece c
    omega
  omega

/-- The NUL is written where the next character would be. -/
theorem dst_set_nul (dst : ℕ → Char) (text : CStr) :
    (((start dst).putAll text).set nul).dst = ((start dst).putAll (text ++ [nul])).dst := by
  rw [putAll_append_singleton]
  rfl

theorem writes_set_nul (dst : ℕ → Char) (text : CStr) :
    (((start dst).putAll text).set nul).writes = ((start dst).putAll (text ++ [nul])).writes := by
  rw [putAll_append_singleton]
  rfl

/-- The writes stay inside the buffer exactly when the text fits with its NUL, also when the
index wraps. -/
theorem inside_iff (dst : ℕ → Char) (text : CStr) :
    (∀ i ∈ (((start dst).putAll text).set nul).writes, i < dstSize.toNat) ↔
      text.length < dstSize.toNat := by
  rw [writes_set_nul, writes_putAll, List.length_append, List.length_singleton]
  constructor
  · intro h
    by_contra hlong
    have hmem : dstSize.toNat ∈ (List.range (text.length + 1)).map (· % 2 ^ 64) :=
      List.mem_map.mpr ⟨dstSize.toNat, List.mem_range.mpr (by omega),
        Nat.mod_eq_of_lt dstSize.isLt⟩
    exact absurd (h _ hmem) (Nat.lt_irrefl _)
  · intro hlt i hi
    obtain ⟨j, hj, rfl⟩ := List.mem_map.mp hi
    have hmod := Nat.mod_le j (2 ^ 64)
    rw [List.mem_range] at hj
    omega

/-- **A text that fits with its NUL leaves the buffer sanitised.** -/
theorem sanitized_of_length_lt (hlt : (sanitizedText room piece src).length < dstSize.toNat)
    (hnul : nul ∉ sanitizedText room piece src) (dst : ℕ → Char) :
    Sanitized piece dst dstSize src
      (((start dst).putAll (sanitizedText room piece src)).set nul)
      ⟨sanitizedText room piece src, hnul⟩ := by
  have hsize := dstSize.isLt
  have hinside := (inside_iff dst (sanitizedText room piece src)).mpr hlt
  refine ⟨hinside, ?_, hlt, ?_, exists_sanitizedText_eq room piece src⟩
  · intro i hi
    rw [dst_set_nul]
    apply dst_putAll_of_notMem
    rw [← writes_set_nul]
    exact fun hmem => absurd (hinside i hmem) (Nat.not_lt.mpr hi)
  · rw [dst_set_nul]
    apply holds_putAll
    rw [List.length_append, List.length_singleton]
    omega

end

/-! ## `spx_string_sanitize_json` -/

/-- The characters that are not skipped. -/
def KeptInJson (c : Char) : Prop := c.toNat < 0x20 → EscapedControl c

instance : DecidablePred KeptInJson := fun c =>
  inferInstanceAs (Decidable (c.toNat < 0x20 → EscapedControl c))

/-- What is written for a character. -/
def jsonSanitizedChar (c : Char) : CStr := if KeptInJson c then jsonEscapeChar c else []

theorem keptInJson_of_escapedChar {c e : Char} (h : escapedChar c = some e) : KeptInJson c := by
  intro hlt
  by_contra hcontrol
  rw [escapedChar_of_control hlt hcontrol] at h
  cases h

/-- A character that is not escaped is kept unless it is a control character. -/
theorem keptInJson_iff_of_escapedChar {c : Char} (h : escapedChar c = none) :
    KeptInJson c ↔ ¬c.toNat < 0x20 := by
  have hcontrol : ¬EscapedControl c := (escapedChar_eq_none_iff.mp h).2.2.2
  exact ⟨fun hkept hlt => hcontrol (hkept hlt), fun hlt h => absurd h hlt⟩

theorem jsonSanitizedChar_eq_nil_iff {c : Char} :
    jsonSanitizedChar c = [] ↔ c.toNat < 0x20 ∧ ¬EscapedControl c := by
  have hne : jsonEscapeChar c ≠ [] := by
    unfold jsonEscapeChar
    cases escapedChar c with
    | none => exact List.cons_ne_nil _ _
    | some e => exact List.cons_ne_nil _ _
  rw [jsonSanitizedChar, ← Classical.not_imp]
  exact ite_eq_right_iff.trans ⟨fun h hkept => hne (h hkept), fun h hkept => absurd hkept h⟩

theorem length_jsonSanitizedChar_le (c : Char) : (jsonSanitizedChar c).length ≤ 2 := by
  unfold jsonSanitizedChar
  split
  · rw [length_jsonEscapeChar]
    split <;> decide
  · exact Nat.zero_le _

/-- The branches by what they write: the escaped characters are those of
`spx_utils_json_escape`. -/
theorem putJson_eq_match (dstSize : BitVec 64) (c : Char) (b : SafeBuffer) :
    b.putJson dstSize c =
      match escapedChar c with
      | some e => b.putEscaped dstSize e
      | none => if c.toNat < 0x20 then b else b.put c := by
  have hfirst : (c = '"' ∨ c = '\\' ∨ c = '/') ↔ c = '\\' ∨ c = '"' ∨ c = '/' := or_left_comm
  unfold putJson escapedChar
  rw [if_congr hfirst rfl rfl]
  split_ifs <;> rfl

/-- The body writes the piece of the character. -/
theorem putJson_eq {dstSize : BitVec 64} (c : Char) (b : SafeBuffer)
    (h : b.dstIdx < dstSize - 2) : b.putJson dstSize c = b.putAll (jsonSanitizedChar c) := by
  rw [putJson_eq_match, jsonSanitizedChar, jsonEscapeChar]
  cases he : escapedChar c with
  | some e =>
    rw [if_pos (keptInJson_of_escapedChar he)]
    exact if_pos h
  | none =>
    have hkept := keptInJson_iff_of_escapedChar he
    by_cases hlt : c.toNat < 0x20
    · rw [if_neg (hkept.not_left.mpr hlt)]
      exact if_pos hlt
    · rw [if_pos (hkept.mpr hlt)]
      exact if_neg hlt

/-- The skipped characters leave no trace in the text. -/
theorem flatMap_jsonSanitizedChar (src : CStr) :
    src.flatMap jsonSanitizedChar = jsonEscaped (src.filter (KeptInJson ·)) := by
  induction src with
  | nil => rfl
  | cons c src ih =>
    rw [List.flatMap_cons, ih, jsonSanitizedChar]
    by_cases hkept : KeptInJson c
    · rw [if_pos hkept, List.filter_cons_of_pos (by simpa using hkept)]
      rfl
    · rw [if_neg hkept, List.filter_cons_of_neg (by simpa using hkept)]
      rfl

/-- As a literal, the pieces are the characters that are not skipped. -/
theorem decode_flatMap_jsonSanitizedChar (src : CStr) :
    JsonString.decode ('"' :: (src.flatMap jsonSanitizedChar ++ ['"'])) =
      some (src.filter (KeptInJson ·)) := by
  rw [flatMap_jsonSanitizedChar, decode_jsonEscaped_iff]
  intro c hc
  exact of_decide_eq_true (List.mem_filter.mp hc).2

/-- The NUL is one of the characters that are skipped. -/
theorem nul_notMem_jsonSanitizedChar (c : Char) : nul ∉ jsonSanitizedChar c := by
  intro hnul
  unfold jsonSanitizedChar at hnul
  split at hnul
  · rename_i hkept
    unfold jsonEscapeChar at hnul
    cases he : escapedChar c with
    | none =>
      rw [he, List.mem_singleton] at hnul
      subst hnul
      exact absurd (hkept (by decide)) (by decide)
    | some e =>
      rw [he, List.mem_cons, List.mem_singleton] at hnul
      have hshort := shortEscape_of_escapedChar he
      rcases hnul with hbackslash | rfl
      · exact absurd hbackslash (by decide)
      · cases hshort
  · exact List.not_mem_nil hnul

theorem nul_notMem_sanitizedText {room : BitVec 64} {piece : Char → CStr}
    (h : ∀ c, nul ∉ piece c) (src : CStr) : nul ∉ sanitizedText room piece src := by
  obtain ⟨done, -, heq⟩ := exists_sanitizedText_eq room piece src
  rw [heq, List.mem_flatMap]
  rintro ⟨c, -, hc⟩
  exact h c hc

/-- The text fits with its NUL unless there is one cell only, where the subtraction wraps, and
a character to write. -/
theorem length_sanitizedText_json_lt_iff {dstSize : BitVec 64} (hsize : dstSize ≠ 0) (src : CStr) :
    (sanitizedText (dstSize - 2) jsonSanitizedChar src).length < dstSize.toNat ↔
      dstSize ≠ 1 ∨ ∀ c ∈ src, c.toNat < 0x20 ∧ ¬EscapedControl c := by
  by_cases hone : dstSize = 1
  · subst hone
    have hroom : (0 : BitVec 64) < 1 - 2 := by decide
    have hcell : (1 : BitVec 64).toNat = 1 := rfl
    rw [or_iff_right (not_not_intro rfl), hcell, Nat.lt_one_iff, List.length_eq_zero_iff,
      sanitizedText_eq_nil_iff hroom]
    exact forall₂_congr fun c _ => jsonSanitizedChar_eq_nil_iff
  · have htwo : 2 ≤ dstSize.toNat := by bv_omega
    exact iff_of_true
      (length_sanitizedText_lt hsize htwo length_jsonSanitizedChar_le src) (.inl hone)

/-- **Sanitising stays in its buffer** and leaves the body of a JSON string there, exactly when
the buffer has at least two cells or every character of the source is skipped. -/
theorem sanitize_json_stays_inside_iff (dst : ℕ → Char) {dstSize : BitVec 64}
    (hsize : 1 ≤ dstSize) (src : Option NulTerminated) :
    (∃ b out, spxStringSanitizeJson (some dst) dstSize src = some b ∧
        Sanitized jsonSanitizedChar dst dstSize (sourceChars src) b out ∧
        (JsonString.decode ('"' :: (out.chars ++ ['"']))).isSome) ↔
      dstSize ≠ 1 ∨ ∀ c ∈ sourceChars src, c.toNat < 0x20 ∧ ¬EscapedControl c := by
  have hne : dstSize ≠ 0 := ne_zero_of_one_le hsize
  have heq : spxStringSanitizeJson (some dst) dstSize src = some _ :=
    sanitize_eq putJson_eq dst hne src
  rw [← length_sanitizedText_json_lt_iff hne]
  constructor
  · rintro ⟨b, out, hb, hsanitized, -⟩
    rw [heq] at hb
    obtain rfl := Option.some.inj hb
    exact (inside_iff dst _).mp hsanitized.inside
  · intro hlt
    have hsanitized := sanitized_of_length_lt hlt
      (nul_notMem_sanitizedText nul_notMem_jsonSanitizedChar _) dst
    refine ⟨_, _, heq, hsanitized, ?_⟩
    obtain ⟨done, -, hout⟩ := hsanitized.whole
    rw [hout, decode_flatMap_jsonSanitizedChar]
    rfl

/-- Five cells, which an escaped quote and one character fill. -/
theorem sanitize_json_stays_inside_quote :
    (1 : BitVec 64) ≤ 5 ∧
      ∃ b out, spxStringSanitizeJson (some fun _ => nul) 5 (some ⟨['a', '"', 'b'], by decide⟩) =
          some b ∧
        Sanitized jsonSanitizedChar (fun _ => nul) 5 ['a', '"', 'b'] b out ∧
        (JsonString.decode ('"' :: (out.chars ++ ['"']))).isSome := by
  have hsize : (1 : BitVec 64) ≤ 5 := by decide
  exact ⟨hsize, (sanitize_json_stays_inside_iff (fun _ => nul) hsize
    (some ⟨['a', '"', 'b'], by decide⟩)).mpr (.inl (by decide))⟩

/-- A single cell: the NUL of a text of one character is written behind it. -/
theorem sanitize_json_single_cell :
    ¬∀ (dst : ℕ → Char) (dstSize : BitVec 64) (src : NulTerminated), 1 ≤ dstSize →
      ∃ b out, spxStringSanitizeJson (some dst) dstSize (some src) = some b ∧
        Sanitized jsonSanitizedChar dst dstSize src.chars b out ∧
        (JsonString.decode ('"' :: (out.chars ++ ['"']))).isSome := by
  intro h
  obtain ⟨b, out, hb, hsanitized, -⟩ := h (fun _ => nul) 1 ⟨['a'], by decide⟩ (by decide)
  have hwrites : b.writes = [0, 1] := by
    obtain rfl := Option.some.inj hb
    rfl
  have hlt := hsanitized.inside 1 (by rw [hwrites]; decide)
  exact absurd hlt (by decide)

/-- **Nothing is cut off** a text that leaves two cells: the literal stands for all characters
that are not skipped. -/
theorem sanitize_json_complete (dst : ℕ → Char) {dstSize : BitVec 64} (src : Option NulTerminated)
    (hfits : ((sourceChars src).flatMap jsonSanitizedChar).length + 2 ≤ dstSize.toNat) :
    ∃ b out, spxStringSanitizeJson (some dst) dstSize src = some b ∧
      Sanitized jsonSanitizedChar dst dstSize (sourceChars src) b out ∧
      JsonString.decode ('"' :: (out.chars ++ ['"'])) =
        some ((sourceChars src).filter (KeptInJson ·)) := by
  have hne : dstSize ≠ 0 := by bv_omega
  have hone : dstSize ≠ 1 := by bv_omega
  have hlt := (length_sanitizedText_json_lt_iff hne (sourceChars src)).mpr (.inl hone)
  have hall : sanitizedText (dstSize - 2) jsonSanitizedChar (sourceChars src) =
      (sourceChars src).flatMap jsonSanitizedChar := by
    apply fillWhile_eq_of_length_le
    intro n hn
    bv_omega
  refine ⟨_, _, sanitize_eq putJson_eq dst hne src, sanitized_of_length_lt hlt
    (nul_notMem_sanitizedText nul_notMem_jsonSanitizedChar _) dst, ?_⟩
  rw [← decode_flatMap_jsonSanitizedChar, ← hall]

/-! ## `spx_string_sanitize_path` -/

/-- What is written for a character. -/
def pathSanitizedChar (c : Char) : CStr := if SafeInPath c then [c] else ['_']

theorem putPath_eq (c : Char) (b : SafeBuffer) : b.putPath c = b.putAll (pathSanitizedChar c) := by
  unfold putPath pathSanitizedChar
  split <;> rfl

theorem safeInPath_of_mem {c d : Char} (h : d ∈ pathSanitizedChar c) : SafeInPath d := by
  unfold pathSanitizedChar at h
  split at h
  · rename_i hsafe
    rw [List.mem_singleton.mp h]
    exact hsafe
  · rw [List.mem_singleton.mp h]
    decide

theorem length_pathSanitizedChar_le (c : Char) : (pathSanitizedChar c).length ≤ 1 := by
  unfold pathSanitizedChar
  split <;> exact Nat.le_refl 1

/-- **The path sanitiser**, which keeps one cell for the NUL, stays in every buffer and leaves
only characters allowed in paths. -/
theorem sanitize_path_stays_inside (dst : ℕ → Char) {dstSize : BitVec 64} (hsize : 1 ≤ dstSize)
    (src : Option NulTerminated) :
    ∃ b out, spxStringSanitizePath (some dst) dstSize src = some b ∧
      Sanitized pathSanitizedChar dst dstSize (sourceChars src) b out ∧
      ∀ c ∈ out.chars, SafeInPath c := by
  have hne : dstSize ≠ 0 := ne_zero_of_one_le hsize
  have hnul : ∀ c, nul ∉ pathSanitizedChar c := fun c hc =>
    absurd (safeInPath_of_mem hc) (by decide)
  have hlt := length_sanitizedText_lt hne (BitVec.le_def.mp hsize) length_pathSanitizedChar_le
    (sourceChars src)
  have hsanitized := sanitized_of_length_lt hlt (nul_notMem_sanitizedText hnul _) dst
  refine ⟨_, _, sanitize_eq (fun c b _ => putPath_eq c b) dst hne src, hsanitized, ?_⟩
  obtain ⟨done, -, hout⟩ := hsanitized.whole
  intro c hc
  rw [hout, List.mem_flatMap] at hc
  obtain ⟨a, -, hca⟩ := hc
  exact safeInPath_of_mem hca

end PhpSpx
