import PhpSpx.Text.CString

/-!
# The string builder

`spx_str_builder.c`: a text in a buffer of fixed capacity, and the functions that
append to it when there is room.  Each of them also returns how many characters
it added.

The functions for numbers write the digits from the last one and turn them round
at the end; here each new character is put in front.  They are also defined
without a bound on the room, which gives the text of a number.

* `Confined` — a text written character by character, under any bound.
* `StrBuilder.Appends` — a function that appends a text when there is room for it.
-/

namespace PhpSpx

/-! ## State -/

/-- `spx_str_builder_t`, the buffer up to the NUL at `size`. -/
structure StrBuilder where
  capacity : ℕ
  text : CStr
  size_le : text.length ≤ capacity

namespace StrBuilder

/-- `spx_str_builder_size`. -/
def size (b : StrBuilder) : ℕ := b.text.length

/-- `REMAINING_CHARS`, `spx_str_builder_remaining`. -/
def remaining (b : StrBuilder) : ℕ := b.capacity - b.size

theorem length_le_remaining {b : StrBuilder} {s : CStr} :
    s.length ≤ b.remaining ↔ b.size + s.length ≤ b.capacity := by
  have h := b.size_le
  rw [remaining, size]
  omega

/-- `spx_str_builder_reset`. -/
def reset (b : StrBuilder) : StrBuilder := ⟨b.capacity, [], Nat.zero_le _⟩

/-- `spx_str_builder_create`, the allocations succeeding. -/
def create (capacity : ℕ) : StrBuilder := ⟨capacity, [], Nat.zero_le _⟩

/-- The text with `s` after it. -/
def add (b : StrBuilder) (s : CStr) (h : s.length ≤ b.remaining) : StrBuilder where
  capacity := b.capacity
  text := b.text ++ s
  size_le := by
    rw [List.length_append]
    exact length_le_remaining.mp h

end StrBuilder

/-! ## Numerals -/

/-- There is room for one more character after `n` of them. -/
def hasRoom (room : Option ℕ) (n : ℕ) : Bool :=
  match room with
  | none => true
  | some r => n + 1 ≤ r

/-- `(v % 10) + '0'`, for the remainder `d`. -/
def digitOf (d : ℤ) : Char := Char.ofNat (d + 48).toNat

/-- The digit loop of `spx_str_builder_append_long`, `p` being the characters so
far.  `v` loses a digit in each turn, so `|v|` turns are enough. -/
def longDigits (room : Option ℕ) : ℕ → ℤ → CStr → Option CStr
  | 0, _, p => some p
  | fuel + 1, v, p =>
    if v = 0 then some p
    else if hasRoom room p.length = false then none
    else longDigits room fuel (v.tdiv 10) (digitOf (v.tmod 10) :: p)

/-- The sign, when there is one. -/
def withSign (room : Option ℕ) (neg : Bool) (p : CStr) : Option CStr :=
  if neg then if hasRoom room p.length = false then none else some ('-' :: p) else some p

/-- The characters `spx_str_builder_append_long` writes for `l ≠ 0`. -/
def longChars (room : Option ℕ) (l : ℤ) : Option CStr :=
  let neg : Bool := l < 0
  let v := if neg then wrapLong (l * -1) else l
  (longDigits room v.natAbs v []).bind (withSign room neg)

/-- The digit loop of `spx_str_builder_append_double`; `n` digits have been read. -/
def doubleDigits (room : Option ℕ) (nbDec : ℕ) : ℕ → ℕ → ℤ → CStr → Option CStr
  | 0, _, _, p => some p
  | fuel + 1, n, v, p =>
    if v = 0 then some p
    else if hasRoom room p.length = false then none
    else
      let digit := digitOf (v.tmod 10)
      -- a zero at the end of the decimals is left out
      if digit = '0' ∧ p = [] ∧ n + 1 ≤ nbDec then
        doubleDigits room nbDec fuel (n + 1) (v.tdiv 10) p
      else if n + 1 = nbDec then
        if hasRoom room (p.length + 1) = false then none
        else doubleDigits room nbDec fuel (n + 1) (v.tdiv 10) ('.' :: digit :: p)
      else doubleDigits room nbDec fuel (n + 1) (v.tdiv 10) (digit :: p)

/-- The conversion of a `double` to `long`, towards zero; `LONG_MIN` where the
number is out of range, as x86-64 has it. -/
def truncLong (q : ℚ) : ℤ :=
  let v := if q < 0 then -⌊-q⌋ else ⌊q⌋
  if longMin ≤ v ∧ v ≤ longMax then v else longMin

/-- The characters `spx_str_builder_append_double` writes for `d ≠ 0`. -/
def doubleChars (room : Option ℕ) (d : ℚ) (nbDec : ℕ) : Option CStr :=
  let decFactor := 10 ^ nbDec % 2 ^ 64
  let l := truncLong (d * (decFactor : ℕ) + 1 / 2)
  let neg : Bool := l < 0
  let v := if neg then wrapLong (l * -1) else l
  (doubleDigits room nbDec v.natAbs 0 v []).bind (withSign room neg)

/-- The text of a number without a bound on the room: `0` has its own. -/
def numberText (isZero : Bool) (chars : Option ℕ → Option CStr) : CStr :=
  if isZero then ['0'] else (chars none).getD []

/-- What `spx_str_builder_append_long` appends when there is room. -/
def longText (l : ℤ) : CStr := numberText (l = 0) fun room => longChars room l

/-- What `spx_str_builder_append_double` appends when there is room. -/
def doubleText (d : ℚ) (nbDec : ℕ) : CStr :=
  numberText (d = 0) fun room => doubleChars room d nbDec

/-! ## Texts written under a bound -/

/-- A text that starts with `n` characters and is written under a bound on its
length: it is the same under every bound that it fits, and there is none under
the others. -/
def Confined (n : ℕ) (F : Option ℕ → Option CStr) : Prop :=
  ∃ q, n ≤ q.length ∧ F none = some q ∧
    ∀ r, 0 < r → n ≤ r → F (some r) = if q.length ≤ r then some q else none

theorem confined_some (p : CStr) : Confined p.length fun _ => some p :=
  ⟨p, le_rfl, rfl, fun _ _ hr => (if_pos hr).symm⟩

/-- One more character is written. -/
theorem Confined.put {n : ℕ} {F : Option ℕ → Option CStr} (h : Confined (n + 1) F) :
    Confined n fun room => if hasRoom room n = false then none else F room := by
  obtain ⟨q, hq, hnone, hsome⟩ := h
  refine ⟨q, Nat.le_of_succ_le hq, hnone, ?_⟩
  intro r hr hn
  by_cases hroom : n + 1 ≤ r
  · rw [← hsome r hr hroom]
    simp [hasRoom, hroom]
  · rw [if_neg (by omega)]
    simp [hasRoom, hroom]

/-- A test of the room for a character that is not written. -/
theorem Confined.skip {F : Option ℕ → Option CStr} (h : Confined 0 F) :
    Confined 0 fun room => if hasRoom room 0 = false then none else F room := by
  obtain ⟨q, hq, hnone, hsome⟩ := h
  refine ⟨q, hq, hnone, ?_⟩
  intro r hr hn
  rw [← hsome r hr hn]
  simp [hasRoom, Nat.succ_le_of_lt hr]

theorem Confined.bind_withSign {n : ℕ} {F : Option ℕ → Option CStr} (h : Confined n F)
    (neg : Bool) : Confined n fun room => (F room).bind (withSign room neg) := by
  obtain ⟨q, hq, hnone, hsome⟩ := h
  cases neg with
  | false =>
    have hid : (fun room => (F room).bind (withSign room false)) = F :=
      funext fun room => Option.bind_fun_some _
    rw [hid]
    exact ⟨q, hq, hnone, hsome⟩
  | true =>
    refine ⟨'-' :: q, Nat.le_succ_of_le hq, ?_, fun r hr hn => ?_⟩
    · show (F none).bind _ = _
      rw [hnone]
      rfl
    show (F (some r)).bind _ = _
    rw [hsome r hr hn, List.length_cons]
    by_cases hroom : q.length + 1 ≤ r
    · rw [if_pos (by omega), if_pos hroom]
      simp [withSign, hasRoom, hroom]
    · rw [if_neg hroom]
      by_cases hq' : q.length ≤ r
      · rw [if_pos hq']
        simp [withSign, hasRoom, hroom]
      · rw [if_neg hq']
        rfl

theorem confined_longDigits (fuel : ℕ) (v : ℤ) (p : CStr) :
    Confined p.length fun room => longDigits room fuel v p := by
  induction fuel generalizing v p with
  | zero => exact confined_some p
  | succ fuel ih =>
    by_cases hv : v = 0
    · simp only [longDigits, hv, if_true]
      exact confined_some p
    · simp only [longDigits, hv, if_false]
      exact (ih _ (digitOf (v.tmod 10) :: p)).put

theorem confined_longChars (l : ℤ) : Confined 0 fun room => longChars room l :=
  (confined_longDigits _ _ []).bind_withSign _

theorem confined_doubleDigits (nbDec fuel n : ℕ) (v : ℤ) (p : CStr) :
    Confined p.length fun room => doubleDigits room nbDec fuel n v p := by
  induction fuel generalizing n v p with
  | zero => exact confined_some p
  | succ fuel ih =>
    by_cases hv : v = 0
    · simp only [doubleDigits, hv, if_true]
      exact confined_some p
    simp only [doubleDigits, hv, if_false]
    by_cases hskip : digitOf (v.tmod 10) = '0' ∧ p = [] ∧ n + 1 ≤ nbDec
    · obtain ⟨-, rfl, -⟩ := id hskip
      simp only [hskip, and_self, if_true]
      exact (ih _ _ []).skip
    · simp only [hskip, if_false]
      by_cases hpoint : n + 1 = nbDec
      · simp only [hpoint, if_true]
        exact (ih _ _ ('.' :: digitOf (v.tmod 10) :: p)).put.put
      · simp only [hpoint, if_false]
        exact (ih _ _ (digitOf (v.tmod 10) :: p)).put

theorem confined_doubleChars (d : ℚ) (nbDec : ℕ) :
    Confined 0 fun room => doubleChars room d nbDec :=
  (confined_doubleDigits nbDec _ 0 _ []).bind_withSign _

/-! ## The functions -/

namespace StrBuilder

/-- `spx_str_builder_append_char`. -/
def appendChar (b : StrBuilder) (c : Char) : ℕ × StrBuilder :=
  if h : b.remaining = 0 then (0, b) else (1, b.add [c] (Nat.pos_of_ne_zero h))

/-- The loop of `spx_str_builder_append_str`, `c` characters having been copied.
What was copied before the room ran out stays. -/
def appendStrLoop : CStr → ℕ → StrBuilder → ℕ × StrBuilder
  | [], c, b => (c, b)
  | ch :: str, c, b =>
    if h : b.remaining = 0 then (0, b)
    else appendStrLoop str (c + 1) (b.add [ch] (Nat.pos_of_ne_zero h))

/-- `spx_str_builder_append_str`. -/
def appendStr (b : StrBuilder) (str : CStr) : ℕ × StrBuilder := appendStrLoop str 0 b

/-- The characters are kept if they could be written. -/
def addChars (b : StrBuilder) (chars : Option CStr) : ℕ × StrBuilder :=
  match chars with
  | none => (0, b)
  | some s => if h : s.length ≤ b.remaining then (s.length, b.add s h) else (0, b)

/-- What the functions for numbers have in common. -/
def appendNumber (b : StrBuilder) (isZero : Bool) (chars : Option ℕ → Option CStr) :
    ℕ × StrBuilder :=
  if b.remaining = 0 then (0, b)
  else if isZero then b.appendChar '0'
  else b.addChars (chars (some b.remaining))

/-- `spx_str_builder_append_long`. -/
def appendLong (b : StrBuilder) (l : ℤ) : ℕ × StrBuilder :=
  b.appendNumber (l = 0) fun room => longChars room l

/-- `spx_str_builder_append_double`. -/
def appendDouble (b : StrBuilder) (d : ℚ) (nbDec : ℕ) : ℕ × StrBuilder :=
  b.appendNumber (d = 0) fun room => doubleChars room d nbDec

/-! ## Appending -/

/-- The function appends `s` to every text that leaves room for it. -/
def Appends (f : StrBuilder → StrBuilder) (s : CStr) : Prop :=
  ∀ b, (f b).capacity = b.capacity ∧
    (b.size + s.length ≤ b.capacity → (f b).text = b.text ++ s)

theorem Appends.comp {f g : StrBuilder → StrBuilder} {s u : CStr} (hf : Appends f s)
    (hg : Appends g u) : Appends (fun b => g (f b)) (s ++ u) := by
  intro b
  obtain ⟨hcap, htext⟩ := hf b
  obtain ⟨hcap', htext'⟩ := hg (f b)
  refine ⟨hcap'.trans hcap, ?_⟩
  intro hfits
  rw [List.length_append] at hfits
  have hs := htext (by omega)
  have hu := htext' (by rw [size, hs, List.length_append, hcap]; rw [size] at hfits; omega)
  rw [hu, hs, List.append_assoc]

/-- Nothing is appended. -/
theorem appends_nil : Appends (fun b => b) [] := fun _ => ⟨rfl, fun _ => (List.append_nil _).symm⟩

/-- A function that appends never adds more than its text. -/
theorem Appends.size_le {f : StrBuilder → StrBuilder} {s : CStr} (h : Appends f s)
    (b : StrBuilder) : (f b).size ≤ b.size + s.length := by
  obtain ⟨hcap, htext⟩ := h b
  by_cases hfits : b.size + s.length ≤ b.capacity
  · rw [size, htext hfits, List.length_append]
    exact le_rfl
  · have := (f b).size_le
    rw [size]
    omega

/-- Where there is no room for the text, less is added. -/
theorem Appends.size_lt {f : StrBuilder → StrBuilder} {s : CStr} (h : Appends f s)
    {b : StrBuilder} (hfits : ¬b.size + s.length ≤ b.capacity) :
    (f b).size < b.size + s.length := by
  have hcap := (h b).1
  have := (f b).size_le
  rw [size]
  omega

/-- With no room left, only the empty text fits. -/
theorem eq_nil_of_fits {b : StrBuilder} {s : CStr} (hzero : b.remaining = 0)
    (hfits : b.size + s.length ≤ b.capacity) : s = [] := by
  have hlen := length_le_remaining.mpr hfits
  rwa [hzero, Nat.le_zero, List.length_eq_zero_iff] at hlen

theorem appends_appendChar (c : Char) : Appends (fun b => (b.appendChar c).2) [c] := by
  intro b
  dsimp only [appendChar]
  split
  · rename_i hzero
    exact ⟨rfl, fun hfits => absurd (eq_nil_of_fits hzero hfits) (List.cons_ne_nil _ _)⟩
  · exact ⟨rfl, fun _ => rfl⟩

theorem appends_appendStrLoop (str : CStr) (c : ℕ) :
    Appends (fun b => (appendStrLoop str c b).2) str := by
  induction str generalizing c with
  | nil => exact appends_nil
  | cons ch str ih =>
    intro b
    dsimp only [appendStrLoop]
    split
    · rename_i hzero
      exact ⟨rfl, fun hfits => absurd (eq_nil_of_fits hzero hfits) (List.cons_ne_nil _ _)⟩
    · rename_i hroom
      obtain ⟨hcap, htext⟩ := ih (c + 1) (b.add [ch] (Nat.pos_of_ne_zero hroom))
      refine ⟨hcap, ?_⟩
      intro hfits
      rw [List.length_cons] at hfits
      have hadded : (b.add [ch] (Nat.pos_of_ne_zero hroom)).size = b.size + 1 :=
        List.length_append
      rw [htext (by rw [hadded]; exact (by omega : b.size + 1 + str.length ≤ b.capacity))]
      exact List.append_assoc _ _ _

theorem appends_appendStr (str : CStr) : Appends (fun b => (b.appendStr str).2) str :=
  appends_appendStrLoop str 0

/-- The characters of a number are kept exactly when they fit. -/
theorem appends_appendNumber (isZero : Bool) {chars : Option ℕ → Option CStr}
    (hchars : Confined 0 chars) :
    Appends (fun b => (b.appendNumber isZero chars).2) (numberText isZero chars) := by
  obtain ⟨q, -, hnone, hsome⟩ := hchars
  intro b
  rw [numberText, hnone, Option.getD_some]
  dsimp only [appendNumber]
  by_cases hzero : b.remaining = 0
  · rw [if_pos hzero]
    refine ⟨rfl, ?_⟩
    intro hfits
    rw [eq_nil_of_fits hzero hfits, List.append_nil]
  · rw [if_neg hzero]
    cases isZero with
    | true => exact appends_appendChar '0' b
    | false =>
      rw [if_neg Bool.false_ne_true, if_neg Bool.false_ne_true,
        hsome b.remaining (Nat.pos_of_ne_zero hzero) (Nat.zero_le _)]
      by_cases hlen : q.length ≤ b.remaining
      · rw [if_pos hlen, addChars, dif_pos hlen]
        exact ⟨rfl, fun _ => rfl⟩
      · rw [if_neg hlen]
        exact ⟨rfl, fun hfits => absurd (length_le_remaining.mpr hfits) hlen⟩

theorem appends_appendLong (l : ℤ) : Appends (fun b => (b.appendLong l).2) (longText l) :=
  appends_appendNumber _ (confined_longChars l)

theorem appends_appendDouble (d : ℚ) (nbDec : ℕ) :
    Appends (fun b => (b.appendDouble d nbDec).2) (doubleText d nbDec) :=
  appends_appendNumber _ (confined_doubleChars d nbDec)

end StrBuilder

end PhpSpx
