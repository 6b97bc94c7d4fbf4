import PhpSpx.Lib.Cells
import PhpSpx.Lib.Run
import PhpSpx.Text.StrBuilder

/-!
# The buffer of the string builder

`spx_str_builder.c` write by write: the cells of the buffer, the size, and the digits of a
number written from the last one and then turned round.

* `StrBuffer` — the builder with its cells, and where it has written.
* `StrBuffer.Contains` — the cells up to the size hold a text.
* `StrBuffer.Writing` — characters have been written behind the text.
* `StrBuffer.Represents.appendNumber` — the functions for numbers, against those on texts.
* `string_builder_all_or_nothing_iff` — whole runs.
-/

namespace PhpSpx

open Lib

/-- `spx_str_builder_t`.  The buffer has `capacity + 1` cells, and those from there on are
what lies behind it.  Where it was written so far is kept beside. -/
structure StrBuffer where
  capacity : ℕ
  size : ℕ
  buffer : ℕ → Char
  writes : List ℕ

namespace StrBuffer

/-- A character is written. -/
def set (b : StrBuffer) (i : ℕ) (c : Char) : StrBuffer :=
  { b with buffer := Function.update b.buffer i c, writes := b.writes ++ [i] }

@[simp] theorem capacity_set (b : StrBuffer) (i : ℕ) (c : Char) :
    (b.set i c).capacity = b.capacity := rfl

@[simp] theorem size_set (b : StrBuffer) (i : ℕ) (c : Char) : (b.set i c).size = b.size := rfl

theorem buffer_set_self (b : StrBuffer) (i : ℕ) (c : Char) : (b.set i c).buffer i = c :=
  Function.update_self _ _ _

theorem buffer_set_of_ne (b : StrBuffer) {i j : ℕ} (h : j ≠ i) (c : Char) :
    (b.set i c).buffer j = b.buffer j :=
  Function.update_of_ne h _ _

/-- `REMAINING_CHARS`. -/
def remainingChars (b : StrBuffer) : ℕ := b.capacity - b.size

/-- `spx_str_builder_reset`. -/
def reset (b : StrBuffer) : StrBuffer := { b with size := 0 }.set 0 nul

/-- `spx_str_builder_create`; `buffer` is what `malloc` left in it. -/
def create (capacity : ℕ) (buffer : ℕ → Char) : StrBuffer :=
  (⟨capacity, 0, buffer, []⟩ : StrBuffer).reset

/-- `spx_str_builder_append_char`. -/
def appendChar (b : StrBuffer) (c : Char) : ℕ × StrBuffer :=
  if b.remainingChars = 0 then (0, b)
  else
    let b := { b.set b.size c with size := b.size + 1 }
    (1, b.set b.size nul)

/-- The loop of `spx_str_builder_append_str`, `c` characters having been written from
`base` on. -/
def appendStrLoop (base : ℕ) : CStr → ℕ → StrBuffer → ℕ × StrBuffer
  | [], c, b => (c, b.set (base + c) nul)
  | ch :: str, c, b =>
    if b.remainingChars = 0 then (0, b.set b.size nul)
    else appendStrLoop base str (c + 1) { b.set (base + c) ch with size := b.size + 1 }

/-- `spx_str_builder_append_str`. -/
def appendStr (b : StrBuffer) (str : CStr) : ℕ × StrBuffer := appendStrLoop b.size str 0 b

/-- One character of a number, the `c`-th one, is written if there is room for it.
Otherwise the text is cut off where it was, and the function returns 0. -/
def put (remaining : ℕ) (ch : Char) (c : ℕ) (b : StrBuffer) : Except StrBuffer (ℕ × StrBuffer) :=
  if c + 1 > remaining then .error (b.set b.size nul) else .ok (c + 1, b.set (b.size + c) ch)

/-- The digit loop of `spx_str_builder_append_long`. -/
def longLoop (remaining : ℕ) : ℕ → ℤ → ℕ × StrBuffer → Except StrBuffer (ℕ × StrBuffer)
  | 0, _, (c, b) => .ok (c, b)
  | fuel + 1, v, (c, b) =>
    if v = 0 then .ok (c, b)
    else (put remaining (digitOf (v.tmod 10)) c b).bind (longLoop remaining fuel (v.tdiv 10))

/-- The digit loop of `spx_str_builder_append_double`; `n` digits have been read. -/
def doubleLoop (remaining nbDec : ℕ) :
    ℕ → ℕ → ℤ → ℕ × StrBuffer → Except StrBuffer (ℕ × StrBuffer)
  | 0, _, _, (c, b) => .ok (c, b)
  | fuel + 1, n, v, (c, b) =>
    if v = 0 then .ok (c, b)
    else if c + 1 > remaining then .error (b.set b.size nul)
    else
      let digit := digitOf (v.tmod 10)
      if digit = '0' ∧ c = 0 ∧ n + 1 ≤ nbDec then
        doubleLoop remaining nbDec fuel (n + 1) (v.tdiv 10) (c, b)
      else if n + 1 = nbDec then
        (put remaining '.' (c + 1) (b.set (b.size + c) digit)).bind
          (doubleLoop remaining nbDec fuel (n + 1) (v.tdiv 10))
      else doubleLoop remaining nbDec fuel (n + 1) (v.tdiv 10) (c + 1, b.set (b.size + c) digit)

/-- The swaps that turn the `c` characters from `base` on round. -/
def reverseLoop (base c : ℕ) : ℕ → ℕ → StrBuffer → StrBuffer
  | 0, _, b => b
  | turns + 1, i, b =>
    let opp := c - i - 1
    let tmp := b.buffer (base + i)
    reverseLoop base c turns (i + 1)
      ((b.set (base + i) (b.buffer (base + opp))).set (base + opp) tmp)

/-- The sign, when there is one. -/
def putSign (remaining : ℕ) (neg : Bool) (written : ℕ × StrBuffer) :
    Except StrBuffer (ℕ × StrBuffer) :=
  if neg then put remaining '-' written.1 written.2 else .ok written

/-- The NUL after the characters, which are then turned round and added to the text. -/
def addWritten (written : ℕ × StrBuffer) : ℕ × StrBuffer :=
  let c := written.1
  let b := written.2
  let b := reverseLoop b.size c (c / 2) 0 (b.set (b.size + c) nul)
  (c, { b with size := b.size + c })

/-- What is returned, when the characters could be written and when not. -/
def returned : Except StrBuffer (ℕ × StrBuffer) → ℕ × StrBuffer
  | .error b => (0, b)
  | .ok written => addWritten written

/-- What the functions for numbers have in common; the digits are written for `remaining`
characters. -/
def appendNumber (b : StrBuffer) (isZero neg : Bool)
    (digits : ℕ → ℕ × StrBuffer → Except StrBuffer (ℕ × StrBuffer)) : ℕ × StrBuffer :=
  let remaining := b.remainingChars
  if remaining = 0 then (0, b)
  else if isZero then b.appendChar '0'
  else returned ((digits remaining (0, b)).bind (putSign remaining neg))

/-- `spx_str_builder_append_long`. -/
def appendLong (b : StrBuffer) (l : ℤ) : ℕ × StrBuffer :=
  let neg : Bool := l < 0
  let v := if neg then wrapLong (l * -1) else l
  b.appendNumber (l = 0) neg fun remaining => longLoop remaining v.natAbs v

/-- `spx_str_builder_append_double`. -/
def appendDouble (b : StrBuffer) (d : ℚ) (nbDec : ℕ) : ℕ × StrBuffer :=
  let decFactor := 10 ^ nbDec % 2 ^ 64
  let l := truncLong (d * (decFactor : ℕ) + 1 / 2)
  let neg : Bool := l < 0
  let v := if neg then wrapLong (l * -1) else l
  b.appendNumber (d = 0) neg fun remaining => doubleLoop remaining nbDec v.natAbs 0 v

/-! ## Buffers and texts -/

/-- The cells up to the size hold the text. -/
structure Contains (b : StrBuffer) (t : StrBuilder) : Prop where
  capacity : b.capacity = t.capacity
  size : b.size = t.size
  text : Holds b.buffer 0 t.text

/-- Nothing was written beyond the NUL slot. -/
def Confined (b : StrBuffer) : Prop := ∀ i ∈ b.writes, i ≤ b.capacity

/-- The buffer holds the text with its NUL. -/
structure Represents (b : StrBuffer) (t : StrBuilder) : Prop extends Contains b t where
  nul : b.buffer b.size = nul
  confined : b.Confined

/-- Behind the text, characters have been written from the last one: their number and
the buffer. -/
structure Writing (t : StrBuilder) (p : CStr) (written : ℕ × StrBuffer) : Prop
    extends Contains written.2 t where
  count : written.1 = p.length
  room : p.length ≤ t.remaining
  holds : Holds written.2.buffer t.size p.reverse
  confined : written.2.Confined

/-- The characters were written, or, where the room ran out, the text is as it was. -/
def Outcome (t : StrBuilder) (chars : Option CStr) (x : Except StrBuffer (ℕ × StrBuffer)) : Prop :=
  match chars, x with
  | none, .error b => b.Represents t
  | some p, .ok written => Writing t p written
  | _, _ => False

section

variable {b : StrBuffer} {t : StrBuilder} {p : CStr} {w : ℕ × StrBuffer}

theorem Contains.remaining (h : b.Contains t) : b.remainingChars = t.remaining := by
  rw [remainingChars, StrBuilder.remaining, h.capacity, h.size]

theorem confined_set {i : ℕ} {c : Char} (h : b.Confined) (hi : i ≤ b.capacity) :
    (b.set i c).Confined := by
  intro j hj
  rcases List.mem_append.mp hj with hold | hnew
  · exact h j hold
  · rw [List.mem_singleton.mp hnew]
    exact hi

/-- A write behind the text leaves the text alone. -/
theorem Contains.set (h : b.Contains t) {i : ℕ} (hi : t.size ≤ i) (c : Char) :
    (b.set i c).Contains t where
  capacity := h.capacity
  size := h.size
  text := by
    intro j x hx
    have hj : j < t.text.length := (List.getElem?_eq_some_iff.mp hx).1
    have hne : 0 + j ≠ i := by
      rw [StrBuilder.size] at hi
      omega
    rw [buffer_set_of_ne b hne]
    exact h.text j x hx

/-- Nothing has been written yet. -/
theorem Represents.writing (h : b.Represents t) : Writing t [] (0, b) where
  toContains := h.toContains
  count := rfl
  room := Nat.zero_le _
  holds := holds_nil
  confined := h.confined

/-- The text is cut off where it was. -/
theorem Contains.cutOff (h : b.Contains t) (hconfined : b.Confined) :
    (b.set b.size nul).Represents t where
  toContains := h.set h.size.ge _
  nul := buffer_set_self _ _ _
  confined := confined_set hconfined (by rw [h.size, h.capacity]; exact t.size_le)

/-- One more character is written. -/
theorem Writing.set (h : Writing t p w) (hroom : p.length + 1 ≤ t.remaining) (ch : Char) :
    Writing t (ch :: p) (w.1 + 1, w.2.set (w.2.size + w.1) ch) where
  toContains := h.toContains.set (by rw [h.size]; exact Nat.le_add_right _ _) ch
  count := congrArg (· + 1) h.count
  room := hroom
  holds := by
    rw [List.reverse_cons, holds_append, holds_singleton, List.length_reverse, h.count, h.size]
    constructor
    · intro i x hx
      have hi : i < p.length := by simpa using (List.getElem?_eq_some_iff.mp hx).1
      have hne : t.size + i ≠ t.size + p.length := by omega
      rw [buffer_set_of_ne w.2 hne]
      exact h.holds i x hx
    · exact buffer_set_self _ _ _
  confined := by
    apply confined_set h.confined
    rw [h.size, h.count, h.capacity]
    have hle := StrBuilder.length_le_remaining.mp h.room
    exact hle

theorem Outcome.bind {chars : Option CStr} {x : Except StrBuffer (ℕ × StrBuffer)}
    (h : Outcome t chars x) {f : CStr → Option CStr}
    {g : ℕ × StrBuffer → Except StrBuffer (ℕ × StrBuffer)}
    (hfg : ∀ p w, Writing t p w → Outcome t (f p) (g w)) : Outcome t (chars.bind f) (x.bind g) := by
  cases chars with
  | none =>
    cases x with
    | error b => exact h
    | ok w => exact h.elim
  | some p =>
    cases x with
    | error b => exact h.elim
    | ok w => exact hfg p w h

theorem Writing.put (h : Writing t p w) (ch : Char) :
    Outcome t (if hasRoom (some t.remaining) p.length = false then none else some (ch :: p))
      (put t.remaining ch w.1 w.2) := by
  unfold StrBuffer.put
  rw [h.count]
  by_cases hroom : p.length + 1 ≤ t.remaining
  · rw [if_neg (by simp [hasRoom, hroom]), if_neg (by omega)]
    have hset := h.set hroom ch
    rw [h.count] at hset
    exact hset
  · rw [if_pos (by simp [hasRoom, hroom]), if_pos (by omega)]
    exact h.toContains.cutOff h.confined

theorem Writing.longLoop (h : Writing t p w) (fuel : ℕ) (v : ℤ) :
    Outcome t (longDigits (some t.remaining) fuel v p) (longLoop t.remaining fuel v w) := by
  induction fuel generalizing v p w with
  | zero => exact h
  | succ fuel ih =>
    unfold StrBuffer.longLoop longDigits
    by_cases hv : v = 0
    · rw [if_pos hv, if_pos hv]
      exact h
    · rw [if_neg hv, if_neg hv]
      have hbind := (h.put (digitOf (v.tmod 10))).bind
        (f := longDigits (some t.remaining) fuel (v.tdiv 10)) fun p w hw => ih hw (v.tdiv 10)
      split at hbind <;> rename_i hroom
      · rw [if_pos hroom]
        exact hbind
      · rw [if_neg hroom]
        exact hbind

theorem Writing.doubleLoop (h : Writing t p w) (nbDec fuel n : ℕ) (v : ℤ) :
    Outcome t (doubleDigits (some t.remaining) nbDec fuel n v p)
      (doubleLoop t.remaining nbDec fuel n v w) := by
  induction fuel generalizing n v p w with
  | zero => exact h
  | succ fuel ih =>
    unfold StrBuffer.doubleLoop doubleDigits
    by_cases hv : v = 0
    · rw [if_pos hv, if_pos hv]
      exact h
    rw [if_neg hv, if_neg hv]
    by_cases hroom : p.length + 1 ≤ t.remaining
    · have hnone : w.1 = 0 ↔ p = [] := by
        rw [h.count]
        exact List.length_eq_zero_iff
      have hfull : ¬w.1 + 1 > t.remaining := by
        rw [h.count]
        omega
      have hhas : ¬hasRoom (some t.remaining) p.length = false := by simp [hasRoom, hroom]
      have hset := h.set hroom (digitOf (v.tmod 10))
      rw [if_neg hhas, if_neg hfull]
      dsimp only
      by_cases hskip : digitOf (v.tmod 10) = '0' ∧ p = [] ∧ n + 1 ≤ nbDec
      · have hskip' : digitOf (v.tmod 10) = '0' ∧ w.1 = 0 ∧ n + 1 ≤ nbDec := by
          rwa [hnone]
        rw [if_pos hskip, if_pos hskip']
        exact ih h (n + 1) (v.tdiv 10)
      have hskip' : ¬(digitOf (v.tmod 10) = '0' ∧ w.1 = 0 ∧ n + 1 ≤ nbDec) := by
        rwa [hnone]
      rw [if_neg hskip, if_neg hskip']
      by_cases hpoint : n + 1 = nbDec
      · rw [if_pos hpoint, if_pos hpoint]
        have hbind := (hset.put '.').bind
          (f := doubleDigits (some t.remaining) nbDec fuel (n + 1) (v.tdiv 10))
          fun p w hw => ih hw (n + 1) (v.tdiv 10)
        rw [List.length_cons] at hbind
        split at hbind <;> rename_i hroom'
        · rw [if_pos hroom']
          exact hbind
        · rw [if_neg hroom']
          exact hbind
      · rw [if_neg hpoint, if_neg hpoint]
        exact ih hset (n + 1) (v.tdiv 10)
    · have hfull : w.1 + 1 > t.remaining := by
        rw [h.count]
        omega
      have hhas : hasRoom (some t.remaining) p.length = false := by simp [hasRoom, hroom]
      rw [if_pos hhas, if_pos hfull]
      exact h.toContains.cutOff h.confined

/-! ## Turning the characters round -/

@[simp] theorem capacity_reverseLoop (base c turns i : ℕ) (b : StrBuffer) :
    (reverseLoop base c turns i b).capacity = b.capacity := by
  induction turns generalizing i b with
  | zero => rfl
  | succ turns ih => exact ih _ _

@[simp] theorem size_reverseLoop (base c turns i : ℕ) (b : StrBuffer) :
    (reverseLoop base c turns i b).size = b.size := by
  induction turns generalizing i b with
  | zero => rfl
  | succ turns ih => exact ih _ _

theorem buffer_reverseLoop (base c turns i : ℕ) (b : StrBuffer) :
    (reverseLoop base c turns i b).buffer = swapEnds base c turns i b.buffer := by
  induction turns generalizing i b with
  | zero => rfl
  | succ turns ih =>
    rw [reverseLoop, ih]
    rfl

theorem confined_reverseLoop {base c turns i : ℕ} (hturns : 2 * (i + turns) ≤ c)
    (hbase : base + c ≤ b.capacity) (h : b.Confined) :
    (reverseLoop base c turns i b).Confined := by
  induction turns generalizing i b with
  | zero => exact h
  | succ turns ih =>
    have hset : (b.set (base + i) (b.buffer (base + (c - i - 1)))).Confined :=
      confined_set h (by omega)
    exact ih (by omega) hbase (confined_set hset (by rw [capacity_set]; omega))

/-- With the NUL behind it and turned round, a text of characters is added. -/
theorem Writing.represents (h : Writing t p w) :
    (addWritten w).2.Represents (t.add p h.room) := by
  have hfits : t.size + p.length ≤ w.2.capacity := by
    rw [h.capacity]
    exact StrBuilder.length_le_remaining.mp h.room
  unfold addWritten
  dsimp only
  rw [h.count, h.size]
  set b₁ := w.2.set (t.size + p.length) nul with hb₁
  have hcontains : b₁.Contains t := h.toContains.set (Nat.le_add_right _ _) nul
  have hnul : b₁.buffer (t.size + p.length) = nul := buffer_set_self _ _ _
  have hholds : Holds b₁.buffer t.size p.reverse := by
    intro i x hx
    have hi : i < p.length := by simpa using (List.getElem?_eq_some_iff.mp hx).1
    rw [hb₁, buffer_set_of_ne w.2 (by omega)]
    exact h.holds i x hx
  have hbuffer := buffer_reverseLoop t.size p.length (p.length / 2) 0 b₁
  refine { capacity := ?_, size := ?_, text := ?_, nul := ?_, confined := ?_ }
  · exact (capacity_reverseLoop _ _ _ _ _).trans h.capacity
  · rw [size_reverseLoop, hcontains.size]
    exact (List.length_append).symm
  · have hreversed := holds_swapEnds hholds
    rw [List.length_reverse, List.reverse_reverse] at hreversed
    refine holds_append.mpr ⟨?_, ?_⟩
    · intro i x hx
      have hi : i < t.size := (List.getElem?_eq_some_iff.mp hx).1
      rw [hbuffer, swapEnds_of_outside (.inl (by omega))]
      exact hcontains.text i x hx
    · rw [hbuffer, Nat.zero_add]
      exact hreversed
  · rw [size_reverseLoop, hcontains.size, hbuffer, swapEnds_of_outside (.inr le_rfl), hnul]
  · exact confined_reverseLoop (by omega) hfits (confined_set h.confined hfits)

/-! ## The functions against those on texts -/

/-- A call returns what the one on the text returns, and leaves the buffer with the text
that one leaves. -/
def Agrees (x : ℕ × StrBuffer) (y : ℕ × StrBuilder) : Prop := x.1 = y.1 ∧ x.2.Represents y.2

theorem Represents.agrees (h : b.Represents t) (n : ℕ) : Agrees (n, b) (n, t) := ⟨rfl, h⟩

/-- A character is written behind the text, and the size is advanced. -/
theorem Contains.extend (h : b.Contains t) (ch : Char) (hroom : [ch].length ≤ t.remaining) :
    Contains { b.set b.size ch with size := b.size + 1 } (t.add [ch] hroom) where
  capacity := h.capacity
  size := by
    show b.size + 1 = (t.text ++ [ch]).length
    rw [List.length_append, h.size]
    rfl
  text := by
    refine holds_append.mpr ⟨(h.set h.size.ge ch).text, ?_⟩
    rw [holds_singleton, Nat.zero_add, ← StrBuilder.size, ← h.size]
    exact buffer_set_self _ _ _

theorem Represents.appendChar (h : b.Represents t) (c : Char) :
    Agrees (b.appendChar c) (t.appendChar c) := by
  unfold StrBuffer.appendChar StrBuilder.appendChar
  rw [h.remaining]
  by_cases hzero : t.remaining = 0
  · rw [if_pos hzero, dif_pos hzero]
    exact h.agrees 0
  · rw [if_neg hzero, dif_neg hzero]
    have hextend := h.toContains.extend c (Nat.pos_of_ne_zero hzero)
    refine ⟨rfl, hextend.cutOff (confined_set (c := c) h.confined ?_)⟩
    rw [h.size, h.capacity]
    exact t.size_le

/-- The loop of `spx_str_builder_append_str` writes at the size. -/
theorem appendStrLoop_agrees {base c : ℕ} {str : CStr} (h : b.Contains t) (hconfined : b.Confined)
    (hsize : b.size = base + c) :
    Agrees (appendStrLoop base str c b) (StrBuilder.appendStrLoop str c t) := by
  induction str generalizing c b t with
  | nil =>
    refine ⟨rfl, ?_⟩
    show (b.set (base + c) PhpSpx.nul).Represents t
    rw [← hsize]
    exact h.cutOff hconfined
  | cons ch str ih =>
    unfold StrBuffer.appendStrLoop StrBuilder.appendStrLoop
    rw [h.remaining]
    by_cases hzero : t.remaining = 0
    · rw [if_pos hzero, dif_pos hzero]
      exact ⟨rfl, h.cutOff hconfined⟩
    · rw [if_neg hzero, dif_neg hzero, ← hsize]
      have hextend := h.extend ch (Nat.pos_of_ne_zero hzero)
      refine ih hextend (confined_set (c := ch) hconfined ?_) ?_
      · rw [h.size, h.capacity]
        exact t.size_le
      · show b.size + 1 = base + (c + 1)
        omega

theorem Represents.appendStr (h : b.Represents t) (str : CStr) :
    Agrees (b.appendStr str) (t.appendStr str) :=
  appendStrLoop_agrees h.toContains h.confined (Nat.add_zero _).symm

theorem Writing.putSign (h : Writing t p w) (neg : Bool) :
    Outcome t (withSign (some t.remaining) neg p) (putSign t.remaining neg w) := by
  cases neg with
  | false => exact h
  | true => exact h.put '-'

/-- What was written is added to the text, and nothing is where the room ran out. -/
theorem Outcome.agrees {chars : Option CStr} {x : Except StrBuffer (ℕ × StrBuffer)}
    (h : Outcome t chars x) :
    Agrees (returned x) (t.addChars chars) := by
  cases chars with
  | none =>
    cases x with
    | error b => exact Represents.agrees h 0
    | ok w => exact h.elim
  | some p =>
    cases x with
    | error b => exact h.elim
    | ok w =>
      have hw : Writing t p w := h
      rw [StrBuilder.addChars, dif_pos hw.room]
      exact ⟨hw.count, hw.represents⟩

theorem Represents.appendNumber (h : b.Represents t) (isZero neg : Bool)
    {digits : ℕ → ℕ × StrBuffer → Except StrBuffer (ℕ × StrBuffer)}
    (chars : Option ℕ → Option CStr)
    (hdigits : Outcome t (chars (some t.remaining)) (digits t.remaining (0, b))) :
    Agrees (b.appendNumber isZero neg digits)
      (t.appendNumber isZero fun room => (chars room).bind (withSign room neg)) := by
  unfold StrBuffer.appendNumber StrBuilder.appendNumber
  rw [h.remaining]
  by_cases hzero : t.remaining = 0
  · rw [if_pos hzero, if_pos hzero]
    exact h.agrees 0
  rw [if_neg hzero, if_neg hzero]
  cases isZero with
  | true => exact h.appendChar '0'
  | false =>
    have hsigned := hdigits.bind (g := putSign t.remaining neg) fun p w hw => hw.putSign neg
    exact hsigned.agrees

theorem Represents.appendLong (h : b.Represents t) (l : ℤ) :
    Agrees (b.appendLong l) (t.appendLong l) :=
  h.appendNumber _ _ (fun room => longDigits room _ _ []) (h.writing.longLoop _ _)

theorem Represents.appendDouble (h : b.Represents t) (d : ℚ) (nbDec : ℕ) :
    Agrees (b.appendDouble d nbDec) (t.appendDouble d nbDec) :=
  h.appendNumber _ _ (fun room => doubleDigits room nbDec _ 0 _ [])
    (h.writing.doubleLoop nbDec _ 0 _)

theorem Represents.reset (h : b.Represents t) : b.reset.Represents t.reset := by
  have hcontains : Contains { b with size := 0 } t.reset :=
    { capacity := h.capacity, size := rfl, text := holds_nil }
  exact hcontains.cutOff h.confined

theorem represents_create (capacity : ℕ) (buffer : ℕ → Char) :
    (create capacity buffer).Represents (StrBuilder.create capacity) := by
  have hcontains : Contains ⟨capacity, 0, buffer, []⟩ (StrBuilder.create capacity) :=
    { capacity := rfl, size := rfl, text := holds_nil }
  exact hcontains.cutOff nofun

end

/-! ## Runs -/

/-- The characters of the text. -/
def content (b : StrBuffer) : CStr := (List.range b.size).map b.buffer

theorem Contains.content {b : StrBuffer} {t : StrBuilder} (h : b.Contains t) :
    b.content = t.text := by
  apply List.ext_getElem
  · rw [StrBuffer.content, List.length_map, List.length_range, h.size]
    rfl
  · intro i hi hi'
    simp only [StrBuffer.content, List.getElem_map, List.getElem_range]
    have hcell := h.text i t.text[i] (List.getElem?_eq_getElem hi')
    rwa [Nat.zero_add] at hcell

end StrBuffer

/-- A call of a function of the string builder. -/
inductive BuilderOp where
  | appendChar (c : Char)
  | appendStr (str : CStr)
  | appendLong (l : ℤ)
  | appendDouble (d : ℚ) (nbDec : ℕ)
  | reset

namespace BuilderOp

/-- The complete text that a call is to append. -/
def text : BuilderOp → CStr
  | .appendChar c => [c]
  | .appendStr str => str
  | .appendLong l => longText l
  | .appendDouble d nbDec => doubleText d nbDec
  | .reset => []

end BuilderOp

namespace StrBuilder

/-- One call, with what it returns. -/
def run (t : StrBuilder) : BuilderOp → ℕ × StrBuilder
  | .appendChar c => t.appendChar c
  | .appendStr str => t.appendStr str
  | .appendLong l => t.appendLong l
  | .appendDouble d nbDec => t.appendDouble d nbDec
  | .reset => (0, t.reset)

/-- The complete text is added, and the number of its characters returned. -/
def Adds (t : StrBuilder) (r : ℕ × StrBuilder) (s : CStr) : Prop :=
  s.length ≤ t.remaining ∧ r.1 = s.length ∧ r.2.text = t.text ++ s

/-- There is no room for the text, and nothing is done. -/
def Refuses (t : StrBuilder) (r : ℕ × StrBuilder) (s : CStr) : Prop :=
  t.remaining < s.length ∧ r.1 = 0 ∧ r.2.text = t.text

theorem appendChar_cases (t : StrBuilder) (c : Char) :
    t.Adds (t.appendChar c) [c] ∨ t.Refuses (t.appendChar c) [c] := by
  unfold appendChar
  by_cases hzero : t.remaining = 0
  · rw [dif_pos hzero]
    exact .inr ⟨by rw [hzero]; exact Nat.one_pos, rfl, rfl⟩
  · rw [dif_neg hzero]
    exact .inl ⟨Nat.pos_of_ne_zero hzero, rfl, rfl⟩

theorem appendNumber_cases (t : StrBuilder) (isZero : Bool) {chars : Option ℕ → Option CStr}
    (hchars : PhpSpx.Confined 0 chars) :
    t.Adds (t.appendNumber isZero chars) (numberText isZero chars) ∨
      t.Refuses (t.appendNumber isZero chars) (numberText isZero chars) := by
  obtain ⟨q, -, hnone, hsome⟩ := hchars
  unfold appendNumber numberText
  rw [hnone, Option.getD_some]
  by_cases hzero : t.remaining = 0
  · rw [if_pos hzero]
    rcases Nat.eq_zero_or_pos (if isZero = true then ['0'] else q).length with hnil | hpos
    · refine .inl ⟨hnil.le.trans (Nat.zero_le _), hnil.symm, ?_⟩
      rw [List.length_eq_zero_iff.mp hnil, List.append_nil]
    · exact .inr ⟨by rwa [hzero], rfl, rfl⟩
  rw [if_neg hzero]
  cases isZero with
  | true => exact t.appendChar_cases '0'
  | false =>
    rw [if_neg Bool.false_ne_true, if_neg Bool.false_ne_true,
      hsome t.remaining (Nat.pos_of_ne_zero hzero) (Nat.zero_le _)]
    by_cases hlen : q.length ≤ t.remaining
    · rw [if_pos hlen, addChars, dif_pos hlen]
      exact .inl ⟨hlen, rfl, rfl⟩
    · rw [if_neg hlen]
      exact .inr ⟨Nat.not_le.mp hlen, rfl, rfl⟩

/-- The loop of `spx_str_builder_append_str`: where the room runs out, what was copied
before stays. -/
theorem appendStrLoop_cases (t : StrBuilder) (str : CStr) (c : ℕ) :
    (str.length ≤ t.remaining ∧ (appendStrLoop str c t).1 = c + str.length ∧
        (appendStrLoop str c t).2.text = t.text ++ str) ∨
      (t.remaining < str.length ∧ (appendStrLoop str c t).1 = 0 ∧
        (appendStrLoop str c t).2.text = t.text ++ str.take t.remaining) := by
  induction str generalizing t c with
  | nil => exact .inl ⟨Nat.zero_le _, rfl, (List.append_nil _).symm⟩
  | cons ch str ih =>
    unfold appendStrLoop
    by_cases hzero : t.remaining = 0
    · rw [dif_pos hzero, hzero]
      exact .inr ⟨Nat.succ_pos _, rfl, (List.append_nil _).symm⟩
    · rw [dif_neg hzero]
      have hpos := Nat.pos_of_ne_zero hzero
      have hremaining : (t.add [ch] hpos).remaining = t.remaining - 1 := by
        unfold remaining size
        simp only [add, List.length_append, List.length_singleton]
        omega
      rcases ih (t.add [ch] hpos) (c + 1) with ⟨hlen, hret, htext⟩ | ⟨hlen, hret, htext⟩
      · refine .inl ⟨?_, ?_, ?_⟩
        · rw [List.length_cons]
          omega
        · rw [hret, List.length_cons]
          omega
        · rw [htext]
          simp [add]
      · refine .inr ⟨?_, hret, ?_⟩
        · rw [List.length_cons]
          omega
        · obtain ⟨r, hr⟩ : ∃ r, t.remaining = r + 1 := ⟨t.remaining - 1, by omega⟩
          rw [htext, hremaining, hr, List.take_succ_cons]
          simp [add]

end StrBuilder

namespace StrBuffer

/-- One call, with what it returns. -/
def run (b : StrBuffer) : BuilderOp → ℕ × StrBuffer
  | .appendChar c => b.appendChar c
  | .appendStr str => b.appendStr str
  | .appendLong l => b.appendLong l
  | .appendDouble d nbDec => b.appendDouble d nbDec
  | .reset => (0, b.reset)

/-- One call. -/
def after (b : StrBuffer) (op : BuilderOp) : StrBuffer := (b.run op).2

/-- **One call** on the buffer does what it does on the text. -/
theorem Represents.run {b : StrBuffer} {t : StrBuilder} (h : b.Represents t) (op : BuilderOp) :
    Agrees (b.run op) (t.run op) := by
  cases op with
  | appendChar c => exact h.appendChar c
  | appendStr str => exact h.appendStr str
  | appendLong l => exact h.appendLong l
  | appendDouble d nbDec => exact h.appendDouble d nbDec
  | reset => exact ⟨rfl, h.reset⟩

/-- The size is within the capacity, the text ends in a NUL, and nothing was written beyond
the NUL slot. -/
structure Bounded (b : StrBuffer) : Prop where
  size : b.size ≤ b.capacity
  nul : b.buffer b.size = nul
  confined : b.Confined

/-- An append leaves the text that was there before it, and returns the number of the
characters of the complete text, which it adds, or else 0 and adds nothing. -/
def AllOrNothing (b : StrBuffer) : BuilderOp → Prop
  | .reset => True
  | op =>
      b.content <+: (b.after op).content ∧
        ((b.run op).1 = op.text.length ∧ (b.after op).content = b.content ++ op.text ∨
          (b.run op).1 = 0 ∧ (b.after op).content = b.content)

/-- A string that is appended fits, or there is no room at all. -/
def FitsOrFull (b : StrBuffer) : BuilderOp → Prop
  | .appendStr str => str.length ≤ b.remainingChars ∨ b.remainingChars = 0
  | _ => True

/-- The state of the buffer is bounded. -/
theorem Represents.bounded {b : StrBuffer} {t : StrBuilder} (h : b.Represents t) : b.Bounded where
  size := by
    rw [h.size, h.capacity]
    exact t.size_le
  nul := h.nul
  confined := h.confined

/-- What is added on the text is added to the content. -/
theorem Represents.adds_or_refuses {b : StrBuffer} {t : StrBuilder} (h : b.Represents t)
    (op : BuilderOp) (hcases : t.Adds (t.run op) op.text ∨ t.Refuses (t.run op) op.text) :
    b.content <+: (b.after op).content ∧
      ((b.run op).1 = op.text.length ∧ (b.after op).content = b.content ++ op.text ∨
        (b.run op).1 = 0 ∧ (b.after op).content = b.content) := by
  obtain ⟨hret, hrep⟩ := h.run op
  unfold after
  rw [h.content, hrep.content, hret]
  rcases hcases with ⟨-, hcount, htext⟩ | ⟨-, hcount, htext⟩
  · rw [htext]
    exact ⟨List.prefix_append _ _, .inl ⟨hcount, rfl⟩⟩
  · rw [htext]
    exact ⟨List.prefix_rfl, .inr ⟨hcount, rfl⟩⟩

/-- A string for which there is some room but not enough is cut off. -/
theorem Represents.allOrNothing_appendStr_iff {b : StrBuffer} {t : StrBuilder}
    (h : b.Represents t) (str : CStr) :
    b.AllOrNothing (.appendStr str) ↔ b.FitsOrFull (.appendStr str) := by
  have hloop := t.appendStrLoop_cases str 0
  rw [Nat.zero_add] at hloop
  unfold FitsOrFull
  rw [h.remaining]
  rcases hloop with hadds | ⟨hlong, hret, htext⟩
  · exact iff_of_true (h.adds_or_refuses (.appendStr str) (.inl hadds)) (.inl hadds.1)
  · rcases Nat.eq_zero_or_pos t.remaining with hzero | hpos
    · rw [hzero, List.take_zero, List.append_nil] at htext
      exact iff_of_true (h.adds_or_refuses (.appendStr str) (.inr ⟨hlong, hret, htext⟩))
        (.inr hzero)
    · refine iff_of_false ?_ (by omega)
      rintro ⟨-, hall | hnothing⟩
      · have hcount : (b.appendStr str).1 = str.length := hall.1
        rw [(h.appendStr str).1] at hcount
        exact absurd (hret.symm.trans hcount) (by omega)
      · have hkept : (b.appendStr str).2.content = b.content := hnothing.2
        rw [(h.appendStr str).2.content, h.content] at hkept
        have hlen := congrArg List.length (htext.symm.trans hkept)
        rw [List.length_append, List.length_take] at hlen
        omega

/-- **One call** adds the complete text or nothing, exactly when it is not a string that
is cut off. -/
theorem Represents.allOrNothing_iff {b : StrBuffer} {t : StrBuilder} (h : b.Represents t)
    (op : BuilderOp) : b.AllOrNothing op ↔ b.FitsOrFull op := by
  cases op with
  | appendChar c =>
    exact iff_of_true (h.adds_or_refuses (.appendChar c) (t.appendChar_cases c)) trivial
  | appendStr str => exact h.allOrNothing_appendStr_iff str
  | appendLong l =>
    exact iff_of_true (h.adds_or_refuses (.appendLong l)
      (t.appendNumber_cases _ (confined_longChars l))) trivial
  | appendDouble d nbDec =>
    exact iff_of_true (h.adds_or_refuses (.appendDouble d nbDec)
      (t.appendNumber_cases _ (confined_doubleChars d nbDec))) trivial
  | reset => exact iff_of_true trivial trivial

/-- **Appends are all or nothing, and bounded**, in every run of calls, exactly when no
string is appended for which there is some room but not enough. -/
theorem string_builder_all_or_nothing_iff (capacity : ℕ) (buffer : ℕ → Char)
    (ops : List BuilderOp) :
    (Throughout after Bounded ops (create capacity buffer) ∧
        EachStep after AllOrNothing ops (create capacity buffer)) ↔
      EachStep after FitsOrFull ops (create capacity buffer) := by
  have hstart : ∃ t, (create capacity buffer).Represents t := ⟨_, represents_create capacity buffer⟩
  have hkeep : ∀ b op, (∃ t, Represents b t) → ∃ t, (b.after op).Represents t := by
    rintro b op ⟨t, h⟩
    exact ⟨_, (h.run op).2⟩
  have hbounded : Throughout after Bounded ops (create capacity buffer) :=
    Throughout.of_invariant (fun b ⟨t, h⟩ => h.bounded) hkeep hstart
  have hatomic : EachStep after AllOrNothing ops (create capacity buffer) ↔
      EachStep after FitsOrFull ops (create capacity buffer) :=
    eachStep_iff_of_invariant (V := fun _ _ => True)
      (fun b op ⟨t, h⟩ _ => h.allOrNothing_iff op) (fun b op h _ _ => hkeep b op h) hstart
      ((eachStep_iff_forall_mem _ ops _).mpr fun _ _ => trivial)
  rw [hatomic]
  exact and_iff_right hbounded

/-- A string of three characters where two fit: it is cut off, and 0 is returned. -/
theorem append_str_cut_off :
    ¬(Throughout after Bounded [.appendStr ['a', 'b', 'c']] (create 2 fun _ => nul) ∧
      EachStep after AllOrNothing [.appendStr ['a', 'b', 'c']] (create 2 fun _ => nul)) := by
  rintro ⟨-, hstep, -⟩
  have hfits := ((represents_create 2 fun _ => nul).allOrNothing_iff _).mp hstep
  unfold FitsOrFull at hfits
  revert hfits
  decide

end StrBuffer

end PhpSpx
