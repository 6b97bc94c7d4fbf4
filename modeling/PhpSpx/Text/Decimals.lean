import PhpSpx.Text.Numerals

/-!
# Decimal numbers

What `spx_str_builder_append_double` appends, read back as a decimal number.

* `parseDecimal` — reading a number: a sign, digits, and a point with decimals.
* `IsRounded` — a nearest multiple of the last decimal.
* `padDigits` — the last digits of a number, with leading zeros.
* `doubleDigits_of_pos` — the digit loop.
* `append_double_rounded_iff` — when the text decodes to the rounded number.
-/

namespace PhpSpx

/-! ## Reading a number -/

/-- A decimal number as it is written. -/
structure Decimal where
  negative : Bool
  whole : CStr
  decimals : CStr
  deriving DecidableEq, Repr

/-- The number that is meant. -/
def Decimal.value (n : Decimal) : ℚ :=
  (if n.negative then -1 else 1) *
    (digitsValue (n.whole ++ n.decimals) / 10 ^ n.decimals.length)

/-- Digits, and a point followed by digits. -/
def parseUnsigned (negative : Bool) (s : CStr) : Option Decimal :=
  match s.dropWhile Char.isDigit with
  | [] => some ⟨negative, s, []⟩
  | c :: decimals =>
      if c = '.' ∧ decimals.all Char.isDigit then
        some ⟨negative, s.takeWhile Char.isDigit, decimals⟩
      else none

/-- A sign or none, digits, and a point followed by digits. -/
def parseDecimal (s : CStr) : Option Decimal :=
  match s with
  | '-' :: s => parseUnsigned true s
  | s => parseUnsigned false s

/-- A multiple of the last one of `nbDec` decimals to which no other is nearer. -/
def IsRounded (nbDec : ℕ) (d q : ℚ) : Prop :=
  ∃ k : ℤ, q = k / 10 ^ nbDec ∧ ∀ k' : ℤ, |q - d| ≤ |k' / 10 ^ nbDec - d|

/-- The text is a numeral with at most `nbDec` decimals, of the rounded number.  With
`leading`, there is a digit before the point. -/
def DecodesTo (leading : Bool) (nbDec : ℕ) (d : ℚ) (s : CStr) : Prop :=
  ∃ n, parseDecimal s = some n ∧ n.whole ++ n.decimals ≠ [] ∧ (leading = true → n.whole ≠ []) ∧
    n.decimals.length ≤ nbDec ∧ IsRounded nbDec d n.value

/-- The number is 0, or becomes a `long` when it is scaled and rounded up from the half:
one that has a digit for the first decimal, with `leading` one for the units as well, and
which is positive, or else reached without rounding. -/
def RoundsExactly (leading : Bool) (nbDec : ℕ) (d : ℚ) : Prop :=
  d = 0 ∨
    (1 ≤ ⌊d * 10 ^ nbDec + 1 / 2⌋ ∧ ⌊d * 10 ^ nbDec + 1 / 2⌋ ≤ longMax ∨
      longMin < ⌊d * 10 ^ nbDec + 1 / 2⌋ ∧ ⌊d * 10 ^ nbDec + 1 / 2⌋ ≤ -1 ∧
        ⌊d * 10 ^ nbDec + 1 / 2⌋ = d * 10 ^ nbDec + 1 / 2) ∧
    10 ^ nbDec ≤ (if leading then 1 else 10) * ⌊d * 10 ^ nbDec + 1 / 2⌋.natAbs

/-! ## Digits -/

/-- The last `k` digits of a number, with leading zeros. -/
def padDigits : ℕ → ℕ → CStr
  | 0, _ => []
  | k + 1, v => padDigits k (v / 10) ++ [digitOf (v % 10 : ℕ)]

@[simp] theorem length_padDigits (k v : ℕ) : (padDigits k v).length = k := by
  induction k generalizing v with
  | zero => rfl
  | succ k ih => rw [padDigits, List.length_append, ih, List.length_singleton]

theorem isDigit_of_mem_padDigits {k v : ℕ} {c : Char} (h : c ∈ padDigits k v) :
    c.isDigit = true := by
  induction k generalizing v with
  | zero => cases h
  | succ k ih =>
    rcases List.mem_append.mp h with hrest | hlast
    · exact ih hrest
    · rw [List.mem_singleton.mp hlast]
      exact isDigit_digitOf (Nat.mod_lt _ (by decide))

/-- With the digits before them, they are those of the number. -/
theorem digitsValue_natDigits_append_padDigits (k v : ℕ) :
    digitsValue (natDigits (v / 10 ^ k) ++ padDigits k v) = v := by
  induction k generalizing v with
  | zero => rw [pow_zero, Nat.div_one, padDigits, List.append_nil, digitsValue_natDigits]
  | succ k ih =>
    rw [padDigits, ← List.append_assoc, digitsValue_append_singleton, pow_succ', ← Nat.div_div_eq_div_mul,
      ih, digitValue_digitOf (Nat.mod_lt _ (by decide))]
    omega

/-! ## The digit loop -/

section Loop

variable {nbDec fuel n v k : ℕ} {p : CStr}

theorem doubleDigits_zero : doubleDigits none nbDec fuel n (0 : ℕ) p = some p := by
  cases fuel <;> rfl

/-- One turn: a zero at the end of the decimals is left out, the point goes before the
last one that is read of them. -/
theorem doubleDigits_step (h : 0 < v) :
    doubleDigits none nbDec (fuel + 1) n v p =
      if v % 10 = 0 ∧ p = [] ∧ n + 1 ≤ nbDec then
        doubleDigits none nbDec fuel (n + 1) (v / 10 : ℕ) p
      else if n + 1 = nbDec then
        doubleDigits none nbDec fuel (n + 1) (v / 10 : ℕ) ('.' :: digitOf (v % 10 : ℕ) :: p)
      else doubleDigits none nbDec fuel (n + 1) (v / 10 : ℕ) (digitOf (v % 10 : ℕ) :: p) := by
  have hne : (v : ℤ) ≠ 0 := by omega
  have hdiv : (v : ℤ).tdiv 10 = (v / 10 : ℕ) := rfl
  have hmod : (v : ℤ).tmod 10 = (v % 10 : ℕ) := rfl
  rw [doubleDigits, if_neg hne, hdiv, hmod]
  simp only [hasRoom, Bool.true_eq_false, if_false,
    digitOf_eq_zero_iff (Nat.mod_lt v (by decide : 0 < 10))]

/-- A digit that is not left out, before the point. -/
theorem doubleDigits_digit (h : 0 < v) (hkept : v % 10 ≠ 0 ∨ p ≠ []) (hpoint : n + 1 ≠ nbDec) :
    doubleDigits none nbDec (fuel + 1) n v p =
      doubleDigits none nbDec fuel (n + 1) (v / 10 : ℕ) (digitOf (v % 10 : ℕ) :: p) := by
  rw [doubleDigits_step h, if_neg (by tauto), if_neg hpoint]

/-- The last decimal that is read, with the point. -/
theorem doubleDigits_point (h : 0 < v) (hkept : v % 10 ≠ 0 ∨ p ≠ []) (hpoint : n + 1 = nbDec) :
    doubleDigits none nbDec (fuel + 1) n v p =
      doubleDigits none nbDec fuel (n + 1) (v / 10 : ℕ) ('.' :: digitOf (v % 10 : ℕ) :: p) := by
  rw [doubleDigits_step h, if_neg (by tauto), if_pos hpoint]

/-- Behind the decimals, every digit is written. -/
theorem doubleDigits_whole (hn : nbDec ≤ n) (hfuel : v ≤ fuel) :
    doubleDigits none nbDec fuel n v p = some (natDigits v ++ p) := by
  induction fuel generalizing n v p with
  | zero =>
    rw [Nat.le_zero.mp hfuel]
    exact doubleDigits_zero
  | succ fuel ih =>
    rcases Nat.eq_zero_or_pos v with rfl | hpos
    · exact doubleDigits_zero
    · rw [doubleDigits_step hpos, if_neg (by omega), if_neg (by omega), ih (by omega) (by omega),
        natDigits_of_pos hpos, List.append_assoc]
      rfl

/-- Among the decimals, after the first one that is not left out: all the others are
written, and the point, if there are enough digits. -/
theorem doubleDigits_decimals (hp : p ≠ []) (hn : n + (k + 1) = nbDec) (hv : 10 ^ k ≤ v)
    (hfuel : v ≤ fuel) :
    doubleDigits none nbDec fuel n v p =
      some (natDigits (v / 10 ^ (k + 1)) ++ '.' :: (padDigits (k + 1) v ++ p)) := by
  have hpos : 0 < v := (Nat.pow_pos (by decide)).trans_le hv
  obtain ⟨fuel, rfl⟩ : ∃ f, fuel = f + 1 := ⟨fuel - 1, by omega⟩
  induction k generalizing n v p fuel with
  | zero =>
    rw [doubleDigits_point hpos (.inr hp) hn, doubleDigits_whole (by omega) (by omega)]
    simp [padDigits]
  | succ k ih =>
    have hv' : 10 ^ k ≤ v / 10 := by
      rw [Nat.le_div_iff_mul_le (by decide), ← pow_succ]
      exact hv
    have hpos' : 0 < v / 10 := (Nat.pow_pos (by decide)).trans_le hv'
    obtain ⟨fuel, rfl⟩ : ∃ f, fuel = f + 1 := ⟨fuel - 1, by omega⟩
    rw [doubleDigits_digit hpos (.inr hp) (by omega),
      ih (List.cons_ne_nil _ _) (by omega) hv' hpos' fuel (by omega)]
    have hpad : padDigits (k + 1 + 1) v ++ p =
        padDigits (k + 1) (v / 10) ++ digitOf (v % 10 : ℕ) :: p := by
      rw [padDigits, List.append_assoc]
      rfl
    rw [Nat.div_div_eq_div_mul, ← pow_succ', hpad]

/-- With too few digits, there is no point. -/
theorem doubleDigits_short (hp : p ≠ []) (hn : n + (k + 1) = nbDec) (hv : v < 10 ^ k)
    (hfuel : v ≤ fuel) :
    doubleDigits none nbDec fuel n v p = some (natDigits v ++ p) := by
  induction k generalizing n v p fuel with
  | zero =>
    obtain rfl : v = 0 := by omega
    exact doubleDigits_zero
  | succ k ih =>
    rcases Nat.eq_zero_or_pos v with rfl | hpos
    · exact doubleDigits_zero
    · obtain ⟨fuel, rfl⟩ : ∃ f, fuel = f + 1 := ⟨fuel - 1, by omega⟩
      have hv' : v / 10 < 10 ^ k := by
        rw [Nat.div_lt_iff_lt_mul (by decide), ← pow_succ]
        exact hv
      rw [doubleDigits_digit hpos (.inr hp) (by omega),
        ih (List.cons_ne_nil _ _) (by omega) hv' (by omega), natDigits_of_pos hpos,
        List.append_assoc]
      rfl

end Loop

/-- The text of `v / 10 ^ k` with all `k` decimals. -/
def fixedText (k v : ℕ) : CStr :=
  natDigits (v / 10 ^ k) ++ if k = 0 then [] else '.' :: padDigits k v

/-- **The digit loop** leaves the zeros at the end of the decimals out.  A number below
a tenth loses its point, and the zeros behind it. -/
theorem doubleDigits_of_pos {nbDec fuel n v k : ℕ} (hn : n + k = nbDec) (hpos : 0 < v)
    (hfuel : v ≤ fuel) :
    ∃ j w, j ≤ k ∧ v = w * 10 ^ j ∧ doubleDigits none nbDec fuel n v [] =
      some (if 10 ^ k ≤ 10 * v then fixedText (k - j) w else natDigits w) := by
  induction k generalizing n v fuel with
  | zero =>
    refine ⟨0, v, le_rfl, by simp, ?_⟩
    rw [doubleDigits_whole (by omega) hfuel, pow_zero, if_pos (by omega)]
    simp [fixedText]
  | succ k ih =>
    obtain ⟨fuel, rfl⟩ : ∃ f, fuel = f + 1 := ⟨fuel - 1, by omega⟩
    by_cases hdigit : v % 10 = 0
    · obtain ⟨j, w, hj, hw, htext⟩ := ih (n := n + 1) (v := v / 10) (by omega) (by omega)
        (by omega : v / 10 ≤ fuel)
      have hv : v = 10 * (v / 10) := by omega
      refine ⟨j + 1, w, by omega, ?_, ?_⟩
      · rw [pow_succ, ← mul_assoc, ← hw]
        omega
      · rw [doubleDigits_step hpos, if_pos ⟨hdigit, rfl, by omega⟩, htext, Nat.add_sub_add_right]
        have hiff : 10 ^ k ≤ 10 * (v / 10) ↔ 10 ^ (k + 1) ≤ 10 * v := by
          rw [pow_succ']
          omega
        simp only [hiff]
    · refine ⟨0, v, Nat.zero_le _, by simp, ?_⟩
      rcases Nat.eq_zero_or_pos k with rfl | hk
      · rw [doubleDigits_point hpos (.inl hdigit) hn, doubleDigits_whole (by omega) (by omega),
          if_pos (by omega)]
        simp [fixedText, padDigits]
      · obtain ⟨k, rfl⟩ : ∃ i, k = i + 1 := ⟨k - 1, by omega⟩
        rw [doubleDigits_digit hpos (.inl hdigit) (by omega)]
        split
        · rename_i henough
          have hv : 10 ^ k ≤ v / 10 := by
            rw [Nat.le_div_iff_mul_le (by decide), ← pow_succ]
            rw [pow_succ'] at henough
            omega
          rw [doubleDigits_decimals (List.cons_ne_nil _ _) (by omega) hv (by omega)]
          simp [fixedText, padDigits, Nat.div_div_eq_div_mul, ← pow_succ']
        · rename_i hfew
          have hv : v / 10 < 10 ^ k := by
            rw [Nat.div_lt_iff_lt_mul (by decide), ← pow_succ]
            rw [pow_succ'] at hfew
            omega
          rw [doubleDigits_short (List.cons_ne_nil _ _) (by omega) hv (by omega),
            natDigits_of_pos hpos]

/-! ## Reading the text back -/

theorem takeWhile_isDigit_append {ds : CStr} (hds : ∀ c ∈ ds, c.isDigit = true) (s : CStr) :
    (ds ++ '.' :: s).takeWhile Char.isDigit = ds := by
  rw [List.takeWhile_append_of_pos hds]
  simp

theorem dropWhile_isDigit_append {ds : CStr} (hds : ∀ c ∈ ds, c.isDigit = true) (s : CStr) :
    (ds ++ '.' :: s).dropWhile Char.isDigit = '.' :: s := by
  rw [List.dropWhile_append_of_pos hds]
  simp

theorem parseUnsigned_fixedText (negative : Bool) (k v : ℕ) :
    parseUnsigned negative (fixedText k v) =
      some ⟨negative, natDigits (v / 10 ^ k), padDigits k v⟩ := by
  have hwhole : ∀ c ∈ natDigits (v / 10 ^ k), c.isDigit = true := by
    intro c hc
    exact isDigit_of_mem_natDigits hc
  unfold parseUnsigned fixedText
  split_ifs with hk
  · subst hk
    rw [List.append_nil, List.dropWhile_eq_nil_iff.mpr hwhole]
    rfl
  · have hdecimals : (padDigits k v).all Char.isDigit = true := by
      rw [List.all_eq_true]
      intro c hc
      exact isDigit_of_mem_padDigits hc
    rw [dropWhile_isDigit_append hwhole, takeWhile_isDigit_append hwhole]
    simp [hdecimals]

/-- What starts with a digit or a point has no sign. -/
theorem parseDecimal_of_head {s : CStr} (h : s.head? ≠ some '-') :
    parseDecimal s = parseUnsigned false s := by
  unfold parseDecimal
  split
  · exact absurd rfl h
  · rfl

theorem head?_fixedText (k v : ℕ) : (fixedText k v).head? ≠ some '-' := by
  intro hhead
  have hmem := List.mem_of_mem_head? hhead
  unfold fixedText at hmem
  rcases List.mem_append.mp hmem with hwhole | hdecimals
  · exact absurd (isDigit_of_mem_natDigits hwhole) (by decide)
  · split at hdecimals
    · cases hdecimals
    · rcases List.mem_cons.mp hdecimals with hpoint | hdecimals
      · exact absurd hpoint (by decide)
      · exact absurd (isDigit_of_mem_padDigits hdecimals) (by decide)

/-- A text of digits with a point and a sign, or without. -/
theorem parseDecimal_fixedText (negative : Bool) (k v : ℕ) :
    parseDecimal (if negative then '-' :: fixedText k v else fixedText k v) =
      some ⟨negative, natDigits (v / 10 ^ k), padDigits k v⟩ := by
  cases negative with
  | true => exact parseUnsigned_fixedText true k v
  | false =>
    rw [if_neg Bool.false_ne_true, parseDecimal_of_head (head?_fixedText k v)]
    exact parseUnsigned_fixedText false k v

theorem value_fixedText (negative : Bool) (k v : ℕ) :
    (⟨negative, natDigits (v / 10 ^ k), padDigits k v⟩ : Decimal).value =
      (if negative then -1 else 1) * (v / 10 ^ k) := by
  rw [Decimal.value, digitsValue_natDigits_append_padDigits, length_padDigits]

/-- Only signs, points and digits can be read. -/
theorem mem_of_parseUnsigned {negative : Bool} {s : CStr} {n : Decimal}
    (h : parseUnsigned negative s = some n) {c : Char} (hc : c ∈ s) : c = '.' ∨ c.isDigit = true := by
  unfold parseUnsigned at h
  rw [← List.takeWhile_append_dropWhile (p := Char.isDigit) (l := s)] at hc
  rcases List.mem_append.mp hc with htake | hdrop
  · exact .inr (List.mem_takeWhile_imp htake)
  · split at h
    · rename_i hnil
      rw [hnil] at hdrop
      cases hdrop
    · rename_i c' decimals hcons
      split at h
      · rename_i hpoint
        rw [hcons] at hdrop
        rcases List.mem_cons.mp hdrop with rfl | hdecimals
        · exact .inl hpoint.1
        · exact .inr (List.all_eq_true.mp hpoint.2 c hdecimals)
      · cases h

theorem mem_of_parseDecimal {s : CStr} {n : Decimal} (h : parseDecimal s = some n) {c : Char}
    (hc : c ∈ s) : c = '-' ∨ c = '.' ∨ c.isDigit = true := by
  unfold parseDecimal at h
  split at h
  · rcases List.mem_cons.mp hc with hsign | hc
    · exact .inl hsign
    · exact .inr (mem_of_parseUnsigned h hc)
  · exact .inr (mem_of_parseUnsigned h hc)

/-! ## Rounding -/

/-- A multiple is nearest when it is half a decimal away, or less. -/
theorem isRounded_iff {nbDec : ℕ} {d : ℚ} {k : ℤ} :
    IsRounded nbDec d (k / 10 ^ nbDec) ↔ |d * 10 ^ nbDec - k| ≤ 1 / 2 := by
  have hpos : (0 : ℚ) < 10 ^ nbDec := by positivity
  have hscale : ∀ k' : ℤ, |(k' : ℚ) / 10 ^ nbDec - d| = |d * 10 ^ nbDec - k'| / 10 ^ nbDec := by
    intro k'
    rw [abs_sub_comm, ← abs_of_pos hpos, ← abs_div, abs_of_pos hpos, sub_div,
      mul_div_cancel_right₀ _ hpos.ne']
  have hnearest : IsRounded nbDec d (k / 10 ^ nbDec) ↔
      ∀ k' : ℤ, |d * 10 ^ nbDec - k| ≤ |d * 10 ^ nbDec - k'| := by
    constructor
    · rintro ⟨-, -, h⟩ k'
      have hk' := h k'
      rw [hscale, hscale] at hk'
      exact (div_le_div_iff_of_pos_right hpos).mp hk'
    · intro h
      refine ⟨k, rfl, ?_⟩
      intro k'
      rw [hscale, hscale]
      exact (div_le_div_iff_of_pos_right hpos).mpr (h k')
  rw [hnearest]
  constructor
  · intro h
    exact (h (round (d * 10 ^ nbDec))).trans (abs_sub_round _)
  · intro h k'
    by_cases hk : k' = k
    · rw [hk]
    · have hapart : (1 : ℚ) ≤ |(k' : ℚ) - k| := by
        exact_mod_cast Int.one_le_abs (sub_ne_zero.mpr hk)
      have htriangle : |(k' : ℚ) - k| ≤ |d * 10 ^ nbDec - k'| + |d * 10 ^ nbDec - k| := by
        have hsum := abs_sub_le (k' : ℚ) (d * 10 ^ nbDec) k
        rwa [abs_sub_comm (k' : ℚ) (d * 10 ^ nbDec)] at hsum
      linarith

theorem truncLong_of_nonneg {y : ℚ} (h : 0 ≤ y) :
    truncLong y = if ⌊y⌋ ≤ longMax then ⌊y⌋ else longMin := by
  have hlow : longMin ≤ ⌊y⌋ := le_trans (by decide : longMin ≤ 0) (Int.floor_nonneg.mpr h)
  unfold truncLong
  rw [if_neg (not_lt.mpr h)]
  simp only [hlow, true_and]

theorem truncLong_of_neg {y : ℚ} (h : y < 0) :
    truncLong y = if longMin ≤ ⌈y⌉ then ⌈y⌉ else longMin := by
  have hceil : -⌊-y⌋ = ⌈y⌉ := by rw [Int.floor_neg, neg_neg]
  have hhigh : ⌈y⌉ ≤ longMax := (Int.ceil_le.mpr (by exact_mod_cast h.le)).trans (by decide : 0 ≤ longMax)
  unfold truncLong
  rw [if_pos h, hceil]
  simp only [hhigh, and_true]

theorem truncLong_mem (y : ℚ) : longMin ≤ truncLong y ∧ truncLong y ≤ longMax := by
  unfold truncLong
  dsimp only
  generalize (if y < 0 then -⌊-y⌋ else ⌊y⌋) = v
  split
  · rename_i hrange
    exact hrange
  · exact ⟨le_rfl, by decide⟩

/-- Above 0 the conversion after the half is added rounds; below it does not, but where
there is nothing to round. -/
theorem abs_sub_truncLong_iff {y : ℚ} (hlow : truncLong y ≠ longMin) (hzero : truncLong y ≠ 0) :
    |y - 1 / 2 - truncLong y| ≤ 1 / 2 ↔ 1 ≤ ⌊y⌋ ∨ (⌊y⌋ : ℚ) = y := by
  rcases le_or_gt 0 y with hy | hy
  · have hl : truncLong y = ⌊y⌋ := by
      rw [truncLong_of_nonneg hy] at hlow ⊢
      split_ifs at hlow ⊢ with h
      · rfl
      · exact absurd rfl hlow
    rw [hl] at hzero ⊢
    have hnonneg : 0 ≤ ⌊y⌋ := Int.floor_nonneg.mpr hy
    have hle := Int.floor_le y
    have hlt := Int.lt_floor_add_one y
    refine iff_of_true ?_ (.inl (by omega))
    rw [abs_le]
    constructor <;> linarith
  · have hl : truncLong y = ⌈y⌉ := by
      rw [truncLong_of_neg hy] at hlow ⊢
      split_ifs at hlow ⊢ with h
      · rfl
      · exact absurd rfl hlow
    rw [hl]
    have hle := Int.le_ceil y
    have hneg : ¬1 ≤ ⌊y⌋ := by
      intro hone
      have hone' : (1 : ℚ) ≤ ⌊y⌋ := by exact_mod_cast hone
      have := Int.floor_le y
      linarith
    rw [or_iff_right hneg, abs_le]
    constructor
    · rintro ⟨hbelow, -⟩
      have heq : (⌈y⌉ : ℚ) = y := le_antisymm (by linarith) hle
      rw [← heq, Int.floor_intCast]
    · intro heq
      have hceil : (⌈y⌉ : ℚ) = y := by rw [← heq, Int.ceil_intCast]
      rw [hceil]
      constructor <;> linarith

/-- A conversion in range is less than one off. -/
theorem abs_sub_truncLong_le {y : ℚ} (hlow : truncLong y ≠ longMin) : |y - truncLong y| ≤ 1 := by
  rcases le_or_gt 0 y with hy | hy
  · rw [truncLong_of_nonneg hy] at hlow ⊢
    split_ifs at hlow ⊢
    · have hle := Int.floor_le y
      have hlt := Int.lt_floor_add_one y
      rw [abs_le]
      constructor <;> linarith
    · exact absurd rfl hlow
  · rw [truncLong_of_neg hy] at hlow ⊢
    split_ifs at hlow ⊢
    · have hle := Int.le_ceil y
      have hlt := Int.ceil_lt_add_one y
      rw [abs_le]
      constructor <;> linarith
    · exact absurd rfl hlow

/-- What the conversion gives where it is exact, or rounds towards the floor. -/
theorem truncLong_eq_floor {y : ℚ}
    (h : 1 ≤ ⌊y⌋ ∧ ⌊y⌋ ≤ longMax ∨ longMin < ⌊y⌋ ∧ ⌊y⌋ ≤ -1 ∧ (⌊y⌋ : ℚ) = y) :
    truncLong y = ⌊y⌋ := by
  rcases h with ⟨hone, hhigh⟩ | ⟨hlow, hneg, heq⟩
  · have hy : 0 ≤ y := Int.floor_nonneg.mp (by omega)
    rw [truncLong_of_nonneg hy, if_pos hhigh]
  · have hy : y < 0 := by
      rw [← heq]
      exact_mod_cast (by omega : ⌊y⌋ < 0)
    have hceil : ⌈y⌉ = ⌊y⌋ := by
      conv_lhs => rw [← heq]
      exact Int.ceil_intCast _
    rw [truncLong_of_neg hy, hceil, if_pos hlow.le]

/-- In range, and not 0, the conversion is one of these where it rounds. -/
theorem floor_cases_of_rounds {y : ℚ} (hlow : truncLong y ≠ longMin) (hzero : truncLong y ≠ 0)
    (h : 1 ≤ ⌊y⌋ ∨ (⌊y⌋ : ℚ) = y) :
    1 ≤ ⌊y⌋ ∧ ⌊y⌋ ≤ longMax ∨ longMin < ⌊y⌋ ∧ ⌊y⌋ ≤ -1 ∧ (⌊y⌋ : ℚ) = y := by
  rcases le_or_gt 0 y with hy | hy
  · rw [truncLong_of_nonneg hy] at hlow hzero
    split_ifs at hlow hzero with hhigh
    · have hnonneg := Int.floor_nonneg.mpr hy
      exact .inl ⟨by omega, hhigh⟩
    · exact absurd rfl hlow
  · have hneg : ⌊y⌋ < 0 := Int.floor_lt.mpr (by exact_mod_cast hy)
    have heq : (⌊y⌋ : ℚ) = y := h.resolve_left (by omega)
    have hceil : ⌈y⌉ = ⌊y⌋ := by
      conv_lhs => rw [← heq]
      exact Int.ceil_intCast _
    rw [truncLong_of_neg hy, hceil] at hlow
    split_ifs at hlow with hrange
    · exact .inr ⟨lt_of_le_of_ne hrange (Ne.symm hlow), by omega, heq⟩
    · exact absurd rfl hlow

/-! ## The text of a number -/

section Text

variable {nbDec : ℕ} {d : ℚ}

/-- The characters of a number whose negation does not overflow. -/
theorem doubleText_eq (hdec : 10 ^ nbDec < 2 ^ 63) (hd : d ≠ 0) {l : ℤ}
    (hl : truncLong (d * 10 ^ nbDec + 1 / 2) = l) (hlow : l ≠ longMin) {q : CStr}
    (hq : doubleDigits none nbDec l.natAbs 0 (l.natAbs : ℕ) [] = some q) :
    doubleText d nbDec = if decide (l < 0) then '-' :: q else q := by
  have hrange := truncLong_mem (d * 10 ^ nbDec + 1 / 2)
  rw [hl] at hrange
  have hfactor : ((10 ^ nbDec % 2 ^ 64 : ℕ) : ℚ) = 10 ^ nbDec := by
    rw [Nat.mod_eq_of_lt (by omega)]
    push_cast
    rfl
  have habs : (if decide (l < 0) then wrapLong (l * -1) else l) = l.natAbs :=
    wrapLong_abs (lt_of_le_of_ne hrange.1 (Ne.symm hlow)) hrange.2
  have hchars : doubleChars none d nbDec =
      (doubleDigits none nbDec l.natAbs 0 l.natAbs []).bind (withSign none (l < 0)) := by
    unfold doubleChars
    dsimp only
    rw [hfactor, hl, habs, Int.natAbs_natCast]
  rw [doubleText, numberText, decide_eq_false hd, if_neg Bool.false_ne_true, hchars, hq]
  by_cases hneg : l < 0
  · simp [hneg, withSign, hasRoom]
  · simp [hneg, withSign]

/-- What has been written is not taken back. -/
theorem mem_doubleDigits {fuel n : ℕ} {v : ℤ} {p q : CStr} {c : Char}
    (h : doubleDigits none nbDec fuel n v p = some q) (hc : c ∈ p) : c ∈ q := by
  induction fuel generalizing n v p with
  | zero =>
    cases h
    exact hc
  | succ fuel ih =>
    unfold doubleDigits at h
    simp only [hasRoom, Bool.true_eq_false, if_false] at h
    split_ifs at h
    · cases h
      exact hc
    · exact ih h hc
    · exact ih h (by simp [hc])
    · exact ih h (by simp [hc])

/-- Where the number cannot be converted, the smallest `long` is written, whose last
remainder is `-8`. -/
theorem paren_mem_doubleText (hdec : 10 ^ nbDec < 2 ^ 63) (hd : d ≠ 0)
    (hl : truncLong (d * 10 ^ nbDec + 1 / 2) = longMin) : '(' ∈ doubleText d nbDec := by
  obtain ⟨q, -, (hq : doubleDigits none nbDec longMin.natAbs 0 longMin [] = some q), -⟩ :=
    confined_doubleDigits nbDec longMin.natAbs 0 longMin []
  have hfactor : ((10 ^ nbDec % 2 ^ 64 : ℕ) : ℚ) = 10 ^ nbDec := by
    rw [Nat.mod_eq_of_lt (by omega)]
    push_cast
    rfl
  have hneg : wrapLong (longMin * -1) = longMin := by decide
  have hlow : longMin < 0 := by decide
  have htext : doubleText d nbDec = '-' :: q := by
    have hchars : doubleChars none d nbDec = some ('-' :: q) := by
      unfold doubleChars
      dsimp only
      rw [hfactor, hl]
      simp only [hlow, decide_true, if_true, hneg, hq]
      rfl
    rw [doubleText, numberText, decide_eq_false hd, if_neg Bool.false_ne_true, hchars]
    rfl
  have hmem : '(' ∈ q := by
    have hfuel : longMin.natAbs = 9223372036854775807 + 1 := by decide
    have hdigit : digitOf (longMin.tmod 10) = '(' := by decide
    have hne : longMin ≠ 0 := by decide
    rw [hfuel, doubleDigits, if_neg hne] at hq
    simp only [hasRoom, Bool.true_eq_false, if_false, hdigit,
      (by decide : ('(' : Char) = '0' ↔ False), false_and] at hq
    split_ifs at hq
    · exact mem_doubleDigits hq (by simp)
    · exact mem_doubleDigits hq (by simp)
  rw [htext]
  exact List.mem_cons_of_mem _ hmem

/-- A text of digits decodes when it is long enough and close enough. -/
theorem decodesTo_fixedText_iff {leading negative : Bool} {k v : ℕ} (hk : k ≤ nbDec) (hv : 0 < v) :
    DecodesTo leading nbDec d (if negative then '-' :: fixedText k v else fixedText k v) ↔
      (leading = true → 10 ^ k ≤ v) ∧
        IsRounded nbDec d ((if negative then -1 else 1) * (v / 10 ^ k)) := by
  have hwhole : natDigits (v / 10 ^ k) ≠ [] ↔ 10 ^ k ≤ v := by
    constructor
    · intro h
      by_contra hlt
      rw [Nat.div_eq_of_lt (Nat.not_le.mp hlt)] at h
      exact h rfl
    · intro h
      exact natDigits_ne_nil (Nat.div_pos h (Nat.pow_pos (by decide)))
  have hdigits : natDigits (v / 10 ^ k) ++ padDigits k v ≠ [] := by
    intro hnil
    have hvalue := digitsValue_natDigits_append_padDigits k v
    rw [hnil, digitsValue_nil] at hvalue
    omega
  unfold DecodesTo
  rw [parseDecimal_fixedText]
  constructor
  · rintro ⟨n, hn, -, hleading, -, hrounded⟩
    obtain rfl := Option.some.inj hn
    rw [value_fixedText] at hrounded
    exact ⟨fun h => hwhole.mp (hleading h), hrounded⟩
  · rintro ⟨hleading, hrounded⟩
    refine ⟨_, rfl, hdigits, fun h => hwhole.mpr (hleading h), ?_, ?_⟩
    · rw [length_padDigits]
      exact hk
    · rw [value_fixedText]
      exact hrounded

theorem sign_mul_natAbs (l : ℤ) :
    (l : ℚ) = (if decide (l < 0) then -1 else 1) * l.natAbs := by
  rw [Nat.cast_natAbs, Int.cast_abs]
  by_cases hneg : l < 0
  · have hneg' : (l : ℚ) < 0 := by exact_mod_cast hneg
    simp [hneg, abs_of_neg hneg']
  · have hnonneg : (0 : ℚ) ≤ l := by exact_mod_cast not_lt.mp hneg
    simp [hneg, abs_of_nonneg hnonneg]

theorem pos_of_natAbs_eq {l : ℤ} {j w : ℕ} (hw : l.natAbs = w * 10 ^ j) (hzero : l ≠ 0) :
    0 < w := by
  rcases Nat.eq_zero_or_pos w with rfl | hpos
  · rw [Nat.zero_mul] at hw
    exact absurd (Int.natAbs_eq_zero.mp hw) hzero
  · exact hpos

/-- The zeros left out at the end do not change the number. -/
theorem value_eq_of_natAbs_eq {l : ℤ} {j w : ℕ} (hj : j ≤ nbDec) (hw : l.natAbs = w * 10 ^ j) :
    ((if decide (l < 0) then -1 else 1) * (w / 10 ^ (nbDec - j)) : ℚ) = l / 10 ^ nbDec := by
  have hpow : (10 : ℚ) ^ nbDec = 10 ^ (nbDec - j) * 10 ^ j := by
    rw [← pow_add, Nat.sub_add_cancel hj]
  have hscale : (w / 10 ^ (nbDec - j) : ℚ) = l.natAbs / 10 ^ nbDec := by
    rw [hw, hpow, Nat.cast_mul, Nat.cast_pow, Nat.cast_ofNat,
      mul_div_mul_right _ _ (by positivity)]
  rw [hscale, ← mul_div_assoc, ← sign_mul_natAbs l]

/-- Without a point, the number is read as far more than a tenth. -/
theorem not_isRounded_of_short {l : ℤ} {j w : ℕ} (hfew : ¬10 ^ nbDec ≤ 10 * l.natAbs)
    (hw : l.natAbs = w * 10 ^ j) (hzero : l ≠ 0) (hnear : |d * 10 ^ nbDec + 1 / 2 - l| ≤ 1) :
    ¬IsRounded nbDec d ((if decide (l < 0) then -1 else 1) * w) := by
  have hpos : 1 ≤ w := pos_of_natAbs_eq hw hzero
  have hone : (1 : ℚ) ≤ l.natAbs := by exact_mod_cast Int.natAbs_pos.mpr hzero
  have hfew' : (10 * l.natAbs : ℚ) < 10 ^ nbDec := by exact_mod_cast Nat.not_le.mp hfew
  have hbig : (10 : ℚ) ^ nbDec ≤ w * 10 ^ nbDec := by
    have hw' : (1 : ℚ) ≤ w := by exact_mod_cast hpos
    exact le_mul_of_one_le_left (by positivity) hw'
  have hscaled : ((if decide (l < 0) then -1 else 1) * w : ℚ) =
      ((if decide (l < 0) then -1 else 1) * (w * 10 ^ nbDec : ℕ) : ℤ) / 10 ^ nbDec := by
    push_cast
    rw [← mul_assoc, mul_div_cancel_right₀ _ (by positivity)]
  rw [hscaled, isRounded_iff, not_le]
  rw [abs_le] at hnear
  have hl : ((l.natAbs : ℤ) : ℚ) = |(l : ℚ)| := by rw [Int.natCast_natAbs, Int.cast_abs]
  rw [Int.cast_natCast] at hl
  by_cases hneg : l < 0
  · have hneg' : (l : ℚ) < 0 := by exact_mod_cast hneg
    rw [abs_of_neg hneg'] at hl
    simp only [hneg, decide_true, if_true]
    push_cast
    rw [lt_abs]
    exact .inl (by linarith)
  · have hnonneg : (0 : ℚ) ≤ l := by exact_mod_cast not_lt.mp hneg
    rw [abs_of_nonneg hnonneg] at hl
    simp only [hneg, decide_false, Bool.false_eq_true, if_false]
    push_cast
    rw [lt_abs]
    exact .inr (by linarith)

/-- When the conversion overflows, the text is not a number. -/
theorem not_decodesTo_of_longMin (leading : Bool) (hdec : 10 ^ nbDec < 2 ^ 63) (hd : d ≠ 0)
    (hl : truncLong (d * 10 ^ nbDec + 1 / 2) = longMin) :
    ¬DecodesTo leading nbDec d (doubleText d nbDec) := by
  rintro ⟨n, hn, -⟩
  have hparen := mem_of_parseDecimal hn (paren_mem_doubleText hdec hd hl)
  exact absurd hparen (by decide)

/-- A number that is scaled to 0 has an empty text. -/
theorem not_decodesTo_of_zero (leading : Bool) (hdec : 10 ^ nbDec < 2 ^ 63) (hd : d ≠ 0)
    (hl : truncLong (d * 10 ^ nbDec + 1 / 2) = 0) :
    ¬DecodesTo leading nbDec d (doubleText d nbDec) := by
  have htext : doubleText d nbDec = [] := by
    rw [doubleText_eq hdec hd hl (by decide) (q := []) rfl]
    rfl
  rintro ⟨n, hn, hne, -⟩
  rw [htext] at hn
  obtain rfl := Option.some.inj hn
  exact hne rfl

/-- With a point, and all the decimals, the scaled number itself is read. -/
theorem decodesTo_of_enough_iff {leading : Bool} {l : ℤ} {j w : ℕ}
    (hl : truncLong (d * 10 ^ nbDec + 1 / 2) = l) (hmin : l ≠ longMin) (hzero : l ≠ 0)
    (hd : d ≠ 0) (hj : j ≤ nbDec) (hw : l.natAbs = w * 10 ^ j)
    (henough : 10 ^ nbDec ≤ 10 * l.natAbs) :
    DecodesTo leading nbDec d (if decide (l < 0) then '-' :: fixedText (nbDec - j) w
        else fixedText (nbDec - j) w) ↔ RoundsExactly leading nbDec d := by
  subst hl
  have hpow : 10 ^ nbDec = 10 ^ (nbDec - j) * 10 ^ j := by
    rw [← pow_add, Nat.sub_add_cancel hj]
  have hrounds := abs_sub_truncLong_iff hmin hzero
  rw [add_sub_cancel_right] at hrounds
  rw [decodesTo_fixedText_iff (Nat.sub_le _ _) (pos_of_natAbs_eq hw hzero),
    value_eq_of_natAbs_eq hj hw, isRounded_iff, hrounds]
  unfold RoundsExactly
  rw [or_iff_right hd]
  constructor
  · rintro ⟨hleading, hround⟩
    have hfloor := floor_cases_of_rounds hmin hzero hround
    refine ⟨hfloor, ?_⟩
    rw [← truncLong_eq_floor hfloor]
    cases leading with
    | false => exact henough
    | true =>
      rw [if_pos rfl, one_mul, hw, hpow]
      exact Nat.mul_le_mul_right _ (hleading rfl)
  · rintro ⟨hfloor, hlong⟩
    refine ⟨?_, hfloor.imp And.left fun h => h.2.2⟩
    rintro rfl
    rw [← truncLong_eq_floor hfloor, if_pos rfl, one_mul, hw, hpow] at hlong
    exact Nat.le_of_mul_le_mul_right hlong (Nat.pow_pos (by decide))

/-- What the condition says of the scaled number. -/
theorem RoundsExactly.truncLong {leading : Bool} (h : RoundsExactly leading nbDec d)
    (hd : d ≠ 0) :
    truncLong (d * 10 ^ nbDec + 1 / 2) ≠ longMin ∧ truncLong (d * 10 ^ nbDec + 1 / 2) ≠ 0 ∧
      10 ^ nbDec ≤ 10 * (truncLong (d * 10 ^ nbDec + 1 / 2)).natAbs := by
  obtain ⟨hfloor, hlong⟩ := h.resolve_left hd
  rw [truncLong_eq_floor hfloor]
  unfold longMin at hfloor ⊢
  refine ⟨by omega, by omega, ?_⟩
  cases leading with
  | false => exact hlong
  | true =>
    rw [if_pos rfl, one_mul] at hlong
    omega

/-- **A number other than 0** decodes exactly under the condition. -/
theorem decodesTo_doubleText_iff (leading : Bool) (hdec : 10 ^ nbDec < 2 ^ 63) (hd : d ≠ 0) :
    DecodesTo leading nbDec d (doubleText d nbDec) ↔ RoundsExactly leading nbDec d := by
  obtain ⟨l, hl⟩ : ∃ l, truncLong (d * 10 ^ nbDec + 1 / 2) = l := ⟨_, rfl⟩
  by_cases hmin : l = longMin
  · apply iff_of_false (not_decodesTo_of_longMin leading hdec hd (hl.trans hmin))
    intro h
    exact (h.truncLong hd).1 (hl.trans hmin)
  by_cases hzero : l = 0
  · apply iff_of_false (not_decodesTo_of_zero leading hdec hd (hl.trans hzero))
    intro h
    exact (h.truncLong hd).2.1 (hl.trans hzero)
  obtain ⟨j, w, hj, hw, hdigits⟩ := doubleDigits_of_pos (Nat.zero_add nbDec)
    (Int.natAbs_pos.mpr hzero) le_rfl
  rw [doubleText_eq hdec hd hl hmin hdigits]
  by_cases henough : 10 ^ nbDec ≤ 10 * l.natAbs
  · rw [if_pos henough]
    exact decodesTo_of_enough_iff hl hmin hzero hd hj hw henough
  · have hshort : natDigits w = fixedText 0 w := by simp [fixedText]
    rw [if_neg henough, hshort,
      decodesTo_fixedText_iff (Nat.zero_le _) (pos_of_natAbs_eq hw hzero), pow_zero, pow_zero,
      div_one]
    have hnear := abs_sub_truncLong_le (by rwa [hl] : truncLong (d * 10 ^ nbDec + 1 / 2) ≠ longMin)
    rw [hl] at hnear
    refine iff_of_false ?_ ?_
    · rintro ⟨-, hrounded⟩
      exact not_isRounded_of_short henough hw hzero hnear hrounded
    · intro h
      have hlong := (h.truncLong hd).2.2
      rw [hl] at hlong
      exact henough hlong

end Text

/-- **The text decodes to the rounded number** exactly under the condition, for a builder
with room for it. -/
theorem append_double_rounded_iff (leading : Bool) (b : StrBuilder) (d : ℚ) {nbDec : ℕ}
    (hdec : 10 ^ nbDec < 2 ^ 63) (hroom : b.size + (doubleText d nbDec).length ≤ b.capacity) :
    (∃ s, (b.appendDouble d nbDec).2.text = b.text ++ s ∧ DecodesTo leading nbDec d s) ↔
      RoundsExactly leading nbDec d := by
  rw [(StrBuilder.appends_appendDouble d nbDec b).2 hroom]
  simp only [List.append_cancel_left_eq, exists_eq_left']
  by_cases hd : d = 0
  · subst hd
    refine iff_of_true ⟨⟨false, ['0'], []⟩, rfl, by decide, fun _ => by decide, Nat.zero_le _, ?_⟩
      (.inl rfl)
    have hzero : (⟨false, ['0'], []⟩ : Decimal).value = ((0 : ℤ) : ℚ) / 10 ^ nbDec := by
      simp [Decimal.value, digitsValue, digitValue]
    rw [hzero, isRounded_iff]
    norm_num
  · exact decodesTo_doubleText_iff leading hdec hd

/-- `-3` without decimals comes out as `-2`, and `1 / 20` with four of them as `5`. -/
theorem append_double_wrong :
    ((StrBuilder.create 32).appendDouble (-3) 0).2.text = ['-', '2'] ∧
      ((StrBuilder.create 32).appendDouble (1 / 20) 4).2.text = ['5'] ∧
      (¬∃ s, ((StrBuilder.create 32).appendDouble (-3) 0).2.text =
          (StrBuilder.create 32).text ++ s ∧ DecodesTo false 0 (-3) s) ∧
      ¬∃ s, ((StrBuilder.create 32).appendDouble (1 / 20) 4).2.text =
          (StrBuilder.create 32).text ++ s ∧ DecodesTo false 4 (1 / 20) s := by
  have hthree : ((StrBuilder.create 32).appendDouble (-3) 0).2.text = doubleText (-3) 0 :=
    (StrBuilder.appends_appendDouble (-3) 0 (StrBuilder.create 32)).2 (by decide +kernel)
  have hsmall : ((StrBuilder.create 32).appendDouble (1 / 20) 4).2.text = doubleText (1 / 20) 4 :=
    (StrBuilder.appends_appendDouble (1 / 20) 4 (StrBuilder.create 32)).2 (by decide +kernel)
  refine ⟨by decide +kernel, by decide +kernel, ?_, ?_⟩
  · rintro ⟨s, htext, hdecodes⟩
    obtain rfl : doubleText (-3) 0 = s := hthree.symm.trans htext
    rw [decodesTo_doubleText_iff false (by decide) (by decide)] at hdecodes
    revert hdecodes
    unfold RoundsExactly
    decide +kernel
  · rintro ⟨s, htext, hdecodes⟩
    obtain rfl : doubleText (1 / 20) 4 = s := hsmall.symm.trans htext
    rw [decodesTo_doubleText_iff false (by decide) (by decide +kernel)] at hdecodes
    revert hdecodes
    unfold RoundsExactly
    decide +kernel

/-- `5 / 4` with four decimals is `1.25`. -/
theorem append_double_rounded_quarter :
    ∃ s, ((StrBuilder.create 32).appendDouble (5 / 4) 4).2.text = (StrBuilder.create 32).text ++ s ∧
      DecodesTo true 4 (5 / 4) s := by
  refine (append_double_rounded_iff true (StrBuilder.create 32) (5 / 4) (by decide)
    (by decide +kernel)).mpr ?_
  unfold RoundsExactly
  decide +kernel

end PhpSpx
