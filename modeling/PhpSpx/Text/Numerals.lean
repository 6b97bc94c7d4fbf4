import PhpSpx.Text.StrBuilder

/-!
# Numerals

The digits of a number, from the first to the last one, and what the digit loop of
`spx_str_builder_append_long` makes of them.

* `natDigits` — the digits of a number, none for 0.
* `IsNumeralOf` — the canonical numeral of an integer.
* `longDigits_natCast` — the digit loop.
* `append_long_exact_iff` — when the numeral is appended.
-/

namespace PhpSpx

/-! ## Digits -/

theorem toNat_digitOf {d : ℕ} (h : d < 10) : (digitOf d).toNat = d + 48 := by
  rw [digitOf, Char.toNat_ofNat, if_pos]
  · rfl
  · unfold Nat.isValidChar
    omega

theorem digitValue_digitOf {d : ℕ} (h : d < 10) : digitValue (digitOf d) = d := by
  rw [digitValue, toNat_digitOf h]
  exact Nat.add_sub_cancel d 48

theorem isDigit_digitOf {d : ℕ} (h : d < 10) : (digitOf d).isDigit = true := by
  have hzero : '0'.toNat = 48 := rfl
  have hnine : '9'.toNat = 57 := rfl
  rw [Char.isDigit_iff_toNat, toNat_digitOf h, hzero, hnine]
  omega

theorem digitOf_eq_zero_iff {d : ℕ} (h : d < 10) : digitOf d = '0' ↔ d = 0 := by
  constructor
  · intro hzero
    rw [← digitValue_digitOf h, hzero]
    rfl
  · rintro rfl
    rfl

/-- The decimal digits of a number, without leading zeros. -/
def natDigits (n : ℕ) : CStr := ((Nat.digits 10 n).reverse).map fun d : ℕ => digitOf d

@[simp] theorem natDigits_zero : natDigits 0 = [] := rfl

/-- The last digit is that of the remainder. -/
theorem natDigits_of_pos {n : ℕ} (h : 0 < n) :
    natDigits n = natDigits (n / 10) ++ [digitOf (n % 10 : ℕ)] := by
  simp [natDigits, Nat.digits_def' (by decide : 1 < 10) h]

theorem natDigits_ne_nil {n : ℕ} (h : 0 < n) : natDigits n ≠ [] := by
  rw [natDigits_of_pos h]
  simp

theorem isDigit_of_mem_natDigits {n : ℕ} {c : Char} (h : c ∈ natDigits n) : c.isDigit = true := by
  unfold natDigits at h
  rw [List.mem_map] at h
  obtain ⟨d, hd, rfl⟩ := h
  have hlt : d < 10 := Nat.digits_lt_base (by decide : 1 < 10) (List.mem_reverse.mp hd)
  exact isDigit_digitOf hlt

/-- Read back, the digits give the number. -/
theorem digitsValue_natDigits (n : ℕ) : digitsValue (natDigits n) = n := by
  induction n using Nat.strong_induction_on with
  | h n ih =>
    rcases Nat.eq_zero_or_pos n with rfl | hpos
    · rfl
    · rw [natDigits_of_pos hpos, digitsValue_append_singleton, ih (n / 10) (by omega),
        digitValue_digitOf (Nat.mod_lt _ (by decide))]
      omega

theorem head?_natDigits (n : ℕ) : (natDigits n).head? ≠ some '0' := by
  induction n using Nat.strong_induction_on with
  | h n ih =>
    rcases Nat.eq_zero_or_pos n with rfl | hpos
    · simp
    · rw [natDigits_of_pos hpos, List.head?_append]
      rcases Nat.eq_zero_or_pos (n / 10) with hzero | hpos'
      · rw [hzero, natDigits_zero, List.head?_nil, Option.none_or, List.head?_singleton]
        intro h
        have hdigit := (digitOf_eq_zero_iff (Nat.mod_lt n (by decide))).mp (Option.some.inj h)
        omega
      · obtain ⟨c, hc⟩ := Option.ne_none_iff_exists'.mp
          (mt List.head?_eq_none_iff.mp (natDigits_ne_nil hpos'))
        rw [hc, Option.some_or, ← hc]
        exact ih (n / 10) (by omega)

/-! ## The numeral of an integer -/

/-- The canonical decimal numeral of an integer: a `-` for a negative one, then digits
without leading zeros that have its absolute value. -/
def IsNumeralOf (s : CStr) (l : ℤ) : Prop :=
  ∃ ds : CStr, s = (if l < 0 then '-' :: ds else ds) ∧ ds ≠ [] ∧ (∀ c ∈ ds, c.isDigit = true) ∧
    (ds.head? = some '0' → ds = ['0']) ∧ digitsValue ds = l.natAbs

theorem isNumeralOf_zero : IsNumeralOf ['0'] 0 := by
  refine ⟨['0'], rfl, by simp, ?_, fun _ => rfl, rfl⟩
  intro c hc
  rw [List.mem_singleton.mp hc]
  rfl

theorem isNumeralOf_natDigits {l : ℤ} (h : l ≠ 0) :
    IsNumeralOf (if l < 0 then '-' :: natDigits l.natAbs else natDigits l.natAbs) l := by
  refine ⟨natDigits l.natAbs, rfl, natDigits_ne_nil (Int.natAbs_pos.mpr h), ?_, ?_,
    digitsValue_natDigits _⟩
  · intro c hc
    exact isDigit_of_mem_natDigits hc
  · intro hhead
    exact absurd hhead (head?_natDigits _)

/-- A numeral is made of digits, but for the sign. -/
theorem IsNumeralOf.mem {s : CStr} {l : ℤ} (h : IsNumeralOf s l) {c : Char} (hc : c ∈ s) :
    c = '-' ∨ c.isDigit = true := by
  obtain ⟨ds, rfl, -, hdigits, -⟩ := h
  split at hc
  · rcases List.mem_cons.mp hc with hsign | hc
    · exact .inl hsign
    · exact .inr (hdigits c hc)
  · exact .inr (hdigits c hc)

/-! ## The digit loop -/

/-- A number that is not negative. -/
theorem longDigits_natCast (fuel v : ℕ) (p : CStr) (hfuel : v ≤ fuel) :
    longDigits none fuel v p = some (natDigits v ++ p) := by
  induction fuel generalizing v p with
  | zero =>
    rw [Nat.le_zero.mp hfuel]
    rfl
  | succ fuel ih =>
    rcases Nat.eq_zero_or_pos v with rfl | hpos
    · rfl
    · have hne : (v : ℤ) ≠ 0 := by omega
      have hdiv : (v : ℤ).tdiv 10 = (v / 10 : ℕ) := rfl
      have hmod : (v : ℤ).tmod 10 = (v % 10 : ℕ) := rfl
      rw [longDigits, if_neg hne, hdiv, hmod, ih _ _ (by omega), natDigits_of_pos hpos]
      simp [hasRoom]

theorem longDigits_of_ne_zero (fuel : ℕ) {v : ℤ} (hv : v ≠ 0) (p : CStr) :
    longDigits none (fuel + 1) v p = longDigits none fuel (v.tdiv 10) (digitOf (v.tmod 10) :: p) := by
  simp [longDigits, hv, hasRoom]

/-- What has been written stays at the end. -/
theorem suffix_longDigits {fuel : ℕ} {v : ℤ} {p q : CStr} (h : longDigits none fuel v p = some q) :
    p <:+ q := by
  induction fuel generalizing v p with
  | zero =>
    cases h
    exact List.suffix_rfl
  | succ fuel ih =>
    by_cases hv : v = 0
    · rw [longDigits, if_pos hv] at h
      cases h
      exact List.suffix_rfl
    · rw [longDigits_of_ne_zero fuel hv] at h
      exact (List.suffix_cons _ p).trans (ih h)

/-! ## The text of an integer -/

/-- Negating a negative number does not overflow, but for the least one. -/
theorem wrapLong_abs {l : ℤ} (hlow : longMin < l) (hhigh : l ≤ longMax) :
    (if decide (l < 0) then wrapLong (l * -1) else l) = l.natAbs := by
  unfold longMin at hlow
  unfold longMax at hhigh
  by_cases hneg : l < 0
  · simp only [hneg, decide_true, if_true, wrapLong, Int.bmod_def]
    split <;> omega
  · simp only [hneg, decide_false, Bool.false_eq_true, if_false]
    omega

/-- The text of an integer whose negation does not overflow is its numeral. -/
theorem isNumeralOf_longText {l : ℤ} (hlow : longMin < l) (hhigh : l ≤ longMax) :
    IsNumeralOf (longText l) l := by
  by_cases hzero : l = 0
  · subst hzero
    exact isNumeralOf_zero
  · have habs : (if decide (l < 0) then wrapLong (l * -1) else l) = l.natAbs :=
      wrapLong_abs hlow hhigh
    have hdigits : longDigits none l.natAbs l.natAbs [] = some (natDigits l.natAbs) := by
      rw [longDigits_natCast _ _ _ le_rfl, List.append_nil]
    have htext : longText l =
        if l < 0 then '-' :: natDigits l.natAbs else natDigits l.natAbs := by
      simp only [longText, numberText, hzero, decide_false, Bool.false_eq_true, if_false, longChars,
        habs, Int.natAbs_natCast, hdigits]
      by_cases hneg : l < 0
      · simp [hneg, withSign, hasRoom]
      · simp [hneg, withSign]
    rw [htext]
    exact isNumeralOf_natDigits hzero

/-- The smallest integer is its own negation, and its last remainder is `-8`. -/
theorem paren_mem_longText_longMin : '(' ∈ longText longMin := by
  obtain ⟨q, -, (hq : longDigits none longMin.natAbs longMin [] = some q), -⟩ :=
    confined_longDigits longMin.natAbs longMin []
  have hneg : wrapLong (longMin * -1) = longMin := by decide
  have htext : longText longMin = '-' :: q := by
    have hlow : longMin < 0 := by decide
    simp only [longText, numberText, longChars, hlow, hlow.ne, decide_true, decide_false, if_true,
      Bool.false_eq_true, if_false, hneg, hq]
    rfl
  have hlast : ['('] <:+ q := by
    have hfuel : longMin.natAbs = 9223372036854775807 + 1 := by decide
    rw [hfuel, longDigits_of_ne_zero _ (by decide : longMin ≠ 0)] at hq
    exact suffix_longDigits hq
  rw [htext]
  exact List.mem_cons_of_mem _ (hlast.subset (List.mem_singleton_self _))

theorem not_isNumeralOf_longText_longMin : ¬IsNumeralOf (longText longMin) longMin := by
  intro h
  rcases h.mem paren_mem_longText_longMin with hsign | hdigit
  · exact absurd hsign (by decide)
  · exact absurd hdigit (by decide)

/-- **The numeral of an integer is appended**, where there is room, for every `long` but
the smallest one. -/
theorem append_long_exact_iff (b : StrBuilder) {l : ℤ} (hlow : longMin ≤ l) (hhigh : l ≤ longMax)
    (hroom : b.size + (longText l).length ≤ b.capacity) :
    (∃ s, (b.appendLong l).2.text = b.text ++ s ∧ IsNumeralOf s l) ↔ l ≠ longMin := by
  have htext := (StrBuilder.appends_appendLong l b).2 hroom
  rw [htext]
  simp only [List.append_cancel_left_eq]
  constructor
  · rintro ⟨s, rfl, hnumeral⟩ rfl
    exact not_isNumeralOf_longText_longMin hnumeral
  · intro hne
    exact ⟨longText l, rfl, isNumeralOf_longText (lt_of_le_of_ne hlow (Ne.symm hne)) hhigh⟩

/-- `LONG_MIN` comes out as characters before `'0'`. -/
theorem append_long_longMin_garbled :
    (StrBuilder.create 64).size + (longText longMin).length ≤ (StrBuilder.create 64).capacity ∧
      ¬∃ s, ((StrBuilder.create 64).appendLong longMin).2.text = (StrBuilder.create 64).text ++ s ∧
        IsNumeralOf s longMin := by
  have hroom : (StrBuilder.create 64).size + (longText longMin).length ≤ 64 := by decide +kernel
  refine ⟨hroom, ?_⟩
  rintro ⟨s, htext, hnumeral⟩
  rw [(StrBuilder.appends_appendLong longMin (StrBuilder.create 64)).2 hroom,
    List.append_cancel_left_eq] at htext
  rw [← htext] at hnumeral
  exact not_isNumeralOf_longText_longMin hnumeral

/-- A negative number with a zero in it. -/
theorem append_long_exact_negative :
    ∃ s, ((StrBuilder.create 8).appendLong (-1203)).2.text = (StrBuilder.create 8).text ++ s ∧
      IsNumeralOf s (-1203) :=
  (append_long_exact_iff (StrBuilder.create 8) (by decide) (by decide) (by decide +kernel)).mpr
    (by decide)

end PhpSpx
