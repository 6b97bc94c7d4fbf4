import PhpSpx.Text.Parse

/-!
# Parsing a bounded size

`spx_parse_size_t` of `spx_security_validation.c`, over `spx_parse_long`.  What
it accepts is compared with the base-10 grammar of `strtol`: white space, a
sign, at least one digit, and nothing after the digits.
-/

namespace PhpSpx

/-! ## The base-10 numerals of `strtol` -/

/-- The sign of a numeral and the factor it stands for. -/
inductive IsSign : CStr → ℤ → Prop
  | none : IsSign [] 1
  | plus : IsSign ['+'] 1
  | minus : IsSign ['-'] (-1)

/-- `s` as a whole is a numeral of the base-10 grammar of `strtol` that denotes `v`. -/
inductive IsBaseTen : CStr → ℤ → Prop
  | mk {spaces sign digits : CStr} {factor : ℤ} (hspaces : ∀ c ∈ spaces, isSpace c = true)
      (hsign : IsSign sign factor) (hne : digits ≠ [])
      (hdigits : ∀ c ∈ digits, c.isDigit = true) :
      IsBaseTen (spaces ++ (sign ++ digits)) (factor * digitsValue digits)

/-- A numeral whose value is a `long`. -/
def IsLongNumeral (s : CStr) (v : ℤ) : Prop :=
  IsBaseTen s v ∧ longMin ≤ v ∧ v ≤ longMax

theorem splitSign_append {sign digits : CStr} {factor : ℤ} (hsign : IsSign sign factor)
    (hne : digits ≠ []) (hdigits : ∀ c ∈ digits, c.isDigit = true) :
    splitSign (sign ++ digits) = (decide (factor = -1), digits) := by
  cases hsign with
  | none =>
    obtain ⟨c, ds, rfl⟩ := List.exists_cons_of_ne_nil hne
    exact splitSign_of_isDigit (hdigits c List.mem_cons_self) ds
  | plus => rfl
  | minus => rfl

/-- What `splitSign` splits off is a sign. -/
theorem splitSign_spec (s : CStr) :
    ∃ sign, IsSign sign (if (splitSign s).1 then -1 else 1) ∧ s = sign ++ (splitSign s).2 := by
  unfold splitSign
  split
  · exact ⟨['-'], .minus, rfl⟩
  · exact ⟨['+'], .plus, rfl⟩
  · exact ⟨[], .none, rfl⟩

/-- No white space follows the white space before a sign and digits. -/
theorem dropWhile_isSpace_numeral {spaces sign digits : CStr} {factor : ℤ}
    (hspaces : ∀ c ∈ spaces, isSpace c = true) (hsign : IsSign sign factor) (hne : digits ≠ [])
    (hdigits : ∀ c ∈ digits, c.isDigit = true) :
    (spaces ++ (sign ++ digits)).dropWhile isSpace = sign ++ digits := by
  rw [List.dropWhile_append_of_pos hspaces]
  cases hsign with
  | none =>
    obtain ⟨c, ds, rfl⟩ := List.exists_cons_of_ne_nil hne
    have hc : isSpace c = false := isSpace_of_isDigit (hdigits c List.mem_cons_self)
    simp [hc]
  | plus => rfl
  | minus => rfl

/-- The value `strtol` gives a numeral: the one denoted, when it is a `long`. -/
theorem strtol_of_isBaseTen {s : CStr} {v : ℤ} (h : IsBaseTen s v) :
    strtol s =
      if v > longMax then ⟨longMax, [], true, true⟩
      else if v < longMin then ⟨longMin, [], true, true⟩
      else ⟨v, [], true, false⟩ := by
  cases h with
  | @mk spaces sign digits factor hspaces hsign hne hdigits =>
    have htake : digits.takeWhile Char.isDigit = digits := List.takeWhile_eq_self_iff.mpr hdigits
    have hdrop : digits.dropWhile Char.isDigit = [] := List.dropWhile_eq_nil_iff.mpr hdigits
    have hvalue : (if decide (factor = -1) = true then -(digitsValue digits : ℤ)
        else digitsValue digits) = factor * digitsValue digits := by
      cases hsign <;> simp
    simp only [strtol, dropWhile_isSpace_numeral hspaces hsign hne hdigits,
      splitSign_append hsign hne hdigits, htake, hdrop, hne, if_false, hvalue]

/-- The parts `strtol` finds in any string, and what it makes of them. -/
theorem strtol_parts (s : CStr) :
    ∃ (spaces sign digits rest : CStr) (factor : ℤ),
      s = spaces ++ (sign ++ (digits ++ rest)) ∧
      (∀ c ∈ spaces, isSpace c = true) ∧ IsSign sign factor ∧
      (∀ c ∈ digits, c.isDigit = true) ∧
      strtol s =
        if digits = [] then ⟨0, s, false, false⟩
        else if factor * digitsValue digits > longMax then ⟨longMax, rest, true, true⟩
        else if factor * digitsValue digits < longMin then ⟨longMin, rest, true, true⟩
        else ⟨factor * digitsValue digits, rest, true, false⟩ := by
  obtain ⟨sign, hsign, hsplit⟩ := splitSign_spec (s.dropWhile isSpace)
  have hvalue : ∀ ds : CStr, (if (splitSign (s.dropWhile isSpace)).1 = true
      then -(digitsValue ds : ℤ) else digitsValue ds) =
      (if (splitSign (s.dropWhile isSpace)).1 = true then -1 else 1) * digitsValue ds := by
    intro ds
    split <;> simp
  refine ⟨s.takeWhile isSpace, sign, (splitSign (s.dropWhile isSpace)).2.takeWhile Char.isDigit,
    (splitSign (s.dropWhile isSpace)).2.dropWhile Char.isDigit, _, ?_,
    fun c => List.mem_takeWhile_imp, hsign, fun c => List.mem_takeWhile_imp, ?_⟩
  · rw [List.takeWhile_append_dropWhile, ← hsplit, List.takeWhile_append_dropWhile]
  · simp only [strtol, hvalue]

/-- A string `strtol` reads to its end without a range error is a numeral of the
value reported, and that value is a `long`. -/
theorem isLongNumeral_of_strtol {s : CStr} (hne : s ≠ []) (hend : (strtol s).endptr = [])
    (hrange : (strtol s).erange = false) : IsLongNumeral s (strtol s).value := by
  obtain ⟨spaces, sign, digits, rest, factor, hs, hspaces, hsign, hdigits, hread⟩ :=
    strtol_parts s
  rw [hread] at hend hrange ⊢
  split_ifs at hend hrange ⊢ with hnone hover hunder
  · exact absurd hend hne
  · simp only at hend
    rw [hend, List.append_nil] at hs
    rw [hs]
    exact ⟨.mk hspaces hsign hnone hdigits, not_lt.mp hunder, not_lt.mp hover⟩

/-- A range error comes with one of the two extreme values. -/
theorem value_of_erange {s : CStr} (h : (strtol s).erange = true) :
    (strtol s).value = longMax ∨ (strtol s).value = longMin := by
  obtain ⟨spaces, sign, digits, rest, factor, -, -, -, -, hread⟩ := strtol_parts s
  rw [hread] at h ⊢
  split_ifs at h ⊢
  · exact Or.inl rfl
  · exact Or.inr rfl

/-! ## `spx_parse_long` and `spx_parse_size_t` -/

/-- `spx_parse_long` accepts the numerals whose value is within its bounds. -/
theorem parseLong_eq_ok_iff {s : CStr} {minValue maxValue v : ℤ} :
    parseLong (some s) minValue maxValue = .ok v ↔
      IsLongNumeral s v ∧ minValue ≤ v ∧ v ≤ maxValue := by
  constructor
  · intro h
    have hbounds := parseLong_bounds h
    simp only [parseLong] at h
    split_ifs at h with hempty hover hunder hend
    cases h
    refine ⟨isLongNumeral_of_strtol hempty (not_not.mp hend) ?_, hbounds⟩
    by_contra hrange
    rw [Bool.not_eq_false] at hrange
    rcases value_of_erange hrange with hvalue | hvalue
    · exact hover ⟨hrange, hvalue⟩
    · exact hunder ⟨hrange, hvalue⟩
  · rintro ⟨⟨hs, hlow, hhigh⟩, hmin, hmax⟩
    have hread := strtol_of_isBaseTen hs
    rw [if_neg (not_lt.mpr hhigh), if_neg (not_lt.mpr hlow)] at hread
    have hne : s ≠ [] := by
      rintro rfl
      cases hread
    have hin : ¬(v < minValue ∨ maxValue < v) := by
      omega
    simp [parseLong, hne, hread, hin]

/-- What `spx_parse_size_t` returns and leaves in `*out_value`, which held `out`. -/
def parseSizeT (str : Option CStr) (out minValue maxValue : ℕ) :
    Except ParseFailure Unit × ℕ :=
  match parseLong str 0 (wrapLong maxValue) with
  | .error failure => (.error failure, out)
  | .ok value =>
    if value < 0 then
      (.error ⟨.outOfRange, .outOfRange,
        "Negative value not allowed for size_t: " ++ toString value⟩, out)
    else if value.toNat < minValue then
      (.error ⟨.outOfRange, .outOfRange,
        "Value " ++ toString value.toNat ++ " out of range [" ++ toString minValue ++ ", " ++
          toString maxValue ++ "]"⟩, out)
    else (.ok (), value.toNat)

/-- The value accepted passes the lower bound and the upper bound read as a `long`. -/
theorem parseSizeT_eq_ok_iff {s : CStr} {out minValue maxValue v : ℕ} :
    parseSizeT (some s) out minValue maxValue = (.ok (), v) ↔
      IsLongNumeral s v ∧ minValue ≤ v ∧ (v : ℤ) ≤ wrapLong maxValue := by
  constructor
  · intro h
    unfold parseSizeT at h
    split at h
    · exact nomatch h
    · rename_i value hparse
      obtain ⟨hs, hnonneg, hmax⟩ := parseLong_eq_ok_iff.mp hparse
      obtain ⟨n, rfl⟩ := Int.eq_ofNat_of_zero_le hnonneg
      rw [if_neg (not_lt.mpr hnonneg), Int.toNat_natCast] at h
      split_ifs at h with hmin
      · exact nomatch (Prod.mk.inj h).1
      · obtain rfl : n = v := (Prod.mk.inj h).2
        exact ⟨hs, not_lt.mp hmin, hmax⟩
  · rintro ⟨hs, hmin, hmax⟩
    have hparse : parseLong (some s) 0 (wrapLong maxValue) = .ok (v : ℤ) :=
      parseLong_eq_ok_iff.mpr ⟨hs, Int.natCast_nonneg v, hmax⟩
    simp [parseSizeT, hparse, not_lt.mpr hmin]

/-- A failure leaves `*out_value` as it was. -/
theorem parseSizeT_of_error {str : Option CStr} {out minValue maxValue v : ℕ}
    {failure : ParseFailure}
    (h : parseSizeT str out minValue maxValue = (.error failure, v)) : v = out := by
  unfold parseSizeT at h
  split at h
  · exact (Prod.mk.inj h).2.symm
  · split_ifs at h
    · exact (Prod.mk.inj h).2.symm
    · exact (Prod.mk.inj h).2.symm
    · exact nomatch (Prod.mk.inj h).1

/-- A bound up to `LONG_MAX` is the same as a `long`; a larger one is negative there. -/
theorem le_wrapLong_iff {maxValue v : ℕ} (hmax : maxValue < 2 ^ 64) :
    (v : ℤ) ≤ wrapLong maxValue ↔ v ≤ maxValue ∧ (maxValue : ℤ) ≤ longMax := by
  rw [wrapLong, Int.bmod_def, longMax]
  split <;> omega

/-- What bounded size parsing is for: it succeeds, with the value denoted, on the
numerals within the bounds, and otherwise reports an error and stores nothing. -/
def SizeParsedExactly (str : CStr) (out minValue maxValue : ℕ) : Prop :=
  (∀ v : ℕ, parseSizeT (some str) out minValue maxValue = (.ok (), v) ↔
    IsLongNumeral str v ∧ minValue ≤ v ∧ v ≤ maxValue) ∧
  ((∀ v : ℕ, ¬(IsLongNumeral str v ∧ minValue ≤ v ∧ v ≤ maxValue)) →
    ∃ failure, parseSizeT (some str) out minValue maxValue = (.error failure, out))

/-- **Bounded size parsing is exact** as long as the upper bound is a `long`.  Above
`LONG_MAX` the bound turns negative and every string is refused, which is right only
for strings that denote no value from the lower bound on. -/
theorem parseSizeT_exact_iff (str : CStr) (out : ℕ) {minValue maxValue : ℕ}
    (hmax : maxValue < 2 ^ 64) :
    SizeParsedExactly str out minValue maxValue ↔
      (maxValue : ℤ) ≤ longMax ∨ ¬∃ v : ℕ, IsLongNumeral str v ∧ minValue ≤ v := by
  have hok : ∀ v : ℕ, parseSizeT (some str) out minValue maxValue = (.ok (), v) ↔
      IsLongNumeral str v ∧ minValue ≤ v ∧ v ≤ maxValue ∧ (maxValue : ℤ) ≤ longMax := by
    intro v
    rw [parseSizeT_eq_ok_iff, le_wrapLong_iff hmax]
  constructor
  · intro hexact
    by_contra hnot
    simp only [not_or, not_not] at hnot
    obtain ⟨hlarge, v, hs, hmin⟩ := hnot
    have hle : v ≤ maxValue := by
      have hv : (v : ℤ) ≤ longMax := hs.2.2
      omega
    have haccept := (hexact.1 v).mpr ⟨hs, hmin, hle⟩
    exact hlarge ((hok v).mp haccept).2.2.2
  · intro hcase
    have hin : ∀ v : ℕ, IsLongNumeral str v ∧ minValue ≤ v ∧ v ≤ maxValue →
        (maxValue : ℤ) ≤ longMax := by
      rintro v ⟨hs, hmin, -⟩
      exact hcase.resolve_right (not_not.mpr ⟨v, hs, hmin⟩)
    have hiff : ∀ v : ℕ, parseSizeT (some str) out minValue maxValue = (.ok (), v) ↔
        IsLongNumeral str v ∧ minValue ≤ v ∧ v ≤ maxValue := by
      intro v
      rw [hok]
      constructor
      · rintro ⟨hs, hmin, hle, -⟩
        exact ⟨hs, hmin, hle⟩
      · rintro ⟨hs, hmin, hle⟩
        exact ⟨hs, hmin, hle, hin v ⟨hs, hmin, hle⟩⟩
    refine ⟨hiff, ?_⟩
    intro hnone
    rcases hrun : parseSizeT (some str) out minValue maxValue with ⟨failure | u, v⟩
    · rw [parseSizeT_of_error hrun]
      exact ⟨failure, rfl⟩
    · exact absurd ((hiff v).mp hrun) (hnone v)

/-- With the largest `size_t` as upper bound, `"5"` is refused although it is within
the bounds. -/
theorem parseSizeT_refuses_five :
    ¬∀ (str : CStr) (out minValue maxValue : ℕ), minValue ≤ maxValue → maxValue < 2 ^ 64 →
      SizeParsedExactly str out minValue maxValue := by
  intro h
  have hexact := h ['5'] 7 0 (2 ^ 64 - 1) (by norm_num) (by norm_num)
  have hnumeral : IsLongNumeral ['5'] (5 : ℕ) :=
    isLongNumeral_of_strtol (by decide) (by decide) (by decide)
  have haccept := (hexact.1 5).mpr ⟨hnumeral, by norm_num, by norm_num⟩
  exact absurd haccept (by decide)

/-- `"5"` is accepted between 1 and 10. -/
theorem parseSizeT_exact_five :
    ((10 : ℕ) : ℤ) ≤ longMax ∧ SizeParsedExactly ['5'] 7 1 10 :=
  have hmax : ((10 : ℕ) : ℤ) ≤ longMax := by decide
  ⟨hmax, (parseSizeT_exact_iff ['5'] 7 (by norm_num)).mpr (Or.inl hmax)⟩

end PhpSpx
