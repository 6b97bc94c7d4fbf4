import PhpSpx.Request.Init

/-!
# Matching an IP address

`spx_utils_ip_match` against the grammar of its targets: `*`, an address, or a subnet
`A/M` with a mask of one or two digits.

* `IpMatches` — the grammar and its meaning.
* `ipMatch_iff` — what the function takes for a subnet: it cuts at the first slash and
  has the mask read by `strtol`, which asks for less than digits.
* `ip_match_exact_iff` — when the two agree.
-/

namespace PhpSpx

/-! ## The grammar -/

/-- Two addresses agree on their most significant bits. -/
def SamePrefix (bits : ℕ) (x y : UInt32) : Prop :=
  x.toNat / 2 ^ (32 - bits) = y.toNat / 2 ^ (32 - bits)

/-- The address `ip` is in the subnet of `base` that `bits` bits tell. -/
structure InSubnet (inetAddr : CStr → UInt32) (ip base : CStr) (bits : ℕ) : Prop where
  length : 7 ≤ base.length ∧ base.length ≤ 15
  base_valid : inetAddr base ≠ inaddrNone
  bits_range : 1 ≤ bits ∧ bits ≤ 31
  ip_valid : inetAddr ip ≠ inaddrNone
  agree : SamePrefix bits (inetAddr ip) (inetAddr base)

/-- One or two characters. -/
def IsShort (mask : CStr) : Prop := 1 ≤ mask.length ∧ mask.length ≤ 2

/-- One or two decimal digits. -/
def IsMask (mask : CStr) : Prop := IsShort mask ∧ ∀ c ∈ mask, c.isDigit = true

/-- The targets that an address matches. -/
def IpMatches (inetAddr : CStr → UInt32) (ip target : CStr) : Prop :=
  target = ['*'] ∨ target = ip ∨
    ∃ base mask, target = base ++ '/' :: mask ∧ IsMask mask ∧
      InSubnet inetAddr ip base (digitsValue mask)

/-! ## What is read -/

/-- The number of bits that `strtol` reads from a mask, `0` for a negative number. -/
def readBits (mask : CStr) : ℕ := (strtol mask).value.toNat

/-- The targets that the function takes for a subnet. -/
def ReadsSubnet (inetAddr : CStr → UInt32) (ip target : CStr) : Prop :=
  ∃ base mask, target = base ++ '/' :: mask ∧ '/' ∉ base ∧ IsShort mask ∧
    InSubnet inetAddr ip base (readBits mask)

/-- The mask is short, and starts like a number for `strtol`, but is not made of digits
alone. -/
def MalformedMask (inetAddr : CStr → UInt32) (ip target : CStr) : Prop :=
  ∃ base mask, target = base ++ '/' :: mask ∧ '/' ∉ base ∧ IsShort mask ∧ ¬IsMask mask ∧
    InSubnet inetAddr ip base (readBits mask)

/-- The address before the mask contains a slash of its own. -/
def SlashInBase (inetAddr : CStr → UInt32) (ip target : CStr) : Prop :=
  ∃ base mask, target = base ++ '/' :: mask ∧ '/' ∈ base ∧ IsMask mask ∧
    InSubnet inetAddr ip base (digitsValue mask)

/-! ## Masks -/

/-- The bits that the shifted mask keeps. -/
theorem toNat_and_mask (z : UInt32) {k : ℕ} (hk : k < 32) :
    (z &&& (0xffffffff <<< UInt32.ofNat k)).toNat = z.toNat / 2 ^ k * 2 ^ k := by
  have hz : z.toNat < 2 ^ 32 := z.toNat_lt
  have hshift : (UInt32.ofNat k).toNat % 32 = k := by
    rw [UInt32.toNat_ofNat_of_lt' (lt_trans hk (by decide)), Nat.mod_eq_of_lt hk]
  have hones : (0xffffffff : UInt32).toNat = 2 ^ 32 - 1 := rfl
  apply Nat.eq_of_testBit_eq
  intro i
  rw [UInt32.toNat_and, Nat.testBit_and, UInt32.toNat_shiftLeft, hshift, Nat.testBit_mod_two_pow,
    Nat.testBit_shiftLeft, Nat.testBit_mul_two_pow, Nat.testBit_div_two_pow, hones,
    Nat.testBit_two_pow_sub_one]
  rcases Nat.lt_or_ge i k with hi | hi
  · simp [Nat.not_le.mpr hi]
  · rw [Nat.sub_add_cancel hi]
    rcases Nat.lt_or_ge i 32 with hi' | hi'
    · have hsub : i - k < 32 := by omega
      simp [hi, hi', hsub]
    · have hbit : z.toNat.testBit i = false :=
        Nat.testBit_lt_two_pow (hz.trans_le (Nat.pow_le_pow_right (by decide) hi'))
      simp [hbit]

theorem and_mask_eq_iff {x y : UInt32} {bits : ℕ} (hbits : 1 ≤ bits) :
    x &&& (0xffffffff <<< UInt32.ofNat (32 - bits)) = y &&& (0xffffffff <<< UInt32.ofNat (32 - bits))
      ↔ SamePrefix bits x y := by
  have hk : 32 - bits < 32 := by omega
  rw [← UInt32.toNat_inj, toNat_and_mask x hk, toNat_and_mask y hk]
  exact Nat.mul_left_inj (by positivity)

/-- `strtol` reads the number that one or two digits denote. -/
theorem readBits_of_isMask {mask : CStr} (h : IsMask mask) : readBits mask = digitsValue mask := by
  obtain ⟨⟨hpos, hle⟩, hdigits⟩ := h
  have hvalue : digitsValue mask < 10 ^ 2 :=
    (digitsValue_lt hdigits).trans_le (Nat.pow_le_pow_right (by decide) hle)
  have hlong : (digitsValue mask : ℤ) ≤ longMax := by
    rw [longMax]
    omega
  rw [readBits, strtol_digits (List.ne_nil_of_length_pos hpos) hdigits hlong]
  rfl

/-- A mask that starts with a slash has no bits to read. -/
theorem readBits_slash (mask : CStr) : readBits ('/' :: mask) = 0 := rfl

/-! ## The function -/

/-- A text is cut at its first slash. -/
theorem cut_at_slash {base : CStr} (h : '/' ∉ base) (mask : CStr) :
    (base ++ '/' :: mask).takeWhile (· ≠ '/') = base ∧
      (base ++ '/' :: mask).dropWhile (· ≠ '/') = '/' :: mask := by
  have hbase : ∀ c ∈ base, decide (c ≠ '/') = true := by
    intro c hc
    exact decide_eq_true fun heq => h (heq ▸ hc)
  rw [List.takeWhile_append_of_pos hbase, List.dropWhile_append_of_pos hbase]
  simp

/-- The subnet branch of the function, on a text that is cut. -/
theorem inSubnet_iff (inetAddr : CStr → UInt32) (ip base mask : CStr) :
    (7 ≤ base.length ∧ base.length ≤ 15) ∧ IsShort mask ∧ inetAddr base ≠ inaddrNone ∧
        (1 ≤ (strtol mask).value ∧ (strtol mask).value ≤ 31) ∧ inetAddr ip ≠ inaddrNone ∧
        SamePrefix (readBits mask) (inetAddr ip) (inetAddr base) ↔
      IsShort mask ∧ InSubnet inetAddr ip base (readBits mask) := by
  have hbits : 1 ≤ (strtol mask).value ∧ (strtol mask).value ≤ 31 ↔
      1 ≤ readBits mask ∧ readBits mask ≤ 31 := by
    rw [readBits]
    omega
  rw [hbits]
  constructor
  · rintro ⟨hlen, hshort, hbase, hrange, hip, hagree⟩
    exact ⟨hshort, hlen, hbase, hrange, hip, hagree⟩
  · rintro ⟨hshort, hlen, hbase, hrange, hip, hagree⟩
    exact ⟨hlen, hshort, hbase, hrange, hip, hagree⟩

/-- On a text that is cut, there is one way to read a subnet. -/
theorem readsSubnet_iff {inetAddr : CStr → UInt32} {ip base mask : CStr} (hbase : '/' ∉ base) :
    ReadsSubnet inetAddr ip (base ++ '/' :: mask) ↔
      IsShort mask ∧ InSubnet inetAddr ip base (readBits mask) := by
  constructor
  · rintro ⟨base', mask', heq, hbase', h⟩
    obtain ⟨htake, hdrop⟩ := cut_at_slash hbase mask
    obtain ⟨htake', hdrop'⟩ := cut_at_slash hbase' mask'
    rw [heq] at htake hdrop
    obtain rfl : base' = base := htake'.symm.trans htake
    obtain rfl : mask' = mask := (List.cons.inj (hdrop'.symm.trans hdrop)).2
    exact h
  · rintro ⟨hmask, h⟩
    exact ⟨base, mask, rfl, hbase, hmask, h⟩

theorem ipMatch_iff (inetAddr : CStr → UInt32) (ip target : CStr) :
    ipMatch inetAddr (some ip) target = true ↔
      target = ['*'] ∨ target = ip ∨ ReadsSubnet inetAddr ip target := by
  rw [ipMatch]
  by_cases hsame : target = ['*'] ∨ target = ip
  · rw [if_pos hsame, ← or_assoc]
    exact iff_of_true rfl (.inl hsame)
  rw [if_neg hsame, ← or_assoc, or_iff_right hsame]
  by_cases hslash : '/' ∈ target
  · obtain ⟨base, mask, rfl, hbase⟩ := List.eq_append_cons_of_mem hslash
    obtain ⟨htake, hdrop⟩ := cut_at_slash hbase mask
    have hshort : 2 ≤ mask.length + 1 ∧ mask.length + 1 ≤ 3 ↔ IsShort mask := by
      rw [IsShort]
      omega
    rw [readsSubnet_iff hbase, ← inSubnet_iff]
    dsimp only
    rw [htake, hdrop, if_neg (List.cons_ne_nil _ _), List.length_cons, List.tail_cons, ← hshort]
    simp only [Bool.if_false_left, Bool.and_eq_true, Bool.not_eq_true', decide_eq_false_iff_not,
      not_not, decide_eq_true_iff]
    refine and_congr_right fun _ => and_congr_right fun _ => and_congr_right fun _ =>
      and_congr_right fun hrange => and_congr_right fun _ => and_mask_eq_iff ?_
    exact (Int.le_toNat (by omega)).mpr hrange.1
  · have hdrop : target.dropWhile (· ≠ '/') = [] :=
      List.dropWhile_eq_nil_iff.mpr fun c hc => decide_eq_true fun heq => hslash (heq ▸ hc)
    simp only [hdrop, if_true]
    apply iff_of_false Bool.false_ne_true
    rintro ⟨base, mask, rfl, -⟩
    exact hslash (List.mem_append_right _ List.mem_cons_self)

/-- What is read as a subnet is cut at the first slash: at another one, nothing is read. -/
theorem not_readsSubnet {inetAddr : CStr → UInt32} {ip base mask : CStr} (hslash : '/' ∈ base)
    (hmask : mask ≠ []) : ¬ReadsSubnet inetAddr ip (base ++ '/' :: mask) := by
  obtain ⟨first, rest, rfl, hfirst⟩ := List.eq_append_cons_of_mem hslash
  rw [List.append_assoc, List.cons_append, readsSubnet_iff hfirst]
  rintro ⟨⟨-, hle⟩, hsubnet⟩
  have hpos : 0 < mask.length := List.length_pos_of_ne_nil hmask
  rw [List.length_append, List.length_cons] at hle
  obtain rfl : rest = [] := List.length_eq_zero_iff.mp (by omega)
  have hbits : 1 ≤ readBits ('/' :: mask) := hsubnet.bits_range.1
  rw [readBits_slash] at hbits
  omega

theorem IsMask.ne_nil {mask : CStr} (h : IsMask mask) : mask ≠ [] :=
  List.ne_nil_of_length_pos h.1.1

/-- **The match is exact** unless the target is a subnet whose mask is more than digits, or
one with a slash in its address. -/
theorem ip_match_exact_iff (inetAddr : CStr → UInt32) (ip target : CStr) :
    (ipMatch inetAddr (some ip) target = true ↔ IpMatches inetAddr ip target) ↔
      target = ['*'] ∨ target = ip ∨
        ¬MalformedMask inetAddr ip target ∧ ¬SlashInBase inetAddr ip target := by
  rw [ipMatch_iff, IpMatches]
  by_cases hsame : target = ['*'] ∨ target = ip
  · rw [← or_assoc, ← or_assoc, ← or_assoc]
    exact iff_of_true (iff_of_true (.inl hsame) (.inl hsame)) (.inl hsame)
  rw [← or_assoc, ← or_assoc, ← or_assoc, or_iff_right hsame, or_iff_right hsame,
    or_iff_right hsame]
  constructor
  · intro h
    constructor
    · rintro ⟨base, mask, rfl, hbase, hshort, hnot, hsubnet⟩
      have hread : ReadsSubnet inetAddr ip (base ++ '/' :: mask) :=
        ⟨base, mask, rfl, hbase, hshort, hsubnet⟩
      obtain ⟨base', mask', heq, hmask', -⟩ := h.mp hread
      rw [heq] at hread
      by_cases hslash : '/' ∈ base'
      · exact not_readsSubnet hslash hmask'.ne_nil hread
      · -- the two cuts are the same
        have hdrop := (cut_at_slash hbase mask).2
        rw [heq, (cut_at_slash hslash mask').2] at hdrop
        obtain rfl : mask' = mask := (List.cons.inj hdrop).2
        exact hnot hmask'
    · rintro ⟨base, mask, rfl, hslash, hmask, hsubnet⟩
      exact not_readsSubnet hslash hmask.ne_nil (h.mpr ⟨base, mask, rfl, hmask, hsubnet⟩)
  · rintro ⟨hmalformed, hslash⟩
    constructor
    · rintro ⟨base, mask, rfl, hbase, hshort, hsubnet⟩
      have hmask : IsMask mask := by
        by_contra hnot
        exact hmalformed ⟨base, mask, rfl, hbase, hshort, hnot, hsubnet⟩
      rw [readBits_of_isMask hmask] at hsubnet
      exact ⟨base, mask, rfl, hmask, hsubnet⟩
    · rintro ⟨base, mask, rfl, hmask, hsubnet⟩
      have hbase : '/' ∉ base := fun hmem => hslash ⟨base, mask, rfl, hmem, hmask, hsubnet⟩
      refine ⟨base, mask, rfl, hbase, hmask.1, ?_⟩
      rwa [readBits_of_isMask hmask]

/-- An `inet_addr` that knows two addresses. -/
def twoAddresses (s : CStr) : UInt32 :=
  if s = "10.0.0.1".toList then 0x0a000001
  else if s = "10.0.0.2".toList then 0x0a000002
  else inaddrNone

/-- The mask of `10.0.0.1/8x` is malformed, and `10.0.0.2` matches. -/
theorem ip_match_malformed_mask :
    ipMatch twoAddresses (some "10.0.0.2".toList) "10.0.0.1/8x".toList = true ∧
      ¬IpMatches twoAddresses "10.0.0.2".toList "10.0.0.1/8x".toList := by
  have hmatch : ipMatch twoAddresses (some "10.0.0.2".toList) "10.0.0.1/8x".toList = true := by
    decide
  refine ⟨hmatch, ?_⟩
  rintro (h | h | ⟨base, mask, heq, hmask, -⟩)
  · exact absurd h (by decide)
  · exact absurd h (by decide)
  · by_cases hslash : '/' ∈ base
    · rcases (ipMatch_iff twoAddresses "10.0.0.2".toList _).mp hmatch with h | h | hread
      · exact absurd h (by decide)
      · exact absurd h (by decide)
      · rw [heq] at hread
        exact not_readsSubnet hslash hmask.ne_nil hread
    · have hdrop : '/' :: mask = "/8x".toList := by
        rw [← (cut_at_slash hslash mask).2, ← heq]
        decide
      obtain rfl : mask = "8x".toList := (List.cons.inj hdrop).2
      exact absurd (hmask.2 'x' (by decide)) (by decide)

end PhpSpx
