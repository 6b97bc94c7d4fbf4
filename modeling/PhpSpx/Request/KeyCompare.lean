import PhpSpx.Request.Init

/-!
# The comparison of keys

`spx_crypto_compare_strings_constant_time` compares the bytes up to the shorter
length and adds the exclusive or of the two lengths, as an `unsigned char`: of a
difference in length only the low byte counts.

* `cryptoCompareStringsConstantTime_eq_zero_iff` — when the answer is `0`.
* `key_compare_exact_iff` — it is exact, and `check_access` with it, but for keys
  one of which is the other one with a multiple of 256 bytes after it.
-/

namespace PhpSpx

/-- One of two keys is the other one with some bytes after it, a multiple of 256. -/
def Padded (a b : List UInt8) : Prop :=
  a ≠ b ∧ (a <+: b ∨ b <+: a) ∧ a.length % 256 = b.length % 256

/-- The loop collects a difference, if there is one. -/
theorem foldl_or_xor_eq_zero_iff (r : UInt8) (l : List (UInt8 × UInt8)) :
    l.foldl (fun result p => result ||| (p.1 ^^^ p.2)) r = 0 ↔ r = 0 ∧ ∀ p ∈ l, p.1 = p.2 := by
  induction l generalizing r with
  | nil => simp
  | cons p l ih =>
    rw [List.foldl_cons, ih, UInt8.or_eq_zero_iff, UInt8.xor_eq_zero_iff, List.forall_mem_cons,
      and_assoc]

theorem forall_mem_zip_eq_iff {a b : List UInt8} (h : a.length = b.length) :
    (∀ p ∈ a.zip b, p.1 = p.2) ↔ a = b := by
  induction a generalizing b with
  | nil =>
    obtain rfl : b = [] := List.length_eq_zero_iff.mp h.symm
    simp
  | cons x a ih =>
    cases b with
    | nil => exact absurd h (Nat.succ_ne_zero _)
    | cons y b =>
      rw [List.zip_cons_cons, List.forall_mem_cons, ih (Nat.succ.inj h), List.cons_eq_cons]

/-- Two texts that agree up to the shorter length. -/
theorem take_min_eq_iff {a b : List UInt8} :
    a.take (min a.length b.length) = b.take (min a.length b.length) ↔ a <+: b ∨ b <+: a := by
  rcases Nat.le_total a.length b.length with hle | hle
  · rw [Nat.min_eq_left hle, List.take_length, ← List.prefix_iff_eq_take]
    refine ⟨Or.inl, fun h => h.elim id ?_⟩
    intro hba
    rw [hba.eq_of_length_le hle]
  · rw [Nat.min_eq_right hle, List.take_length, eq_comm, ← List.prefix_iff_eq_take]
    refine ⟨Or.inr, fun h => h.elim ?_ id⟩
    intro hab
    rw [hab.eq_of_length_le hle]

theorem length_bytesOf (s : CStr) : (bytesOf s).length = s.length := List.length_map _

/-- The loop over the first `len` bytes. -/
theorem cryptoCompareConstantTime_eq_zero_iff {a b : List UInt8} {len : ℕ} (ha : len ≤ a.length)
    (hb : len ≤ b.length) :
    cryptoCompareConstantTime a b len = 0 ↔ a.take len = b.take len := by
  have hlen : (a.take len).length = (b.take len).length := by
    rw [List.length_take, List.length_take, Nat.min_eq_left ha, Nat.min_eq_left hb]
  rw [cryptoCompareConstantTime, foldl_or_xor_eq_zero_iff, forall_mem_zip_eq_iff hlen]
  exact and_iff_right rfl

/-- The narrowed lengths differ only in their low byte. -/
theorem narrowed_xor_eq_zero_iff (m n : ℕ) : UInt8.ofNat (m ^^^ n) = 0 ↔ m % 256 = n % 256 := by
  have hxor : (m ^^^ n) % 2 ^ 8 = m % 2 ^ 8 ^^^ n % 2 ^ 8 := Nat.xor_mod_two_pow
  rw [UInt8.ofNat_eq_iff_mod_eq_toNat, hxor]
  exact Nat.xor_eq_zero_iff

/-- When the comparison answers `0`. -/
theorem cryptoCompareStringsConstantTime_eq_zero_iff (a b : CStr) :
    cryptoCompareStringsConstantTime a b = 0 ↔
      (bytesOf a <+: bytesOf b ∨ bytesOf b <+: bytesOf a) ∧ a.length % 256 = b.length % 256 := by
  have hloop := cryptoCompareConstantTime_eq_zero_iff
    (Nat.min_le_left (bytesOf a).length (bytesOf b).length) (Nat.min_le_right _ _)
  rw [take_min_eq_iff, length_bytesOf, length_bytesOf] at hloop
  rw [cryptoCompareStringsConstantTime, UInt8.or_eq_zero_iff, hloop, narrowed_xor_eq_zero_iff]

/-- The comparison answers `0` for equal strings and for padded ones. -/
theorem cryptoCompare_eq_zero_iff_padded (a b : CStr) :
    cryptoCompareStringsConstantTime a b = 0 ↔
      bytesOf a = bytesOf b ∨ Padded (bytesOf a) (bytesOf b) := by
  rw [cryptoCompareStringsConstantTime_eq_zero_iff, ← length_bytesOf a, ← length_bytesOf b]
  by_cases heq : bytesOf a = bytesOf b
  · simp [heq]
  · rw [or_iff_right heq, Padded, and_iff_right heq]

/-- `check_access` comes to the comparison of the keys of an HTTP client. -/
def ComparesKeys (inetAddr : CStr → UInt32) (globals : ModuleGlobals) (inputs : Inputs)
    (config : SpxConfig) : Prop :=
  globals.httpEnabled = true ∧ isEmptyStr globals.httpIpVar = false ∧
    checkProxy inetAddr globals inputs = .ok () ∧ checkClientIp inetAddr globals inputs = .ok () ∧
    isEmptyStr globals.httpKey = false ∧ isEmptyStr config.key = false

/-- The bytes of a key, none for `NULL`. -/
def keyBytes (key : Option CStr) : List UInt8 := bytesOf (key.getD [])

/-- The grant at the end of `check_access`. -/
theorem checkAccess_eq_ok_iff (inetAddr : CStr → UInt32) (globals : ModuleGlobals)
    (inputs : Inputs) (config : SpxConfig) :
    checkAccess inetAddr globals inputs false config = .ok () ↔
      ComparesKeys inetAddr globals inputs config ∧
        cryptoCompareStringsConstantTime (globals.httpKey.getD []) (config.key.getD []) = 0 := by
  rw [checkAccess, ComparesKeys, if_neg Bool.false_ne_true]
  cases globals.httpEnabled with
  | false => simp
  | true =>
    cases isEmptyStr globals.httpIpVar with
    | true => simp
    | false =>
      rcases checkProxy inetAddr globals inputs with denial | _
      · simp [bind, Except.bind]
      · rcases checkClientIp inetAddr globals inputs with denial | _
        · simp [bind, Except.bind]
        · rw [checkKey]
          cases isEmptyStr globals.httpKey <;> cases isEmptyStr config.key <;>
            simp [bind, Except.bind]

/-- **Padded keys are the only ones the comparison takes for equal**, and the only ones with
which `check_access` lets a client in under another key than its own. -/
theorem key_compare_exact_iff (a b : CStr) (inetAddr : CStr → UInt32) (globals : ModuleGlobals)
    (inputs : Inputs) (config : SpxConfig) :
    ((cryptoCompareStringsConstantTime a b = 0 ↔ bytesOf a = bytesOf b) ↔
        ¬Padded (bytesOf a) (bytesOf b)) ∧
      ((checkAccess inetAddr globals inputs false config = .ok () →
          keyBytes globals.httpKey = keyBytes config.key) ↔
        ¬(ComparesKeys inetAddr globals inputs config ∧
          Padded (keyBytes globals.httpKey) (keyBytes config.key))) := by
  constructor
  · rw [cryptoCompare_eq_zero_iff_padded, or_iff_left_iff_imp]
    exact ⟨fun h hpad => hpad.1 (h hpad), fun h hpad => absurd hpad h⟩
  · rw [checkAccess_eq_ok_iff, cryptoCompare_eq_zero_iff_padded]
    refine ⟨fun h hpad => hpad.2.1 (h ⟨hpad.1, .inr hpad.2⟩), ?_⟩
    intro h hgrant
    exact hgrant.2.resolve_right fun hpad => h ⟨hgrant.1, hpad⟩

/-- The key `k` and the same with 256 bytes after it. -/
theorem key_compare_accepts_padded :
    let inetAddr : CStr → UInt32 := fun s =>
      if s = "127.0.0.1".toList then 0x7f000001 else inaddrNone
    let globals : ModuleGlobals :=
      ⟨false, true, some ['k'], some "REMOTE_ADDR".toList, none, some "127.0.0.1".toList⟩
    let inputs := Inputs.ofTables [] [] [("REMOTE_ADDR", "127.0.0.1")] []
    let key : CStr := 'k' :: List.replicate 256 'x'
    cryptoCompareStringsConstantTime ['k'] key = 0 ∧ bytesOf ['k'] ≠ bytesOf key ∧
      checkAccess inetAddr globals inputs false { defaultConfig false with key := some key }
        = .ok () := by
  decide +kernel

end PhpSpx
