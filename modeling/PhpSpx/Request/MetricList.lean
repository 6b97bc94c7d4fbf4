import PhpSpx.Text.Tokenize
import PhpSpx.Request.Config

/-!
# List parameters

`SPX_UTILS_TOKENIZE_STRING` against splitting a string at its delimiters, and what
`source_data_to_config` makes of a list of metric keys.
-/

namespace PhpSpx

/-- The keys of the built-in metrics differ. -/
theorem Metric.eq_of_key_eq {m m' : Metric} (h : m.key.toList = m'.key.toList) : m = m' := by
  have hkeys : ∀ m m' : Metric, m.key = m'.key → m = m' := by decide
  exact hkeys m m' (String.toList_injective h)

/-- A key, with its NUL, fits the token buffer of the list of metrics. -/
theorem Metric.length_key_lt (m : Metric) : m.key.toList.length < 31 := by
  cases m <;> decide

theorem metricGetByKey_eq_some_iff {token : CStr} {m : Metric} :
    metricGetByKey token = some m ↔ token = m.key.toList := by
  constructor
  · intro h
    have hkey := List.find?_some h
    exact (of_decide_eq_true hkey).symm
  · rintro rfl
    have hfound : (metricGetByKey m.key.toList).isSome = true :=
      List.find?_isSome.mpr ⟨m, m.mem_all, decide_eq_true rfl⟩
    obtain ⟨m', hm'⟩ := Option.isSome_iff_exists.mp hfound
    have hkey : m'.key.toList = m.key.toList := by simpa using List.find?_some hm'
    rw [hm', Metric.eq_of_key_eq hkey]

/-- The block of the list of metrics. -/
def enableMetric (token : CStr) (enabled : Metric → Bool) : Metric → Bool :=
  match metricGetByKey token with
  | some m => Function.update enabled m true
  | none => enabled

theorem enableMetric_iff {token : CStr} {enabled : Metric → Bool} {m : Metric} :
    enableMetric token enabled m = true ↔ enabled m = true ∨ token = m.key.toList := by
  rw [enableMetric, ← metricGetByKey_eq_some_iff]
  cases metricGetByKey token with
  | none => simp
  | some m' =>
    by_cases hm : m = m'
    · simp [hm]
    · simp [Function.update_of_ne hm, Ne.symm hm]

theorem foldl_enableMetric_iff (tokens : List CStr) (enabled : Metric → Bool) (m : Metric) :
    tokens.foldl (fun enabled token => enableMetric token enabled) enabled m = true ↔
      enabled m = true ∨ m.key.toList ∈ tokens := by
  induction tokens generalizing enabled with
  | nil => simp
  | cons token tokens ih =>
    rw [List.foldl_cons, ih, enableMetric_iff, List.mem_cons, or_assoc, eq_comm (a := token)]

theorem metricsOfList_eq_foldl (str : CStr) :
    metricsOfList str =
      (tokenizeString str ',' 32).foldl (fun enabled token => enableMetric token enabled)
        fun _ => false := rfl

/-- The list of metrics is read by the macro. -/
theorem metricsOfList_eq_macro (str : NulTerminated) :
    metricsOfList str.chars =
      tokenizeStringMacro str ',' 32 (fun token => enableMetric token.chars) fun _ => false := by
  rw [tokenizeStringMacro_eq str ',' (by norm_num) enableMetric, metricsOfList_eq_foldl]

/-- Cutting pieces to 31 characters does not make a key of one that is none. -/
theorem metricsOfList_iff {str : CStr} {m : Metric} :
    metricsOfList str m = true ↔ m.key.toList ∈ str.splitOn ',' := by
  have hfold : metricsOfList str m = true ↔ m.key.toList ∈ tokenizeString str ',' 32 := by
    rw [metricsOfList_eq_foldl, foldl_enableMetric_iff]
    simp
  rw [hfold, tokenizeString_eq_splitOn, List.mem_map]
  constructor
  · rintro ⟨piece, hpiece, htake⟩
    have hlen := m.length_key_lt
    rw [← htake, List.length_take] at hlen
    rw [List.take_of_length_le (by omega)] at htake
    rwa [← htake]
  · intro hkey
    exact ⟨_, hkey, List.take_of_length_le m.length_key_lt.le⟩

/-- **List parsing equals splitting.** -/
theorem tokenize_string_splits {size : ℕ} (hsize : 1 ≤ size) (str : NulTerminated)
    (delim : Char) :
    List.Forall₂ (fun run piece => Tokenizer.Runs run size piece)
      (Tokenizer.declared.loop delim size str.chars) (str.chars.splitOn delim) ∧
    (∀ (σ : Type) (block : CStr → σ → σ) (st : σ),
      tokenizeStringMacro str delim size (fun token => block token.chars) st =
        (str.chars.splitOn delim).foldl (fun st piece => block (piece.take (size - 1)) st) st) ∧
    ∀ (source : SourceData) (config : SpxConfig), source.metricsStr = some str.chars →
      ∀ m : Metric, (sourceDataToConfig source config).enabledMetrics m = true ↔
        m.key.toList ∈ str.chars.splitOn ',' := by
  refine ⟨Tokenizer.declared_runs hsize delim str.chars, ?_, ?_⟩
  · intro σ block st
    rw [tokenizeStringMacro_eq str delim hsize, tokenizeString_eq_splitOn, List.foldl_map]
  · intro source config hsource m
    rw [sourceDataToConfig_enabledMetrics, hsource]
    exact metricsOfList_iff

/-- `"wt,,abc"` in tokens of two characters. -/
theorem tokenize_string_splits_short :
    (1 : ℕ) ≤ 3 ∧
    tokenizeStringMacro (.ofChars "wt,,abc".toList) ',' 3
      (fun token tokens => tokens ++ [token.chars]) [] = ["wt".toList, [], "ab".toList] := by
  refine ⟨by norm_num, ?_⟩
  have hsplit := tokenize_string_splits (by norm_num : 1 ≤ 3) (.ofChars "wt,,abc".toList) ','
  rw [hsplit.2.1 _ fun token tokens => tokens ++ [token]]
  decide

end PhpSpx
