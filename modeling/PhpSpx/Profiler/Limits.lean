import PhpSpx.Text.CString

/-!
# The limits of `spx_limits.c`

The capacities a process reads from its environment once.  Each is positive,
whatever the environment says, so the structure carries that.
-/

namespace PhpSpx

/-- `SPX_DEFAULT_MAX_STACK_DEPTH`. -/
def defaultMaxStackDepth : ℕ := 2048

/-- `SPX_DEFAULT_MAX_FUNCTION_TABLE_SIZE`. -/
def defaultMaxFunctionTableSize : ℕ := 65536

/-- `SPX_DEFAULT_REPORTER_BUFFER_SIZE`. -/
def defaultReporterBufferSize : ℕ := 16384

/-- `parse_size_t_env`, for the text of the variable when it is set. -/
def parseSizeTEnv (value : Option CStr) (defaultValue : ℕ) : ℕ :=
  match value with
  | none => defaultValue
  | some [] => defaultValue
  | some s =>
      let parsed := strtol s
      if parsed.converted = false ∨ parsed.endptr ≠ [] ∨ parsed.value ≤ 0 then defaultValue
      else parsed.value.toNat

theorem parseSizeTEnv_pos (value : Option CStr) {defaultValue : ℕ} (h : 0 < defaultValue) :
    0 < parseSizeTEnv value defaultValue := by
  unfold parseSizeTEnv
  split
  · exact h
  · exact h
  · dsimp only
    split
    · exact h
    · rename_i hs
      have hpos : 0 < (strtol _).value := not_le.1 fun hle => hs (Or.inr (Or.inr hle))
      omega

/-- The values behind `spx_get_max_stack_depth` and its siblings. -/
structure Limits where
  maxStackDepth : ℕ
  maxFunctionTableSize : ℕ
  reporterBufferSize : ℕ
  maxStackDepth_pos : 0 < maxStackDepth
  maxFunctionTableSize_pos : 0 < maxFunctionTableSize
  reporterBufferSize_pos : 0 < reporterBufferSize

/-- `spx_limits_init`, for an environment. -/
def limitsInit (getenv : String → Option CStr) : Limits where
  maxStackDepth := parseSizeTEnv (getenv "SPX_MAX_STACK_DEPTH") defaultMaxStackDepth
  maxFunctionTableSize :=
    parseSizeTEnv (getenv "SPX_MAX_FUNCTION_TABLE_SIZE") defaultMaxFunctionTableSize
  reporterBufferSize := parseSizeTEnv (getenv "SPX_REPORTER_BUFFER_SIZE") defaultReporterBufferSize
  maxStackDepth_pos := parseSizeTEnv_pos _ (by decide)
  maxFunctionTableSize_pos := parseSizeTEnv_pos _ (by decide)
  reporterBufferSize_pos := parseSizeTEnv_pos _ (by decide)

end PhpSpx
