import PhpSpx.Lib.Cells
import PhpSpx.Text.Parse

/-!
# The token buffer of `SPX_UTILS_TOKENIZE_STRING`

The macro of `spx_utils.h` over the cells of its token buffer, which it fills
anew for each token and never clears, against splitting at the delimiter.
-/

namespace PhpSpx

open Lib (Holds)

/-- The C string in the first `size` cells of a buffer. -/
def cString (cells : ℕ → Char) (size : ℕ) : NulTerminated :=
  .ofChars ((List.range size).map cells)

/-- The variables of the macro: `token`, `i_` and `truncated_`. -/
structure Tokenizer where
  token : ℕ → Char
  i : ℕ
  truncated : Bool

/-- What one run of the block of the macro is given, and the notice before it. -/
structure TokenRun where
  token : ℕ → Char
  notice : Option String

namespace Tokenizer

/-- The variables as they are declared. -/
def declared : Tokenizer := ⟨fun _ => nul, 0, false⟩

/-- The end of a token: the NUL is written, and a truncated token is reported. -/
def terminate (t : Tokenizer) (size : ℕ) : TokenRun :=
  let token :=
    if t.i < size then Function.update t.token t.i nul
    else Function.update t.token (size - 1) nul
  { token
    notice :=
      if t.truncated then
        some ("Token truncated to " ++ toString (size - 1) ++ " bytes: " ++
          String.ofList ((cString token size).chars.take 32) ++ "...")
      else none }

/-- The loop of the macro, from the character `c_` points to. -/
def loop (delim : Char) (size : ℕ) (t : Tokenizer) : CStr → List TokenRun
  | [] => [t.terminate size]
  | c :: str =>
    if c = delim then
      t.terminate size :: loop delim size ⟨(t.terminate size).token, 0, false⟩ str
    else if t.i < size - 1 then
      loop delim size { t with token := Function.update t.token t.i c, i := t.i + 1 } str
    else loop delim size { t with truncated := true } str

end Tokenizer

/-- `SPX_UTILS_TOKENIZE_STRING(str, delim, token, size, block)`, the block reading `token`
as a string. -/
def tokenizeStringMacro {σ : Type*} (str : NulTerminated) (delim : Char) (size : ℕ)
    (block : NulTerminated → σ → σ) (st : σ) : σ :=
  (Tokenizer.declared.loop delim size str.chars).foldl
    (fun st run => block (cString run.token size) st) st

/-! ## What the buffer holds -/

/-- A text that stands at the start of a buffer is the start of its cells. -/
theorem take_cells {cells : ℕ → Char} {size : ℕ} {text : CStr} (hlen : text.length ≤ size)
    (h : Holds cells 0 text) : ((List.range size).map cells).take text.length = text := by
  apply List.ext_getElem
  · simp [hlen]
  · intro i _ hi
    have hcell := h i _ (List.getElem?_eq_getElem hi)
    simpa using hcell

/-- The text up to its NUL is the string of the buffer, whatever is behind it. -/
theorem chars_cString {cells : ℕ → Char} {size : ℕ} {text : CStr} (hlen : text.length < size)
    (hnul : nul ∉ text) (h : Holds cells 0 (text ++ [nul])) :
    (cString cells size).chars = text := by
  have hfits : (text ++ [nul]).length ≤ size := by simpa using hlen
  have hstart := take_cells hfits h
  have hcells : (List.range size).map cells =
      text ++ nul :: ((List.range size).map cells).drop (text ++ [nul]).length := by
    conv_lhs => rw [← List.take_append_drop (text ++ [nul]).length (List.map _ _), hstart]
    simp
  have hkept : ∀ c ∈ text, decide (c ≠ nul) = true := by
    rintro c hc
    simpa using fun heq : c = nul => hnul (heq ▸ hc)
  calc (cString cells size).chars
      = ((List.range size).map cells).takeWhile (· ≠ nul) := rfl
    _ = text := by
      rw [hcells, List.takeWhile_append_of_pos hkept, List.takeWhile_cons_of_neg (by simp),
        List.append_nil]

namespace Tokenizer

/-- The variables after the characters `seen` of a piece: the buffer holds as many of
them as fit, and the flag tells whether any did not. -/
structure Reads (t : Tokenizer) (size : ℕ) (seen : CStr) : Prop where
  holds : Holds t.token 0 (seen.take (size - 1))
  index : t.i = (seen.take (size - 1)).length
  truncated : t.truncated = true ↔ size - 1 < seen.length

/-- The block is run on a piece: the buffer holds what fits of it, terminated, and the
notice is given when something did not fit. -/
structure Runs (run : TokenRun) (size : ℕ) (piece : CStr) : Prop where
  holds : Holds run.token 0 (piece.take (size - 1) ++ [nul])
  notice : run.notice.isSome = true ↔ size - 1 < piece.length

theorem reads_nil (token : ℕ → Char) (size : ℕ) : Reads ⟨token, 0, false⟩ size [] where
  holds := by simp
  index := by simp
  truncated := by simp

variable {t : Tokenizer} {size : ℕ} {seen : CStr}

/-- A character that fits is stored behind the others. -/
theorem Reads.store (h : t.Reads size seen) {c : Char} (hfits : t.i < size - 1) :
    Reads { t with token := Function.update t.token t.i c, i := t.i + 1 } size (seen ++ [c]) := by
  have hshort : seen.length < size - 1 := by
    have hi := h.index
    rw [List.length_take] at hi
    omega
  have hseen : seen.take (size - 1) = seen := List.take_of_length_le hshort.le
  have hfull : (seen ++ [c]).take (size - 1) = seen ++ [c] :=
    List.take_of_length_le (by simpa using hshort)
  have hi : t.i = 0 + seen.length := by
    rw [h.index, hseen, Nat.zero_add]
  have hholds := h.holds
  rw [hseen] at hholds
  constructor
  · rw [hfull, hi]
    exact hholds.snoc c
  · rw [hfull, List.length_append, List.length_singleton, hi, Nat.zero_add]
  · have hnot := h.truncated
    simp only [List.length_append, List.length_singleton]
    constructor
    · intro htrunc
      have hlong := hnot.mp htrunc
      omega
    · intro hlong
      omega

/-- A character that does not fit is dropped. -/
theorem Reads.drop (h : t.Reads size seen) {c : Char} (hfull : ¬t.i < size - 1) :
    Reads { t with truncated := true } size (seen ++ [c]) := by
  have hlong : size - 1 ≤ seen.length := by
    have hi := h.index
    rw [List.length_take] at hi
    omega
  have htake : (seen ++ [c]).take (size - 1) = seen.take (size - 1) :=
    List.take_append_of_le_length hlong
  refine ⟨?_, ?_, ?_⟩
  · rw [htake]
    exact h.holds
  · rw [htake]
    exact h.index
  · simpa using Nat.lt_succ_of_le hlong

/-- At the end of a piece the buffer is terminated behind what it holds. -/
theorem Reads.terminate (h : t.Reads size seen) (hsize : 1 ≤ size) :
    Runs (t.terminate size) size seen := by
  have hi : t.i < size := by
    have hlen := h.index
    rw [List.length_take] at hlen
    omega
  constructor
  · simp only [Tokenizer.terminate, if_pos hi]
    rw [h.index, ← Nat.zero_add (List.length _)]
    exact h.holds.snoc nul
  · rw [← h.truncated, Tokenizer.terminate]
    cases t.truncated <;> simp

/-- One run of the block for each piece, in order, each with what fits of the piece. -/
theorem loop_runs (hsize : 1 ≤ size) (delim : Char) (str : CStr) (h : t.Reads size seen) :
    List.Forall₂ (fun run piece => Runs run size piece) (t.loop delim size str)
      (str.splitOnPPrepend (· == delim) seen.reverse) := by
  induction str generalizing t seen with
  | nil =>
    rw [List.splitOnPPrepend_nil, List.reverse_reverse]
    exact .cons (h.terminate hsize) .nil
  | cons c str ih =>
    rw [List.splitOnPPrepend_cons_eq_if, List.reverse_reverse, loop]
    by_cases hc : c = delim
    · rw [if_pos hc, if_pos (by simpa using hc)]
      exact .cons (h.terminate hsize) (ih (reads_nil _ size))
    · have hseen : c :: seen.reverse = (seen ++ [c]).reverse := by simp
      have hbeq : ¬(c == delim) = true := by simpa using hc
      rw [if_neg hc, if_neg hbeq, hseen]
      by_cases hfits : t.i < size - 1
      · rw [if_pos hfits]
        exact ih (h.store hfits)
      · rw [if_neg hfits]
        exact ih (h.drop hfits)

/-- The block is run once for each piece of the string, in order. -/
theorem declared_runs (hsize : 1 ≤ size) (delim : Char) (str : CStr) :
    List.Forall₂ (fun run piece => Runs run size piece) (declared.loop delim size str)
      (str.splitOn delim) :=
  loop_runs hsize delim str (reads_nil _ size)

end Tokenizer

/-! ## The tokens -/

/-- The pieces of a list with no character that does not occur in it. -/
theorem notMem_of_mem_splitOnP {p : Char → Bool} {x : Char} {str piece seen : CStr}
    (hseen : x ∉ seen) (h : x ∉ str) (hpiece : piece ∈ str.splitOnPPrepend p seen) :
    x ∉ piece := by
  induction str generalizing seen with
  | nil =>
    rw [List.splitOnPPrepend_nil, List.mem_singleton] at hpiece
    simpa [hpiece] using hseen
  | cons c str ih =>
    obtain ⟨hc, hstr⟩ := not_or.mp (List.mem_cons.not.mp h)
    rw [List.splitOnPPrepend_cons_eq_if] at hpiece
    split at hpiece
    · rcases List.mem_cons.mp hpiece with rfl | hpiece
      · simpa using hseen
      · have hnil : x ∉ ([] : CStr) := List.not_mem_nil
        exact ih hnil hstr hpiece
    · exact ih (by simp [hc, hseen]) hstr hpiece

/-- A run of the block on a piece without a NUL reads what fits of it as a string. -/
theorem Tokenizer.Runs.chars_cString {run : TokenRun} {size : ℕ} {piece : CStr}
    (h : Runs run size piece) (hsize : 1 ≤ size) (hnul : nul ∉ piece) :
    (cString run.token size).chars = piece.take (size - 1) := by
  apply PhpSpx.chars_cString ?_ (fun hmem => hnul (List.mem_of_mem_take hmem)) h.holds
  rw [List.length_take]
  omega

/-- The block sees the truncated pieces. -/
theorem map_cString_loop (str : NulTerminated) (delim : Char) {size : ℕ} (hsize : 1 ≤ size) :
    (Tokenizer.declared.loop delim size str.chars).map
        (fun run => (cString run.token size).chars) =
      (str.chars.splitOn delim).map (·.take (size - 1)) := by
  have hruns := Tokenizer.declared_runs hsize delim str.chars
  have hclean : ∀ piece ∈ str.chars.splitOn delim, nul ∉ piece := fun piece hpiece =>
    notMem_of_mem_splitOnP List.not_mem_nil str.nul_notMem hpiece
  generalize str.chars.splitOn delim = pieces at hruns hclean ⊢
  generalize Tokenizer.declared.loop delim size str.chars = runs at hruns ⊢
  induction hruns with
  | nil => rfl
  | cons hrun _ ih =>
    rw [List.map_cons, List.map_cons, hrun.chars_cString hsize (hclean _ List.mem_cons_self),
      ih fun piece hpiece => hclean piece (List.mem_cons_of_mem _ hpiece)]

/-- The tokens as texts are those of the buffer. -/
theorem tokenizeLoop_eq_splitOn (delim : Char) {size : ℕ} (str seen : CStr) :
    tokenizeLoop delim size (seen.take (size - 1)) str =
      (str.splitOnPPrepend (· == delim) seen.reverse).map (·.take (size - 1)) := by
  induction str generalizing seen with
  | nil => simp [tokenizeLoop]
  | cons c str ih =>
    rw [tokenizeLoop, List.splitOnPPrepend_cons_eq_if, List.reverse_reverse]
    by_cases hc : c = delim
    · have hnext := ih []
      rw [List.take_nil] at hnext
      rw [if_pos hc, if_pos (by simpa using hc), hnext]
      rfl
    · have hseen : c :: seen.reverse = (seen ++ [c]).reverse := by simp
      have hbeq : ¬(c == delim) = true := by simpa using hc
      rw [if_neg hc, if_neg hbeq, hseen, ← ih]
      by_cases hfits : (seen.take (size - 1)).length < size - 1
      · have hshort : seen.length < size - 1 := by
          rw [List.length_take] at hfits
          omega
        rw [if_pos hfits, List.take_of_length_le hshort.le,
          List.take_of_length_le (by simpa using hshort)]
      · have hlong : size - 1 ≤ seen.length := by
          rw [List.length_take] at hfits
          omega
        rw [if_neg hfits, List.take_append_of_le_length hlong]

theorem tokenizeString_eq_splitOn (str : CStr) (delim : Char) (size : ℕ) :
    tokenizeString str delim size = (str.splitOn delim).map (·.take (size - 1)) := by
  have hloop : tokenizeLoop delim size (List.take (size - 1) []) str =
      (str.splitOn delim).map (·.take (size - 1)) := tokenizeLoop_eq_splitOn delim str []
  rwa [List.take_nil] at hloop

/-- The block of the macro is run on the tokens of `tokenizeString`. -/
theorem tokenizeStringMacro_eq {σ : Type*} (str : NulTerminated) (delim : Char) {size : ℕ}
    (hsize : 1 ≤ size) (block : CStr → σ → σ) (st : σ) :
    tokenizeStringMacro str delim size (fun token => block token.chars) st =
      (tokenizeString str.chars delim size).foldl (fun st token => block token st) st := by
  rw [tokenizeString_eq_splitOn, ← map_cString_loop str delim hsize, List.foldl_map]
  rfl

end PhpSpx
