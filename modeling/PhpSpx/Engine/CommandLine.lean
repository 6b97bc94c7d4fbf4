import PhpSpx.Text.StrBuilder

/-!
# The command line

`spx_php_build_command_line`: the arguments in `$_SERVER['argv']`, joined in a string
builder.
-/

namespace PhpSpx

/-- The capacity of the string builder. -/
def commandLineCapacity : ℕ := 2 * 1024

/-- The `i`-th string: a space after the former ones, then the string. -/
def appendArgument (i : ℕ) (str : NulTerminated) (b : StrBuilder) : ℕ × StrBuilder :=
  (if i > 0 then (b.appendChar ' ').2 else b).appendStr str.chars

/-- The loop of `spx_php_build_command_line`, over the entries of the array; an entry that is
not a string is none.  The first string that nothing is added for ends it. -/
def commandLineLoop : List (Option NulTerminated) → ℕ → StrBuilder → StrBuilder
  | [], _, b => b
  | none :: entries, i, b => commandLineLoop entries i b
  | some str :: entries, i, b =>
    let r := appendArgument i str b
    if r.1 = 0 then r.2 else commandLineLoop entries (i + 1) r.2

/-- `spx_php_build_command_line`.  There is no array when `argv` is missing or something
else, or the string builder could not be created. -/
def spxPhpBuildCommandLine (argv : Option (List (Option NulTerminated))) : Option NulTerminated :=
  argv.map fun entries =>
    .ofChars (commandLineLoop entries 0 (StrBuilder.create commandLineCapacity)).text

theorem capacity_appendArgument (i : ℕ) (str : NulTerminated) (b : StrBuilder) :
    (appendArgument i str b).2.capacity = b.capacity := by
  apply (StrBuilder.appends_appendStr str.chars _).1.trans
  split
  · exact (StrBuilder.appends_appendChar ' ' b).1
  · rfl

theorem capacity_commandLineLoop (entries : List (Option NulTerminated)) (i : ℕ)
    (b : StrBuilder) : (commandLineLoop entries i b).capacity = b.capacity := by
  induction entries generalizing i b with
  | nil => rfl
  | cons entry entries ih =>
    cases entry with
    | none => exact ih i b
    | some str =>
      rw [commandLineLoop]
      split
      · exact capacity_appendArgument i str b
      · exact (ih _ _).trans (capacity_appendArgument i str b)

theorem strlen_spxPhpBuildCommandLine_le {argv : Option (List (Option NulTerminated))}
    {line : NulTerminated} (h : spxPhpBuildCommandLine argv = some line) :
    line.strlen ≤ commandLineCapacity := by
  obtain ⟨entries, -, rfl⟩ := Option.map_eq_some_iff.mp h
  apply (NulTerminated.strlen_ofChars_le _).trans
  apply (commandLineLoop entries 0 (StrBuilder.create commandLineCapacity)).size_le.trans
  rw [capacity_commandLineLoop]
  exact le_rfl

/-! ## The text of the command line -/

/-- The arguments joined by single spaces. -/
def joined (args : List CStr) : CStr := [' '].intercalate args

theorem joined_cons (arg : CStr) (args : List CStr) :
    joined (arg :: args) = arg ++ args.flatMap (' ' :: ·) := by
  induction args generalizing arg with
  | nil => simp [joined]
  | cons next args ih =>
    rw [joined, List.intercalate_cons_cons, ← joined, ih next, List.flatMap_cons]
    simp

theorem joined_append {done : List CStr} (hne : done ≠ []) (args : List CStr) :
    joined (done ++ args) = joined done ++ args.flatMap (' ' :: ·) := by
  obtain ⟨first, rest, rfl⟩ := List.exists_cons_of_ne_nil hne
  rw [List.cons_append, joined_cons, joined_cons, List.flatMap_append, List.append_assoc]

/-- What is cut off a text already cut does not come back. -/
theorem take_append_take {α : Type*} (n : ℕ) (xs ys : List α) :
    (xs.take n ++ ys).take n = (xs ++ ys).take n := by
  rcases Nat.le_total xs.length n with hshort | hlong
  · rw [List.take_of_length_le hshort]
  · rw [List.take_append_of_le_length hlong,
      List.take_append_of_le_length (by rw [List.length_take]; omega), List.take_take, min_self]

namespace StrBuilder

/-- A character is appended unless there is no room for it. -/
theorem text_appendChar (b : StrBuilder) (c : Char) :
    (b.appendChar c).2.text = (b.text ++ [c]).take b.capacity := by
  have hsize := b.size_le
  rw [appendChar]
  split
  · rename_i hfull
    have hlen : b.capacity = b.text.length := by
      rw [remaining, size] at hfull
      omega
    rw [hlen, List.take_left]
  · rename_i hroom
    rw [remaining, size] at hroom
    have hfits : (b.text ++ [c]).length ≤ b.capacity := by
      rw [List.length_append, List.length_singleton]
      omega
    exact (List.take_of_length_le hfits).symm

/-- As much of a string is appended as there is room for, and 0 is returned when that is
not all of it. -/
theorem appendStrLoop_spec (str : CStr) (c : ℕ) (b : StrBuilder) :
    (appendStrLoop str c b).2.text = (b.text ++ str).take b.capacity ∧
    (appendStrLoop str c b).1 = if b.size + str.length ≤ b.capacity then c + str.length else 0 := by
  have hsize := b.size_le
  induction str generalizing c b with
  | nil =>
    have hfits : b.size + List.length ([] : CStr) ≤ b.capacity := hsize
    rw [List.append_nil, List.take_of_length_le hsize, if_pos hfits]
    exact ⟨rfl, rfl⟩
  | cons ch str ih =>
    rw [appendStrLoop]
    split
    · rename_i hfull
      have hlen : b.capacity = b.text.length := by
        rw [remaining, size] at hfull
        omega
      have hover : ¬b.size + (ch :: str).length ≤ b.capacity := by
        rw [size, List.length_cons]
        omega
      rw [if_neg hover, hlen, List.take_left]
      exact ⟨rfl, rfl⟩
    · rename_i hroom
      have hadd := Nat.pos_of_ne_zero hroom
      obtain ⟨htext, hcount⟩ := ih (c + 1) (b.add [ch] hadd) (b.add [ch] hadd).size_le
      have hsize' : (b.add [ch] hadd).size = b.size + 1 := List.length_append
      have hiff : b.size + 1 + str.length ≤ b.capacity ↔
          b.size + (ch :: str).length ≤ b.capacity := by
        rw [List.length_cons]
        omega
      rw [htext, hcount, hsize']
      refine ⟨by simp [add], ?_⟩
      simp only [add, hiff, List.length_cons]
      split <;> omega

end StrBuilder

/-- One argument, the former ones being there as far as they fit. -/
theorem text_appendArgument {b : StrBuilder} {done : List CStr} (str : NulTerminated)
    (hb : b.text = (joined done).take b.capacity) :
    (appendArgument done.length str b).2.text =
      (joined (done ++ [str.chars])).take b.capacity := by
  rw [appendArgument, StrBuilder.appendStr, (StrBuilder.appendStrLoop_spec _ _ _).1]
  by_cases hdone : done.length > 0
  · have hcap : (b.appendChar ' ').2.capacity = b.capacity :=
      (StrBuilder.appends_appendChar ' ' b).1
    rw [if_pos hdone, hcap, StrBuilder.text_appendChar, hb, take_append_take, List.append_assoc,
      take_append_take, joined_append (List.length_pos_iff.mp hdone)]
    simp
  · have hnil : done = [] := List.length_eq_zero_iff.mp (by omega)
    rw [if_neg hdone, hb, take_append_take, hnil]
    simp [joined]

/-- An argument that nothing is reported for is empty, or the builder is full. -/
theorem appendArgument_eq_zero {b : StrBuilder} {i : ℕ} {str : NulTerminated}
    (h : (appendArgument i str b).1 = 0) :
    str.chars = [] ∨ (appendArgument i str b).2.text.length = b.capacity := by
  have hcap : (if i > 0 then (b.appendChar ' ').2 else b).capacity = b.capacity := by
    split
    · exact (StrBuilder.appends_appendChar ' ' b).1
    · rfl
  rw [appendArgument, StrBuilder.appendStr] at h ⊢
  generalize (if i > 0 then (b.appendChar ' ').2 else b) = b' at hcap h ⊢
  obtain ⟨htext, hcount⟩ := StrBuilder.appendStrLoop_spec str.chars 0 b'
  rw [hcount] at h
  split_ifs at h with hfits
  · left
    rw [Nat.zero_add] at h
    exact List.length_eq_zero_iff.mp h
  · right
    have hlen : b'.size = b'.text.length := rfl
    rw [htext, List.length_take, List.length_append, hcap]
    omega

/-- An empty argument ends the loop. -/
theorem appendArgument_empty (i : ℕ) {str : NulTerminated} (b : StrBuilder)
    (h : str.chars = []) : (appendArgument i str b).1 = 0 := by
  rw [appendArgument, h]
  rfl

/-- The arguments up to the first empty one. -/
def upToEmpty : List CStr → List CStr
  | [] => []
  | arg :: args => if arg = [] then [arg] else arg :: upToEmpty args

theorem mem_of_mem_upToEmpty {arg : CStr} {args : List CStr} (h : arg ∈ upToEmpty args) :
    arg ∈ args := by
  induction args with
  | nil => exact h
  | cons first args ih =>
    rw [upToEmpty] at h
    split at h
    · rw [List.mem_singleton.mp h]
      exact List.mem_cons_self
    · rcases List.mem_cons.mp h with rfl | h
      · exact List.mem_cons_self
      · exact List.mem_cons_of_mem _ (ih h)

theorem upToEmpty_of_notMem {args : List CStr} (h : [] ∉ args) : upToEmpty args = args := by
  induction args with
  | nil => rfl
  | cons arg args ih =>
    obtain ⟨harg, hargs⟩ := not_or.mp (List.mem_cons.not.mp h)
    rw [upToEmpty, if_neg (Ne.symm harg), ih hargs]

theorem upToEmpty_append {done : List CStr} (h : [] ∉ done) (rest : List CStr) :
    upToEmpty (done ++ [] :: rest) = done ++ [[]] := by
  induction done with
  | nil => simp [upToEmpty]
  | cons arg done ih =>
    obtain ⟨harg, hdone⟩ := not_or.mp (List.mem_cons.not.mp h)
    rw [List.cons_append, upToEmpty, if_neg (Ne.symm harg), ih hdone, List.cons_append]

/-- The first empty argument is not behind any other. -/
theorem length_le_of_first {done₀ done rest₀ rest : List CStr} (h₀ : [] ∉ done₀)
    (h : done₀ ++ [] :: rest₀ = done ++ [] :: rest) : done₀.length ≤ done.length := by
  by_contra hlt
  have hget : done₀[done.length]? = some [] := by
    have hleft : (done₀ ++ [] :: rest₀)[done.length]? = done₀[done.length]? :=
      List.getElem?_append_left (by omega)
    rw [← hleft, h, List.getElem?_append_right le_rfl, Nat.sub_self]
    rfl
  exact h₀ (List.mem_of_getElem? hget)

/-- A command line that is full stays as it is when more arguments follow. -/
theorem take_joined_of_full {capacity : ℕ} {done : List CStr} (hne : done ≠ [])
    (hfull : capacity ≤ (joined done).length) (args : List CStr) :
    (joined (done ++ args)).take capacity = (joined done).take capacity := by
  rw [joined_append hne, List.take_append_of_le_length hfull]

/-- The loop joins the arguments up to the first empty one, as far as they fit. -/
theorem text_commandLineLoop (args : List NulTerminated) {b : StrBuilder} {done : List CStr}
    (hb : b.text = (joined done).take b.capacity) :
    (commandLineLoop (args.map some) done.length b).text =
      (joined (done ++ upToEmpty (args.map (·.chars)))).take b.capacity := by
  induction args generalizing b done with
  | nil => simpa [commandLineLoop, upToEmpty] using hb
  | cons str args ih =>
    have htext := text_appendArgument str hb
    rw [List.map_cons, List.map_cons, commandLineLoop, upToEmpty]
    by_cases hempty : str.chars = []
    · rw [if_pos (appendArgument_empty _ _ hempty), if_pos hempty]
      exact htext
    · rw [if_neg hempty, List.append_cons]
      by_cases hzero : (appendArgument done.length str b).1 = 0
      · have hfull := (appendArgument_eq_zero hzero).resolve_left hempty
        rw [htext, List.length_take] at hfull
        have hne : done ++ [str.chars] ≠ [] := List.append_ne_nil_of_right_ne_nil _ (by simp)
        rw [if_pos hzero, htext, take_joined_of_full hne (min_eq_left_iff.mp hfull)]
      · rw [if_neg hzero]
        have hcap := capacity_appendArgument done.length str b
        have hnext := ih (hcap.symm ▸ htext)
        rwa [List.length_append, List.length_singleton, hcap] at hnext

/-- What follows a command line that is not full shows in it. -/
theorem take_joined_of_short {capacity : ℕ} {done args : List CStr} (hne : done ≠ [])
    (hargs : args ≠ []) (hshort : (joined done).length < capacity) :
    (joined done).take capacity ≠ (joined (done ++ args)).take capacity := by
  obtain ⟨next, args, rfl⟩ := List.exists_cons_of_ne_nil hargs
  intro heq
  have hlen := congrArg List.length heq
  rw [joined_append hne, List.flatMap_cons] at hlen
  simp only [List.length_take, List.length_append, List.length_cons] at hlen
  omega

/-- The text up to the first empty argument is not longer than up to any other. -/
theorem length_joined_first_le {done₀ done rest₀ rest : List CStr} (h₀ : [] ∉ done₀)
    (h : done₀ ++ [] :: rest₀ = done ++ [] :: rest) :
    (joined (done₀ ++ [[]])).length ≤ (joined (done ++ [[]])).length := by
  have hle := length_le_of_first h₀ h
  rw [List.append_cons, List.append_cons done] at h
  obtain ⟨more, hmore⟩ := List.prefix_of_prefix_length_le ⟨rest₀, rfl⟩ ⟨rest, h.symm⟩
    (by simpa using hle)
  rw [← hmore, joined_append (List.append_ne_nil_of_right_ne_nil _ (by simp))]
  simp

/-- Stopping at an empty argument shows unless it is the last one or comes after what is
kept of the command line. -/
theorem take_joined_upToEmpty_iff {capacity : ℕ} (args : List CStr) :
    (joined (upToEmpty args)).take capacity = (joined args).take capacity ↔
      ∀ done rest, args = done ++ [] :: rest → rest ≠ [] →
        capacity ≤ (joined (done ++ [[]])).length := by
  by_cases hmem : [] ∈ args
  · obtain ⟨done₀, rest₀, rfl, h₀⟩ := List.eq_append_cons_of_mem hmem
    have hne : done₀ ++ [[]] ≠ [] := List.append_ne_nil_of_right_ne_nil _ (by simp)
    rw [upToEmpty_append h₀]
    constructor
    · intro heq done rest hsplit hrest
      apply le_trans ?_ (length_joined_first_le h₀ hsplit)
      by_contra hshort
      have hrest₀ : rest₀ ≠ [] := by
        rintro rfl
        have hle := length_le_of_first h₀ hsplit
        have hlen := congrArg List.length hsplit
        have hpos := List.length_pos_iff.mpr hrest
        simp only [List.length_append, List.length_cons, List.length_nil] at hlen
        omega
      apply take_joined_of_short hne hrest₀ (Nat.lt_of_not_le hshort)
      rwa [← List.append_cons]
    · intro hcond
      rw [List.append_cons done₀ [] rest₀]
      rcases eq_or_ne rest₀ [] with rfl | hrest
      · rw [List.append_nil]
      · exact (take_joined_of_full hne (hcond _ _ rfl hrest) rest₀).symm
  · rw [upToEmpty_of_notMem hmem]
    constructor
    · rintro - done rest rfl
      exact absurd (by simp) hmem
    · intro _
      rfl

/-- The text of the command line has no NUL. -/
theorem nul_notMem_joined {args : List CStr} (h : ∀ arg ∈ args, nul ∉ arg) :
    nul ∉ joined args := by
  cases args with
  | nil => simp [joined]
  | cons arg args =>
    rw [joined_cons, List.mem_append, not_or, List.mem_flatMap]
    refine ⟨h arg List.mem_cons_self, ?_⟩
    rintro ⟨next, hnext, hmem⟩
    rcases List.mem_cons.mp hmem with hspace | hmem
    · exact absurd hspace (by decide)
    · exact h next (List.mem_cons_of_mem _ hnext) hmem

/-- What is returned: the arguments up to the first empty one, as far as they fit. -/
theorem chars_spxPhpBuildCommandLine (argv : List NulTerminated) :
    (spxPhpBuildCommandLine (some (argv.map some))).map (·.chars) =
      some ((joined (upToEmpty (argv.map (·.chars)))).take commandLineCapacity) := by
  have hstart : (StrBuilder.create commandLineCapacity).text =
      (joined []).take (StrBuilder.create commandLineCapacity).capacity := rfl
  have htext := text_commandLineLoop argv hstart
  have hnul : nul ∉ joined (upToEmpty (argv.map (·.chars))) := by
    apply nul_notMem_joined
    intro arg harg
    obtain ⟨str, -, rfl⟩ := List.mem_map.mp (mem_of_mem_upToEmpty harg)
    exact str.nul_notMem
  have hkept : ∀ c ∈ (joined (upToEmpty (argv.map (·.chars)))).take commandLineCapacity,
      decide (c ≠ nul) = true := by
    intro c hc
    apply decide_eq_true
    rintro rfl
    exact hnul (List.mem_of_mem_take hc)
  rw [spxPhpBuildCommandLine, Option.map_some, Option.map_some, Option.some_inj]
  apply Eq.trans (congrArg (List.takeWhile (· ≠ nul)) htext)
  exact List.takeWhile_eq_self_iff.mpr hkept

/-- **The recorded command line is the argument list**, cut at the capacity, exactly when
an empty argument before the last comes after what is kept. -/
theorem command_line_is_joined_iff (argv : List NulTerminated) :
    (spxPhpBuildCommandLine (some (argv.map some))).map (·.chars) =
        some ((joined (argv.map (·.chars))).take 2048) ↔
      ∀ done rest, argv.map (·.chars) = done ++ [] :: rest → rest ≠ [] →
        2048 ≤ (joined (done ++ [[]])).length := by
  rw [chars_spxPhpBuildCommandLine, Option.some_inj]
  exact take_joined_upToEmpty_iff _

/-- `cmd "" b` is recorded without its last argument. -/
theorem command_line_cut_at_empty :
    ¬∀ argv : List NulTerminated,
      (spxPhpBuildCommandLine (some (argv.map some))).map (·.chars) =
        some ((joined (argv.map (·.chars))).take 2048) := by
  intro h
  have hcut := h [.ofChars ['a'], .ofChars [], .ofChars ['b']]
  exact absurd hcut (by decide)

end PhpSpx
