import Mathlib

/-!
# Selection in a window

The smallest elements of a list are to be selected in a window of fixed size: the
window starts with the first elements, and each other one takes the place of the first
element of the window that is greater.  An element whose place was taken does not come
back, so this is not always right.

* `replaceGreater`, `selectWindow` — the loop.
* `Window` — what the window looks like as long as no top element was lost: the top
  elements that came with it are where they were, those that came later fill the other
  places in order.
* `selectWindow_sorted_iff` — the exact condition under which the loop is right.
-/

namespace PhpSpx

variable {β : Type*} [LinearOrder β]

/-- The new element `c` takes the place of the first greater one. -/
def replaceGreater (c : β) : List β → List β
  | [] => []
  | w :: ws => if c < w then c :: ws else w :: replaceGreater c ws

/-- The window of size `limit` after all elements. -/
def selectWindow (limit : ℕ) (l : List β) : List β :=
  (l.drop limit).foldl (fun ws c => replaceGreater c ws) (l.take limit)

/-- An element among the `limit` smallest ones. -/
def IsTop (limit : ℕ) (l : List β) (x : β) : Prop := l.countP (fun y => decide (y < x)) < limit

instance (limit : ℕ) (l : List β) (x : β) : Decidable (IsTop limit l x) :=
  inferInstanceAs (Decidable (_ < _))

theorem IsTop.lt_of_not {limit : ℕ} {l : List β} {c w : β} (hc : IsTop limit l c)
    (hw : ¬IsTop limit l w) : c < w := by
  by_contra hle
  refine hw (lt_of_le_of_lt ?_ hc)
  apply List.countP_mono_left
  intro y _ hy
  simp only [decide_eq_true_eq] at hy ⊢
  exact lt_of_lt_of_le hy (not_lt.mp hle)

/-! ## The top elements of a sorted list -/

theorem filter_isTop_of_sorted {s : List β} (hs : s.Pairwise (· < ·)) (limit : ℕ) :
    s.filter (fun x => decide (IsTop limit s x)) = s.take limit := by
  induction s generalizing limit with
  | nil => simp
  | cons a s ih =>
    obtain ⟨ha, hs⟩ := List.pairwise_cons.mp hs
    cases limit with
    | zero =>
      apply List.filter_eq_nil_iff.mpr
      intro x _
      simp [IsTop]
    | succ limit =>
      have hhead : (a :: s).countP (fun y => decide (y < a)) = 0 := by
        apply List.countP_eq_zero.mpr
        intro y hy
        rcases List.mem_cons.mp hy with rfl | hy
        · simp
        · simpa using (ha y hy).le
      have htail : ∀ x ∈ s, decide (IsTop (limit + 1) (a :: s) x) = decide (IsTop limit s x) := by
        intro x hx
        apply decide_eq_decide.mpr
        rw [IsTop, IsTop, List.countP_cons_of_pos (by simpa using ha x hx)]
        exact Nat.succ_lt_succ_iff
      rw [List.filter_cons_of_pos (by rw [decide_eq_true_eq, IsTop, hhead]; exact Nat.succ_pos _),
        List.filter_congr htail, ih hs, List.take_succ_cons]

/-- The top elements, sorted, are the first ones of the sorted list. -/
theorem perm_filter_isTop {l : List β} (hl : l.Nodup) (limit : ℕ) :
    ((l.insertionSort (· ≤ ·)).take limit).Perm
      (l.filter fun x => decide (IsTop limit l x)) := by
  have hperm := List.perm_insertionSort (· ≤ ·) l
  have hsorted : (l.insertionSort (· ≤ ·)).Pairwise (· < ·) := by
    have hle := List.pairwise_insertionSort (· ≤ ·) l
    have hne : (l.insertionSort (· ≤ ·)).Pairwise (· ≠ ·) := hperm.nodup_iff.mpr hl
    exact (hle.and hne).imp fun h => lt_of_le_of_ne h.1 h.2
  have hsame (x : β) : IsTop limit (l.insertionSort (· ≤ ·)) x ↔ IsTop limit l x := by
    rw [IsTop, IsTop, hperm.countP_eq]
  rw [← filter_isTop_of_sorted hsorted limit]
  simp only [hsame]
  exact hperm.filter _

/-- There are as many top elements as the window has places. -/
theorem countP_isTop {l : List β} (hl : l.Nodup) {limit : ℕ} (hlimit : limit ≤ l.length) :
    l.countP (fun x => decide (IsTop limit l x)) = limit := by
  rw [List.countP_eq_length_filter, ← (perm_filter_isTop hl limit).length_eq, List.length_take,
    List.length_insertionSort, Nat.min_eq_left hlimit]

/-! ## The window -/

section Window

variable {T : β → Prop}

/-- A window that started as `xs` and lost none of its elements in `T`, after the elements
`ys` in `T` came. -/
inductive Window (T : β → Prop) : List β → List β → List β → Prop where
  | nil : Window T [] [] []
  | kept {x : β} {xs ys ws : List β} (hx : T x) (h : Window T xs ys ws) :
    Window T (x :: xs) ys (x :: ws)
  | filled {x y : β} {xs ys ws : List β} (hx : ¬T x) (hy : T y) (h : Window T xs ys ws) :
    Window T (x :: xs) (y :: ys) (y :: ws)
  | free {x w : β} {xs ws : List β} (hx : ¬T x) (hw : ¬T w) (h : Window T xs [] ws) :
    Window T (x :: xs) [] (w :: ws)

omit [LinearOrder β] in
theorem window_self (xs : List β) : Window T xs [] xs := by
  induction xs with
  | nil => exact .nil
  | cons x xs ih =>
    by_cases hx : T x
    · exact .kept hx ih
    · exact .free hx hx ih

/-- Nothing in `T` before the first free place is greater than `c`. -/
def Clear (T : β → Prop) [DecidablePred T] (c : β) : List β → List β → Prop
  | [], _ => False
  | x :: xs, [] => if T x then ¬c < x ∧ Clear T c xs [] else True
  | x :: xs, y :: ys => if T x then ¬c < x ∧ Clear T c xs (y :: ys) else ¬c < y ∧ Clear T c xs ys

/-- The place that is found for an element outside `T` was free. -/
theorem Window.replace_other {xs ys ws : List β} (h : Window T xs ys ws) {c : β} (hc : ¬T c)
    (hT : ∀ x, T x → ¬c < x) : Window T xs ys (replaceGreater c ws) := by
  induction h with
  | nil => exact .nil
  | kept hx _ ih =>
    rw [replaceGreater, if_neg (hT _ hx)]
    exact .kept hx ih
  | filled hx hy _ ih =>
    rw [replaceGreater, if_neg (hT _ hy)]
    exact .filled hx hy ih
  | free hx hw h ih =>
    rw [replaceGreater]
    split
    · exact .free hx hc h
    · exact .free hx hw ih

variable [DecidablePred T]

/-- An element in `T` goes to the first free place when the way is clear. -/
theorem Window.replace_clear {xs ys ws : List β} (h : Window T xs ys ws) {c : β} (hc : T c)
    (hT : ∀ w, ¬T w → c < w) (hclear : Clear T c xs ys) :
    Window T xs (ys ++ [c]) (replaceGreater c ws) := by
  induction h with
  | nil => exact hclear.elim
  | @kept x xs ys ws hx _ ih =>
    have hclear' : ¬c < x ∧ Clear T c xs ys := by
      cases ys <;> rwa [Clear, if_pos hx] at hclear
    rw [replaceGreater, if_neg hclear'.1]
    exact .kept hx (ih hclear'.2)
  | filled hx hy _ ih =>
    rw [Clear, if_neg hx] at hclear
    rw [replaceGreater, if_neg hclear.1]
    exact .filled hx hy (ih hclear.2)
  | free hx hw h _ =>
    rw [replaceGreater, if_pos (hT _ hw)]
    exact .filled hx hc h

theorem mem_of_mem_replaceGreater {c z : β} {ws : List β} (h : z ∈ replaceGreater c ws) :
    z = c ∨ z ∈ ws := by
  induction ws with
  | nil => exact absurd h List.not_mem_nil
  | cons w ws ih =>
    rw [replaceGreater] at h
    split at h
    · exact (List.mem_cons.mp h).imp_right (List.mem_cons_of_mem w)
    · rcases List.mem_cons.mp h with rfl | h
      · exact .inr List.mem_cons_self
      · exact (ih h).imp_right (List.mem_cons_of_mem w)

/-- An element in `T` takes the place of another one when the way is not clear. -/
theorem Window.replace_not_clear {xs ys ws : List β} (h : Window T xs ys ws) {c : β}
    (hws : (c :: ws).Nodup) (hroom : ys.length < xs.countP fun x => decide ¬T x)
    (hclear : ¬Clear T c xs ys) : ∃ z ∈ ws, T z ∧ z ∉ replaceGreater c ws := by
  -- a lost element `x` at the head, or one further on
  have hlost {x : β} {ws : List β} (hnodup : (c :: x :: ws).Nodup) (hx : T x)
      (hrest : ¬c < x → ∃ z ∈ ws, T z ∧ z ∉ replaceGreater c ws) :
      ∃ z ∈ x :: ws, T z ∧ z ∉ replaceGreater c (x :: ws) := by
    obtain ⟨hc, hx', -⟩ : c ∉ x :: ws ∧ x ∉ ws ∧ ws.Nodup := by
      rw [List.nodup_cons, List.nodup_cons] at hnodup
      exact hnodup
    rw [replaceGreater]
    by_cases hlt : c < x
    · refine ⟨x, List.mem_cons_self, hx, ?_⟩
      rw [if_pos hlt, List.mem_cons, not_or]
      exact ⟨hlt.ne', hx'⟩
    · obtain ⟨z, hz, hTz, hgone⟩ := hrest hlt
      refine ⟨z, List.mem_cons_of_mem x hz, hTz, ?_⟩
      rw [if_neg hlt, List.mem_cons, not_or]
      exact ⟨fun heq => hx' (heq ▸ hz), hgone⟩
  have htail {x : β} {ws : List β} (hnodup : (c :: x :: ws).Nodup) : (c :: ws).Nodup :=
    hnodup.sublist ((List.sublist_cons_self x ws).cons_cons c)
  induction h with
  | nil => exact absurd hroom (Nat.not_lt_zero _)
  | @kept x xs ys ws hx _ ih =>
    refine hlost hws hx fun hlt => ih (htail hws) ?_ fun hclear' => hclear ?_
    · rwa [List.countP_cons_of_neg (by simpa using hx)] at hroom
    · cases ys <;> rw [Clear, if_pos hx] <;> exact ⟨hlt, hclear'⟩
  | filled hx hy _ ih =>
    refine hlost hws hy fun hlt => ih (htail hws) ?_ fun hclear' => hclear ?_
    · rw [List.countP_cons_of_pos (by simpa using hx), List.length_cons] at hroom
      exact Nat.succ_lt_succ_iff.mp hroom
    · rw [Clear, if_neg hx]
      exact ⟨hlt, hclear'⟩
  | free hx _ _ _ =>
    rw [Clear, if_neg hx] at hclear
    exact absurd trivial hclear

/-! ## The whole loop -/

theorem nodup_replaceGreater {c : β} {ws : List β} (h : (c :: ws).Nodup) :
    (replaceGreater c ws).Nodup := by
  induction ws with
  | nil => exact List.nodup_nil
  | cons w ws ih =>
    obtain ⟨hc, hw, hws⟩ : c ∉ w :: ws ∧ w ∉ ws ∧ ws.Nodup := by
      rw [List.nodup_cons, List.nodup_cons] at h
      exact h
    rw [List.mem_cons, not_or] at hc
    rw [replaceGreater]
    split
    · exact List.nodup_cons.mpr ⟨hc.2, hws⟩
    · refine List.nodup_cons.mpr ⟨?_, ih (List.nodup_cons.mpr ⟨hc.2, hws⟩)⟩
      intro hmem
      exact (mem_of_mem_replaceGreater hmem).elim (fun heq => hc.1 heq.symm) hw

/-- An element that was lost does not come back. -/
theorem not_mem_foldl_replaceGreater {z : β} {cs ws : List β} (hz : z ∉ ws) (hcs : z ∉ cs) :
    z ∉ cs.foldl (fun ws c => replaceGreater c ws) ws := by
  induction cs generalizing ws with
  | nil => exact hz
  | cons c cs ih =>
    rw [List.mem_cons, not_or] at hcs
    exact ih (fun hmem => (mem_of_mem_replaceGreater hmem).elim hcs.1 hz) hcs.2

/-- The way is clear for each of the elements in `T` that come. -/
def ClearAlong (T : β → Prop) [DecidablePred T] (xs : List β) : List β → List β → Prop
  | _, [] => True
  | ys, c :: cs =>
    if T c then Clear T c xs ys ∧ ClearAlong T xs (ys ++ [c]) cs else ClearAlong T xs ys cs

/-- The loop keeps all elements in `T`, or loses one. -/
theorem Window.run {xs ys ws cs : List β} (h : Window T xs ys ws)
    (hT : ∀ c w, T c → ¬T w → c < w) (hnodup : (ws ++ cs).Nodup)
    (hcount : ys.length + cs.countP (fun x => decide (T x)) = xs.countP fun x => decide ¬T x) :
    (ClearAlong T xs ys cs →
        Window T xs (ys ++ cs.filter fun x => decide (T x))
          (cs.foldl (fun ws c => replaceGreater c ws) ws)) ∧
      (¬ClearAlong T xs ys cs →
        ∃ z ∈ ws ++ cs, T z ∧ z ∉ cs.foldl (fun ws c => replaceGreater c ws) ws) := by
  induction cs generalizing ys ws with
  | nil =>
    rw [List.filter_nil, List.append_nil]
    exact ⟨fun _ => h, fun hclear => absurd trivial hclear⟩
  | cons c cs ih =>
    have hmiddle : (c :: (ws ++ cs)).Nodup := List.perm_middle.nodup_iff.mp hnodup
    have hcws : (c :: ws).Nodup :=
      hmiddle.sublist ((List.sublist_append_left ws cs).cons_cons c)
    have hnext : (replaceGreater c ws ++ cs).Nodup := by
      refine List.nodup_append.mpr ⟨nodup_replaceGreater hcws, hnodup.of_append_right.of_cons, ?_⟩
      rintro a ha b hb rfl
      rcases mem_of_mem_replaceGreater ha with rfl | ha
      · exact (List.nodup_cons.mp hnodup.of_append_right).1 hb
      · exact List.disjoint_of_nodup_append hnodup ha (List.mem_cons_of_mem c hb)
    have hmem {z : β} (hz : z ∈ replaceGreater c ws ++ cs) : z ∈ ws ++ c :: cs := by
      rcases List.mem_append.mp hz with hz | hz
      · rcases mem_of_mem_replaceGreater hz with rfl | hz
        · exact List.mem_append_right ws List.mem_cons_self
        · exact List.mem_append_left _ hz
      · exact List.mem_append_right ws (List.mem_cons_of_mem c hz)
    rw [List.foldl_cons, ClearAlong]
    by_cases hc : T c
    · rw [if_pos hc, List.filter_cons_of_pos (by simpa using hc)]
      rw [List.countP_cons_of_pos (by simpa using hc)] at hcount
      by_cases hclear : Clear T c xs ys
      · obtain ⟨hkept, hlost⟩ := ih (h.replace_clear hc (fun w hw => hT c w hc hw) hclear) hnext
          (by rw [List.length_append, List.length_singleton]; omega)
        refine ⟨?_, ?_⟩
        · intro halong
          rw [List.append_cons]
          exact hkept halong.2
        · intro halong
          obtain ⟨z, hz, hTz, hgone⟩ := hlost fun h' => halong ⟨hclear, h'⟩
          exact ⟨z, hmem hz, hTz, hgone⟩
      · refine ⟨fun halong => absurd halong.1 hclear, ?_⟩
        intro _
        obtain ⟨z, hz, hTz, hgone⟩ := h.replace_not_clear hcws (by omega) hclear
        refine ⟨z, List.mem_append_left _ hz, hTz, not_mem_foldl_replaceGreater hgone ?_⟩
        intro hzcs
        exact List.disjoint_of_nodup_append hnodup hz (List.mem_cons_of_mem c hzcs)
    · rw [if_neg hc, List.filter_cons_of_neg (by simpa using hc)]
      rw [List.countP_cons_of_neg (by simpa using hc)] at hcount
      obtain ⟨hkept, hlost⟩ := ih
        (h.replace_other hc fun x hx hlt => lt_asymm hlt (hT x c hx hc)) hnext hcount
      refine ⟨hkept, ?_⟩
      intro halong
      obtain ⟨z, hz, hTz, hgone⟩ := hlost halong
      exact ⟨z, hmem hz, hTz, hgone⟩

omit [LinearOrder β] in
/-- With no free place left the window holds the elements in `T`. -/
theorem Window.perm {xs ys ws : List β} (h : Window T xs ys ws)
    (hfull : ys.length = xs.countP fun x => decide ¬T x) :
    ws.Perm ((xs.filter fun x => decide (T x)) ++ ys) := by
  induction h with
  | nil => exact .nil
  | kept hx _ ih =>
    rw [List.countP_cons_of_neg (by simpa using hx)] at hfull
    rw [List.filter_cons_of_pos (by simpa using hx), List.cons_append]
    exact (ih hfull).cons _
  | filled hx hy _ ih =>
    rw [List.countP_cons_of_pos (by simpa using hx), List.length_cons] at hfull
    rw [List.filter_cons_of_neg (by simpa using hx)]
    exact ((ih (Nat.succ.inj hfull)).cons _).trans List.perm_middle.symm
  | free hx _ _ _ =>
    rw [List.countP_cons_of_pos (by simpa using hx)] at hfull
    exact absurd hfull.symm (Nat.succ_ne_zero _)

/-! ## The condition by positions -/

/-- The way is clear for `c` when each greater element in `T` is past a place that is free. -/
theorem clear_iff {c : β} {xs ys : List β} (hroom : ys.length < xs.countP fun x => decide ¬T x) :
    Clear T c xs ys ↔ (∀ y ∈ ys, ¬c < y) ∧
      ∀ p a, xs[p]? = some a → T a → c < a →
        ys.length < (xs.take p).countP fun x => decide ¬T x := by
  induction xs generalizing ys with
  | nil => exact absurd hroom (Nat.not_lt_zero _)
  | cons x xs ih =>
    by_cases hx : T x
    · rw [List.countP_cons_of_neg (by simpa using hx)] at hroom
      have hclear : Clear T c (x :: xs) ys ↔ ¬c < x ∧ Clear T c xs ys := by
        cases ys <;> rw [Clear, if_pos hx]
      rw [hclear, ih hroom]
      refine ⟨fun ⟨hlt, hys, h⟩ => ⟨hys, ?_⟩, fun ⟨hys, h⟩ => ⟨?_, hys, ?_⟩⟩
      · rintro (_ | p) a hp hTa hca
        · exact absurd (Option.some.inj hp ▸ hca) hlt
        · rw [List.take_succ_cons, List.countP_cons_of_neg (by simpa using hx)]
          exact h p a hp hTa hca
      · intro hlt
        exact absurd (h 0 x rfl hx hlt) (Nat.not_lt_zero _)
      · intro p a hp hTa hca
        have := h (p + 1) a hp hTa hca
        rwa [List.take_succ_cons, List.countP_cons_of_neg (by simpa using hx)] at this
    · rw [List.countP_cons_of_pos (by simpa using hx)] at hroom
      have htake (p : ℕ) : ((x :: xs).take (p + 1)).countP (fun x => decide ¬T x)
          = (xs.take p).countP (fun x => decide ¬T x) + 1 := by
        rw [List.take_succ_cons, List.countP_cons_of_pos (by simpa using hx)]
      cases ys with
      | nil =>
        rw [Clear, if_neg hx]
        refine iff_of_true trivial ⟨fun _ hy => absurd hy List.not_mem_nil, ?_⟩
        rintro (_ | p) a hp hTa -
        · exact absurd (Option.some.inj hp ▸ hTa) hx
        · rw [htake]
          exact Nat.succ_pos _
      | cons y ys =>
        rw [Clear, if_neg hx, ih (Nat.succ_lt_succ_iff.mp hroom), List.forall_mem_cons, and_assoc]
        refine and_congr_right fun _ => and_congr_right fun _ => ⟨?_, ?_⟩
        · intro h
          rintro (_ | p) a hp hTa hca
          · exact absurd (Option.some.inj hp ▸ hTa) hx
          · rw [htake]
            exact Nat.succ_lt_succ (h p a hp hTa hca)
        · intro h p a hp hTa hca
          have := h (p + 1) a hp hTa hca
          rw [htake] at this
          exact Nat.succ_lt_succ_iff.mp this

theorem clearAlong_iff {xs ys cs : List β} :
    ClearAlong T xs ys cs ↔ ∀ i c, cs[i]? = some c → T c →
      Clear T c xs (ys ++ (cs.take i).filter fun x => decide (T x)) := by
  induction cs generalizing ys with
  | nil => exact iff_of_true trivial fun i c hc => nomatch hc
  | cons d cs ih =>
    have hsplit : (∀ i c, (d :: cs)[i]? = some c → T c →
        Clear T c xs (ys ++ ((d :: cs).take i).filter fun x => decide (T x))) ↔
        (T d → Clear T d xs ys) ∧ ∀ i c, cs[i]? = some c → T c →
          Clear T c xs (ys ++ (d :: cs.take i).filter fun x => decide (T x)) := by
      refine ⟨fun h => ⟨?_, fun i c hc => h (i + 1) c hc⟩, ?_⟩
      · intro hd
        simpa using h 0 d rfl hd
      · intro h i c hc hTc
        cases i with
        | zero =>
          obtain rfl : d = c := Option.some.inj hc
          simpa using h.1 hTc
        | succ i => exact h.2 i c hc hTc
    rw [hsplit, ClearAlong]
    by_cases hd : T d
    · rw [if_pos hd, ih]
      have hfilter (i : ℕ) : (d :: cs.take i).filter (fun x => decide (T x))
          = [d] ++ (cs.take i).filter fun x => decide (T x) :=
        List.filter_cons_of_pos (decide_eq_true hd)
      simp only [hfilter, ← List.append_assoc]
      exact and_congr_left fun _ => ⟨fun h _ => h, fun h => h hd⟩
    · rw [if_neg hd, ih]
      have hfilter (i : ℕ) : (d :: cs.take i).filter (fun x => decide (T x))
          = (cs.take i).filter fun x => decide (T x) :=
        List.filter_cons_of_neg (by simpa using hd)
      simp only [hfilter]
      exact ⟨fun h => ⟨fun h' => absurd h' hd, h⟩, fun h => h.2⟩

end Window

/-- No top element takes the place of another one: when a top element `c`, past the window at
the start, is smaller than an earlier top element `a`, then `a` was in the window from the start
and there were more elements before it which are not top than top ones came before `c`. -/
def KeepsTop (limit : ℕ) (l : List β) : Prop :=
  ∀ p q a c, l[p]? = some a → l[q]? = some c → p < q → limit ≤ q →
    IsTop limit l a → IsTop limit l c → c < a →
    p < limit ∧ ((l.take q).drop limit).countP (fun x => decide (IsTop limit l x))
      < (l.take p).countP fun x => decide ¬IsTop limit l x

/-- The window has as many free places as there are top elements to come. -/
theorem countP_isTop_drop {l : List β} (hl : l.Nodup) {limit : ℕ} (hlimit : limit ≤ l.length) :
    (l.drop limit).countP (fun x => decide (IsTop limit l x))
      = (l.take limit).countP fun x => decide ¬IsTop limit l x := by
  have hsplit : l.take limit ++ l.drop limit = l := List.take_append_drop limit l
  have htotal := countP_isTop hl hlimit
  rw [← hsplit, List.countP_append, hsplit] at htotal
  have hwindow := List.length_eq_countP_add_countP
    (fun x => decide (IsTop limit l x)) (l := l.take limit)
  rw [List.length_take, Nat.min_eq_left hlimit] at hwindow
  simp only [decide_not, Bool.decide_eq_true] at hwindow ⊢
  omega

/-- The loop selects the smallest elements exactly when the way is clear for each top element that
comes. -/
theorem selectWindow_sorted_iff_clearAlong {l : List β} (hl : l.Nodup) {limit : ℕ}
    (hlimit : limit ≤ l.length) :
    (selectWindow limit l).insertionSort (· ≤ ·) = (l.insertionSort (· ≤ ·)).take limit ↔
      ClearAlong (IsTop limit l) (l.take limit) [] (l.drop limit) := by
  have hsplit : l.take limit ++ l.drop limit = l := List.take_append_drop limit l
  have htop := perm_filter_isTop hl limit
  have hcount : ([] : List β).length + (l.drop limit).countP (fun x => decide (IsTop limit l x))
      = (l.take limit).countP fun x => decide ¬IsTop limit l x :=
    (Nat.zero_add _).trans (countP_isTop_drop hl hlimit)
  obtain ⟨hkept, hlost⟩ := (window_self (l.take limit)).run
    (fun c w hc hw => hc.lt_of_not hw) (hsplit.symm ▸ hl) hcount
  constructor
  · intro heq
    by_contra hclear
    obtain ⟨z, hz, hTz, hgone⟩ := hlost hclear
    rw [hsplit] at hz
    apply hgone
    have hmem : z ∈ (l.insertionSort (· ≤ ·)).take limit :=
      htop.mem_iff.mpr (List.mem_filter.mpr ⟨hz, decide_eq_true hTz⟩)
    rw [← heq] at hmem
    exact (List.perm_insertionSort _ _).mem_iff.mp hmem
  · intro hclear
    have hperm := (hkept hclear).perm (by
      rw [List.nil_append, ← List.countP_eq_length_filter, ← hcount, List.length_nil, Nat.zero_add])
    rw [List.nil_append, ← List.filter_append, hsplit] at hperm
    refine List.Perm.eq_of_pairwise (fun a b _ _ => le_antisymm)
      (List.pairwise_insertionSort _ _) ?_ ?_
    · exact (List.pairwise_insertionSort (· ≤ ·) l).sublist (List.take_sublist limit _)
    · exact ((List.perm_insertionSort _ _).trans hperm).trans htop.symm

/-- A top element past the window finds a free place there. -/
theorem length_filter_isTop_lt {l : List β} (hl : l.Nodup) {limit i : ℕ}
    (hlimit : limit ≤ l.length) {c : β} (hi : (l.drop limit)[i]? = some c)
    (hc : IsTop limit l c) :
    (((l.drop limit).take i).filter fun x => decide (IsTop limit l x)).length
      < (l.take limit).countP fun x => decide ¬IsTop limit l x := by
  obtain ⟨hlt, hget⟩ := List.getElem?_eq_some_iff.mp hi
  have hdrop : (l.drop limit).drop i = c :: (l.drop limit).drop (i + 1) := by
    rw [List.drop_eq_getElem_cons hlt, hget]
  have hcount : (l.drop limit).countP (fun x => decide (IsTop limit l x))
      = ((l.drop limit).take i).countP (fun x => decide (IsTop limit l x))
        + ((l.drop limit).drop i).countP fun x => decide (IsTop limit l x) := by
    rw [← List.countP_append, List.take_append_drop]
  rw [hdrop, List.countP_cons_of_pos (by simpa using hc)] at hcount
  rw [← List.countP_eq_length_filter, ← countP_isTop_drop hl hlimit, hcount]
  omega

/-- **The loop selects the smallest elements exactly when no top element takes the place of
another one.** -/
theorem selectWindow_sorted_iff {l : List β} (hl : l.Nodup) {limit : ℕ} (hlimit : limit ≤ l.length) :
    (selectWindow limit l).insertionSort (· ≤ ·) = (l.insertionSort (· ≤ ·)).take limit ↔
      KeepsTop limit l := by
  have hclear {i : ℕ} {c : β} (hi : (l.drop limit)[i]? = some c) (hc : IsTop limit l c) :=
    clear_iff (c := c) (length_filter_isTop_lt hl hlimit hi hc)
  rw [selectWindow_sorted_iff_clearAlong hl hlimit, clearAlong_iff]
  simp only [List.nil_append]
  constructor
  · intro h p q a c hp hq hpq hlq ha hc hca
    have hi : (l.drop limit)[q - limit]? = some c := by
      rw [List.getElem?_drop, Nat.add_sub_cancel' hlq, hq]
    obtain ⟨hcame, hwindow⟩ := (hclear hi hc).mp (h _ c hi hc)
    have hp' : p < limit := by
      by_contra hge
      refine hcame a (List.mem_filter.mpr ⟨?_, decide_eq_true ha⟩) hca
      refine List.mem_of_getElem? (i := p - limit) ?_
      rw [List.getElem?_take_of_lt (by omega), List.getElem?_drop,
        Nat.add_sub_cancel' (not_lt.mp hge), hp]
    have hcount := hwindow p a (by rw [List.getElem?_take_of_lt hp', hp]) ha hca
    rw [List.take_take, Nat.min_eq_left hp'.le, ← List.countP_eq_length_filter] at hcount
    rw [List.drop_take]
    exact ⟨hp', hcount⟩
  · intro h i c hi hc
    have hq : l[limit + i]? = some c := by rwa [List.getElem?_drop] at hi
    refine (hclear hi hc).mpr ⟨?_, ?_⟩
    · intro y hy hcy
      obtain ⟨hy, hTy⟩ := List.mem_filter.mp hy
      obtain ⟨j, hj⟩ := List.mem_iff_getElem?.mp hy
      have hji : j < i := by
        obtain ⟨hlt, -⟩ := List.getElem?_eq_some_iff.mp hj
        exact lt_of_lt_of_le hlt (List.length_take_le _ _)
      rw [List.getElem?_take_of_lt hji, List.getElem?_drop] at hj
      have := (h (limit + j) (limit + i) y c hj hq (by omega) (by omega)
        (of_decide_eq_true hTy) hc hcy).1
      omega
    · intro p a hp ha hca
      have hp' : p < limit := by
        obtain ⟨hlt, -⟩ := List.getElem?_eq_some_iff.mp hp
        exact lt_of_lt_of_le hlt (List.length_take_le _ _)
      rw [List.getElem?_take_of_lt hp'] at hp
      have hcount := (h p (limit + i) a c hp hq (by omega) (by omega) ha hc hca).2
      rw [List.drop_take, Nat.add_sub_cancel_left] at hcount
      rwa [List.take_take, Nat.min_eq_left hp'.le, ← List.countP_eq_length_filter]

end PhpSpx
