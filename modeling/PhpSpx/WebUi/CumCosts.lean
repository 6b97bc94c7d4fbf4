import Mathlib.Algebra.Group.TransferInstance
import PhpSpx.Lib.Polyline
import PhpSpx.WebUi.MetricValuesList

/-!
# Cumulative costs

What `MetricValuesList.getCumCostStats` computes for a time range: the sums of the increases
and of the decreases of each metric along the samples, from the values at the begin of the range
to those at its end.

* `CumCostStats.merge_eq`, `CumCostStats.mergeMetricValues_eq` — merging is adding.
* `costsUntil` — the costs from the first sample up to a time.
* `Covers.getCumCostStats` — the costs of a range are the difference at its ends.
* `Covers.length_le_costsIn` — they are not zero when the range is longer than that.
-/

namespace PhpSpx.WebUi

open Lib

variable {metrics : EnabledMetrics}

/-! ## Adding costs -/

namespace CumCostStats

/-- The two sides of the costs. -/
def sides : CumCostStats metrics ≃ MetricValueSet metrics × MetricValueSet metrics where
  toFun stats := (stats.min, stats.max)
  invFun sides := ⟨sides.1, sides.2⟩

instance : AddCommGroup (CumCostStats metrics) := sides.addCommGroup

@[simp] theorem min_add (a b : CumCostStats metrics) : (a + b).min = a.min + b.min := rfl

@[simp] theorem max_add (a b : CumCostStats metrics) : (a + b).max = a.max + b.max := rfl

@[simp] theorem min_sub (a b : CumCostStats metrics) : (a - b).min = a.min - b.min := rfl

@[simp] theorem max_sub (a b : CumCostStats metrics) : (a - b).max = a.max - b.max := rfl

@[simp] theorem min_zero : (0 : CumCostStats metrics).min = 0 := rfl

@[simp] theorem max_zero : (0 : CumCostStats metrics).max = 0 := rfl

theorem new_eq_zero : (new : CumCostStats metrics) = 0 := rfl

/-- The decreases and the increases of values. -/
def ofChange (values : MetricValueSet metrics) : CumCostStats metrics where
  min m := Min.min 0 (values m)
  max m := Max.max 0 (values m)

@[simp] theorem ofChange_min (values : MetricValueSet metrics) (m : Key metrics) :
    (ofChange values).min m = Min.min 0 (values m) := rfl

@[simp] theorem ofChange_max (values : MetricValueSet metrics) (m : Key metrics) :
    (ofChange values).max m = Max.max 0 (values m) := rfl

/-- No decrease is positive and no increase negative. -/
def Signed (stats : CumCostStats metrics) : Prop := (∀ m, stats.min m ≤ 0) ∧ ∀ m, 0 ≤ stats.max m

theorem signed_zero : (0 : CumCostStats metrics).Signed := ⟨fun _ => le_rfl, fun _ => le_rfl⟩

theorem Signed.add {a b : CumCostStats metrics} (ha : a.Signed) (hb : b.Signed) :
    (a + b).Signed :=
  ⟨fun m => add_nonpos (ha.1 m) (hb.1 m), fun m => add_nonneg (ha.2 m) (hb.2 m)⟩

theorem addPos_eq (a b : MetricValueSet metrics) : a.addPos b = a + (ofChange b).max := by
  funext m
  rw [MetricValueSet.addPos, Pi.add_apply]
  split
  · rename_i hpos
    exact congrArg (a m + ·) (max_eq_right hpos.le).symm
  · rename_i hneg
    rw [ofChange_max, max_eq_left (not_lt.mp hneg), add_zero]

theorem addNeg_eq (a b : MetricValueSet metrics) : a.addNeg b = a + (ofChange b).min := by
  funext m
  rw [MetricValueSet.addNeg, Pi.add_apply]
  split
  · rename_i hneg
    exact congrArg (a m + ·) (min_eq_right hneg.le).symm
  · rename_i hpos
    rw [ofChange_min, min_eq_left (not_lt.mp hpos), add_zero]

theorem mergeMetricValues_eq (stats : CumCostStats metrics) (values : MetricValueSet metrics) :
    stats.mergeMetricValues values = stats + ofChange values := by
  rw [mergeMetricValues, addPos_eq, addNeg_eq]
  rfl

/-- **Merging is adding.** -/
theorem merge_eq (stats : CumCostStats metrics) {other : CumCostStats metrics}
    (h : other.Signed) : stats.merge other = stats + other := by
  rw [merge, addPos_eq, addNeg_eq]
  ext m
  · exact congrArg (stats.min m + ·) (min_eq_right (h.1 m))
  · exact congrArg (stats.max m + ·) (max_eq_right (h.2 m))

end CumCostStats

namespace MetricValuesList

/-! ## Costs along the samples -/

/-- The change from a sample to the next one. -/
def change (samples : List (MetricValueSet metrics)) (k : ℕ) : MetricValueSet metrics :=
  samples.getD (k + 1) 0 - samples.getD k 0

/-- The costs from the first sample up to a point between two samples. -/
def costsTo (samples : List (MetricValueSet metrics)) (k : ℕ) (d : ℚ) : CumCostStats metrics where
  min m := upTo (fun i => Min.min 0 (change samples i m)) k d
  max m := upTo (fun i => Max.max 0 (change samples i m)) k d

section Costs

variable {samples : List (MetricValueSet metrics)}

theorem valuesOn_succ_zero (samples : List (MetricValueSet metrics)) (k : ℕ) :
    valuesOn samples (k + 1) 0 = valuesOn samples k 1 := by
  funext m
  rw [valuesOn, valuesOn]
  ring

theorem valuesOn_zero (samples : List (MetricValueSet metrics)) (k : ℕ) :
    valuesOn samples k 0 = samples.getD k 0 := by
  funext m
  rw [valuesOn, zero_mul, add_zero]

theorem costsTo_succ_zero (samples : List (MetricValueSet metrics)) (k : ℕ) :
    costsTo samples (k + 1) 0 = costsTo samples k 1 := by
  rw [costsTo, costsTo]
  congr 1
  · funext m
    exact upTo_succ_zero _ k
  · funext m
    exact upTo_succ_zero _ k

/-- The costs between two points of one way from a sample to the next. -/
theorem ofChange_valuesOn {k : ℕ} {d e : ℚ} (h : d ≤ e) :
    CumCostStats.ofChange (valuesOn samples k e - valuesOn samples k d) =
      costsTo samples k e - costsTo samples k d := by
  have hpos : 0 ≤ e - d := sub_nonneg.mpr h
  have hchange : ∀ m, (valuesOn samples k e - valuesOn samples k d) m =
      (e - d) * change samples k m := by
    intro m
    rw [Pi.sub_apply, valuesOn, valuesOn, change, Pi.sub_apply]
    ring
  ext m
  · rw [CumCostStats.min_sub, Pi.sub_apply, costsTo, costsTo, upTo_sub_upTo,
      CumCostStats.ofChange_min, hchange, mul_min_of_nonneg _ _ hpos, mul_zero]
  · rw [CumCostStats.max_sub, Pi.sub_apply, costsTo, costsTo, upTo_sub_upTo,
      CumCostStats.ofChange_max, hchange, mul_max_of_nonneg _ _ hpos, mul_zero]

/-- From a point to a later one no cost has the wrong sign. -/
theorem signed_costsTo {k l : ℕ} {d e : ℚ} (hd : d ≤ 1) (he : 0 ≤ e) (h : Before k d l e) :
    (costsTo samples l e - costsTo samples k d).Signed := by
  constructor
  · intro m
    have hneg := upTo_mono (g := fun i => -Min.min 0 (change samples i m))
      (fun i => neg_nonneg.mpr (min_le_left _ _)) hd he h
    rw [upTo_neg, upTo_neg, neg_le_neg_iff] at hneg
    exact sub_nonpos.mpr hneg
  · intro m
    exact sub_nonneg.mpr (upTo_mono (fun i => le_max_left _ _) hd he h)

/-- The increases are at least the difference of the values. -/
theorem valuesOn_sub_le_costsTo (samples : List (MetricValueSet metrics)) {k l : ℕ} {d e : ℚ}
    (hd : d ≤ 1) (he : 0 ≤ e) (h : Before k d l e) (m : Key metrics) :
    valuesOn samples l e m - valuesOn samples k d m ≤
      (costsTo samples l e - costsTo samples k d).max m := by
  have hmono := upTo_mono (g := fun i => Max.max 0 (change samples i m) - change samples i m)
    (fun i => sub_nonneg.mpr (le_max_right _ _)) hd he h
  rw [upTo_sub, upTo_sub] at hmono
  have htelescope : ∀ i x, upTo (fun i => change samples i m) i x =
      valuesOn samples i x m - samples.getD 0 0 m :=
    fun i x => upTo_telescope (fun i => samples.getD i 0 m) i x
  rw [htelescope, htelescope] at hmono
  rw [CumCostStats.max_sub, Pi.sub_apply, costsTo, costsTo]
  linarith

/-! ## The loop of `getCumCostStats` -/

variable {list : MetricValuesList metrics}

theorem mergeSample_eq (h : list.Holds samples) {i : ℕ} (hi : i < samples.length)
    (state : CumCostStats metrics × MetricValueSet metrics) :
    list.mergeSample state i =
      some (state.1 + .ofChange (samples.getD i 0 - state.2), samples.getD i 0) := by
  rw [mergeSample, h.getElement i hi, Option.map_some, CumCostStats.mergeMetricValues_eq,
    List.getD_eq_getElem _ _ hi]
  rfl

/-- **The loop and the merge after it**, from a point to a later one. -/
theorem foldlM_mergeSample (h : list.Holds samples) {k n : ℕ} (hn : k + n < samples.length)
    {d e : ℚ} (hd : d ≤ 1) (he : 0 ≤ e) (hbefore : Before k d (k + n) e)
    (cumCost : CumCostStats metrics) :
    ∃ state, (List.range' (k + 1) n).foldlM list.mergeSample (cumCost, valuesOn samples k d) =
        some state ∧
      state.1.mergeMetricValues ((valuesOn samples (k + n) e).sub state.2) =
        cumCost + (costsTo samples (k + n) e - costsTo samples k d) := by
  induction n generalizing k d cumCost with
  | zero =>
    have hle : d ≤ e := by
      rcases hbefore with hlt | ⟨-, hle⟩
      · exact absurd hlt (lt_irrefl _)
      · exact hle
    refine ⟨_, rfl, ?_⟩
    rw [CumCostStats.mergeMetricValues_eq]
    exact congrArg (cumCost + ·) (ofChange_valuesOn hle)
  | succ n ih =>
    have hnext : Before (k + 1) 0 (k + 1 + n) e := by
      rcases Nat.eq_zero_or_pos n with rfl | hpos
      · exact .inr ⟨rfl, he⟩
      · exact .inl (by omega)
    have hindex : k + (n + 1) = k + 1 + n := by omega
    rw [hindex] at hn ⊢
    obtain ⟨state, hstate, hmerge⟩ := ih hn zero_le_one hnext
      (cumCost + .ofChange (samples.getD (k + 1) 0 - valuesOn samples k d))
    refine ⟨state, ?_, ?_⟩
    · rw [valuesOn_zero] at hstate
      rw [List.range'_succ, List.foldlM_cons, mergeSample_eq h (by omega)]
      exact hstate
    · rw [hmerge, ← valuesOn_zero, valuesOn_succ_zero, ofChange_valuesOn hd, costsTo_succ_zero]
      abel

end Costs

/-! ## The costs of a range -/

/-- The array has samples, in the order of their times, from the begin of a range or before to
its end or behind. -/
structure Covers (wt : Key metrics) (list : MetricValuesList metrics)
    (samples : List (MetricValueSet metrics)) (range : Range) : Prop where
  holds : list.Holds samples
  ne : samples ≠ []
  sorted : samples.Pairwise fun a b => a wt ≤ b wt
  first : samples.head ne wt ≤ range.begin
  last : range.last ≤ samples.getLast ne wt

section Covers

variable {wt : Key metrics} {list : MetricValuesList metrics}
  {samples : List (MetricValueSet metrics)} {range : Range} {time time' : ℚ}

theorem Covers.mono {range' : Range} (h : list.Covers wt samples range)
    (hcontains : range.Contains range') : list.Covers wt samples range' :=
  { h with
    first := h.first.trans hcontains.1
    last := hcontains.2.trans h.last }

theorem covers_ofTimes {times : List ℚ} (hne : times ≠ [])
    (hsorted : times.Pairwise fun t t' => t ≤ t') (hfirst : times.head hne ≤ range.begin)
    (hlast : range.last ≤ times.getLast hne) :
    (ofTimes times).Covers wallTimeKey (times.map fun t _ => t) range where
  holds := holds_ofSamples _
  ne := List.map_eq_nil_iff.not.mpr hne
  sorted := List.pairwise_map.mpr hsorted
  first := by rwa [List.head_map]
  last := by rwa [List.getLast_map]

theorem Covers.exists_nearest (h : list.Covers wt samples range) (ht : range.ContainsValue time) :
    ∃ k, list.findNearestIdx wt time = some k ∧ Nearest wt samples time k :=
  findNearestIdx_spec h.holds h.ne (h.first.trans ht.1) (ht.2.trans h.last)

theorem fractionAt_nonneg {k : ℕ} (h : Nearest wt samples time k) :
    0 ≤ fractionAt wt samples time k := by
  obtain ⟨hlt, hcases⟩ := h
  rw [fractionAt]
  rcases hcases with heq | ⟨hbefore, hlt', hafter⟩
  · rw [if_pos ((congrFun (List.getD_eq_getElem _ _ hlt) wt).trans heq)]
  · rw [List.getD_eq_getElem _ _ hlt, List.getD_eq_getElem _ _ hlt', if_neg hbefore.ne]
    exact div_nonneg (sub_nonneg.mpr hbefore.le) (sub_nonneg.mpr (hbefore.trans hafter).le)

theorem fractionAt_le_one {k : ℕ} (h : Nearest wt samples time k) :
    fractionAt wt samples time k ≤ 1 := by
  obtain ⟨hlt, hcases⟩ := h
  rw [fractionAt]
  rcases hcases with heq | ⟨hbefore, hlt', hafter⟩
  · rw [if_pos ((congrFun (List.getD_eq_getElem _ _ hlt) wt).trans heq)]
    exact zero_le_one
  · rw [List.getD_eq_getElem _ _ hlt, List.getD_eq_getElem _ _ hlt', if_neg hbefore.ne,
      div_le_one (sub_pos.mpr (hbefore.trans hafter))]
    exact sub_le_sub_right hafter.le _

/-- A later time is at a later point. -/
theorem before_of_lt (hsorted : samples.Pairwise fun a b => a wt ≤ b wt) {k l : ℕ}
    (hk : Nearest wt samples time k) (hl : Nearest wt samples time' l) (hlt : time < time') :
    Before k (fractionAt wt samples time k) l (fractionAt wt samples time' l) := by
  have hmono : ∀ i j, i ≤ j → ∀ hj : j < samples.length, ∀ hi : i < samples.length,
      samples[i] wt ≤ samples[j] wt := by
    intro i j hij hj hi
    rcases Nat.eq_or_lt_of_le hij with rfl | hij
    · exact le_rfl
    · exact List.pairwise_iff_getElem.mp hsorted i j hi hj hij
  have hnonneg := fractionAt_nonneg hl
  obtain ⟨hkLt, hkCases⟩ := hk
  obtain ⟨hlLt, hlCases⟩ := hl
  have hkTime : samples[k] wt ≤ time := by
    rcases hkCases with heq | ⟨hbefore, -⟩
    · exact heq.le
    · exact hbefore.le
  rcases Nat.lt_trichotomy k l with hkl | rfl | hlk
  · exact .inl hkl
  · refine .inr ⟨rfl, ?_⟩
    rcases hkCases with heq | ⟨hbefore, hlt', hafter⟩
    · rwa [fractionAt, if_pos ((congrFun (List.getD_eq_getElem _ _ hkLt) wt).trans heq)]
    · have hne : samples[k] wt ≠ time' := (hbefore.trans hlt).ne
      have hpos : 0 < samples[k + 1] wt - samples[k] wt := sub_pos.mpr (hbefore.trans hafter)
      rw [fractionAt, fractionAt, List.getD_eq_getElem _ _ hkLt, List.getD_eq_getElem _ _ hlt',
        if_neg hbefore.ne, if_neg hne]
      exact div_le_div_of_nonneg_right (sub_le_sub_right hlt.le _) hpos.le
  · -- the sample nearest to the later time is not before the one nearest to the earlier
    exfalso
    rcases hlCases with heq | ⟨-, hlt', hafter⟩
    · have hle := hmono l k hlk.le hkLt hlLt
      linarith
    · have hle := hmono (l + 1) k hlk hkLt hlt'
      linarith

/-- The index that `_findNearestIdx` gives. -/
def nearestIdx (wt : Key metrics) (list : MetricValuesList metrics) (time : ℚ) : ℕ :=
  (list.findNearestIdx wt time).getD 0

/-- The costs from the first sample up to a time. -/
def costsUntil (wt : Key metrics) (list : MetricValuesList metrics)
    (samples : List (MetricValueSet metrics)) (time : ℚ) : CumCostStats metrics :=
  costsTo samples (list.nearestIdx wt time)
    (fractionAt wt samples time (list.nearestIdx wt time))

/-- The costs of a range. -/
def costsIn (wt : Key metrics) (list : MetricValuesList metrics)
    (samples : List (MetricValueSet metrics)) (range : Range) : CumCostStats metrics :=
  list.costsUntil wt samples range.last - list.costsUntil wt samples range.begin

theorem Covers.nearest (h : list.Covers wt samples range) (ht : range.ContainsValue time) :
    list.findNearestIdx wt time = some (list.nearestIdx wt time) ∧
      Nearest wt samples time (list.nearestIdx wt time) := by
  obtain ⟨k, hk, hnearest⟩ := h.exists_nearest ht
  rw [nearestIdx, hk]
  exact ⟨rfl, hnearest⟩

/-- The values at a time. -/
theorem Covers.getMetricValues (h : list.Covers wt samples range) (ht : range.ContainsValue time) :
    list.getMetricValues wt time =
      some (valuesAt wt samples time (list.nearestIdx wt time)) :=
  getMetricValues_eq h.holds (h.nearest ht).2 (h.nearest ht).1

theorem Covers.before (h : list.Covers wt samples range) (ht : range.ContainsValue time)
    (ht' : range.ContainsValue time') (hle : time ≤ time') :
    Before (list.nearestIdx wt time) (fractionAt wt samples time (list.nearestIdx wt time))
      (list.nearestIdx wt time') (fractionAt wt samples time' (list.nearestIdx wt time')) := by
  rcases eq_or_lt_of_le hle with rfl | hlt
  · exact .inr ⟨rfl, le_rfl⟩
  · exact before_of_lt h.sorted (h.nearest ht).2 (h.nearest ht').2 hlt

theorem Covers.signed (h : list.Covers wt samples range) :
    (list.costsIn wt samples range).Signed := by
  have hbegin : range.ContainsValue range.begin := ⟨le_rfl, range.ordered⟩
  have hlast : range.ContainsValue range.last := ⟨range.ordered, le_rfl⟩
  exact signed_costsTo (fractionAt_le_one (h.nearest hbegin).2)
    (fractionAt_nonneg (h.nearest hlast).2) (h.before hbegin hlast range.ordered)

/-- The increases of the time are at least the time that passes. -/
theorem Covers.length_le_costsIn (h : list.Covers wt samples range) :
    range.length ≤ (list.costsIn wt samples range).max wt := by
  have hbegin : range.ContainsValue range.begin := ⟨le_rfl, range.ordered⟩
  have hlast : range.ContainsValue range.last := ⟨range.ordered, le_rfl⟩
  have hsub := valuesOn_sub_le_costsTo samples (fractionAt_le_one (h.nearest hbegin).2)
    (fractionAt_nonneg (h.nearest hlast).2) (h.before hbegin hlast range.ordered) wt
  have hwt := valuesAt_wt (h.nearest hbegin).2
  have hwt' := valuesAt_wt (h.nearest hlast).2
  rw [valuesAt] at hwt hwt'
  rwa [hwt, hwt'] at hsub

/-- The costs of a range that is cut. -/
theorem costsIn_add {first second whole : Range} (hbegin : whole.begin = first.begin)
    (hcut : first.last = second.begin) (hlast : whole.last = second.last) :
    list.costsIn wt samples first + list.costsIn wt samples second =
      list.costsIn wt samples whole := by
  rw [costsIn, costsIn, costsIn, hbegin, hcut, hlast, add_comm, sub_add_sub_cancel]

theorem Covers.lastIdx (h : list.Covers wt samples range) :
    list.lastIdx wt range = some (list.nearestIdx wt range.last) := by
  obtain ⟨hk, hlt, hcases⟩ := h.nearest ⟨range.ordered, le_rfl⟩
  have hle : ¬samples[list.nearestIdx wt range.last] wt > range.last := by
    rcases hcases with heq | ⟨hbefore, -⟩
    · exact not_lt.mpr heq.le
    · exact not_lt.mpr hbefore.le
  rw [MetricValuesList.lastIdx, hk, Option.bind_some]
  split
  · rw [h.holds.getElement _ hlt, Option.map_some, if_neg hle]
  · rfl

theorem Covers.firstIdx (h : list.Covers wt samples range) :
    list.firstIdx wt range =
      some (if samples.getD (list.nearestIdx wt range.begin) 0 wt = range.begin then
        list.nearestIdx wt range.begin else list.nearestIdx wt range.begin + 1) := by
  obtain ⟨hk, hlt, hcases⟩ := h.nearest ⟨le_rfl, range.ordered⟩
  rw [MetricValuesList.firstIdx, hk, Option.bind_some, h.holds.size, List.getD_eq_getElem _ _ hlt]
  rcases hcases with heq | ⟨hbefore, hlt', -⟩
  · rw [if_pos heq]
    split
    · rw [h.holds.getElement _ hlt, Option.map_some, if_neg (not_lt.mpr heq.ge)]
    · rfl
  · rw [if_neg hbefore.ne, if_pos hlt', h.holds.getElement _ hlt, Option.map_some, if_pos hbefore]

/-- **The costs of a range** are the difference of the costs until its ends. -/
theorem Covers.getCumCostStats (h : list.Covers wt samples range) :
    list.getCumCostStats wt range = some (list.costsIn wt samples range) := by
  have hbegin : range.ContainsValue range.begin := ⟨le_rfl, range.ordered⟩
  have hlast : range.ContainsValue range.last := ⟨range.ordered, le_rfl⟩
  rw [MetricValuesList.getCumCostStats, costsIn]
  by_cases hlen : range.length = 0
  · rw [if_pos hlen, CumCostStats.new_eq_zero, sub_eq_zero.mp hlen, sub_self]
  · obtain ⟨-, hkLt, hkCases⟩ := h.nearest hbegin
    obtain ⟨-, hlLt, -⟩ := h.nearest hlast
    have hbefore := h.before hbegin hlast range.ordered
    have hd := fractionAt_le_one (h.nearest hbegin).2
    have he := fractionAt_nonneg (h.nearest hlast).2
    rw [if_neg hlen, h.firstIdx, h.lastIdx, h.getMetricValues hbegin, h.getMetricValues hlast]
    rw [costsUntil, costsUntil, valuesAt, valuesAt]
    have hkl : list.nearestIdx wt range.begin ≤ list.nearestIdx wt range.last :=
      hbefore.elim le_of_lt fun h => h.1.le
    obtain ⟨n, hn⟩ := Nat.exists_eq_add_of_le hkl
    generalize hdEq : fractionAt wt samples range.begin (list.nearestIdx wt range.begin) = d at *
    generalize fractionAt wt samples range.last (list.nearestIdx wt range.last) = e at *
    generalize list.nearestIdx wt range.begin = k at *
    generalize list.nearestIdx wt range.last = l at *
    subst hn
    obtain ⟨state, hstate, hmerge⟩ := foldlM_mergeSample h.holds hlLt hd he hbefore .new
    rw [CumCostStats.new_eq_zero, zero_add] at hmerge
    rcases hkCases with heq | ⟨hbefore, -⟩
    · -- the first sample of the range is at its begin and changes nothing
      rw [← List.getD_eq_getElem _ 0 hkLt] at heq
      have hzero : d = 0 := by rw [← hdEq, fractionAt, if_pos heq]
      have hstart : list.mergeSample (.new, valuesOn samples k d) k =
          some (.new, valuesOn samples k d) := by
        rw [mergeSample_eq h.holds hkLt, hzero, valuesOn_zero, sub_self]
        exact congrArg some (Prod.ext (by ext m <;> simp) rfl)
      have hlen : k + n + 1 - k = n + 1 := by omega
      simp only [if_pos heq, Option.bind_eq_bind, Option.bind_some, hlen, List.range'_succ,
        List.foldlM_cons, hstart, hstate, hmerge]
    · rw [← List.getD_eq_getElem _ 0 hkLt] at hbefore
      have hlen : k + n + 1 - (k + 1) = n := by omega
      simp only [if_neg hbefore.ne, Option.bind_eq_bind, Option.bind_some, hlen, hstate, hmerge]

end Covers

end MetricValuesList

end PhpSpx.WebUi
