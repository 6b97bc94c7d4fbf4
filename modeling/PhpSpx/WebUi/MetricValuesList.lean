import PhpSpx.WebUi.ProfileData
import PhpSpx.WebUi.Range

/-!
# The samples of the metrics

`MetricValuesList` of `profileData.js`: one sample for each event of a report, looked up by
time and interpolated in between.

* `MetricValuesList.getMetricValues`, `MetricValuesList.getCumCostStats` — the two lookups;
  none when they throw or do not end.
* `Nearest` — what `_findNearestIdx` answers.
* `interpolated_lookup_in_bounds` — a lookup reads existing samples only, and interpolates
  between the right ones.
-/

namespace PhpSpx.WebUi

/-! ## Reading records -/

/-- A key of the objects with one number for each enabled metric. -/
abbrev Key (metrics : EnabledMetrics) := {m // m ∈ metrics.list}

/-- An array of records as it is read: its size and its elements, none when the read throws. -/
structure RecordReader (ρ : Type) where
  size : ℕ
  getElement : ℤ → Option ρ

/-- The `chunkSize` of the arrays of `profileData.js`. -/
def recordChunkSize : ℕ := 1024 * 1024

/-- `utils.ChunkedRecordArray` when it is read.  Behind the last element the last chunk still
has its zeros. -/
def ChunkedRecordArray.reader {ρ : Type} (array : ChunkedRecordArray ρ) : RecordReader ρ where
  size := array.size
  getElement idx :=
    if 0 ≤ idx ∧ idx.toNat < ⌈(array.size : ℚ) / recordChunkSize⌉₊ * recordChunkSize then
      some (array.element idx.toNat)
    else none

/-- `MetricValuesList`, as it is read. -/
abbrev MetricValuesList (metrics : EnabledMetrics) := RecordReader (MetricValueSet metrics)

variable {metrics : EnabledMetrics}

/-- The array of some samples. -/
def MetricValuesList.ofSamples (samples : List (MetricValueSet metrics)) :
    MetricValuesList metrics :=
  ChunkedRecordArray.reader ⟨samples.length, fun idx => samples.getD idx 0⟩

/-- The wall time alone. -/
def wallTimeMetrics : EnabledMetrics := ⟨[.wallTime], by decide⟩

/-- `'wt'`. -/
def wallTimeKey : Key wallTimeMetrics := ⟨.wallTime, by decide⟩

/-- The array of samples at some times. -/
def MetricValuesList.ofTimes (times : List ℚ) : MetricValuesList wallTimeMetrics :=
  .ofSamples (times.map fun t _ => t)

/-! ## Lookups

`wt` is the key `'wt'`, which every report has. -/

/-- `MetricValueSet.lerpByTime`. -/
def MetricValueSet.lerpByTime (wt : Key metrics) (a b : MetricValueSet metrics) (time : ℚ) :
    MetricValueSet metrics :=
  if a wt = b wt then a
  else
    let dist := (time - a wt) / (b wt - a wt)
    fun m => lerp (a m) (b m) dist

namespace MetricValuesList

/-- `MetricValuesList._findNearestIdx` for the indexes from `lo` up to `hi`, cut after `fuel`
calls. -/
def findNearestIdxIn (wt : Key metrics) (list : MetricValuesList metrics) (time : ℚ) :
    ℕ → ℕ → ℕ → Option ℕ
  | 0, _, _ => none
  | fuel + 1, lo, hi =>
    if hi - lo = 1 then some lo
    else
      let center := (lo + hi) / 2
      (list.getElement center).bind fun element =>
        if time < element wt then findNearestIdxIn wt list time fuel lo center
        else if element wt < time then findNearestIdxIn wt list time fuel center hi
        else some center

/-- `MetricValuesList._findNearestIdx` for all indexes. -/
def findNearestIdx (wt : Key metrics) (list : MetricValuesList metrics) (time : ℚ) : Option ℕ :=
  list.findNearestIdxIn wt time list.size 0 list.size

/-- `MetricValuesList.getMetricValues`. -/
def getMetricValues (wt : Key metrics) (list : MetricValuesList metrics) (time : ℚ) :
    Option (MetricValueSet metrics) :=
  (list.findNearestIdx wt time).bind fun nearestIdx =>
    (list.getElement nearestIdx).bind fun nearest =>
      if nearest wt = time then some nearest
      else if nearest wt < time then
        (list.getElement (nearestIdx + 1)).map fun upper => nearest.lerpByTime wt upper time
      else (list.getElement (nearestIdx - 1)).map fun lower => lower.lerpByTime wt nearest time

end MetricValuesList

/-- `CumCostStats`. -/
@[ext] structure CumCostStats (metrics : EnabledMetrics) where
  min : MetricValueSet metrics
  max : MetricValueSet metrics

/-- `MetricValueSet.addPos`. -/
def MetricValueSet.addPos (a b : MetricValueSet metrics) : MetricValueSet metrics :=
  fun m => if b m > 0 then a m + b m else a m

/-- `MetricValueSet.addNeg`. -/
def MetricValueSet.addNeg (a b : MetricValueSet metrics) : MetricValueSet metrics :=
  fun m => if b m < 0 then a m + b m else a m

namespace CumCostStats

/-- The constructor of `CumCostStats`. -/
def new : CumCostStats metrics where
  min := .createFromMetricsAndValue 0
  max := .createFromMetricsAndValue 0

/-- `CumCostStats.merge`. -/
def merge (stats other : CumCostStats metrics) : CumCostStats metrics where
  min := stats.min.addNeg other.min
  max := stats.max.addPos other.max

/-- `CumCostStats.mergeMetricValues`. -/
def mergeMetricValues (stats : CumCostStats metrics) (values : MetricValueSet metrics) :
    CumCostStats metrics where
  min := stats.min.addNeg values
  max := stats.max.addPos values

end CumCostStats

namespace MetricValuesList

/-- The body of the loop of `getCumCostStats`, on `cumCost` and `previous`. -/
def mergeSample (list : MetricValuesList metrics)
    (state : CumCostStats metrics × MetricValueSet metrics) (i : ℕ) :
    Option (CumCostStats metrics × MetricValueSet metrics) :=
  (list.getElement i).map fun current =>
    (state.1.mergeMetricValues (current.sub state.2), current)

/-- `firstIdx` of `getCumCostStats`. -/
def firstIdx (wt : Key metrics) (list : MetricValuesList metrics) (range : Range) : Option ℕ :=
  (list.findNearestIdx wt range.begin).bind fun idx =>
    if idx + 1 < list.size then
      (list.getElement idx).map fun element => if element wt < range.begin then idx + 1 else idx
    else some idx

/-- `lastIdx` of `getCumCostStats`. -/
def lastIdx (wt : Key metrics) (list : MetricValuesList metrics) (range : Range) : Option ℕ :=
  (list.findNearestIdx wt range.last).bind fun idx =>
    if 0 < idx then
      (list.getElement idx).map fun element => if element wt > range.last then idx - 1 else idx
    else some idx

/-- `MetricValuesList.getCumCostStats`. -/
def getCumCostStats (wt : Key metrics) (list : MetricValuesList metrics) (range : Range) :
    Option (CumCostStats metrics) :=
  if range.length = 0 then some .new
  else do
    let firstIdx ← list.firstIdx wt range
    let lastIdx ← list.lastIdx wt range
    let first ← list.getMetricValues wt range.begin
    let last ← list.getMetricValues wt range.last
    let state ← (List.range' firstIdx (lastIdx + 1 - firstIdx)).foldlM list.mergeSample (.new, first)
    some (state.1.mergeMetricValues (last.sub state.2))

/-! ## The nearest sample -/

/-- The array has these samples; nothing is said of what else a read of it finds. -/
structure Holds (list : MetricValuesList metrics) (samples : List (MetricValueSet metrics)) :
    Prop where
  size : list.size = samples.length
  getElement : ∀ (i : ℕ) (h : i < samples.length), list.getElement i = some samples[i]

theorem holds_ofSamples (samples : List (MetricValueSet metrics)) :
    Holds (ofSamples samples) samples where
  size := rfl
  getElement i h := by
    have hchunk : (recordChunkSize : ℚ) ≠ 0 := by
      rw [Nat.cast_ne_zero]
      decide
    have hbound : i < ⌈(samples.length : ℚ) / recordChunkSize⌉₊ * recordChunkSize := by
      apply h.trans_le
      rw [← Nat.cast_le (α := ℚ), Nat.cast_mul, ← div_le_iff₀ (by positivity)]
      exact Nat.le_ceil _
    rw [ofSamples, ChunkedRecordArray.reader]
    simp only [Int.toNat_natCast, Nat.cast_nonneg, hbound, and_self, if_true]
    rw [List.getD_eq_getElem _ _ h]

/-- Sample `k` is at the time, or it is before and the next one after the time. -/
def Nearest (wt : Key metrics) (samples : List (MetricValueSet metrics)) (time : ℚ) (k : ℕ) :
    Prop :=
  ∃ h : k < samples.length, samples[k] wt = time ∨
    samples[k] wt < time ∧ ∃ h' : k + 1 < samples.length, time < samples[k + 1] wt

section Nearest

variable {wt : Key metrics} {list : MetricValuesList metrics}
  {samples : List (MetricValueSet metrics)} {time : ℚ}

/-- The search among the samples from `lo` up to `hi`. -/
theorem findNearestIdxIn_spec (h : list.Holds samples) {fuel lo hi : ℕ} (hlo : lo < hi)
    (hhi : hi ≤ samples.length) (hfuel : hi - lo ≤ fuel)
    (hbefore : samples[lo] wt ≤ time)
    (hafter : ∀ k, k + 1 = samples.length → ∀ hk : k < samples.length, time ≤ samples[k] wt)
    (hnext : ∀ hn : hi < samples.length, time < samples[hi] wt) :
    ∃ k, list.findNearestIdxIn wt time fuel lo hi = some k ∧ Nearest wt samples time k := by
  induction fuel generalizing lo hi with
  | zero => omega
  | succ fuel ih =>
    rw [findNearestIdxIn]
    by_cases hone : hi - lo = 1
    · rw [if_pos hone]
      obtain rfl : hi = lo + 1 := by omega
      refine ⟨lo, rfl, by omega, ?_⟩
      rcases eq_or_lt_of_le hbefore with heq | hlt
      · exact .inl heq
      · have hlast : lo + 1 < samples.length := by
          by_contra hend
          exact absurd (hafter lo (by omega) (by omega)) (not_le.mpr hlt)
        exact .inr ⟨hlt, hlast, hnext hlast⟩
    · rw [if_neg hone]
      have hcenter : lo < (lo + hi) / 2 ∧ (lo + hi) / 2 < hi := by omega
      generalize (lo + hi) / 2 = center at hcenter
      have hread := h.getElement center (by omega)
      simp only [hread, Option.bind_some]
      split
      · rename_i hlt
        exact ih hcenter.1 (by omega) (by omega) hbefore fun _ => hlt
      · rename_i hge
        split
        · rename_i hgt
          exact ih hcenter.2 hhi (by omega) hgt.le hnext
        · rename_i hle
          exact ⟨center, rfl, by omega, .inl (le_antisymm (not_lt.mp hge) (not_lt.mp hle))⟩

/-- **The search ends** at a sample nearest to a time between the first and the last. -/
theorem findNearestIdx_spec (h : list.Holds samples) (hne : samples ≠ [])
    (hfirst : samples.head hne wt ≤ time) (hlast : time ≤ samples.getLast hne wt) :
    ∃ k, list.findNearestIdx wt time = some k ∧ Nearest wt samples time k := by
  have hpos : 0 < samples.length := List.length_pos_iff.mpr hne
  rw [findNearestIdx, h.size]
  apply findNearestIdxIn_spec h hpos le_rfl (by omega)
  · rwa [List.head_eq_getElem] at hfirst
  · intro k hk hlt
    rw [List.getLast_eq_getElem] at hlast
    have heq : k = samples.length - 1 := by omega
    subst heq
    exact hlast
  · exact fun hn => absurd hn (lt_irrefl _)

/-- How far a time is on the way from the sample nearest to it to the next one. -/
def fractionAt (wt : Key metrics) (samples : List (MetricValueSet metrics)) (time : ℚ) (k : ℕ) :
    ℚ :=
  if samples.getD k 0 wt = time then 0
  else (time - samples.getD k 0 wt) / (samples.getD (k + 1) 0 wt - samples.getD k 0 wt)

/-- The values on the way from a sample to the next one. -/
def valuesOn (samples : List (MetricValueSet metrics)) (k : ℕ) (d : ℚ) : MetricValueSet metrics :=
  fun m => samples.getD k 0 m + d * (samples.getD (k + 1) 0 m - samples.getD k 0 m)

/-- The values at a time, by the sample nearest to it. -/
def valuesAt (wt : Key metrics) (samples : List (MetricValueSet metrics)) (time : ℚ) (k : ℕ) :
    MetricValueSet metrics :=
  valuesOn samples k (fractionAt wt samples time k)

theorem getMetricValues_eq (h : list.Holds samples) {k : ℕ} (hnearest : Nearest wt samples time k)
    (hk : list.findNearestIdx wt time = some k) :
    list.getMetricValues wt time = some (valuesAt wt samples time k) := by
  obtain ⟨hlt, hcases⟩ := hnearest
  have hread := h.getElement k hlt
  have hgetD : samples.getD k 0 = samples[k] := List.getD_eq_getElem _ _ hlt
  simp only [getMetricValues, hk, hread, Option.bind_some]
  rcases hcases with heq | ⟨hbefore, hlt', hafter⟩
  · rw [if_pos heq]
    congr
    funext m
    rw [valuesAt, valuesOn, fractionAt, hgetD, if_pos heq, zero_mul, add_zero]
  · have hgetD' : samples.getD (k + 1) 0 = samples[k + 1] := List.getD_eq_getElem _ _ hlt'
    have hread' : list.getElement ((k : ℤ) + 1) = some samples[k + 1] := h.getElement (k + 1) hlt'
    rw [if_neg hbefore.ne, if_pos hbefore, hread', Option.map_some]
    congr
    funext m
    have hne : samples[k] wt ≠ samples[k + 1] wt := (hbefore.trans hafter).ne
    have hpos : 0 < samples[k + 1] wt - samples[k] wt := sub_pos.mpr (hbefore.trans hafter)
    rw [MetricValueSet.lerpByTime, if_neg hne, valuesAt, valuesOn, fractionAt, hgetD, hgetD',
      if_neg hbefore.ne]
    apply lerp_eq
    · exact div_nonneg (sub_nonneg.mpr hbefore.le) hpos.le
    · rw [div_le_one hpos]
      linarith

/-- The time of the values at a time. -/
theorem valuesAt_wt {k : ℕ} (hnearest : Nearest wt samples time k) :
    valuesAt wt samples time k wt = time := by
  obtain ⟨hlt, hcases⟩ := hnearest
  have hgetD : samples.getD k 0 = samples[k] := List.getD_eq_getElem _ _ hlt
  rcases hcases with heq | ⟨hbefore, hlt', hafter⟩
  · rw [valuesAt, valuesOn, fractionAt, hgetD, if_pos heq, zero_mul, add_zero, heq]
  · have hgetD' : samples.getD (k + 1) 0 = samples[k + 1] := List.getD_eq_getElem _ _ hlt'
    have hne : samples[k + 1] wt - samples[k] wt ≠ 0 :=
      (sub_pos.mpr (hbefore.trans hafter)).ne'
    rw [valuesAt, valuesOn, fractionAt, hgetD, hgetD', if_neg hbefore.ne, div_mul_cancel₀ _ hne,
      add_sub_cancel]

end Nearest

/-- **An interpolated lookup** of a time between the first and the last sample ends, whatever a
read of other than the existing samples finds.  It gives a sample at the time, or interpolates
between the two samples around it; either way the time it gives is the one looked up. -/
theorem interpolated_lookup_in_bounds (wt : Key metrics) {list : MetricValuesList metrics}
    {samples : List (MetricValueSet metrics)} (h : list.Holds samples) (hne : samples ≠ [])
    {time : ℚ} (hfirst : samples.head hne wt ≤ time) (hlast : time ≤ samples.getLast hne wt) :
    ∃ idx values, list.findNearestIdx wt time = some idx ∧ idx < samples.length ∧
      list.getMetricValues wt time = some values ∧ values wt = time ∧
      ((∃ i, ∃ hi : i < samples.length, samples[i] wt = time ∧ values = samples[i]) ∨
        ∃ i, ∃ hi : i + 1 < samples.length, samples[i] wt < time ∧ time < samples[i + 1] wt ∧
          ∀ m, values m = samples[i] m + (time - samples[i] wt) /
            (samples[i + 1] wt - samples[i] wt) * (samples[i + 1] m - samples[i] m)) := by
  obtain ⟨k, hk, hnearest⟩ := findNearestIdx_spec h hne hfirst hlast
  have hwt := valuesAt_wt hnearest
  refine ⟨k, _, hk, hnearest.1, getMetricValues_eq h hnearest hk, hwt, ?_⟩
  obtain ⟨hlt, hcases⟩ := hnearest
  have hgetD : samples.getD k 0 = samples[k] := List.getD_eq_getElem _ _ hlt
  rcases hcases with heq | ⟨hbefore, hlt', hafter⟩
  · refine .inl ⟨k, hlt, heq, ?_⟩
    funext m
    rw [valuesAt, valuesOn, fractionAt, hgetD, if_pos heq, zero_mul, add_zero]
  · have hgetD' : samples.getD (k + 1) 0 = samples[k + 1] := List.getD_eq_getElem _ _ hlt'
    refine .inr ⟨k, hlt', hbefore, hafter, ?_⟩
    intro m
    rw [valuesAt, valuesOn, fractionAt, hgetD, hgetD', if_neg hbefore.ne]

/-- Between samples at 1, one of two there, and 3. -/
theorem interpolated_lookup_in_bounds_between :
    ∃ values, (ofTimes [0, 1, 1, 3]).getMetricValues wallTimeKey 2 = some values ∧
      values wallTimeKey = 2 := by
  have hholds : Holds (ofTimes [0, 1, 1, 3]) _ := holds_ofSamples _
  obtain ⟨_, values, _, _, hvalues, hwt, _⟩ := interpolated_lookup_in_bounds wallTimeKey hholds
    (List.cons_ne_nil _ _) (show (0 : ℚ) ≤ 2 by decide +kernel)
    (show (2 : ℚ) ≤ 3 by decide +kernel)
  exact ⟨values, hvalues, hwt⟩

end MetricValuesList

end PhpSpx.WebUi
