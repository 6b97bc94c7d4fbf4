import PhpSpx.Metric.Collector

/-!
# Fresh and stale raw values

The table of memoized values of `spx_metric_builtin.c` is never reset, unlike
that of `spx_metric.c`.  It is used by the idle time, which memoizes the two
clocks, and by the I/O metrics, which memoize the two counters.

* `RawCollection.Fresh` — a raw collection whose values come from the answers
  given during it.
* `MemoKind` — the two pairs of entries of the table that are ever written.
* `collectRawValues_spec` — what a raw collection makes of the table.
* `raw_values_fresh_iff` — all the raw values of a thread are fresh, whatever
  the answers, exactly when idle time is collected at most once in it, and the
  I/O metrics are.
-/

namespace PhpSpx

/-! ## Fresh values -/

/-- A value of a metric that comes from the answers given during a raw
collection. -/
def IsFresh (readings : ℕ → OsReading) (calls : ℕ) : Metric → UInt64 → Prop
  | .wallTime, v => ∃ i < calls, v = (readings i).wallTime
  | .cpuTime, v => ∃ i < calls, v = (readings i).cpuTime
  | .idleTime, v =>
      ∃ i < calls, ∃ j < calls, v = (readings i).wallTime - (readings j).cpuTime
  | .ioBytes, v => ∃ i < calls, v = (readings i).ioRbytes + (readings i).ioWbytes
  | .ioRbytes, v => ∃ i < calls, v = (readings i).ioRbytes
  | .ioWbytes, v => ∃ i < calls, v = (readings i).ioWbytes
  | metric, v => ∃ i < calls, v = (readings i).other metric

/-- Every value collected for an enabled metric is fresh. -/
def RawCollection.Fresh (c : RawCollection) : Prop :=
  ∀ m, c.enabledMetrics m → ∃ v, IsFresh c.readings c.calls m v ∧ c.values m = (v.toNat : ℚ)

/-! ## The entries of the table of the built-in handlers -/

/-- The two pairs of entries written together. -/
inductive MemoKind where
  | clocks
  | io
  deriving DecidableEq

/-- The entries the handler of a metric reads. -/
def Metric.memoKind : Metric → Option MemoKind
  | .idleTime => some .clocks
  | .ioBytes | .ioRbytes | .ioWbytes => some .io
  | _ => none

/-- The value of a metric, from the entries its handler reads. -/
def memoValue (builtin : Metric → Memoized) : Metric → UInt64
  | .idleTime => (builtin .wallTime).value - (builtin .cpuTime).value
  | .ioBytes => (builtin .ioRbytes).value + (builtin .ioWbytes).value
  | metric => (builtin metric).value

namespace MemoKind

/-- The entry of a pair written first. -/
def first : MemoKind → Metric
  | .clocks => .wallTime
  | .io => .ioRbytes

/-- The entry of a pair written second. -/
def second : MemoKind → Metric
  | .clocks => .cpuTime
  | .io => .ioWbytes

/-- Some enabled metric reads the entries. -/
def uses : MemoKind → (Metric → Bool) → Bool
  | .clocks, enabledMetrics => enabledMetrics .idleTime
  | .io, enabledMetrics =>
      enabledMetrics .ioBytes || enabledMetrics .ioRbytes || enabledMetrics .ioWbytes

/-- The entries have been written. -/
def memoized (kind : MemoKind) (t : MetricTables) : Bool := (t.builtin kind.first).memoized

/-- The entries hold answers given since the raw collection started. -/
def Current (os : ℕ → OsReading) (t : MetricTables) : MemoKind → Prop
  | .clocks =>
      (∃ i < t.calls, (t.builtin .wallTime).value = (os i).wallTime)
      ∧ ∃ j < t.calls, (t.builtin .cpuTime).value = (os j).cpuTime
  | .io =>
      ∃ i < t.calls, (t.builtin .ioRbytes).value = (os i).ioRbytes
        ∧ (t.builtin .ioWbytes).value = (os i).ioWbytes

theorem uses_iff {kind : MemoKind} {enabledMetrics : Metric → Bool} :
    kind.uses enabledMetrics = true ↔ ∃ m, enabledMetrics m = true ∧ m.memoKind = some kind := by
  cases kind with
  | clocks =>
    refine ⟨fun h => ⟨.idleTime, h, rfl⟩, ?_⟩
    rintro ⟨m, hm, hkind⟩
    cases m <;> first | exact hm | cases hkind
  | io =>
    rw [uses, Bool.or_eq_true, Bool.or_eq_true]
    constructor
    · rintro ((h | h) | h)
      · exact ⟨.ioBytes, h, rfl⟩
      · exact ⟨.ioRbytes, h, rfl⟩
      · exact ⟨.ioWbytes, h, rfl⟩
    · rintro ⟨m, hm, hkind⟩
      cases m <;> first | exact .inl (.inl hm) | exact .inl (.inr hm) | exact .inr hm | cases hkind

/-- Write the entries, unless they have been. -/
def memoize (os : ℕ → OsReading) : MemoKind → MetricTables → MetricTables
  | .clocks, t =>
      let t :=
        if (t.builtin .wallTime).memoized then t
        else t.asked.memoizeBuiltin .wallTime (os t.calls).wallTime
      if (t.builtin .cpuTime).memoized then t
      else t.asked.memoizeBuiltin .cpuTime (os t.calls).cpuTime
  | .io, t => memoizeIoStats os t

end MemoKind

/-- The entries of each pair are written together. -/
def MetricTables.Ready (t : MetricTables) : Prop :=
  ∀ kind : MemoKind, (t.builtin kind.second).memoized = (t.builtin kind.first).memoized

/-- The answer for a metric whose handler asks one question. -/
def OsReading.value (reading : OsReading) : Metric → UInt64
  | .wallTime => reading.wallTime
  | .cpuTime => reading.cpuTime
  | metric => reading.other metric

/-- What a handler does: the value it answers and the tables it leaves. -/
def handled (os : ℕ → OsReading) (metric : Metric) (t : MetricTables) : UInt64 × MetricTables :=
  match metric.memoKind with
  | some kind => (memoValue (kind.memoize os t).builtin metric, kind.memoize os t)
  | none => ((os t.calls).value metric, t.asked)

theorem metricHandler_eq (os : ℕ → OsReading) {t : MetricTables} (ready : t.Ready)
    (metric : Metric) : metricHandler os 2 metric t = some (handled os metric t) := by
  have hclocks : (t.builtin .cpuTime).memoized = (t.builtin .wallTime).memoized := ready .clocks
  have hio : (t.builtin .ioWbytes).memoized = (t.builtin .ioRbytes).memoized := ready .io
  cases metric with
  | idleTime =>
    cases hw : (t.builtin .wallTime).memoized <;>
      simp [metricHandler, handled, Metric.memoKind, MemoKind.memoize, builtinMemoizedMetricValue,
        memoValue, MetricTables.memoizeBuiltin, MetricTables.asked, hclocks, hw]
  | ioBytes =>
    cases hr : (t.builtin .ioRbytes).memoized <;>
      simp [metricHandler, handled, Metric.memoKind, MemoKind.memoize, builtinMemoizedMetricValue,
        memoizeIoStats, memoValue, MetricTables.memoizeBuiltin, MetricTables.asked, hio, hr]
  | ioRbytes =>
    cases hr : (t.builtin .ioRbytes).memoized <;>
      simp [metricHandler, handled, Metric.memoKind, MemoKind.memoize, builtinMemoizedMetricValue,
        memoizeIoStats, memoValue, MetricTables.memoizeBuiltin, MetricTables.asked, hr]
  | ioWbytes =>
    cases hr : (t.builtin .ioRbytes).memoized <;>
      simp [metricHandler, handled, Metric.memoKind, MemoKind.memoize, builtinMemoizedMetricValue,
        memoizeIoStats, memoValue, MetricTables.memoizeBuiltin, MetricTables.asked, hio, hr]
  | _ => rfl

/-! ## What handlers do to the tables -/

/-- The tables `t'` are `t` after some questions of the same raw collection. -/
structure MetricTables.Extends (os : ℕ → OsReading) (t t' : MetricTables) : Prop where
  calls : t.calls ≤ t'.calls
  ready : t'.Ready
  kept : ∀ kind : MemoKind, kind.memoized t = true →
    t'.builtin kind.first = t.builtin kind.first ∧ t'.builtin kind.second = t.builtin kind.second
  current : ∀ kind : MemoKind, kind.memoized t = false → kind.memoized t' = true →
    kind.Current os t'

theorem MemoKind.Current.mono {os : ℕ → OsReading} {kind : MemoKind} {t t' : MetricTables}
    (h : kind.Current os t) (hcalls : t.calls ≤ t'.calls)
    (hfirst : t'.builtin kind.first = t.builtin kind.first)
    (hsecond : t'.builtin kind.second = t.builtin kind.second) : kind.Current os t' := by
  cases kind with
  | clocks =>
    obtain ⟨⟨i, hi, hwall⟩, j, hj, hcpu⟩ := h
    exact ⟨⟨i, hi.trans_le hcalls, (congrArg Memoized.value hfirst).trans hwall⟩,
      j, hj.trans_le hcalls, (congrArg Memoized.value hsecond).trans hcpu⟩
  | io =>
    obtain ⟨i, hi, hr, hw⟩ := h
    exact ⟨i, hi.trans_le hcalls, (congrArg Memoized.value hfirst).trans hr,
      (congrArg Memoized.value hsecond).trans hw⟩

namespace MetricTables.Extends

theorem refl {os : ℕ → OsReading} {t : MetricTables} (ready : t.Ready) : t.Extends os t where
  calls := le_rfl
  ready := ready
  kept := fun _ _ => ⟨rfl, rfl⟩
  current := fun _ h h' => by simp [h] at h'

theorem memoized {os : ℕ → OsReading} {t t' : MetricTables} (h : t.Extends os t')
    {kind : MemoKind} (hkind : kind.memoized t = true) : kind.memoized t' = true :=
  (congrArg Memoized.memoized (h.kept kind hkind).1).trans hkind

theorem trans {os : ℕ → OsReading} {t t' t'' : MetricTables} (h : t.Extends os t')
    (h' : t'.Extends os t'') : t.Extends os t'' where
  calls := h.calls.trans h'.calls
  ready := h'.ready
  kept := fun kind hkind => by
    obtain ⟨hfirst, hsecond⟩ := h.kept kind hkind
    obtain ⟨hfirst', hsecond'⟩ := h'.kept kind (h.memoized hkind)
    exact ⟨hfirst'.trans hfirst, hsecond'.trans hsecond⟩
  current := fun kind hkind hkind'' => by
    cases hkind' : kind.memoized t' with
    | true =>
      obtain ⟨hfirst, hsecond⟩ := h'.kept kind hkind'
      exact (h.current kind hkind hkind').mono h'.calls hfirst hsecond
    | false => exact h'.current kind hkind' hkind''

/-- The table of the collector plays no role. -/
theorem withCollector {os : ℕ → OsReading} {t t' : MetricTables} (h : t.Extends os t')
    (collector : Metric → Memoized) : t.Extends os { t' with collector := collector } where
  calls := h.calls
  ready := h.ready
  kept := h.kept
  current := fun kind hkind hkind' => by cases kind <;> exact h.current _ hkind hkind'

/-- A value read from memoized entries stays the same. -/
theorem memoValue_eq {os : ℕ → OsReading} {t t' : MetricTables} (h : t.Extends os t') {m : Metric}
    {kind : MemoKind} (hm : m.memoKind = some kind) (hkind : kind.memoized t = true) :
    memoValue t'.builtin m = memoValue t.builtin m := by
  obtain ⟨hfirst, hsecond⟩ := h.kept kind hkind
  cases m <;> cases hm <;>
    simp only [memoValue, MemoKind.first, MemoKind.second] at hfirst hsecond ⊢ <;>
    simp only [hfirst, hsecond]

end MetricTables.Extends

/-- Writing the entries of a pair. -/
theorem MemoKind.memoize_spec (os : ℕ → OsReading) (kind : MemoKind) {t : MetricTables}
    (ready : t.Ready) :
    t.Extends os (kind.memoize os t) ∧ (kind.memoize os t).collector = t.collector
    ∧ ∀ kind' : MemoKind,
        kind'.memoized (kind.memoize os t) = (kind'.memoized t || decide (kind = kind')) := by
  have hclocks : (t.builtin .cpuTime).memoized = (t.builtin .wallTime).memoized := ready .clocks
  have hio : (t.builtin .ioWbytes).memoized = (t.builtin .ioRbytes).memoized := ready .io
  cases kind with
  | clocks =>
    cases hw : (t.builtin .wallTime).memoized with
    | true =>
      have hsame : MemoKind.clocks.memoize os t = t := by simp [memoize, hw, hclocks]
      rw [hsame]
      refine ⟨.refl ready, rfl, ?_⟩
      intro kind'
      cases kind' <;> simp [MemoKind.memoized, first, hw]
    | false =>
      have hwritten : MemoKind.clocks.memoize os t
          = (t.asked.memoizeBuiltin .wallTime (os t.calls).wallTime).asked.memoizeBuiltin .cpuTime
            (os (t.calls + 1)).cpuTime := by
        simp [memoize, hw, hclocks, MetricTables.asked, MetricTables.memoizeBuiltin]
      rw [hwritten]
      refine ⟨⟨?_, ?_, ?_, ?_⟩, rfl, ?_⟩
      · exact Nat.le_add_right t.calls 2
      · rintro (_ | _)
        · rfl
        · exact hio
      · rintro (_ | _) h
        · exact absurd h (by simp [MemoKind.memoized, first, hw])
        · exact ⟨rfl, rfl⟩
      · rintro (_ | _) h h'
        · exact ⟨⟨t.calls, Nat.lt_add_of_pos_right Nat.two_pos, rfl⟩,
            t.calls + 1, Nat.lt_succ_self _, rfl⟩
        · exact absurd (h.symm.trans h') Bool.false_ne_true
      · rintro (_ | _)
        · simp [MemoKind.memoized, first, MetricTables.asked, MetricTables.memoizeBuiltin]
        · simp [MemoKind.memoized, first, MetricTables.asked, MetricTables.memoizeBuiltin]
  | io =>
    cases hr : (t.builtin .ioRbytes).memoized with
    | true =>
      have hsame : MemoKind.io.memoize os t = t := by simp [memoize, memoizeIoStats, hr]
      rw [hsame]
      refine ⟨.refl ready, rfl, ?_⟩
      intro kind'
      cases kind' <;> simp [MemoKind.memoized, first, hr]
    | false =>
      have hwritten : MemoKind.io.memoize os t
          = (t.asked.memoizeBuiltin .ioRbytes (os t.calls).ioRbytes).memoizeBuiltin .ioWbytes
            (os t.calls).ioWbytes := by
        simp [memoize, memoizeIoStats, hr]
      rw [hwritten]
      refine ⟨⟨?_, ?_, ?_, ?_⟩, rfl, ?_⟩
      · exact Nat.le_add_right t.calls 1
      · rintro (_ | _)
        · exact hclocks
        · rfl
      · rintro (_ | _) h
        · exact ⟨rfl, rfl⟩
        · exact absurd h (by simp [MemoKind.memoized, first, hr])
      · rintro (_ | _) h h'
        · exact absurd (h.symm.trans h') Bool.false_ne_true
        · exact ⟨t.calls, Nat.lt_succ_self _, rfl, rfl⟩
      · rintro (_ | _)
        · simp [MemoKind.memoized, first, MetricTables.asked, MetricTables.memoizeBuiltin]
        · simp [MemoKind.memoized, first, MetricTables.asked, MetricTables.memoizeBuiltin]

/-- A value that does not come from the table was just read. -/
theorem isFresh_handled (os : ℕ → OsReading) {m : Metric} (hm : m.memoKind = none)
    (t : MetricTables) : IsFresh os (t.calls + 1) m (handled os m t).1 := by
  cases m <;> first | exact ⟨t.calls, Nat.lt_succ_self _, rfl⟩ | cases hm

/-- Asking a handler. -/
theorem handled_spec (os : ℕ → OsReading) (m : Metric) {t : MetricTables} (ready : t.Ready) :
    t.Extends os (handled os m t).2 ∧ (handled os m t).2.collector = t.collector
    ∧ ∀ kind : MemoKind, kind.memoized (handled os m t).2
        = (kind.memoized t || decide (m.memoKind = some kind)) := by
  cases hm : m.memoKind with
  | none =>
    have h : (handled os m t).2 = t.asked := by rw [handled, hm]
    rw [h]
    refine ⟨⟨Nat.le_succ _, ready, fun _ _ => ⟨rfl, rfl⟩, ?_⟩, rfl, ?_⟩
    · intro kind h h'
      exact absurd (h.symm.trans h') Bool.false_ne_true
    · intro kind
      exact (Bool.or_false _).symm
  | some kind =>
    have h : (handled os m t).2 = kind.memoize os t := by rw [handled, hm]
    rw [h]
    simpa using kind.memoize_spec os ready

/-! ## Raw collections -/

/-- The value of a metric after a raw collection, with the tables it left. -/
def IsCollected (os : ℕ → OsReading) (t : MetricTables) (m : Metric) (v : UInt64) : Prop :=
  match m.memoKind with
  | none => IsFresh os t.calls m v
  | some kind => kind.memoized t = true ∧ v = memoValue t.builtin m

theorem IsFresh.mono {os : ℕ → OsReading} {calls calls' : ℕ} (h : calls ≤ calls') {m : Metric}
    {v : UInt64} (hv : IsFresh os calls m v) : IsFresh os calls' m v := by
  cases m with
  | idleTime =>
    obtain ⟨i, hi, j, hj, hv⟩ := hv
    exact ⟨i, hi.trans_le h, j, hj.trans_le h, hv⟩
  | _ =>
    obtain ⟨i, hi, hv⟩ := hv
    exact ⟨i, hi.trans_le h, hv⟩

theorem IsCollected.mono {os : ℕ → OsReading} {t t' : MetricTables} (h : t.Extends os t')
    {m : Metric} {v : UInt64} (hv : IsCollected os t m v) : IsCollected os t' m v := by
  unfold IsCollected at hv ⊢
  cases hm : m.memoKind with
  | none =>
    rw [hm] at hv
    exact hv.mono h.calls
  | some kind =>
    rw [hm] at hv
    exact ⟨h.memoized hv.1, hv.2.trans (h.memoValue_eq hm hv.1).symm⟩

theorem isCollected_handled (os : ℕ → OsReading) (m : Metric) {t : MetricTables}
    (ready : t.Ready) : IsCollected os (handled os m t).2 m (handled os m t).1 := by
  unfold IsCollected
  cases hm : m.memoKind with
  | none =>
    have hfresh := isFresh_handled os hm t
    have hcalls : (handled os m t).2.calls = t.calls + 1 := by
      rw [handled, hm]
      rfl
    rwa [← hcalls] at hfresh
  | some kind =>
    obtain ⟨-, -, hmemo⟩ := handled_spec os m ready
    refine ⟨by rw [hmemo kind, hm]; simp, ?_⟩
    rw [handled, hm]

/-- The second loop of a raw collection. -/
theorem collectRawValuesFrom_spec (os : ℕ → OsReading) (enabledMetrics : Metric → Bool)
    (metrics : List Metric) (hnodup : metrics.Nodup) (values : MetricValues) {t : MetricTables}
    (ready : t.Ready)
    (hreset : ∀ m ∈ metrics, enabledMetrics m = true → (t.collector m).memoized = false) :
    ∃ values' t', collectRawValuesFrom os enabledMetrics metrics values t = some (values', t')
      ∧ t.Extends os t'
      ∧ (∀ kind : MemoKind, kind.memoized t' = (kind.memoized t
          || metrics.any fun m => enabledMetrics m && decide (m.memoKind = some kind)))
      ∧ (∀ m, m ∉ metrics → values' m = values m)
      ∧ ∀ m ∈ metrics, enabledMetrics m = true →
          ∃ v, IsCollected os t' m v ∧ values' m = (v.toNat : ℚ) := by
  induction metrics generalizing values t with
  | nil => exact ⟨values, t, rfl, .refl ready, by simp, fun _ _ => rfl, by simp⟩
  | cons i metrics ih =>
    obtain ⟨hi, hnodup'⟩ := List.nodup_cons.1 hnodup
    cases he : enabledMetrics i with
    | false =>
      obtain ⟨values', t', hrun, hext, hmemo, hother, hvalues⟩ := ih hnodup'
        (Function.update values i 0) ready fun m hm => hreset m (List.mem_cons_of_mem _ hm)
      refine ⟨values', t', ?_, hext, ?_, ?_, ?_⟩
      · rw [collectRawValuesFrom, he]
        exact hrun
      · intro kind
        rw [hmemo kind, List.any_cons, he, Bool.false_and, Bool.false_or]
      · intro m hm
        obtain ⟨hne, hm⟩ := not_or.1 (mt List.mem_cons.2 hm)
        rw [hother m hm, Function.update_of_ne hne]
      · intro m hm hem
        rcases List.mem_cons.1 hm with rfl | hm
        · rw [he] at hem
          cases hem
        · exact hvalues m hm hem
    | true =>
      obtain ⟨hext₁, hcollector, hmemo₁⟩ := handled_spec os i ready
      have hread : memoizedMetricValue os i t = some ((handled os i t).1,
          { (handled os i t).2 with
            collector := Function.update (handled os i t).2.collector i
              ⟨true, (handled os i t).1⟩ }) := by
        rw [memoizedMetricValue, hreset i (List.mem_cons_self ..) he, metricHandler_eq os ready]
        rfl
      have hreset₁ : ∀ m ∈ metrics, enabledMetrics m = true →
          (Function.update (handled os i t).2.collector i ⟨true, (handled os i t).1⟩ m).memoized
            = false := by
        intro m hm hem
        have hne : m ≠ i := fun h => hi (h ▸ hm)
        rw [Function.update_of_ne hne, hcollector]
        exact hreset m (List.mem_cons_of_mem _ hm) hem
      obtain ⟨values', t', hrun, hext, hmemo, hother, hvalues⟩ := ih hnodup'
        (Function.update values i ((handled os i t).1.toNat : ℚ))
        (hext₁.withCollector _).ready hreset₁
      refine ⟨values', t', ?_, (hext₁.withCollector _).trans hext, fun kind => ?_, fun m hm => ?_,
        fun m hm hem => ?_⟩
      · rw [collectRawValuesFrom, he, if_pos rfl, hread]
        exact hrun
      · have hmemo₁' := hmemo₁ kind
        rw [hmemo kind, List.any_cons, he, Bool.true_and, ← Bool.or_assoc, ← hmemo₁']
        rfl
      · obtain ⟨hne, hm⟩ := not_or.1 (mt List.mem_cons.2 hm)
        rw [hother m hm, Function.update_of_ne hne]
      · rcases List.mem_cons.1 hm with rfl | hm
        · refine ⟨(handled os m t).1, ?_, by rw [hother m hi, Function.update_self]⟩
          have hext' : (handled os m t).2.Extends os t' :=
            ⟨hext.calls, hext.ready, hext.kept, hext.current⟩
          exact (isCollected_handled os m ready).mono hext'
        · exact hvalues m hm hem

theorem any_memoKind (enabledMetrics : Metric → Bool) (kind : MemoKind) :
    (Metric.all.any fun m => enabledMetrics m && decide (m.memoKind = some kind))
      = kind.uses enabledMetrics := by
  rw [Bool.eq_iff_iff, MemoKind.uses_iff, List.any_eq_true]
  simp [Metric.mem_all]

/-- The raw collection `c` took the tables from `t` to `t'`. -/
structure RawCollection.Made (c : RawCollection) (t t' : MetricTables) : Prop where
  ready : t'.Ready
  calls : c.calls = t'.calls
  memoized : ∀ kind : MemoKind,
    kind.memoized t' = (kind.memoized t || kind.uses c.enabledMetrics)
  kept : ∀ kind : MemoKind, kind.memoized t = true → ∀ m, m.memoKind = some kind →
    memoValue t'.builtin m = memoValue t.builtin m
  current : ∀ kind : MemoKind, kind.memoized t = false → kind.memoized t' = true →
    kind.Current c.readings t'
  values : ∀ m, c.enabledMetrics m = true →
    ∃ v, IsCollected c.readings t' m v ∧ c.values m = (v.toNat : ℚ)

/-- **A raw collection** asks for the entries it reads and does not find, and
answers from the entries it leaves. -/
theorem collectRawValues_spec (os : ℕ → OsReading) (enabledMetrics : Metric → Bool)
    {t : MetricTables} (ready : t.Ready) :
    ∃ values t', collectRawValues os enabledMetrics t = some (values, t')
      ∧ RawCollection.Made ⟨enabledMetrics, os, t'.calls, values⟩ t t' := by
  obtain ⟨values, t', hrun, hext, hmemo, -, hvalues⟩ :=
    collectRawValuesFrom_spec os enabledMetrics Metric.all Metric.nodup_all metricValuesZero
      (t := resetMemoized enabledMetrics { t with calls := 0 }) ready (by
        intro m _ hem
        simp [resetMemoized, hem])
  refine ⟨values, t', hrun, hext.ready, rfl, fun kind => ?_, fun kind hkind m hm => ?_,
    hext.current, fun m hem => hvalues m (Metric.mem_all m) hem⟩
  · rw [hmemo kind, any_memoKind]
    rfl
  · exact hext.memoValue_eq hm hkind

/-! ## Fresh and stale collections -/

/-- With no memoized entry to read, every value is fresh. -/
theorem IsCollected.isFresh {os : ℕ → OsReading} {t : MetricTables} {m : Metric} {v : UInt64}
    (h : IsCollected os t m v)
    (hcurrent : ∀ kind : MemoKind, m.memoKind = some kind → kind.Current os t) :
    IsFresh os t.calls m v := by
  unfold IsCollected at h
  cases hm : m.memoKind with
  | none => rwa [hm] at h
  | some kind =>
    rw [hm] at h
    have hkind := hcurrent kind hm
    rw [h.2]
    cases m with
    | idleTime =>
      cases hm
      obtain ⟨⟨i, hi, hwall⟩, j, hj, hcpu⟩ := hkind
      exact ⟨i, hi, j, hj, by rw [memoValue, hwall, hcpu]⟩
    | ioBytes =>
      cases hm
      obtain ⟨i, hi, hr, hw⟩ := hkind
      exact ⟨i, hi, by rw [memoValue, hr, hw]⟩
    | ioRbytes =>
      cases hm
      obtain ⟨i, hi, hr, hw⟩ := hkind
      exact ⟨i, hi, hr⟩
    | ioWbytes =>
      cases hm
      obtain ⟨i, hi, hr, hw⟩ := hkind
      exact ⟨i, hi, hw⟩
    | _ => cases hm

/-- A raw collection is fresh when the entries it reads were not memoized. -/
theorem RawCollection.Made.fresh {c : RawCollection} {t t' : MetricTables} (h : c.Made t t')
    (hunused : ∀ kind : MemoKind, kind.uses c.enabledMetrics = true → kind.memoized t = false) :
    c.Fresh := by
  intro m hem
  obtain ⟨v, hv, hvalue⟩ := h.values m hem
  refine ⟨v, ?_, hvalue⟩
  rw [h.calls]
  apply hv.isFresh
  intro kind hm
  have huses : kind.uses c.enabledMetrics = true := MemoKind.uses_iff.2 ⟨m, hem, hm⟩
  exact h.current kind (hunused kind huses) (by rw [h.memoized kind, huses, Bool.or_true])

/-- Answers that agree with none of the memoized entries. -/
def missReading (builtin : Metric → Memoized) : OsReading where
  wallTime := (builtin .wallTime).value - (builtin .cpuTime).value + 1
  cpuTime := 0
  ioRbytes := (builtin .ioRbytes).value + 1
  ioWbytes := (builtin .ioWbytes).value + 1
  other := fun _ => 0

theorem not_isFresh_memoValue (builtin : Metric → Memoized) (calls : ℕ) {m : Metric}
    {kind : MemoKind} (hm : m.memoKind = some kind) :
    ¬ IsFresh (fun _ => missReading builtin) calls m (memoValue builtin m) := by
  cases m with
  | idleTime =>
    rintro ⟨_, _, _, _, h⟩
    simp only [memoValue, missReading] at h
    grind
  | ioBytes =>
    rintro ⟨_, _, h⟩
    simp only [memoValue, missReading] at h
    grind
  | ioRbytes =>
    rintro ⟨_, _, h⟩
    simp only [memoValue, missReading] at h
    grind
  | ioWbytes =>
    rintro ⟨_, _, h⟩
    simp only [memoValue, missReading] at h
    grind
  | _ => cases hm

/-- A raw collection that reads memoized entries is not fresh when the answers
agree with none of them. -/
theorem RawCollection.Made.not_fresh {c : RawCollection} {t t' : MetricTables} (h : c.Made t t')
    {kind : MemoKind} (hkind : kind.memoized t = true) (huses : kind.uses c.enabledMetrics = true)
    {builtin : Metric → Memoized} (hreadings : c.readings = fun _ => missReading builtin)
    (hvalues : ∀ m, m.memoKind = some kind → memoValue t.builtin m = memoValue builtin m) :
    ¬ c.Fresh := by
  intro hfresh
  obtain ⟨m, hem, hm⟩ := MemoKind.uses_iff.1 huses
  obtain ⟨v, hv, hvalue⟩ := h.values m hem
  obtain ⟨v', hv', hvalue'⟩ := hfresh m hem
  have hsame : v = v' := UInt64.toNat_inj.1 (Nat.cast_injective (hvalue.symm.trans hvalue'))
  rw [IsCollected, hm] at hv
  have hstale : v' = memoValue builtin m := by
    rw [← hsame, hv.2, h.kept kind hkind m hm, hvalues m hm]
  rw [hreadings, hstale] at hv'
  exact not_isFresh_memoValue builtin c.calls hm hv'

/-! ## The raw collections of a thread -/

/-- The enabled metrics of the collectors after an operation. -/
def CollectorOp.known (known : List (Metric → Bool)) : CollectorOp → List (Metric → Bool)
  | .create enabledMetrics => known ++ [enabledMetrics]
  | _ => known

/-- The enabled metrics of the raw collections that operations make, given those
of the collectors. -/
def rawMetrics : List (Metric → Bool) → List CollectorOp → List (Metric → Bool)
  | _, [] => []
  | known, op :: ops => (op.rawMetrics? known).toList ++ rawMetrics (op.known known) ops

theorem map_modify_of_forall {α β : Type*} {f : α → α} {g : α → β} (h : ∀ x, g (f x) = g x)
    (l : List α) (i : ℕ) : (l.modify i f).map g = l.map g := by
  induction l generalizing i with
  | nil => simp
  | cons x l ih => cases i <;> simp [h, ih]

theorem CollectorOp.map_enabledMetrics_apply (collectors : List MetricCollector)
    (current : MetricValues) (op : CollectorOp) :
    (op.apply collectors current).map MetricCollector.enabledMetrics
      = op.known (collectors.map MetricCollector.enabledMetrics) := by
  cases op with
  | create enabledMetrics => simp [apply, known, MetricCollector.create]
  | collect i =>
    exact map_modify_of_forall (g := MetricCollector.enabledMetrics)
      (fun c => show (c.collect current 0).2.enabledMetrics = c.enabledMetrics from rfl)
      collectors i
  | noiseBarrier i =>
    exact map_modify_of_forall (g := MetricCollector.enabledMetrics)
      (fun c => show (c.noiseBarrier current).enabledMetrics = c.enabledMetrics from rfl)
      collectors i
  | addFixedNoise i noise =>
    exact map_modify_of_forall (g := MetricCollector.enabledMetrics)
      (fun c => show (c.addFixedNoise noise).enabledMetrics = c.enabledMetrics from rfl)
      collectors i

namespace MetricThread

variable {os : ℕ → ℕ → OsReading} {op : CollectorOp} {thread : MetricThread}

/-- The enabled metrics of the collectors of a thread. -/
def known (thread : MetricThread) : List (Metric → Bool) :=
  thread.collectors.map MetricCollector.enabledMetrics

/-- **What one operation does.** -/
theorem step_cases (os : ℕ → OsReading) (op : CollectorOp) {thread : MetricThread}
    (ready : thread.tables.Ready) :
    ∃ thread', thread'.known = op.known thread.known
      ∧ ((op.rawMetrics? thread.known = none ∧ step os op thread = some ([], thread')
            ∧ thread'.tables = thread.tables)
        ∨ ∃ c : RawCollection, op.rawMetrics? thread.known = some c.enabledMetrics
            ∧ step os op thread = some ([c], thread') ∧ c.readings = os
            ∧ c.Made thread.tables thread'.tables) := by
  cases hraw : op.rawMetrics? thread.known with
  | none =>
    refine ⟨{ thread with collectors := op.apply thread.collectors 0 },
      op.map_enabledMetrics_apply _ _, .inl ⟨rfl, ?_, rfl⟩⟩
    rw [step, show op.rawMetrics? (thread.collectors.map MetricCollector.enabledMetrics) = none
      from hraw]
  | some enabledMetrics =>
    obtain ⟨values, t', hrun, hmade⟩ := collectRawValues_spec os enabledMetrics ready
    refine ⟨⟨t', op.apply thread.collectors values⟩, op.map_enabledMetrics_apply _ _,
      .inr ⟨⟨enabledMetrics, os, t'.calls, values⟩, rfl, ?_, rfl, hmade⟩⟩
    rw [step, show op.rawMetrics? (thread.collectors.map MetricCollector.enabledMetrics)
      = some enabledMetrics from hraw]
    exact (congrArg (Option.map _) hrun).trans rfl

/-- **All raw collections are fresh** when those that read a pair of entries are
at most one, counting one for entries already memoized. -/
theorem run_fresh (os : ℕ → ℕ → OsReading) (ops : List CollectorOp) {thread : MetricThread}
    (ready : thread.tables.Ready)
    (h : ∀ kind : MemoKind, (kind.memoized thread.tables).toNat
      + (rawMetrics thread.known ops).countP kind.uses ≤ 1) :
    ∃ collections thread', run os ops thread = some (collections, thread')
      ∧ ∀ c ∈ collections, c.Fresh := by
  induction ops generalizing os thread with
  | nil => exact ⟨[], thread, rfl, by simp⟩
  | cons op ops ih =>
    obtain ⟨thread', hknown, ⟨hraw, hstep, htables⟩ | ⟨c, hraw, hstep, hos, hmade⟩⟩ :=
      step_cases (os 0) op ready
    · have ready' : thread'.tables.Ready := htables ▸ ready
      obtain ⟨collections, thread'', hrun, hfresh⟩ := ih (fun k => os (k + 1)) ready' fun kind => by
          have hkind := h kind
          rw [rawMetrics, hraw, Option.toList_none, List.nil_append] at hkind
          rwa [htables, hknown]
      refine ⟨collections, thread'', ?_, hfresh⟩
      rw [run, hstep, Option.bind_some, hrun]
      rfl
    · have hcount : ∀ kind : MemoKind, (kind.memoized thread.tables).toNat
          + ((kind.uses c.enabledMetrics).toNat
            + (rawMetrics (op.known thread.known) ops).countP kind.uses) ≤ 1 := by
        intro kind
        have hkind := h kind
        rw [rawMetrics, hraw, Option.toList_some, List.cons_append, List.nil_append,
          List.countP_cons] at hkind
        cases huses : kind.uses c.enabledMetrics <;> simp [huses] at hkind ⊢ <;> omega
      obtain ⟨collections, thread'', hrun, hfresh⟩ :=
        ih (fun k => os (k + 1)) hmade.ready fun kind => by
          have hkind := hcount kind
          rw [hmade.memoized kind, hknown]
          cases hmemo : kind.memoized thread.tables <;>
            cases huses : kind.uses c.enabledMetrics <;> simp [hmemo, huses] at hkind ⊢ <;> omega
      refine ⟨c :: collections, thread'', ?_, ?_⟩
      · rw [run, hstep, Option.bind_some, hrun]
        rfl
      · rintro c' (_ | ⟨_, hc'⟩)
        · apply hmade.fresh
          intro kind huses
          have hkind := hcount kind
          cases hmemo : kind.memoized thread.tables
          · rfl
          · simp [hmemo, huses] at hkind
        · exact hfresh c' hc'

/-- The operations of a thread never fail. -/
theorem exists_run (os : ℕ → ℕ → OsReading) (ops : List CollectorOp) {thread : MetricThread}
    (ready : thread.tables.Ready) :
    ∃ collections thread', run os ops thread = some (collections, thread') := by
  induction ops generalizing os thread with
  | nil => exact ⟨[], thread, rfl⟩
  | cons op ops ih =>
    obtain ⟨thread', -, ⟨-, hstep, htables⟩ | ⟨c, -, hstep, -, hmade⟩⟩ := step_cases (os 0) op ready
    · have ready' : thread'.tables.Ready := htables ▸ ready
      obtain ⟨collections, thread'', hrun⟩ := ih (fun k => os (k + 1)) ready'
      exact ⟨collections, thread'', by rw [run, hstep, Option.bind_some, hrun]; rfl⟩
    · obtain ⟨collections, thread'', hrun⟩ := ih (fun k => os (k + 1)) hmade.ready
      exact ⟨c :: collections, thread'', by rw [run, hstep, Option.bind_some, hrun]; rfl⟩

/-- Some raw collection of a run is not fresh. -/
def HasStale (os : ℕ → ℕ → OsReading) (ops : List CollectorOp) (thread : MetricThread) : Prop :=
  ∃ collections thread', run os ops thread = some (collections, thread')
    ∧ ∃ c ∈ collections, ¬ c.Fresh

theorem HasStale.cons {os : ℕ → ℕ → OsReading} {op : CollectorOp} {ops : List CollectorOp}
    {thread thread' : MetricThread} {collections : List RawCollection}
    (hstep : step (os 0) op thread = some (collections, thread'))
    (h : HasStale (fun k => os (k + 1)) ops thread') : HasStale os (op :: ops) thread := by
  obtain ⟨collections', thread'', hrun, c, hc, hstale⟩ := h
  refine ⟨collections ++ collections', thread'', ?_, c, List.mem_append_right _ hc, hstale⟩
  rw [run, hstep, Option.bind_some, hrun]
  rfl

/-- With memoized entries, the next raw collection that reads them is stale when
the answers agree with none of them. -/
theorem hasStale_of_memoized {kind : MemoKind} {builtin : Metric → Memoized}
    (ops : List CollectorOp) {thread : MetricThread} (ready : thread.tables.Ready)
    (hkind : kind.memoized thread.tables = true)
    (hvalues : ∀ m, m.memoKind = some kind →
      memoValue thread.tables.builtin m = memoValue builtin m)
    (h : 0 < (rawMetrics thread.known ops).countP kind.uses) :
    HasStale (fun _ _ => missReading builtin) ops thread := by
  induction ops generalizing thread with
  | nil => exact absurd h (lt_irrefl 0)
  | cons op ops ih =>
    obtain ⟨thread', hknown, ⟨hraw, hstep, htables⟩ | ⟨c, hraw, hstep, hos, hmade⟩⟩ :=
      step_cases (fun _ => missReading builtin) op ready
    · rw [rawMetrics, hraw, Option.toList_none, List.nil_append, ← hknown] at h
      refine .cons hstep (ih ?_ ?_ ?_ h) <;> rw [htables]
      exacts [ready, hkind, hvalues]
    · cases huses : kind.uses c.enabledMetrics with
      | true =>
        obtain ⟨collections, thread'', hrun⟩ := exists_run (fun _ _ => missReading builtin) ops
          hmade.ready
        refine ⟨c :: collections, thread'', ?_, c, List.mem_cons_self ..,
          hmade.not_fresh hkind huses hos hvalues⟩
        rw [run, hstep, Option.bind_some, hrun]
        rfl
      | false =>
        rw [rawMetrics, hraw, Option.toList_some, List.cons_append, List.nil_append,
          List.countP_cons, huses, ← hknown] at h
        refine .cons hstep (ih hmade.ready ?_ (?_) (by simpa using h))
        · rw [hmade.memoized kind, hkind, Bool.true_or]
        · intro m hm
          rw [hmade.kept kind hkind m hm, hvalues m hm]

/-- The answers during the first operation, then those during the others. -/
def answersFrom (first : ℕ → OsReading) (os : ℕ → ℕ → OsReading) : ℕ → ℕ → OsReading
  | 0 => first
  | k + 1 => os k

/-- Entries read by two raw collections are stale in the second one, for some
answers. -/
theorem exists_hasStale {kind : MemoKind} (ops : List CollectorOp) {thread : MetricThread}
    (ready : thread.tables.Ready) (hkind : kind.memoized thread.tables = false)
    (h : 1 < (rawMetrics thread.known ops).countP kind.uses) : ∃ os, HasStale os ops thread := by
  induction ops generalizing thread with
  | nil => exact absurd h (Nat.not_lt_zero 1)
  | cons op ops ih =>
    -- whatever the first answers are
    let first : ℕ → OsReading := fun _ => missReading thread.tables.builtin
    obtain ⟨thread', hknown, ⟨hraw, hstep, htables⟩ | ⟨c, hraw, hstep, hos, hmade⟩⟩ :=
      step_cases first op ready
    · rw [rawMetrics, hraw, Option.toList_none, List.nil_append, ← hknown] at h
      have ready' : thread'.tables.Ready := htables ▸ ready
      obtain ⟨os, hstale⟩ := ih ready' (htables ▸ hkind) h
      exact ⟨answersFrom first os, .cons hstep hstale⟩
    · rw [rawMetrics, hraw, Option.toList_some, List.cons_append, List.nil_append,
        List.countP_cons, ← hknown] at h
      cases huses : kind.uses c.enabledMetrics with
      | true =>
        have hmemo : kind.memoized thread'.tables = true := by
          rw [hmade.memoized kind, huses, Bool.or_true]
        have hrest : 0 < (rawMetrics thread'.known ops).countP kind.uses := by
          rw [huses] at h
          simpa using h
        have hstale : HasStale (fun _ _ => missReading thread'.tables.builtin) ops thread' :=
          hasStale_of_memoized ops hmade.ready hmemo (fun m _ => rfl) hrest
        exact ⟨answersFrom first fun _ _ => missReading thread'.tables.builtin, .cons hstep hstale⟩
      | false =>
        have hmemo : kind.memoized thread'.tables = false := by
          rw [hmade.memoized kind, hkind, huses, Bool.or_false]
        obtain ⟨os, hstale⟩ := ih hmade.ready hmemo (by rw [huses] at h; simpa using h)
        exact ⟨answersFrom first os, .cons hstep hstale⟩

end MetricThread

theorem ready_init : MetricTables.init.Ready := fun _ => rfl

/-- The raw collections of operations enable idle time at most once, and I/O
metrics at most once. -/
def MemoizedOnce (ops : List CollectorOp) : Prop :=
  (rawMetrics [] ops).countP (fun e => e .idleTime) ≤ 1
  ∧ (rawMetrics [] ops).countP (fun e => e .ioBytes || e .ioRbytes || e .ioWbytes) ≤ 1

/-- Answers in which the wall clock shows `10`, `20` and so on during the
successive operations, and everything else `0`. -/
def wallClock (k _ : ℕ) : OsReading := ⟨UInt64.ofNat (10 * (k + 1)), 0, 0, 0, fun _ => 0⟩

/-- A collector of the wall time and the idle time, asked once. -/
def idleCollector : List CollectorOp :=
  [.create fun m => m = .wallTime ∨ m = .idleTime, .collect 0]

/-- **The second idle time is that of the first collection**: `10` at a moment
when the wall clock shows `20` and the CPU clock `0`. -/
theorem raw_idle_time_stale :
    ∃ collections thread, MetricThread.run wallClock idleCollector .init = some (collections, thread)
      ∧ ¬ ∀ c ∈ collections, c.Fresh := by
  refine ⟨_, _, rfl, ?_⟩
  intro h
  obtain ⟨v, ⟨i, -, j, -, hv⟩, hvalue⟩ := h _ (List.mem_cons_of_mem _ (List.mem_singleton_self _))
    .idleTime rfl
  have hv' : v = 20 := hv.trans (show UInt64.ofNat (10 * (1 + 1)) - 0 = (20 : UInt64) by decide)
  subst hv'
  exact absurd hvalue (by decide +kernel)

/-- **The raw values of a thread are fresh for all answers exactly when no raw
collection reads what an earlier one memoized**: idle time is enabled in at most
one of them, and I/O metrics are. -/
theorem raw_values_fresh_iff (ops : List CollectorOp) :
    (∀ os : ℕ → ℕ → OsReading, ∃ collections thread,
        MetricThread.run os ops .init = some (collections, thread)
        ∧ ∀ c ∈ collections, c.Fresh)
      ↔ MemoizedOnce ops := by
  constructor
  · intro h
    have hkind : ∀ kind : MemoKind, (rawMetrics [] ops).countP kind.uses ≤ 1 := by
      intro kind
      by_contra hcount
      have hmemo : kind.memoized MetricThread.init.tables = false := rfl
      obtain ⟨os, collections, thread, hrun, c, hc, hstale⟩ :=
        MetricThread.exists_hasStale ops ready_init hmemo (not_le.1 hcount)
      obtain ⟨collections', thread', hrun', hfresh⟩ := h os
      rw [hrun] at hrun'
      cases hrun'
      exact hstale (hfresh c hc)
    exact ⟨hkind .clocks, hkind .io⟩
  · rintro ⟨hclocks, hio⟩ os
    apply MetricThread.run_fresh os ops ready_init
    intro kind
    rw [show kind.memoized MetricThread.init.tables = false from rfl, Bool.toNat_false, Nat.zero_add]
    cases kind with
    | clocks => exact hclocks
    | io => exact hio

end PhpSpx
