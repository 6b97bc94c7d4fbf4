import PhpSpx.WebUi.Page
import PhpSpx.WebUi.RangeCallTree
import PhpSpx.WebUi.RangeTreeDepth
import PhpSpx.WebUi.RunCallTree

/-!
# The page of a run

The profile that the page makes of the events of a run of the tracing profiler, when the readings of
the wall time never decrease: the samples cover the time from 0 to the wall time, and the calls lie
within it.  So the page never fails, but for the tree of the calls, which is not built when too many
calls take no time at one moment, or when a function has a name that every object inherits.

* `Sampled` — the samples and the maxima that the events of a forest add.
* `Sampled.covers`, `timeRange_records` — they cover the time, and the calls are within it.
* `exists_loaded`, `exists_runProfile` — the tree of the calls is built.
* `Loaded.exists_callTree`, `Page.Showable.exists_callTree` — and so are the call trees, when no
  function has a name that every object inherits.
* `run_page_in_step` — the page of a run.
-/

namespace PhpSpx.WebUi

open Lib

variable {metrics : EnabledMetrics}

/-! ## The samples of a forest -/

/-- The sample of an event. -/
def sampleOf (z : MetricValues) (op : TracerOp) : MetricValueSet metrics :=
  metricValueSet (op.reading - z)

/-- The builder `B'` has the samples of the events of the forest `F` after those of `B`. -/
structure Sampled (z : MetricValues) (B B' : ProfileDataBuilder metrics) (F : CallForest) : Prop where
  eventCount : B'.eventCount = B.eventCount + F.word.length
  size : B.metricValuesList.size ≤ B.eventCount → F ≠ .nil →
    B'.metricValuesList.size = B'.eventCount
  size_nil : F = .nil → B'.metricValuesList.size = B.metricValuesList.size
  outside : ∀ i, i < B.eventCount ∨ B'.eventCount ≤ i →
    B'.metricValuesList.element i = B.metricValuesList.element i
  element : ∀ i op, F.word[i]? = some op →
    B'.metricValuesList.element (B.eventCount + i) = sampleOf z op
  le_stats : ∀ m, B.stats.max m ≤ B'.stats.max m ∧
    ∀ op ∈ F.word, sampleOf z op m ≤ B'.stats.max m
  stats_le : ∀ m x, B.stats.max m ≤ x → (∀ op ∈ F.word, sampleOf z op m ≤ x) → B'.stats.max m ≤ x

theorem sampled_nil (z : MetricValues) (B : ProfileDataBuilder metrics) : Sampled z B B .nil where
  eventCount := rfl
  size _ h := absurd rfl h
  size_nil _ := rfl
  outside _ _ := rfl
  element i op h := by simp at h
  le_stats m := ⟨le_rfl, by simp⟩
  stats_le m x h _ := h

/-- A tree followed by its siblings, from its children and its siblings. -/
theorem Sampled.node {functions : List PhpFunction} {z : MetricValues}
    {B C B' : ProfileDataBuilder metrics} {a : CallStart} {b : HookInput} {c s : CallForest}
    {frames : List (BuilderFrame metrics)}
    (hc : Sampled z (B.pushFrame (startLine functions z a)) C c)
    (hs : Sampled z
      (C.popFrame (frameBack functions z B a c) frames (endLine functions z a b)) B' s) :
    Sampled z B B' (.node a b c s) := by
  have hstart : byMetric (startLine functions z a : ReportEvent metrics).values =
      sampleOf z (.opening a) := byMetric_rawValues (a.input.reading - z)
  have hlast : byMetric (endLine functions z a b : ReportEvent metrics).values =
      sampleOf z (.closing b) := byMetric_rawValues (b.reading - z)
  have hcount : C.eventCount = B.eventCount + 1 + c.word.length := hc.eventCount
  set D := C.popFrame (frameBack functions z B a c) frames (endLine functions z a b) with hD
  have hcountD : D.eventCount = C.eventCount + 1 := rfl
  have hcount' : B'.eventCount = C.eventCount + 1 + s.word.length := hs.eventCount
  have helement : ∀ i, D.metricValuesList.element i =
      if i = C.eventCount then sampleOf z (.closing b)
      else if i = B.eventCount then sampleOf z (.opening a) else C.metricValuesList.element i := by
    intro i
    rw [← hstart, ← hlast]
    exact Function.update_apply _ _ _ _ |>.trans (if_congr Iff.rfl rfl (Function.update_apply ..))
  have hmax : ∀ m, D.stats.max m =
      max (max (C.stats.max m) (sampleOf z (.opening a) m)) (sampleOf z (.closing b) m) := by
    intro m
    rw [← hstart, ← hlast]
    rfl
  refine ⟨?_, ?_, ?_, ?_, ?_, ?_, ?_⟩
  · simp only [Forest.word_node, List.length_cons, List.length_append]
    omega
  · intro hsize _
    have hC : C.metricValuesList.size ≤ C.eventCount := by
      by_cases hnil : c = .nil
      · rw [hc.size_nil hnil]
        exact hsize.trans (by omega)
      · exact (hc.size (hsize.trans (Nat.le_succ _)) hnil).le
    have hsizeD : D.metricValuesList.size = C.eventCount + 1 := by
      have hset : D.metricValuesList.size =
          let size := if B.eventCount + 1 > C.metricValuesList.size then B.eventCount + 1
            else C.metricValuesList.size
          if C.eventCount + 1 > size then C.eventCount + 1 else size := rfl
      rw [hset]
      dsimp only
      split_ifs <;> omega
    by_cases hnil : s = .nil
    · rw [hs.size_nil hnil, hsizeD, hcount', hnil]
      rfl
    · exact hs.size (hsizeD.trans hcountD.symm).le hnil
  · intro h
    cases h
  · intro i hi
    rw [hs.outside i (by omega), helement, if_neg (by omega), if_neg (by omega)]
    exact hc.outside i (by change i < B.eventCount + 1 ∨ _; omega)
  · intro i op hop
    rw [Forest.word_node] at hop
    rcases i with _ | i
    · -- the event of the start
      obtain rfl := Option.some.inj hop
      rw [hs.outside _ (by omega), helement, if_neg (by omega), if_pos (Nat.add_zero _)]
    · rw [List.getElem?_cons_succ] at hop
      rcases lt_trichotomy i c.word.length with hlt | rfl | hgt
      · rw [List.getElem?_append_left hlt] at hop
        have hinner := hc.element i op hop
        rw [hs.outside _ (by omega), helement, if_neg (by omega), if_neg (by omega), ← hinner]
        exact congrArg _ (by change _ = B.eventCount + 1 + i; omega)
      · rw [List.getElem?_append_right le_rfl, Nat.sub_self] at hop
        obtain rfl := Option.some.inj hop
        rw [hs.outside _ (by omega), helement, if_pos (by omega)]
      · rw [List.getElem?_append_right hgt.le] at hop
        obtain ⟨k, rfl⟩ := Nat.exists_eq_add_of_lt hgt
        rw [show c.word.length + k + 1 - c.word.length = k + 1 by omega,
          List.getElem?_cons_succ] at hop
        rw [← hs.element k op hop]
        exact congrArg _ (by omega)
  · intro m
    obtain ⟨hBC, hcle⟩ := hc.le_stats m
    obtain ⟨hDB, hsle⟩ := hs.le_stats m
    rw [hmax] at hDB
    obtain ⟨hCB, hlastB⟩ := max_le_iff.mp hDB
    obtain ⟨hCB, hstartB⟩ := max_le_iff.mp hCB
    refine ⟨hBC.trans hCB, ?_⟩
    rw [Forest.word_node, List.forall_mem_cons, List.forall_mem_append, List.forall_mem_cons]
    exact ⟨hstartB, fun op hop => (hcle op hop).trans hCB, hlastB, hsle⟩
  · intro m x hx hword
    rw [Forest.word_node, List.forall_mem_cons, List.forall_mem_append,
      List.forall_mem_cons] at hword
    obtain ⟨hstartx, hcx, hlastx, hsx⟩ := hword
    apply hs.stats_le m x _ hsx
    rw [hmax]
    exact max_le (max_le (hc.stats_le m x hx hcx) hstartx) hlastx

/-- **The events of a forest** add their samples. -/
theorem sampled_of_addEvents {functions : List PhpFunction} (z : MetricValues) (F : CallForest)
    (hF : ∀ f ∈ F.labels.map callFunction, f ∈ functions) {B B' : ProfileDataBuilder metrics}
    {calls : OpenCalls} (h : StackShows functions B.stack calls)
    (hB' : ProfileDataBuilder.addEvents (forestEvents functions z F) B = some B') :
    Sampled z B B' F := by
  induction F generalizing B B' calls with
  | nil =>
    obtain rfl := Option.some.inj hB'
    exact sampled_nil z B
  | node a b c s ihc ihs =>
    simp only [Forest.labels_node, List.map_cons, List.map_append, List.mem_cons,
      List.mem_append] at hF
    have hpushed : StackShows functions (B.pushFrame (startLine functions z a)).stack
        (some ⟨a.function, a.input.reading, 0⟩ :: calls) :=
      .cons ⟨_, rfl, hF _ (Or.inl rfl), rfl, rfl⟩ h
    have hFc : ∀ f ∈ c.labels.map callFunction, f ∈ functions :=
      fun f hf => hF f (Or.inr (Or.inl hf))
    obtain ⟨C, hC, hc⟩ := exists_built z c hFc hpushed
    obtain ⟨frames, hCstack, hheaders, hshows⟩ := hc.stack_opened
    have hpopped := ProfileDataBuilder.stackShows_creditNearest
      (ProfileDataBuilder.stackShows_chargeTop hshows (callCost a b)) a.function
      (callCost a b - (c.rootCost callCost - forestCredit c a.function))
    rw [← exc_ended functions z B, ← rawValues_endLine_sub functions z a b] at hpopped
    -- the end of the call takes the frame of its start
    rw [forestEvents_node, ProfileDataBuilder.addEvents] at hB'
    change (some (B.pushFrame (startLine functions z a))).bind _ = _ at hB'
    rw [Option.bind_some, ProfileDataBuilder.addEvents_append, hC, Option.bind_some,
      ProfileDataBuilder.addEvents] at hB'
    have hend : C.addEvent (endLine functions z a b) =
        some (C.popFrame (frameBack functions z B a c) frames (endLine functions z a b)) := by
      have hstop : ¬(endLine functions z a b : ReportEvent metrics).isStart = true :=
        Bool.false_ne_true
      rw [ProfileDataBuilder.addEvent, if_neg hstop, hCstack]
    change (C.addEvent (endLine functions z a b)).bind _ = _ at hB'
    rw [hend] at hB'
    exact (ihc hFc hpushed hC).node (ihs (fun f hf => hF f (Or.inr (Or.inr hf))) hpopped hB')

/-! ## The time of a forest -/

/-- A read within an array. -/
theorem getElement_reader {ρ : Type} (array : ChunkedRecordArray ρ) {i : ℕ} (h : i < array.size) :
    array.reader.getElement i = some (array.element i) := by
  have hchunk : (0 : ℚ) < recordChunkSize := by
    rw [Nat.cast_pos]
    decide
  have hbound : i < ⌈(array.size : ℚ) / recordChunkSize⌉₊ * recordChunkSize := by
    apply h.trans_le
    rw [← Nat.cast_le (α := ℚ), Nat.cast_mul, ← div_le_iff₀ hchunk]
    exact Nat.le_ceil _
  exact if_pos ⟨Int.natCast_nonneg i, hbound⟩

section Time

variable {z : MetricValues} {wt : Key metrics} {functions : List PhpFunction}
  {list : CallList metrics} {calledFunctionCount : ℕ}

/-- The samples of a forest are read back. -/
theorem Sampled.holds {B : ProfileDataBuilder metrics} {F : CallForest}
    (h : Sampled z (.setMetadata calledFunctionCount) B F) (hF : F ≠ .nil) :
    MetricValuesList.Holds B.metricValuesList.reader (F.word.map (sampleOf z)) := by
  have hsize : B.metricValuesList.size = F.word.length :=
    (h.size le_rfl hF).trans (h.eventCount.trans (Nat.zero_add _))
  constructor
  · rw [List.length_map]
    exact hsize
  · intro i hi
    rw [List.length_map] at hi
    rw [getElement_reader _ (hi.trans_eq hsize.symm), List.getElem_map]
    have helement := h.element i _ (List.getElem?_eq_getElem hi)
    rw [show (ProfileDataBuilder.setMetadata calledFunctionCount :
      ProfileDataBuilder metrics).eventCount = 0 from rfl, Nat.zero_add] at helement
    exact congrArg some helement

/-- **The samples cover the time**, from the first event to the wall time. -/
theorem Sampled.covers {B : ProfileDataBuilder metrics} {a : CallStart} {b : HookInput}
    {c s : CallForest} (h : Sampled z (.setMetadata calledFunctionCount) B (.node a b c s))
    (hz : z wt = a.input.reading wt)
    (hmono : (Forest.node a b c s).word.Pairwise fun op op' : TracerOp =>
      op.reading wt ≤ op'.reading wt)
    {whole : Range} (hbegin : whole.begin = 0) (hlast : whole.last = B.stats.max wt) :
    MetricValuesList.Covers wt B.metricValuesList.reader
      ((Forest.node a b c s).word.map (sampleOf z)) whole := by
  have hne : (Forest.node a b c s).word.map (sampleOf z) ≠ ([] : List (MetricValueSet metrics)) := by
    simp
  have hsorted : ((Forest.node a b c s).word.map (sampleOf z)).Pairwise
      fun sample sample' : MetricValueSet metrics => sample wt ≤ sample' wt := by
    rw [List.pairwise_map]
    exact hmono.imp fun hle => sub_le_sub hle le_rfl
  have hfirst : ((Forest.node a b c s).word.map (sampleOf z)).head hne wt = 0 :=
    sub_eq_zero.mpr hz.symm
  -- no sample is after the last one
  have hend : ∀ sample ∈ (Forest.node a b c s).word.map (sampleOf z), sample wt ≤
      (((Forest.node a b c s).word.map (sampleOf z)).getLast hne : MetricValueSet metrics) wt := by
    intro sample hsample
    exact hsorted.rel_getLast_of_rel_getLast_getLast hsample le_rfl
  refine ⟨h.holds (by simp), hne, hsorted, hfirst.trans_le hbegin.ge, hlast.trans_le ?_⟩
  apply h.stats_le
  · have hmax : (0 : ℚ) ≤ numberMaxValue := by norm_num [numberMaxValue]
    exact (neg_nonpos.mpr hmax).trans (hfirst.symm.trans_le (hend _ (List.head_mem hne)))
  · intro op hop
    exact hend _ (List.mem_map_of_mem hop)

/-- The time ranges of the calls of a forest in order. -/
theorem timeRange_records {F : CallForest} {base : ℕ} {parent : ℤ}
    (hrecords : Records functions z list.array.element base parent F) {lower upper : ℚ}
    (h : InOrder wt.1 lower F upper) (hsize : base + F.labels.length ≤ list.getSize) :
    ∀ idx, base ≤ idx → idx < base + F.labels.length →
      ∃ range, list.timeRange wt idx = some range ∧ lower - z wt ≤ range.begin ∧
        range.last ≤ upper - z wt := by
  induction F generalizing base parent lower upper with
  | nil =>
    intro idx hle hlt
    rw [Forest.labels_nil, List.length_nil] at hlt
    omega
  | node a b c s ihc ihs =>
    obtain ⟨hroot, hc, hs⟩ := hrecords
    obtain ⟨ha, hinner, hafter⟩ := h
    simp only [Forest.labels_node, List.length_cons, List.length_append] at hsize ⊢
    have hab := hinner.le
    have hbu := hafter.le
    intro idx hle hlt
    rcases Nat.eq_or_lt_of_le hle with rfl | hgt
    · -- the call itself
      have hordered : a.input.reading wt - z wt ≤ b.reading wt - z wt := sub_le_sub hab le_rfl
      refine ⟨⟨_, _, hordered⟩, ?_, sub_le_sub ha le_rfl, sub_le_sub hbu le_rfl⟩
      rw [CallList.timeRange, CallList.getCall, if_pos (by omega), Option.bind_some,
        CallListEntry.getTimeRange, CallList.entry, hroot]
      exact Range.new_of_le hordered
    · by_cases hchild : idx < base + 1 + c.labels.length
      · obtain ⟨range, hrange, hlow, hup⟩ := ihc hc hinner (by omega) idx hgt hchild
        exact ⟨range, hrange, (sub_le_sub ha le_rfl).trans hlow,
          hup.trans (sub_le_sub hbu le_rfl)⟩
      · obtain ⟨range, hrange, hlow, hup⟩ := ihs hs hafter (by omega) idx (by omega) (by omega)
        exact ⟨range, hrange, (sub_le_sub (ha.trans hab) le_rfl).trans hlow, hup⟩

/-- The number of calls that start and end with a reading. -/
def emptyCalls (m : Metric) (t : ℚ) : CallForest → ℕ
  | .nil => 0
  | .node a b c s =>
    (if a.input.reading m = t ∧ b.reading m = t then 1 else 0) + (emptyCalls m t c + emptyCalls m t s)

theorem emptyCalls_le_length (m : Metric) (t : ℚ) (F : CallForest) :
    emptyCalls m t F ≤ F.labels.length := by
  induction F with
  | nil => exact le_rfl
  | node a b c s ihc ihs =>
    rw [emptyCalls, Forest.labels_node, List.length_cons, List.length_append]
    split <;> omega

/-- The calls of the list that take no time at one moment are those of the forest. -/
theorem countP_emptyAt_records {F : CallForest} {base : ℕ} {parent : ℤ}
    (hrecords : Records functions z list.array.element base parent F) (t : ℚ) :
    (List.range' base F.labels.length).countP (fun idx => list.EmptyAt wt t idx) =
      emptyCalls wt.1 (t + z wt) F := by
  induction F generalizing base parent with
  | nil => rfl
  | node a b c s ihc ihs =>
    obtain ⟨hroot, hc, hs⟩ := hrecords
    have hself : list.EmptyAt wt t base ↔
        a.input.reading wt = t + z wt ∧ b.reading wt = t + z wt := by
      rw [CallList.EmptyAt, CallList.entry, hroot, ← sub_eq_iff_eq_add, ← sub_eq_iff_eq_add]
      rfl
    rw [Forest.labels_node, List.length_cons, List.length_append, List.range'_succ,
      List.countP_cons, ← List.range'_append_1, List.countP_append, ihc hc, ihs hs, emptyCalls,
      Nat.add_comm]
    simp only [decide_eq_true_eq, hself]

/-- The cycle depths of the calls of a forest. -/
theorem getCycleDepth_isSome_of_records {T : CallForest}
    (hF : ∀ f ∈ T.labels.map callFunction, f ∈ functions)
    (hrecords : Records functions z list.array.element 0 (-1) T)
    (hsize : list.getSize = T.labels.length) :
    ∀ idx < list.getSize, (list.getCycleDepth idx).isSome = true := by
  have hstart : StatsShow functions list.functionNames
      (fun _ => none : FunctionsStats metrics) fun _ => FuncStats.zero :=
    ⟨fun _ _ => rfl, fun _ _ _ => rfl, fun _ _ => rfl⟩
  have hancestors : Ancestors functions list.array.element (-1) [] := rfl
  obtain ⟨S, hS, -⟩ := exists_counted T hF hrecords hancestors le_rfl (by omega) hstart
  have hnew : FunctionsStats.new list (List.range list.getSize) = some S := by
    rw [FunctionsStats.new, hsize, List.range_eq_range']
    exact hS
  obtain ⟨hdepths, -⟩ := new_eq_some_iff.mp hnew
  exact fun idx hidx => hdepths idx (List.mem_range.mpr hidx)

variable (list) in
/-- **A profile of calls in order** is loaded, when it takes time and fewer than 500 calls take no
time at one moment. -/
theorem exists_loaded {T : CallForest} {B : ProfileDataBuilder metrics}
    (hF : ∀ f ∈ T.labels.map callFunction, f ∈ functions)
    (hrecords : Records functions z list.array.element 0 (-1) T)
    (hsize : list.getSize = T.labels.length)
    (hsampled : Sampled z (.setMetadata calledFunctionCount) B T)
    (hz : ∀ a b c s, T = .node a b c s → z = a.input.reading)
    (hmono : T.word.Pairwise fun op op' : TracerOp => op.reading wt ≤ op'.reading wt)
    (htime : ∃ op ∈ T.word, z wt < TracerOp.reading op wt)
    (hfew : ∀ t, emptyCalls wt.1 t T < minCallsPerNode) :
    ∃ fuel tree whole, buildCallRangeTree wt list B.metricValuesList.reader fuel
        (B.stats.max wt) = some tree ∧
      Loaded wt ⟨B.stats, list, B.metricValuesList.reader, tree⟩ (T.word.map (sampleOf z)) whole ∧
      InOrder wt.1 (z wt) T (z wt + B.stats.max wt) := by
  obtain ⟨op, hop, hlt⟩ := htime
  have hwall : 0 < B.stats.max wt :=
    (sub_pos.mpr hlt).trans_le ((hsampled.le_stats wt).2 op hop)
  cases hT : T with
  | nil =>
    rw [hT] at hop
    exact absurd hop List.not_mem_nil
  | node a b c s =>
    obtain rfl := hz a b c s hT
    subst hT
    have hfirst : ∀ op ∈ (Forest.node a b c s).word,
        a.input.reading wt ≤ TracerOp.reading op wt := by
      rw [Forest.word_node, List.forall_mem_cons]
      exact ⟨le_rfl, (List.pairwise_cons.mp hmono).1⟩
    have hlast : ∀ op ∈ (Forest.node a b c s).word,
        TracerOp.reading op wt ≤ a.input.reading wt + B.stats.max wt :=
      fun op hop => sub_le_iff_le_add'.mp ((hsampled.le_stats wt).2 op hop)
    have horder : InOrder wt.1 (a.input.reading wt) (.node a b c s)
        (a.input.reading wt + B.stats.max wt) :=
      inOrder_of_pairwise hmono (fun op hop => ⟨hfirst op hop, hlast op hop⟩)
        (le_add_of_nonneg_right hwall.le)
    let whole : Range := ⟨0, B.stats.max wt, hwall.le⟩
    have hcovers : MetricValuesList.Covers wt B.metricValuesList.reader _ whole :=
      hsampled.covers rfl hmono rfl rfl
    have hin : CallsIn wt list whole (List.range list.getSize) := by
      intro idx hidx
      have hlt := (List.mem_range.mp hidx).trans_eq hsize
      obtain ⟨range, hrange, hlow, hup⟩ := timeRange_records hrecords horder
        (by omega) idx (Nat.zero_le _) (by omega)
      exact ⟨range, hrange, (sub_self _).symm.trans_le hlow, hup.trans_eq (add_sub_cancel_left _ _)⟩
    have hcum : ∀ range', whole.Contains range' →
        (MetricValuesList.getCumCostStats wt B.metricValuesList.reader range').isSome = true := by
      intro range' hrange'
      rw [(hcovers.mono hrange').getCumCostStats]
      rfl
    have hempty : ∀ t, list.emptyCount wt t < minCallsPerNode := by
      intro t
      rw [CallList.emptyCount, hsize, List.range_eq_range', countP_emptyAt_records hrecords]
      exact hfew _
    obtain ⟨fuel, tree, htree⟩ := (exists_buildAsync_iff hin
      (getCycleDepth_isSome_of_records hF hrecords hsize) hcum).mpr hempty
    have hwhole : Range.new 0 (B.stats.max wt) = some whole := Range.new_of_le hwall.le
    have hbuild : buildCallRangeTree wt list B.metricValuesList.reader fuel (B.stats.max wt) =
        some tree := by
      rw [buildCallRangeTree, hwhole]
      exact htree
    exact ⟨fuel, tree, whole, hbuild, ⟨hwall, hwhole, hin, hcovers, ⟨fuel, hbuild⟩⟩, horder⟩

end Time

/-! ## Runs -/

/-- The events within the depth limit are events of the run. -/
theorem word_truncate_sublist (F : CallForest) (k : ℕ) : (F.truncate k).word.Sublist F.word := by
  induction F generalizing k with
  | nil => rw [Forest.truncate_nil]
  | node a b c s ihc ihs =>
    cases k with
    | zero =>
      rw [Forest.truncate_zero]
      exact List.nil_sublist _
    | succ k =>
      rw [Forest.truncate_succ_node, Forest.word_node, Forest.word_node]
      exact ((ihc k).append ((ihs (k + 1)).cons_cons _)).cons_cons _

/-- The origin of a profile is its first reading within the depth limit. -/
theorem originOf_of_truncate {F : CallForest} {k : ℕ} {a : CallStart} {b : HookInput}
    {c s : CallForest} (h : F.truncate k = .node a b c s) : originOf F = a.input.reading := by
  cases F with
  | nil => simp at h
  | node a' b' c' s' =>
    cases k with
    | zero => simp at h
    | succ k =>
      rw [Forest.truncate_succ_node, Forest.node.injEq] at h
      rw [originOf, h.1]

/-! ## Call trees -/

section CallTrees

variable {wt : Key metrics} {profileData : ProfileData metrics}
  {samples : List (MetricValueSet metrics)} {whole range : Range}

/-- The calls of a forest are nameable when the names of its functions are. -/
theorem nameable_of_records (list : CallList metrics) {functions : List PhpFunction}
    {z : MetricValues} {T : CallForest}
    (hrecords : Records functions z list.array.element 0 (-1) T)
    (hsize : list.getSize = T.labels.length)
    (hnames : ∀ idx name, list.functionNames idx = some name → name ∉ inheritedNames) :
    ∀ idx < list.getSize, list.Nameable idx := by
  intro idx hidx
  have hall := nameable_records hrecords (show Above list (-1) [] from rfl) le_rfl
    (by rw [zero_add, hsize]) fun idx => nameKey_notMem hnames _
  refine hall (list.entry idx) (List.mem_map_of_mem ?_)
  rw [List.mem_range'_1]
  omega

/-- The call trees at the nodes of a loaded profile. -/
theorem Loaded.exists_callTree (h : Loaded wt profileData samples whole)
    (hnames : ∀ idx < profileData.callList.getSize, profileData.callList.Nameable idx) :
    ∃ callTree, profileData.callRangeTree.callTreeStats wt profileData.callList
      = some callTree := by
  obtain ⟨hbuilt, -⟩ := Page.builtTree h
  obtain ⟨callTree, hcallTree, -⟩ := hbuilt.exists_callTreeStats h.callsIn
    (fun idx hidx => hnames idx (List.mem_range.mp hidx)) le_rfl
  exact ⟨callTree, hcallTree⟩

/-- The call tree of a range that can be shown. -/
theorem Page.Showable.exists_callTree (hrange : Page.Showable wt profileData whole range)
    (h : Loaded wt profileData samples whole)
    (hnames : ∀ idx < profileData.callList.getSize, profileData.callList.Nameable idx) :
    ∃ callTree, profileData.callRangeTree.queryCallTree wt profileData.callList
      profileData.metricValuesList range none none = some callTree := by
  obtain ⟨hbuilt, hnode⟩ := Page.builtTree h
  have hall : ∀ idx ∈ List.range profileData.callList.getSize,
      profileData.callList.Nameable idx := fun idx hidx => hnames idx (List.mem_range.mp hidx)
  rcases hrange.contains h with hinside | hinside
  · obtain ⟨lower, upper, hbounds⟩ := exists_queryBounds (h.covers.mono hinside)
    obtain ⟨callTree, hcallTree, -⟩ := hbuilt.answersCallTree hbounds h.callsIn hall le_rfl
      none none (.inl rfl) (.inl rfl)
    exact ⟨callTree, hcallTree⟩
  · -- the whole profile is inside the range
    obtain ⟨callTree, hcallTree⟩ := h.exists_callTree hnames
    refine ⟨callTree, ?_⟩
    cases htree : profileData.callRangeTree with
    | absent =>
      rw [htree] at hnode
      cases hnode
    | node treeRange callRefs functionsStats cumCostStats first second =>
      rw [htree] at hnode hcallTree
      obtain rfl : treeRange = whole := Option.some.inj hnode
      rw [CallRangeTree.queryCallTree, if_neg (not_not_intro hinside.overlaps.symm),
        if_pos hinside]
      exact hcallTree

end CallTrees

section Runs

variable (limits : Limits) (zendInlineHashFunc : String → UInt64) (maxDepth : ℕ)
  (enabledMetrics : Metric → Bool) (junk : MetricValues)

/-- The profile of a run is loaded, and its calls are those of the forest of the run. -/
theorem exists_runProfile {ops : List TracerOp} {n : ℕ} (hops : height 0 ops = some n)
    (inputs : ℕ → HookInput) (calledFunctionCount : ℕ)
    (wt : Key (enabledMetricsOf enabledMetrics)) (functionNames : ℕ → Option String) :
    let p := spxProfilerTracerCreate limits zendInlineHashFunc maxDepth enabledMetrics junk
    let z := originOf (callForest ops inputs)
    let T := (callForest ops inputs).truncate p.maxDepth
    (T.labels.map callFunction).toFinset.card ≤ limits.maxFunctionTableSize →
    (ops ++ Live.closings n inputs).Pairwise
      (fun op op' => op.reading wt.1 ≤ op'.reading wt.1) →
    (∃ op ∈ T.word, z wt < TracerOp.reading op wt) →
    (∀ t, emptyCalls wt.1 t T < minCallsPerNode) →
    ∃ (q : Tracer) (builder : ProfileDataBuilder (enabledMetricsOf enabledMetrics)),
      tracerProfile p ops inputs = .ok q ∧
      ProfileDataBuilder.addEvents (reportEvents q.notified) (.setMetadata calledFunctionCount)
          = some builder ∧
      let list := { builder.callList with functionNames := functionNames }
      list.getSize = T.labels.length ∧
      (∃ functions, Records functions z list.array.element 0 (-1) T) ∧
      ∃ fuel tree whole, buildCallRangeTree wt list builder.metricValuesList.reader fuel
          (builder.stats.max wt) = some tree ∧
        Loaded wt ⟨builder.stats, list, builder.metricValuesList.reader, tree⟩
          (T.word.map (sampleOf z)) whole ∧
        InOrder wt.1 (z wt) T (z wt + builder.stats.max wt) := by
  intro p z T hT hmono htime hfew
  obtain ⟨q, L, hq, href, hfollows⟩ := tracerProfile_follows limits zendInlineHashFunc maxDepth
    enabledMetrics junk hops inputs hT
  have hF : ∀ f ∈ T.labels.map callFunction, f ∈ L.functions :=
    fun f hf => (hfollows.mem_functions f).mpr (.inr hf)
  have hstack : StackShows L.functions
      (.setMetadata calledFunctionCount :
        ProfileDataBuilder (enabledMetricsOf enabledMetrics)).stack [] := .nil
  obtain ⟨B, hB, hbuilt⟩ := exists_built z T hF hstack
  have hsampled := sampled_of_addEvents z T hF hstack hB
  refine ⟨q, B, hq, ?_, ?_⟩
  · rw [href.notified, reportEvents_conclude L hfollows.log]
    exact hB
  intro list
  have hsize : list.getSize = T.labels.length := hbuilt.size_callList rfl rfl
  have hword : (callForest ops inputs).word = ops ++ Live.closings n inputs := by
    rw [callForest, hops]
    exact word_forestOf (show WellNested _ by
      rw [WellNested, height_append, hops]
      exact Live.height_closings_depth n inputs)
  exact ⟨hsize, ⟨L.functions, hbuilt.calls⟩, exists_loaded list hF hbuilt.calls hsize hsampled
    (fun a b c s h => originOf_of_truncate h)
    ((hword ▸ hmono).sublist (word_truncate_sublist _ _)) htime hfew⟩

/-- **The page of a run.**  When a finalized profile takes time, its wall times never decrease,
fewer than 500 calls take no time at one moment and no function has a name that every object
inherits, the page makes the tree of its calls, and whatever the user does then, no handler fails,
and all widgets are at one range, with its statistics. -/
theorem run_page_in_step {ops : List TracerOp} {n : ℕ} (hops : height 0 ops = some n)
    (inputs : ℕ → HookInput) (calledFunctionCount : ℕ)
    (wt : Key (enabledMetricsOf enabledMetrics)) (functionNames : ℕ → Option String)
    (hnames : ∀ idx name, functionNames idx = some name → name ∉ inheritedNames) :
    let p := spxProfilerTracerCreate limits zendInlineHashFunc maxDepth enabledMetrics junk
    let T := (callForest ops inputs).truncate p.maxDepth
    (T.labels.map callFunction).toFinset.card ≤ limits.maxFunctionTableSize →
    (ops ++ Live.closings n inputs).Pairwise
      (fun op op' => op.reading wt.1 ≤ op'.reading wt.1) →
    (∃ op ∈ T.word, originOf (callForest ops inputs) wt < TracerOp.reading op wt) →
    (∀ t, emptyCalls wt.1 t T < minCallsPerNode) →
    ∃ (q : Tracer) (builder : ProfileDataBuilder (enabledMetricsOf enabledMetrics)),
      tracerProfile p ops inputs = .ok q ∧
      ProfileDataBuilder.addEvents (reportEvents q.notified) (.setMetadata calledFunctionCount)
          = some builder ∧
      let list := { builder.callList with functionNames := functionNames }
      ∃ fuel tree, buildCallRangeTree wt list builder.metricValuesList.reader fuel
          (builder.stats.max wt) = some tree ∧
        (∃ callTree, tree.callTreeStats wt list = some callTree) ∧
        let profileData : ProfileData (enabledMetricsOf enabledMetrics) :=
          ⟨builder.stats, list, builder.metricValuesList.reader, tree⟩
        ∃ hwall, ∀ (overViewWidth : ℚ) (hwidth : 0 < overViewWidth) (viewPort : ViewPort)
          (hview : 0 < viewPort.width) (events : List PageEvent),
          ∃ page range timeRangeStats,
            Page.create wt profileData hwall overViewWidth hwidth viewPort hview = some page ∧
            profileData.getTimeRangeStats wt range = some timeRangeStats ∧
            (∃ callTree, tree.queryCallTree wt list builder.metricValuesList.reader range none none
              = some callTree) ∧
            ∀ widget, (page.run wt profileData events).shown widget = ⟨range, timeRangeStats⟩ := by
  intro p T hT hmono htime hfew
  obtain ⟨q, builder, hq, hbuilder, hsize, ⟨functions, hrecords⟩, fuel, tree, whole, hbuild, hloaded,
    -⟩ := exists_runProfile limits zendInlineHashFunc maxDepth enabledMetrics junk hops inputs
      calledFunctionCount wt functionNames hT hmono htime hfew
  have hnameable := nameable_of_records { builder.callList with functionNames := functionNames }
    hrecords hsize hnames
  refine ⟨q, builder, hq, hbuilder, fuel, tree, hbuild, hloaded.exists_callTree hnameable,
    hloaded.wallTime_pos, ?_⟩
  intro overViewWidth hwidth viewPort hview events
  obtain ⟨page, hpage, hnew⟩ := Page.exists_create hloaded overViewWidth hwidth viewPort hview
  obtain ⟨range, hrun⟩ := hnew.run hloaded events
  obtain ⟨timeRangeStats, hstats, hshown⟩ := hrun.shown
  exact ⟨page, range, timeRangeStats, hpage, hstats,
    hrun.showable.exists_callTree hloaded hnameable, hshown⟩

end Runs

/-- The page of a run with a recursive call, and a user who drags the range and zooms. -/
theorem run_page_in_step_recursion :
    ∃ (q : Tracer) (builder : ProfileDataBuilder (enabledMetricsOf (· = .wallTime))),
      tracerProfile
          (spxProfilerTracerCreate (limitsInit fun _ => none) (fun _ => 0) 0 (· = .wallTime) 0)
          [callAt "f" 0, callAt "g" 1, callAt "f" 3, .closing (endAt 6)] (fun _ => endAt 10) = .ok q ∧
      ProfileDataBuilder.addEvents (reportEvents q.notified) (.setMetadata 2) = some builder ∧
      let list := { builder.callList with functionNames := fun idx => ["f", "g"][idx]? }
      ∃ fuel tree, buildCallRangeTree ⟨.wallTime, wallTime_mem⟩ list builder.metricValuesList.reader
          fuel (builder.stats.max ⟨.wallTime, wallTime_mem⟩) = some tree ∧
        ∃ (page : Page (enabledMetricsOf (· = .wallTime))) (range : Range), ∀ widget,
          ((page.run ⟨.wallTime, wallTime_mem⟩
            ⟨builder.stats, list, builder.metricValuesList.reader, tree⟩
            [.overViewMouse .mousemove 0 40, .overViewMouse .mousemove 1 60,
              .timeLineWheel 1 10]).shown widget).timeRange = range := by
  obtain ⟨q, builder, hq, hbuilder, fuel, tree, htree, -, hwall, hpage⟩ :=
    run_page_in_step (limitsInit fun _ => none) (fun _ => 0) 0 (· = .wallTime) 0
      (show height 0 [callAt "f" 0, callAt "g" 1, callAt "f" 3, .closing (endAt 6)] = some 2
        from rfl) (fun _ => endAt 10) 2 ⟨.wallTime, wallTime_mem⟩ (fun idx => ["f", "g"][idx]?)
      notMem_inheritedNames (by decide) (by decide +kernel) (by decide +kernel)
      (fun t => (emptyCalls_le_length _ t _).trans_lt (by decide))
  obtain ⟨page, range, timeRangeStats, -, -, -, hshown⟩ := hpage 100 (by norm_num) ⟨100, 50⟩
    (by norm_num) [.overViewMouse .mousemove 0 40, .overViewMouse .mousemove 1 60,
      .timeLineWheel 1 10]
  exact ⟨q, builder, hq, hbuilder, fuel, tree, htree, page, range,
    fun widget => congrArg Shown.timeRange (hshown widget)⟩

end PhpSpx.WebUi
