import PhpSpx.WebUi.TimeRangeStats

/-!
# The cumulative costs of a time range

The cumulative costs that `CallRangeTree.getTimeRangeStats` gives are put together from those of
the children and those of the part of the range that `Range.sub` leaves without them.  They are
the costs of the range, except where only the first half of a node has a child: the range of a
child that begins the part looked for is taken off its end.

* `Meets.sub_left`, `Meets.sub_right` — what is left of a query without a half.
* `LosesRest` — a node where a part of the query is lost.
* `BuiltTree.exists_stats` — with what is lost the costs are those of the query.
* `cum_cost_stats_additive_iff` — when nothing is lost.
-/

namespace PhpSpx.WebUi

variable {metrics : EnabledMetrics}

/-! ## What `Range.sub` leaves -/

namespace Range

variable {range other : Range}

theorem sub_of_contains (h : other.Contains range) :
    range.sub other = ⟨range.begin, range.begin, le_rfl⟩ := if_pos h

theorem sub_of_not_overlaps (h : ¬range.Overlaps other) : range.sub other = range := by
  have hout : ¬other.Contains range := fun hcontains => h hcontains.overlaps.symm
  have hin : ¬range.Contains other := fun hcontains => h hcontains.overlaps
  have hshorten : range.shorten other = range := dif_neg hin
  simp only [sub, hshorten, if_neg hout, if_neg h]

/-- A range behind the begin is taken off the end. -/
theorem sub_of_begin_lt (h : range.begin < other.begin) (hcut : other.begin ≤ range.last)
    (hlast : range.last ≤ other.last) : range.sub other = ⟨range.begin, other.begin, h.le⟩ := by
  have hout : ¬other.Contains range := fun hcontains => absurd hcontains.1 (not_le.mpr h)
  have hbegin : (range.shorten other).begin = range.begin := by
    rw [shorten]
    split <;> rfl
  have hle : other.begin ≤ (range.shorten other).last := by
    rw [shorten]
    split
    · rename_i hin
      have heq : range.last = other.last := le_antisymm hlast hin.2
      change other.begin ≤ range.last - (other.last - other.begin)
      rw [heq, sub_sub_cancel]
    · exact hcut
  have hvalue : (range.shorten other).ContainsValue other.begin := ⟨hbegin ▸ h.le, hle⟩
  have hoverlaps : (range.shorten other).Overlaps other :=
    overlaps_iff.mpr ⟨hle, hbegin ▸ h.le.trans other.ordered⟩
  simp only [sub, if_neg hout, if_pos hoverlaps, dif_pos hvalue, hbegin]

/-- A range that reaches over the begin is taken off there. -/
theorem sub_of_lt_begin (h : other.begin < range.begin) (hcut : range.begin ≤ other.last)
    (hlast : other.last < range.last) :
    range.sub other = ⟨other.last, range.last, hlast.le⟩ := by
  have hout : ¬other.Contains range := fun hcontains => absurd hcontains.2 (not_le.mpr hlast)
  have hin : ¬range.Contains other := fun hcontains => absurd hcontains.1 (not_le.mpr h)
  have hshorten : range.shorten other = range := dif_neg hin
  have hoverlaps : range.Overlaps other :=
    overlaps_iff.mpr ⟨other.ordered.trans hlast.le, hcut⟩
  have hvalue : ¬range.ContainsValue other.begin := fun hv => absurd hv.1 (not_le.mpr h)
  have hvalue' : range.ContainsValue other.last := ⟨hcut, hlast.le⟩
  simp only [sub, hshorten, if_neg hout, if_pos hoverlaps, dif_neg hvalue, dif_pos hvalue']

/-- **A range at the begin** is taken off the end, and then all that is left is. -/
theorem sub_of_begin_eq (h : other.begin = range.begin) (hlast : other.last < range.last) :
    range.sub other = ⟨range.begin, range.begin, le_rfl⟩ := by
  have hout : ¬other.Contains range := fun hcontains => absurd hcontains.2 (not_le.mpr hlast)
  have hbegin : (range.shorten other).begin = range.begin := by
    rw [shorten]
    split <;> rfl
  have hle : range.begin ≤ (range.shorten other).last :=
    hbegin.ge.trans (range.shorten other).ordered
  have hvalue : (range.shorten other).ContainsValue range.begin := ⟨hbegin.le, hle⟩
  have hoverlaps : (range.shorten other).Overlaps other :=
    overlaps_iff.mpr ⟨h.le.trans hle, hbegin.le.trans (h.ge.trans other.ordered)⟩
  simp only [sub, if_neg hout, if_pos hoverlaps, dif_pos hvalue, hbegin, h]

end Range

/-! ## The halves of a query -/

section Spans

variable {G : Type} [AddCommGroup G] (U : ℚ → G)

/-- What `U` changes by over a range. -/
def span (range : Range) : G := U range.last - U range.begin

/-- What `U` changes by over the part of a query in a range. -/
def spanIn (query range : Range) : G :=
  if range.Overlaps query then
    U (min range.last query.last) - U (max range.begin query.begin)
  else 0

variable {U} {treeRange query meet : Range}

theorem span_eq_zero (h : meet.length = 0) : span U meet = 0 := by
  rw [span, sub_eq_zero.mp h, sub_self]

/-- Nothing is left of an empty range, or of one that is covered. -/
theorem span_sub_eq_zero {other : Range} (h : meet.length = 0 ∨ other.Contains meet) :
    span U (meet.sub other) = 0 := by
  rcases h with hzero | hcontains
  · apply span_eq_zero
    apply le_antisymm _ (Range.length_nonneg _)
    rw [← hzero]
    exact (meet.contains_sub other).length_le
  · rw [Range.sub_of_contains hcontains, span, sub_self]

/-- The part of a query in a range is the sum of the parts in its halves. -/
theorem spanIn_halves (h : treeRange.Overlaps query) :
    spanIn U query treeRange.left + spanIn U query treeRange.right = spanIn U query treeRange := by
  obtain ⟨hqueryBegin, hqueryLast⟩ := Range.overlaps_iff.mp h
  have hb := treeRange.begin_le_center
  have he := treeRange.center_le_last
  have hq := query.ordered
  rw [spanIn, spanIn, spanIn, if_pos h]
  rcases le_or_gt query.begin treeRange.center with hx | hx
  · have hleft : treeRange.left.Overlaps query := Range.overlaps_iff.mpr ⟨hx, hqueryLast⟩
    rw [if_pos hleft]
    rcases le_or_gt treeRange.center query.last with hy | hy
    · have hright : treeRange.right.Overlaps query := Range.overlaps_iff.mpr ⟨hqueryBegin, hy⟩
      rw [if_pos hright]
      change U (min treeRange.center query.last) - U (max treeRange.begin query.begin) +
        (U (min treeRange.last query.last) - U (max treeRange.center query.begin)) = _
      rw [min_eq_left hy, max_eq_left hx, add_comm, sub_add_sub_cancel]
    · have hright : ¬treeRange.right.Overlaps query :=
        fun hright => absurd (Range.overlaps_iff.mp hright).2 (not_le.mpr hy)
      rw [if_neg hright, add_zero, min_eq_right (hy.le.trans he)]
      change U (min treeRange.center query.last) - _ = _
      rw [min_eq_right hy.le]
      rfl
  · have hleft : ¬treeRange.left.Overlaps query :=
      fun hleft => absurd (Range.overlaps_iff.mp hleft).1 (not_le.mpr hx)
    have hright : treeRange.right.Overlaps query :=
      Range.overlaps_iff.mpr ⟨hqueryBegin, hx.le.trans hq⟩
    rw [if_neg hleft, if_pos hright, zero_add, max_eq_right (hb.trans hx.le)]
    change _ - U (max treeRange.center query.begin) = _
    rw [max_eq_right hx.le]
    rfl

/-- The meet of a range with the query. -/
structure Meets (treeRange query meet : Range) : Prop where
  begin_eq : meet.begin = max treeRange.begin query.begin
  last_eq : meet.last = min treeRange.last query.last

theorem Meets.overlaps (h : Meets treeRange query meet) : treeRange.Overlaps query := by
  have hle := meet.ordered
  rw [h.begin_eq, h.last_eq] at hle
  exact Range.overlaps_iff.mpr ⟨(le_max_right _ _).trans (hle.trans (min_le_left _ _)),
    (le_max_left _ _).trans (hle.trans (min_le_right _ _))⟩

theorem Meets.span_eq (h : Meets treeRange query meet) :
    span U meet = spanIn U query treeRange := by
  rw [span, spanIn, if_pos h.overlaps, h.begin_eq, h.last_eq]

theorem Meets.contains (h : Meets treeRange query meet) : treeRange.Contains meet := by
  rw [Range.Contains, h.begin_eq, h.last_eq]
  exact ⟨le_max_left _ _, min_le_left _ _⟩

theorem Meets.contained (h : Meets treeRange query meet) : query.Contains meet := by
  rw [Range.Contains, h.begin_eq, h.last_eq]
  exact ⟨le_max_right _ _, min_le_right _ _⟩

/-- **Without the second half** the first half of the query is left. -/
theorem Meets.sub_right (h : Meets treeRange query meet) :
    ((meet.sub treeRange.right).length = 0 ∨ treeRange.left.Contains (meet.sub treeRange.right)) ∧
      span U (meet.sub treeRange.right) = spanIn U query treeRange.left := by
  obtain ⟨hb, he⟩ := h.contains
  obtain ⟨hx, hy⟩ := h.contained
  have hc := treeRange.center_le_last
  have hordered := meet.ordered
  rcases le_or_gt treeRange.center meet.begin with hp | hp
  · -- the query is in the second half
    have hsub : meet.sub treeRange.right = ⟨meet.begin, meet.begin, le_rfl⟩ :=
      Range.sub_of_contains ⟨hp, he⟩
    rw [hsub]
    refine ⟨.inl (sub_self _), ?_⟩
    rw [span, sub_self, spanIn]
    split
    · rename_i hleft
      have hpc : meet.begin = treeRange.center := by
        apply le_antisymm _ hp
        rw [h.begin_eq]
        exact max_le treeRange.begin_le_center (Range.overlaps_iff.mp hleft).1
      have hmax : max treeRange.left.begin query.begin = meet.begin := h.begin_eq.symm
      have hmin : min treeRange.left.last query.last = treeRange.center :=
        min_eq_left (hp.trans (hordered.trans hy))
      rw [hmax, hmin, hpc, sub_self]
    · rfl
  · have hmax : max treeRange.left.begin query.begin = meet.begin := h.begin_eq.symm
    have hleft : treeRange.left.Overlaps query :=
      Range.overlaps_iff.mpr ⟨hx.trans hp.le, hb.trans (hordered.trans hy)⟩
    rw [spanIn, if_pos hleft, hmax]
    rcases le_or_gt treeRange.center meet.last with hq | hq
    · have hsub : meet.sub treeRange.right = ⟨meet.begin, treeRange.center, hp.le⟩ :=
        Range.sub_of_begin_lt hp hq he
      have hmin : min treeRange.left.last query.last = treeRange.center :=
        min_eq_left (hq.trans hy)
      rw [hsub, hmin]
      exact ⟨.inr ⟨hb, le_rfl⟩, rfl⟩
    · have hsub : meet.sub treeRange.right = meet :=
        Range.sub_of_not_overlaps fun ho =>
          absurd (Range.overlaps_iff.mp ho).1 (not_le.mpr hq)
      have hlast : meet.last = query.last := by
        rw [h.last_eq] at hq ⊢
        exact min_eq_right ((min_lt_iff.mp (hq.trans_le hc)).resolve_left (lt_irrefl _)).le
      have hmin : min treeRange.left.last query.last = query.last :=
        min_eq_right (hlast.ge.trans hq.le)
      rw [hsub, hmin, ← hlast]
      exact ⟨.inr ⟨hb, hq.le⟩, rfl⟩

/-- The query covers the begin of a node and ends in its second half. -/
def LosesPart (query treeRange : Range) : Prop :=
  query.begin ≤ treeRange.begin ∧ treeRange.center < query.last ∧ query.last < treeRange.last

instance : Decidable (LosesPart query treeRange) := inferInstanceAs (Decidable (_ ∧ _ ∧ _))

/-- A query that ends in the first half is used up by it. -/
theorem Meets.sub_left_of_le (h : Meets treeRange query meet) (hq : meet.last ≤ treeRange.center) :
    (meet.sub treeRange.left).length = 0 ∧ ¬LosesPart query treeRange ∧
      span U (meet.sub treeRange.left) = spanIn U query treeRange.right := by
  have hsub : meet.sub treeRange.left = ⟨meet.begin, meet.begin, le_rfl⟩ :=
    Range.sub_of_contains ⟨h.contains.1, hq⟩
  rw [hsub]
  refine ⟨sub_self _, ?_, ?_⟩
  · rintro ⟨-, hlt, hend⟩
    rw [h.last_eq, min_eq_right hend.le] at hq
    exact absurd hlt (not_lt.mpr hq)
  · rw [span, sub_self, spanIn]
    split
    · rename_i hright
      have hqc : meet.last = treeRange.center := by
        apply le_antisymm hq
        rw [h.last_eq]
        exact le_min treeRange.center_le_last (Range.overlaps_iff.mp hright).2
      have hmin : min treeRange.right.last query.last = meet.last := h.last_eq.symm
      have hmax : max treeRange.right.begin query.begin = treeRange.center :=
        max_eq_left (h.contained.1.trans (meet.ordered.trans hq))
      rw [hmax, hmin, hqc, sub_self]
    · rfl

/-- A query that begins inside the node and ends in the second half keeps its part of that. -/
theorem Meets.sub_left_of_lt (h : Meets treeRange query meet) (hfrom : treeRange.begin < query.begin)
    (hq : treeRange.center < meet.last) :
    treeRange.right.Contains (meet.sub treeRange.left) ∧
      span U (meet.sub treeRange.left) =
        U meet.last - U (max treeRange.right.begin query.begin) := by
  have he := h.contains.2
  have hbegin : meet.begin = query.begin := h.begin_eq.trans (max_eq_right hfrom.le)
  rcases le_or_gt meet.begin treeRange.center with hp | hp
  · have hsub : meet.sub treeRange.left = ⟨treeRange.center, meet.last, hq.le⟩ :=
      Range.sub_of_lt_begin (hbegin ▸ hfrom) hp hq
    have hmax : max treeRange.right.begin query.begin = treeRange.center :=
      max_eq_left (hbegin ▸ hp)
    rw [hsub, hmax]
    exact ⟨⟨le_rfl, he⟩, rfl⟩
  · have hsub : meet.sub treeRange.left = meet :=
      Range.sub_of_not_overlaps fun ho =>
        absurd (Range.overlaps_iff.mp ho).2 (not_le.mpr hp)
    have hmax : max treeRange.right.begin query.begin = meet.begin :=
      (max_eq_right (hbegin ▸ hp.le)).trans hbegin.symm
    rw [hsub, hmax]
    exact ⟨⟨hp.le, he⟩, rfl⟩

/-- **Without the first half** the second half of the query is left, or nothing. -/
theorem Meets.sub_left (h : Meets treeRange query meet) (hpart : ¬query.Contains treeRange) :
    ((meet.sub treeRange.left).length = 0 ∨ treeRange.right.Contains (meet.sub treeRange.left)) ∧
      span U (meet.sub treeRange.left) +
        (if LosesPart query treeRange then U query.last - U treeRange.center else 0) =
          spanIn U query treeRange.right := by
  rcases le_or_gt meet.last treeRange.center with hq | hq
  · obtain ⟨hempty, hloses, hspan⟩ := h.sub_left_of_le (U := U) hq
    rw [if_neg hloses, add_zero]
    exact ⟨.inl hempty, hspan⟩
  · have hmin : min treeRange.right.last query.last = meet.last := h.last_eq.symm
    have hright : treeRange.right.Overlaps query :=
      Range.overlaps_iff.mpr
        ⟨h.contained.1.trans (meet.ordered.trans h.contains.2), hq.le.trans h.contained.2⟩
    rw [spanIn, if_pos hright, hmin]
    rcases le_or_gt query.begin treeRange.begin with hfrom | hfrom
    · -- the first half begins the part looked for
      have hbegin : meet.begin = treeRange.begin := h.begin_eq.trans (max_eq_left hfrom)
      have hend : query.last < treeRange.last := not_le.mp fun hle => hpart ⟨hfrom, hle⟩
      have hlast : meet.last = query.last := h.last_eq.trans (min_eq_right hend.le)
      have hsub : meet.sub treeRange.left = ⟨meet.begin, meet.begin, le_rfl⟩ :=
        Range.sub_of_begin_eq hbegin.symm hq
      have hloses : LosesPart query treeRange := ⟨hfrom, hlast ▸ hq, hend⟩
      have hmax : max treeRange.right.begin query.begin = treeRange.center :=
        max_eq_left (hfrom.trans treeRange.begin_le_center)
      rw [hsub, if_pos hloses, hmax, span, sub_self, zero_add, hlast]
      exact ⟨.inl (sub_self _), rfl⟩
    · have hloses : ¬LosesPart query treeRange := fun hl => absurd hl.1 (not_le.mpr hfrom)
      obtain ⟨hinside, hspan⟩ := h.sub_left_of_lt (U := U) hfrom hq
      rw [if_neg hloses, add_zero]
      exact ⟨.inr hinside, hspan⟩

/-! ## What a query loses -/

/-- Only the first half of a node has a child. -/
def OnlyFirstHalf (treeRange : Range) (first second : CallRangeTree metrics) : Prop :=
  first.range? = some treeRange.left ∧ second.range? = none ∨
    first.range? = none ∧ second.range? = some treeRange.left

instance (treeRange : Range) (first second : CallRangeTree metrics) :
    Decidable (OnlyFirstHalf treeRange first second) :=
  inferInstanceAs (Decidable (_ ∧ _ ∨ _ ∧ _))

/-- **Where a part of a query is lost**: only the first half of a node has a child, and the query
covers the begin of the node and ends in its second half. -/
def LosesRest (query : Range) : CallRangeTree metrics → Prop
  | .absent => False
  | .node treeRange _ _ _ first second =>
    OnlyFirstHalf treeRange first second ∧ LosesPart query treeRange

/-- What a query loses below a node. -/
def lost (U : ℚ → G) (query : Range) : CallRangeTree metrics → G
  | .absent => 0
  | .node treeRange _ _ _ first second =>
    if ¬treeRange.Overlaps query then 0
    else if query.Contains treeRange then 0
    else lost U query first + lost U query second +
      if OnlyFirstHalf treeRange first second ∧ LosesPart query treeRange then
        U query.last - U treeRange.center
      else 0

end Spans

section Costs

variable {U : ℚ → CumCostStats metrics} {treeRange query : Range}

/-- The costs found and those lost. -/
def foundAndLost (U : ℚ → CumCostStats metrics) (query : Range) (tree : CallRangeTree metrics) :
    CumCostStats metrics :=
  tree.queryCosts (span U) query + lost U query tree

/-- What a node has besides its children. -/
def besides (U : ℚ → CumCostStats metrics) (query treeRange : Range)
    (first second : CallRangeTree metrics) : CumCostStats metrics :=
  span U (remainingRange treeRange query first second) +
    if OnlyFirstHalf treeRange first second ∧ LosesPart query treeRange then
      U query.last - U treeRange.center
    else 0

/-- A child of a half that has no part of the query but that of the half. -/
def HalfChild (U : ℚ → CumCostStats metrics) (query half : Range) (child : CallRangeTree metrics) :
    Prop :=
  child = .absent ∨ child.range? = some half ∧ foundAndLost U query child = spanIn U query half

theorem not_losesPart_of_left_eq_right (h : treeRange.left = treeRange.right) :
    ¬LosesPart query treeRange := by
  rintro ⟨-, hlt, hend⟩
  have hlast : treeRange.center = treeRange.last := congrArg Range.last h
  exact absurd (hlt.trans hend) (not_lt.mpr hlast.ge)

theorem remove_of_range {child : CallRangeTree metrics} {childRange : Range}
    (h : child.range? = some childRange) (remaining : Range) :
    child.remove remaining = remaining.sub childRange := by
  rw [CallRangeTree.remove, h]

/-- Besides no children there is the whole part. -/
theorem besides_absent {meet : Range} (hmeets : Meets treeRange query meet)
    (hmeet : treeRange.intersect query = some meet) :
    besides U query treeRange .absent .absent = spanIn U query treeRange := by
  have hnot : ¬(OnlyFirstHalf treeRange (.absent : CallRangeTree metrics) .absent ∧
      LosesPart query treeRange) := by
    rintro ⟨⟨h, -⟩ | ⟨-, h⟩, -⟩ <;> exact nomatch h
  rw [besides, remainingRange, hmeet, Option.getD_some, if_neg hnot, add_zero]
  exact hmeets.span_eq

/-- Besides a child of the first half there is the part in the second, or it is lost. -/
theorem besides_left {meet : Range} (hmeets : Meets treeRange query meet)
    (hmeet : treeRange.intersect query = some meet) (hpart : ¬query.Contains treeRange)
    {child : CallRangeTree metrics} (h : child.range? = some treeRange.left) :
    besides U query treeRange child .absent = spanIn U query treeRange.right ∧
      besides U query treeRange .absent child = spanIn U query treeRange.right := by
  have hsub := (hmeets.sub_left (U := U) hpart).2
  have honly : OnlyFirstHalf treeRange child .absent := .inl ⟨h, rfl⟩
  have honly' : OnlyFirstHalf treeRange .absent child := .inr ⟨rfl, h⟩
  rw [← remove_of_range h] at hsub
  constructor
  · rw [besides, remainingRange, hmeet, Option.getD_some]
    simp only [honly, true_and]
    exact hsub
  · rw [besides, remainingRange, hmeet, Option.getD_some]
    simp only [honly', true_and]
    exact hsub

/-- Besides a child of the second half there is the part in the first. -/
theorem besides_right {meet : Range} (hmeets : Meets treeRange query meet)
    (hmeet : treeRange.intersect query = some meet) {child : CallRangeTree metrics}
    (h : child.range? = some treeRange.right) :
    besides U query treeRange child .absent = spanIn U query treeRange.left ∧
      besides U query treeRange .absent child = spanIn U query treeRange.left := by
  have hsub := (hmeets.sub_right (U := U)).2
  rw [← remove_of_range h] at hsub
  constructor
  · have hnot : ¬(OnlyFirstHalf treeRange child .absent ∧ LosesPart query treeRange) := by
      rintro ⟨⟨h', -⟩ | ⟨-, h'⟩, hloses⟩
      · exact not_losesPart_of_left_eq_right (Option.some.inj (h'.symm.trans h)) hloses
      · exact nomatch h'
    rw [besides, remainingRange, hmeet, Option.getD_some, if_neg hnot, add_zero]
    exact hsub
  · have hnot : ¬(OnlyFirstHalf treeRange .absent child ∧ LosesPart query treeRange) := by
      rintro ⟨⟨h', -⟩ | ⟨-, h'⟩, hloses⟩
      · exact nomatch h'
      · exact not_losesPart_of_left_eq_right (Option.some.inj (h'.symm.trans h)) hloses
    rw [besides, remainingRange, hmeet, Option.getD_some, if_neg hnot, add_zero]
    exact hsub

/-- Besides two children there is nothing. -/
theorem besides_both {meet : Range} (hmeets : Meets treeRange query meet)
    (hmeet : treeRange.intersect query = some meet) (hpart : ¬query.Contains treeRange)
    {left right : CallRangeTree metrics} (hl : left.range? = some treeRange.left)
    (hr : right.range? = some treeRange.right) :
    besides U query treeRange left right = 0 ∧ besides U query treeRange right left = 0 := by
  have hnot : ∀ first second : CallRangeTree metrics, first.range? ≠ none → second.range? ≠ none →
      ¬(OnlyFirstHalf treeRange first second ∧ LosesPart query treeRange) := by
    rintro first second hfirst hsecond ⟨⟨-, h⟩ | ⟨h, -⟩, -⟩
    · exact hsecond h
    · exact hfirst h
  have hlNe : left.range? ≠ none := by rw [hl]; exact Option.some_ne_none _
  have hrNe : right.range? ≠ none := by rw [hr]; exact Option.some_ne_none _
  constructor
  · rw [besides, remainingRange, hmeet, Option.getD_some, if_neg (hnot _ _ hlNe hrNe), add_zero,
      remove_of_range hl, remove_of_range hr]
    exact span_sub_eq_zero (hmeets.sub_left (U := U) hpart).1
  · rw [besides, remainingRange, hmeet, Option.getD_some, if_neg (hnot _ _ hrNe hlNe), add_zero,
      remove_of_range hl, remove_of_range hr]
    exact span_sub_eq_zero (hmeets.sub_right (U := U)).1

/-- **The children and what is besides them** have the part of the query in the node. -/
theorem foundAndLost_children {meet : Range} (hmeets : Meets treeRange query meet)
    (hmeet : treeRange.intersect query = some meet) (hpart : ¬query.Contains treeRange)
    {left right : CallRangeTree metrics} (hleft : HalfChild U query treeRange.left left)
    (hright : HalfChild U query treeRange.right right) (async : Bool) :
    foundAndLost U query left + foundAndLost U query right +
        besides U query treeRange (if async then left else right) (if async then right else left) =
      spanIn U query treeRange := by
  have habsent : foundAndLost U query (.absent : CallRangeTree metrics) = 0 := zero_add 0
  have hhalves := spanIn_halves (U := U) hmeets.overlaps
  rcases hleft with rfl | ⟨hl, hlEq⟩
  · rcases hright with rfl | ⟨hr, hrEq⟩
    · rw [ite_self, habsent, zero_add, zero_add, besides_absent hmeets hmeet]
    · obtain ⟨hfirst, hsecond⟩ := besides_right (U := U) hmeets hmeet hr
      rw [habsent, zero_add, hrEq, ← hhalves, add_comm (spanIn U query treeRange.left)]
      cases async with
      | false => exact congrArg _ hfirst
      | true => exact congrArg _ hsecond
  · rcases hright with rfl | ⟨hr, hrEq⟩
    · obtain ⟨hfirst, hsecond⟩ := besides_left (U := U) hmeets hmeet hpart hl
      rw [habsent, add_zero, hlEq, ← hhalves]
      cases async with
      | false => exact congrArg _ hsecond
      | true => exact congrArg _ hfirst
    · obtain ⟨hlr, hrl⟩ := besides_both (U := U) hmeets hmeet hpart hl hr
      rw [hlEq, hrEq, hhalves]
      cases async with
      | false => exact (congrArg _ hrl).trans (add_zero _)
      | true => exact (congrArg _ hlr).trans (add_zero _)

end Costs

/-! ## Built trees -/

section Built

variable {wt : Key metrics} {list : CallList metrics} {metricValuesList : MetricValuesList metrics}
  {samples : List (MetricValueSet metrics)} {treeRange query : Range} {callRefs : List ℕ}
  {built : CallRangeTree metrics × CumCostStats metrics}

theorem spanIn_of_contains {G : Type} [AddCommGroup G] {U : ℚ → G}
    (h : query.Contains treeRange) : spanIn U query treeRange = span U treeRange := by
  rw [spanIn, if_pos h.overlaps.symm, min_eq_left h.2, max_eq_left h.1, span]

/-- **What is found and what is lost** make up the query. -/
theorem BuiltTree.halfChild (h : BuiltTree wt list metricValuesList treeRange callRefs built)
    (hcovers : metricValuesList.Covers wt samples treeRange) (query : Range) :
    HalfChild (metricValuesList.costsUntil wt samples) query treeRange built.1 := by
  induction h with
  | rest hcum => exact .inl rfl
  | @node treeRange callRefs placed keepLeft keepRight stats left right async hplaced hstats hl hr
      ihl ihr =>
    have hbuilt : BuiltTree wt list metricValuesList treeRange callRefs
        (joinHalves treeRange _ stats async left right, _) := .node hplaced hstats hl hr
    have hcosts := hbuilt.cumCostStats_eq hcovers
    have hleft := ihl (hcovers.mono treeRange.contains_left)
    have hright := ihr (hcovers.mono treeRange.contains_right)
    refine .inr ⟨rfl, ?_⟩
    rw [foundAndLost, joinHalves, CallRangeTree.queryCosts, lost]
    by_cases hoverlaps : treeRange.Overlaps query
    · rw [if_neg (not_not_intro hoverlaps), if_neg (not_not_intro hoverlaps)]
      by_cases hinside : query.Contains treeRange
      · rw [if_pos hinside, if_pos hinside, add_zero, spanIn_of_contains hinside]
        exact hcosts
      · obtain ⟨meet, hmeet, hbegin, hlast⟩ := Range.exists_intersect hoverlaps
        have hchildren := foundAndLost_children ⟨hbegin, hlast⟩ hmeet hinside hleft hright async
        rw [if_neg hinside, if_neg hinside, ← hchildren, foundAndLost, foundAndLost, besides]
        cases async with
        | false =>
          simp only [Bool.false_eq_true, if_false]
          abel
        | true =>
          simp only [if_true]
          abel
    · rw [if_pos hoverlaps, if_pos hoverlaps, add_zero, spanIn, if_neg hoverlaps]

/-- Nothing is lost without a node that loses something. -/
theorem lost_eq_zero {G : Type} [AddCommGroup G] (U : ℚ → G) {tree : CallRangeTree metrics}
    (h : ∀ node ∈ tree.nodes, ¬LosesRest query node) : lost U query tree = 0 := by
  induction tree with
  | absent => rfl
  | node treeRange callRefs stats cum first second ihf ihs =>
    rw [CallRangeTree.nodes, List.forall_mem_cons, List.forall_mem_append] at h
    obtain ⟨hself, hfirst, hsecond⟩ := h
    rw [LosesRest] at hself
    rw [lost, ihf hfirst, ihs hsecond, if_neg hself, add_zero, add_zero, ite_self, ite_self]

/-- A node that loses something is reached. -/
theorem overlaps_of_losesPart (h : LosesPart query treeRange) :
    treeRange.Overlaps query ∧ ¬query.Contains treeRange := by
  obtain ⟨hbegin, hcenter, hlast⟩ := h
  constructor
  · exact Range.overlaps_iff.mpr ⟨hbegin.trans treeRange.ordered,
      treeRange.begin_le_center.trans hcenter.le⟩
  · exact fun hcontains => absurd hcontains.2 (not_le.mpr hlast)

/-- What a node loses takes time. -/
theorem pos_of_losesPart (hcovers : metricValuesList.Covers wt samples treeRange)
    (h : LosesPart query treeRange) :
    0 < (metricValuesList.costsUntil wt samples query.last -
      metricValuesList.costsUntil wt samples treeRange.center).max wt := by
  obtain ⟨-, hcenter, hlast⟩ := h
  have hcontains : treeRange.Contains ⟨treeRange.center, query.last, hcenter.le⟩ :=
    ⟨treeRange.begin_le_center, hlast.le⟩
  exact (sub_pos.mpr hcenter).trans_le (hcovers.mono hcontains).length_le_costsIn

/-- A tree loses no negative time, and some time where one of its nodes loses something. -/
structure Misses (wt : Key metrics) (U : ℚ → CumCostStats metrics) (query treeRange : Range)
    (tree : CallRangeTree metrics) : Prop where
  nonneg : 0 ≤ (lost U query tree).max wt
  pos : (∃ node ∈ tree.nodes, LosesRest query node) →
    treeRange.Overlaps query ∧ ¬query.Contains treeRange ∧ 0 < (lost U query tree).max wt

theorem misses_node (hcovers : metricValuesList.Covers wt samples treeRange)
    {firstRange secondRange : Range} (hfirstIn : treeRange.Contains firstRange)
    (hsecondIn : treeRange.Contains secondRange) {first second : CallRangeTree metrics}
    (hfirst : Misses wt (metricValuesList.costsUntil wt samples) query firstRange first)
    (hsecond : Misses wt (metricValuesList.costsUntil wt samples) query secondRange second)
    (refs : List ℕ) (stats : FunctionsStats metrics) (cum : CumCostStats metrics) :
    Misses wt (metricValuesList.costsUntil wt samples) query treeRange
      (.node treeRange refs stats cum first second) := by
  have hown : 0 ≤ (if OnlyFirstHalf treeRange first second ∧ LosesPart query treeRange then
      metricValuesList.costsUntil wt samples query.last -
        metricValuesList.costsUntil wt samples treeRange.center else 0).max wt := by
    split
    · rename_i hloses
      exact (pos_of_losesPart hcovers hloses.2).le
    · exact le_rfl
  have hchildren := add_nonneg hfirst.nonneg hsecond.nonneg
  constructor
  · rw [lost]
    split
    · exact le_rfl
    · split
      · exact le_rfl
      · exact add_nonneg hchildren hown
  · rintro ⟨node, hmem, hloses⟩
    have hreached : ∀ half : Range, treeRange.Contains half →
        half.Overlaps query ∧ ¬query.Contains half →
          treeRange.Overlaps query ∧ ¬query.Contains treeRange :=
      fun half hin h => ⟨h.1.of_contains hin, fun hc => h.2 (hc.trans hin)⟩
    rcases List.mem_cons.mp hmem with rfl | hmem
    · obtain ⟨hoverlaps, hinside⟩ := overlaps_of_losesPart hloses.2
      rw [LosesRest] at hloses
      rw [lost, if_neg (not_not_intro hoverlaps), if_neg hinside, if_pos hloses]
      exact ⟨hoverlaps, hinside, add_pos_of_nonneg_of_pos hchildren
        (pos_of_losesPart hcovers hloses.2)⟩
    · rcases List.mem_append.mp hmem with hmem | hmem
      · obtain ⟨ho, hi, hpos⟩ := hfirst.pos ⟨node, hmem, hloses⟩
        obtain ⟨hoverlaps, hinside⟩ := hreached _ hfirstIn ⟨ho, hi⟩
        rw [lost, if_neg (not_not_intro hoverlaps), if_neg hinside]
        exact ⟨hoverlaps, hinside, add_pos_of_pos_of_nonneg
          (add_pos_of_pos_of_nonneg hpos hsecond.nonneg) hown⟩
      · obtain ⟨ho, hi, hpos⟩ := hsecond.pos ⟨node, hmem, hloses⟩
        obtain ⟨hoverlaps, hinside⟩ := hreached _ hsecondIn ⟨ho, hi⟩
        rw [lost, if_neg (not_not_intro hoverlaps), if_neg hinside]
        exact ⟨hoverlaps, hinside, add_pos_of_pos_of_nonneg
          (add_pos_of_nonneg_of_pos hfirst.nonneg hpos) hown⟩

/-- **A node that loses something** is missed in the time of the costs. -/
theorem BuiltTree.misses (h : BuiltTree wt list metricValuesList treeRange callRefs built)
    (hcovers : metricValuesList.Covers wt samples treeRange) :
    Misses wt (metricValuesList.costsUntil wt samples) query treeRange built.1 := by
  induction h with
  | rest hcum => exact ⟨le_rfl, fun ⟨_, hmem, _⟩ => absurd hmem List.not_mem_nil⟩
  | @node treeRange callRefs placed keepLeft keepRight stats left right async hplaced hstats hl hr
      ihl ihr =>
    have hleft := ihl (hcovers.mono treeRange.contains_left)
    have hright := ihr (hcovers.mono treeRange.contains_right)
    cases async with
    | false =>
      exact misses_node hcovers treeRange.contains_right treeRange.contains_left hright hleft _ _ _
    | true =>
      exact misses_node hcovers treeRange.contains_left treeRange.contains_right hleft hright _ _ _

/-- **The costs of the answer**, with what is lost, are those of the query. -/
theorem BuiltTree.exists_stats {tree : CallRangeTree metrics} {cumCostStats : CumCostStats metrics}
    (h : BuiltTree wt list metricValuesList treeRange callRefs (tree, cumCostStats))
    (hcovers : metricValuesList.Covers wt samples treeRange)
    (hnode : tree.range? = some treeRange) (hquery : treeRange.Contains query) :
    ∃ stats, tree.getTimeRangeStats wt list metricValuesList query none none = some stats ∧
      stats.cumCostStats + lost (metricValuesList.costsUntil wt samples) query tree =
        metricValuesList.costsIn wt samples query := by
  obtain ⟨lower, upper, hbounds⟩ := exists_queryBounds (hcovers.mono hquery)
  have hanswers := h.filter.answers hbounds (callsIn_filter_liesIn _ _) hcovers
  rcases hanswers.stats none none (.inl rfl) (.inl rfl) with rfl | hstats
  · exact nomatch hnode
  refine ⟨_, hstats, ?_⟩
  rcases h.halfChild hcovers query with rfl | ⟨-, htotal⟩
  · exact nomatch hnode
  · rw [spanIn, if_pos hquery.overlaps, min_eq_right hquery.2, max_eq_right hquery.1] at htotal
    exact htotal

end Built

/-- **The cumulative costs are additive** exactly when the query comes to no node with a child for
its first half alone, at the begin of the node or before, and ends in the second half of it. -/
theorem cum_cost_stats_additive_iff (wt : Key metrics) (list : CallList metrics)
    (metricValuesList : MetricValuesList metrics) {samples : List (MetricValueSet metrics)}
    {treeRange range : Range} {callRefs : List ℕ} {tree : CallRangeTree metrics}
    {cumCostStats : CumCostStats metrics}
    (hcovers : metricValuesList.Covers wt samples treeRange)
    (hbuilt : BuiltTree wt list metricValuesList treeRange callRefs (tree, cumCostStats))
    (hnode : tree.range? = some treeRange) (hrange : treeRange.Contains range) :
    (∃ stats, tree.getTimeRangeStats wt list metricValuesList range none none = some stats ∧
        metricValuesList.getCumCostStats wt range = some stats.cumCostStats) ↔
      ∀ node ∈ tree.nodes, ¬LosesRest range node := by
  obtain ⟨stats, hstats, htotal⟩ := hbuilt.exists_stats hcovers hnode hrange
  rw [hstats, (hcovers.mono hrange).getCumCostStats]
  constructor
  · rintro ⟨_, hsome, hequal⟩ node hmem hloses
    obtain rfl := Option.some.inj hsome
    obtain ⟨-, -, hpos⟩ := (hbuilt.misses hcovers).pos ⟨node, hmem, hloses⟩
    rw [Option.some.inj hequal] at htotal
    rw [add_eq_left.mp htotal] at hpos
    exact lt_irrefl _ hpos
  · intro hnone
    rw [lost_eq_zero _ hnone, add_zero] at htotal
    exact ⟨stats, rfl, congrArg some htotal.symm⟩

/-! ## A tree with one child -/

theorem BuiltTree.exists_node {wt : Key metrics} {list : CallList metrics}
    {metricValuesList : MetricValuesList metrics} {range : Range} {callRefs : List ℕ}
    {placed : PlacedCalls} {left right : CallRangeTree metrics × CumCostStats metrics}
    (hplaced : placeCalls wt list range range.left range.right callRefs = some placed)
    (keepLeft keepRight async : Bool)
    (hdepth : ∀ idx ∈ (placed.keep keepLeft keepRight).own,
      (list.getCycleDepth idx).isSome = true)
    (hleft : BuiltTree wt list metricValuesList range.left
      (placed.keep keepLeft keepRight).left left)
    (hright : BuiltTree wt list metricValuesList range.right
      (placed.keep keepLeft keepRight).right right) :
    ∃ stats, BuiltTree wt list metricValuesList range callRefs
      (joinHalves range (sortCalls wt list (placed.keep keepLeft keepRight).own) stats async
        left right, (CumCostStats.new.merge left.2).merge right.2) := by
  have hstats := new_eq_some_iff.mpr
    ⟨fun idx hidx => hdepth idx ((sortCalls_perm wt list _).subset hidx), rfl⟩
  exact ⟨_, .node hplaced hstats hleft hright⟩

theorem rangeOfFour_ordered : (0 : ℚ) ≤ 4 := by decide +kernel

theorem innerRange_ordered : (1 : ℚ) ≤ 3 := by decide +kernel

/-- The time from 0 to 4. -/
def rangeOfFour : Range := ⟨0, 4, rangeOfFour_ordered⟩

theorem covers_rangeOfFour :
    MetricValuesList.Covers wallTimeKey (.ofTimes [0, 4]) ([0, 4].map fun t _ => t) rangeOfFour :=
  MetricValuesList.covers_ofTimes (List.cons_ne_nil _ _) (by decide +kernel) (by decide +kernel)
    (by decide +kernel)

/-- A tree of one call, in the first quarter of its time, with a node for the first half. -/
theorem exists_halfTree :
    ∃ refs stats cum refs' stats' cum' cum'',
      BuiltTree wallTimeKey (.topLevel [(0, 1)]) (.ofTimes [0, 4]) rangeOfFour [0]
        (.node rangeOfFour refs stats cum
          (.node rangeOfFour.left refs' stats' cum' .absent .absent) .absent, cum'') := by
  have hrest : ∀ half, rangeOfFour.Contains half →
      BuiltTree wallTimeKey (.topLevel [(0, 1)]) (.ofTimes [0, 4]) half [] (.absent, _) :=
    fun half hin => .rest (covers_rangeOfFour.mono hin).getCumCostStats
  have hleft := rangeOfFour.contains_left
  have hplaced : placeCalls wallTimeKey (.topLevel [(0, 1)]) rangeOfFour rangeOfFour.left
      rangeOfFour.right [0] = some ⟨[], [0], []⟩ := by decide +kernel
  have hplaced' : placeCalls wallTimeKey (.topLevel [(0, 1)]) rangeOfFour.left
      rangeOfFour.left.left rangeOfFour.left.right [0] = some ⟨[], [0], []⟩ := by decide +kernel
  have hdepth : ∀ idx ∈ [0], ((CallList.topLevel [(0, 1)] :
      CallList wallTimeMetrics).getCycleDepth idx).isSome = true := by decide +kernel
  obtain ⟨stats', hchild⟩ := BuiltTree.exists_node hplaced' true true true hdepth
    (hrest _ (hleft.trans (Range.contains_left _))) (hrest _ (hleft.trans (Range.contains_right _)))
  obtain ⟨stats, htree⟩ := BuiltTree.exists_node hplaced false true true
    (fun _ hmem => absurd hmem List.not_mem_nil) hchild (hrest _ rangeOfFour.contains_right)
  exact ⟨_, _, _, _, _, _, _, htree⟩

/-- A query that begins behind the begin of the tree. -/
theorem cum_cost_stats_additive_inside :
    ∃ (tree : CallRangeTree wallTimeMetrics) (cum : CumCostStats wallTimeMetrics)
      (stats : TimeRangeStats wallTimeMetrics),
      BuiltTree wallTimeKey (.topLevel [(0, 1)]) (.ofTimes [0, 4]) rangeOfFour [0] (tree, cum) ∧
      tree.getTimeRangeStats wallTimeKey (.topLevel [(0, 1)]) (.ofTimes [0, 4])
        ⟨1, 3, innerRange_ordered⟩ none none = some stats ∧
      MetricValuesList.getCumCostStats wallTimeKey (.ofTimes [0, 4]) ⟨1, 3, innerRange_ordered⟩ =
        some stats.cumCostStats := by
  obtain ⟨refs, stats, cum, refs', stats', cum', cum'', hbuilt⟩ := exists_halfTree
  have hrange : rangeOfFour.Contains ⟨1, 3, innerRange_ordered⟩ := by decide +kernel
  obtain ⟨answer, hanswer, hcosts⟩ := (cum_cost_stats_additive_iff wallTimeKey _ _
    covers_rangeOfFour hbuilt rfl hrange).mpr (by
      intro node hmem hloses
      simp only [CallRangeTree.nodes, List.mem_cons, List.mem_append, List.not_mem_nil,
        or_false] at hmem
      rcases hmem with rfl | rfl
      · exact absurd hloses.2.1 (by decide +kernel)
      · exact absurd hloses.2.1 (by decide +kernel))
  exact ⟨_, _, answer, hbuilt, hanswer, hcosts⟩

/-- A query from the begin of the tree into its second half. -/
theorem cum_cost_stats_lost :
    ∃ (tree : CallRangeTree wallTimeMetrics) (cum : CumCostStats wallTimeMetrics)
      (stats : TimeRangeStats wallTimeMetrics),
      BuiltTree wallTimeKey (.topLevel [(0, 1)]) (.ofTimes [0, 4]) rangeOfFour [0] (tree, cum) ∧
      tree.getTimeRangeStats wallTimeKey (.topLevel [(0, 1)]) (.ofTimes [0, 4])
        ⟨0, 3, by decide +kernel⟩ none none = some stats ∧
      MetricValuesList.getCumCostStats wallTimeKey (.ofTimes [0, 4]) ⟨0, 3, by decide +kernel⟩ ≠
        some stats.cumCostStats := by
  obtain ⟨refs, stats, cum, refs', stats', cum', cum'', hbuilt⟩ := exists_halfTree
  have hrange : rangeOfFour.Contains ⟨0, 3, by decide +kernel⟩ := by decide +kernel
  obtain ⟨answer, hanswer, htotal⟩ := hbuilt.exists_stats covers_rangeOfFour rfl hrange
  refine ⟨_, _, answer, hbuilt, hanswer, ?_⟩
  rw [(covers_rangeOfFour.mono hrange).getCumCostStats]
  intro hequal
  have hloses : LosesPart ⟨0, 3, by decide +kernel⟩ rangeOfFour := by decide +kernel
  obtain ⟨-, -, hpos⟩ := (hbuilt.misses covers_rangeOfFour).pos
    ⟨_, List.mem_cons_self, .inl ⟨rfl, rfl⟩, hloses⟩
  rw [Option.some.inj hequal] at htotal
  rw [add_eq_left.mp htotal] at hpos
  exact lt_irrefl _ hpos

end PhpSpx.WebUi
