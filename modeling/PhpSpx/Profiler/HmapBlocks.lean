import PhpSpx.Profiler.Hmap

/-!
# The blocks of a chain

`hmap_bucket_t` is a block of `HSET_BUCKET_SIZE` slots and a link to the next block.
The search goes over the slots of a block, then into the next block, which it makes
when there is none.

* `chainGetEntry` — the search, block by block.
* `chainGetEntry_slots` — it is the search over the slots of all blocks in order.
-/

namespace PhpSpx

variable {K V : Type}

/-- `hmap_bucket_t`, without its link. -/
structure HmapBlock (K V : Type) where
  slots : List (Option (HmapEntry K V))
  length_eq : slots.length = hsetBucketSize

/-- `bucket_init`. -/
def HmapBlock.init (K V : Type) : HmapBlock K V := ⟨bucketInit K V, rfl⟩

/-- How the loop over the slots of a block ends: at a slot, which it took when `new`, with
`NULL`, or past the last slot. -/
inductive SlotSearch where
  | found (slot : ℕ) (new : Bool)
  | notFound
  | exhausted
  deriving DecidableEq, Repr

/-- One turn less is left of the loop. -/
def SlotSearch.next : SlotSearch → SlotSearch
  | .found slot new => .found (slot + 1) new
  | .notFound => .notFound
  | .exhausted => .exhausted

/-- The loop over the slots of a block. -/
def slotsGetEntry (cmp : K → K → ℤ) (key : K) (existing : Bool) :
    List (Option (HmapEntry K V)) → SlotSearch × List (Option (HmapEntry K V))
  | [] => (.exhausted, [])
  | none :: slots =>
    if existing then (.notFound, none :: slots) else (.found 0 true, some ⟨key, none⟩ :: slots)
  | some e :: slots =>
    if cmp key e.key = 0 then (.found 0 false, some e :: slots)
    else
      let result := slotsGetEntry cmp key existing slots
      (result.1.next, some e :: result.2)

theorem length_slotsGetEntry (cmp : K → K → ℤ) (key : K) (existing : Bool)
    (slots : List (Option (HmapEntry K V))) :
    (slotsGetEntry cmp key existing slots).2.length = slots.length := by
  induction slots with
  | nil => rfl
  | cons slot slots ih =>
    cases slot with
    | none =>
      rw [slotsGetEntry]
      split <;> rfl
    | some e =>
      rw [slotsGetEntry]
      split
      · rfl
      · exact congrArg Nat.succ ih

/-- A block after the loop. -/
def HmapBlock.search (block : HmapBlock K V) (cmp : K → K → ℤ) (key : K) (existing : Bool) :
    SlotSearch × HmapBlock K V :=
  ((slotsGetEntry cmp key existing block.slots).1,
    ⟨(slotsGetEntry cmp key existing block.slots).2,
      (length_slotsGetEntry cmp key existing block.slots).trans block.length_eq⟩)

/-- `bucket_get_entry` on a block and those after it, `[]` for a null link: the block and the
slot found, whether the slot was taken just now, and the chain. -/
def chainGetEntry (cmp : K → K → ℤ) (key : K) (existing : Bool) :
    List (HmapBlock K V) → Option ((ℕ × ℕ) × Bool) × List (HmapBlock K V)
  | [] =>
    if existing then (none, [])
    else
      -- a new block, searched in its turn
      let result := (HmapBlock.init K V).search cmp key existing
      match result.1 with
      | .found slot new => (some ((0, slot), new), [result.2])
      | _ => (none, [result.2])
  | block :: blocks =>
    let result := block.search cmp key existing
    match result.1 with
    | .found slot new => (some ((0, slot), new), result.2 :: blocks)
    | .notFound => (none, result.2 :: blocks)
    | .exhausted =>
      let found := chainGetEntry cmp key existing blocks
      (found.1.map fun p => ((p.1.1 + 1, p.1.2), p.2), result.2 :: found.2)

/-- The slots of a chain. -/
def slotsOf (blocks : List (HmapBlock K V)) : Bucket K V := blocks.flatMap HmapBlock.slots

/-- The place of a slot among all slots of its chain. -/
def slotPlace (pos : ℕ × ℕ) : ℕ := hsetBucketSize * pos.1 + pos.2

/-- The search over a block and the slots after it. -/
theorem bucketGetEntry_append (cmp : K → K → ℤ) (key : K) (existing : Bool)
    (slots : List (Option (HmapEntry K V))) (rest : Bucket K V) :
    bucketGetEntry cmp key existing (slots ++ rest)
      = match (slotsGetEntry cmp key existing slots).1 with
        | .found slot new =>
          (some (slot, new), (slotsGetEntry cmp key existing slots).2 ++ rest)
        | .notFound => (none, (slotsGetEntry cmp key existing slots).2 ++ rest)
        | .exhausted =>
          ((bucketGetEntry cmp key existing rest).1.map fun p => (slots.length + p.1, p.2),
            (slotsGetEntry cmp key existing slots).2
              ++ (bucketGetEntry cmp key existing rest).2) := by
  induction slots with
  | nil =>
    simp only [List.nil_append, slotsGetEntry, List.length_nil, Nat.zero_add]
    rw [show (fun p : ℕ × Bool => (p.1, p.2)) = id from rfl, Option.map_id]
    rfl
  | cons slot slots ih =>
    cases slot with
    | none =>
      rw [List.cons_append, bucketGetEntry, slotsGetEntry]
      cases existing <;> rfl
    | some e =>
      rw [List.cons_append, bucketGetEntry, slotsGetEntry]
      by_cases hcmp : cmp key e.key = 0
      · rw [if_pos hcmp, if_pos hcmp]
        rfl
      · rw [if_neg hcmp, if_neg hcmp, ih]
        dsimp only
        cases (slotsGetEntry cmp key existing slots).1 with
        | found slot new => rfl
        | notFound => rfl
        | exhausted =>
          simp only [SlotSearch.next, Option.map_map, List.length_cons, List.cons_append]
          congr 2
          funext p
          simp only [Function.comp_apply, Prod.mk.injEq, and_true]
          omega

/-- **Block by block or slot by slot** the search is the same. -/
theorem chainGetEntry_slots (cmp : K → K → ℤ) (key : K) (existing : Bool)
    (blocks : List (HmapBlock K V)) :
    bucketGetEntry cmp key existing (slotsOf blocks)
      = ((chainGetEntry cmp key existing blocks).1.map fun p => (slotPlace p.1, p.2),
        slotsOf (chainGetEntry cmp key existing blocks).2) := by
  induction blocks with
  | nil => cases existing <;> rfl
  | cons block blocks ih =>
    have happend := bucketGetEntry_append cmp key existing block.slots (slotsOf blocks)
    have hslots : slotsOf (block :: blocks) = block.slots ++ slotsOf blocks := List.flatMap_cons
    have hsearch : block.search cmp key existing
        = ((slotsGetEntry cmp key existing block.slots).1,
          ⟨(slotsGetEntry cmp key existing block.slots).2, _⟩) := rfl
    rw [hslots, happend, chainGetEntry, hsearch]
    dsimp only
    cases (slotsGetEntry cmp key existing block.slots).1 with
    | found slot new =>
      simp only [Option.map_some, slotPlace, Nat.mul_zero, Nat.zero_add]
      rfl
    | notFound => rfl
    | exhausted =>
      simp only [ih, Option.map_map, block.length_eq]
      congr 2
      funext p
      simp only [Function.comp_apply, slotPlace, Prod.mk.injEq, and_true]
      rw [Nat.mul_succ]
      omega

end PhpSpx
