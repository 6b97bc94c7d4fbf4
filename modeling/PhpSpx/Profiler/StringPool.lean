import PhpSpx.Lib.Cells
import PhpSpx.Lib.Run
import PhpSpx.Text.CString

/-!
# The string pool

`spx_string_pool.c`: names are copied one after the other into blocks of 8 KiB.  A string
for which the current block has no room goes into a new block, whether it fits there or
not.

* `stringPoolIntern` — one call.
* `StringPool.Intact` — the strings stand where they were put, within the blocks.
* `StringPool.Packed` — the invariant.
* `interned_strings_intact_iff` — whole runs.
-/

namespace PhpSpx

open Lib

/-- `POOL_BLOCK_SIZE`. -/
def poolBlockSize : ℕ := 8192

/-- `pool_block_t`.  The cells from `poolBlockSize` on are what lies behind the block. -/
structure PoolBlock where
  data : ℕ → Char
  used : ℕ

/-- A pointer into the pool: a block, in the order of the list, and an offset. -/
structure PoolPointer where
  block : ℕ
  offset : ℕ
  deriving DecidableEq, Repr

/-- A string that was interned, and the pointer returned for it. -/
structure Interned where
  pointer : PoolPointer
  string : NulTerminated

/-- The cells handed out for two strings have none in common. -/
def Interned.Apart (a b : Interned) : Prop :=
  a.pointer.block ≠ b.pointer.block ∨
    a.pointer.offset + a.string.bytes.length ≤ b.pointer.offset ∨
    b.pointer.offset + b.string.bytes.length ≤ a.pointer.offset

/-- `spx_string_pool_t`: the blocks before the current one, from `head` on, and the
current one.  What was interned so far is kept beside; the code does not keep it. -/
structure StringPool where
  former : List PoolBlock
  current : PoolBlock
  totalAllocated : ℕ
  totalInterned : ℕ
  interned : List Interned

/-- `spx_string_pool_create`; `data` is what `malloc` left in the block. -/
def stringPoolCreate (data : ℕ → Char) : StringPool where
  former := []
  current := ⟨data, 0⟩
  totalAllocated := poolBlockSize
  totalInterned := 0
  interned := []

/-- A call of `spx_string_pool_intern`: the string, and the answer of `malloc`, which is
the contents of a block, or nothing when it fails. -/
structure InternOp where
  str : Option NulTerminated
  malloc : Option (ℕ → Char)

namespace StringPool

/-- The blocks, from `head` on. -/
def blocks (pool : StringPool) : List PoolBlock := pool.former ++ [pool.current]

/-- A block is appended to the list. -/
def grow (pool : StringPool) (data : ℕ → Char) : StringPool :=
  { pool with
    former := pool.former ++ [pool.current]
    current := ⟨data, 0⟩
    totalAllocated := pool.totalAllocated + poolBlockSize }

/-- Where the next string goes. -/
def dest (pool : StringPool) : PoolPointer := ⟨pool.former.length, pool.current.used⟩

/-- The `memcpy` into the current block. -/
def copy (pool : StringPool) (str : NulTerminated) : StringPool :=
  { pool with
    current :=
      { data := overwrite pool.current.data pool.current.used str.bytes
        used := pool.current.used + (str.strlen + 1) }
    totalInterned := pool.totalInterned + 1
    interned := pool.interned ++ [⟨pool.dest, str⟩] }

end StringPool

/-- `spx_string_pool_intern`, with the pointer it returns. -/
def stringPoolIntern (pool : StringPool) (op : InternOp) : StringPool × Option PoolPointer :=
  match op.str with
  | none => (pool, none)
  | some str =>
    let len := str.strlen + 1
    if pool.current.used + len > poolBlockSize then
      match op.malloc with
      | none => (pool, none)
      | some data => ((pool.grow data).copy str, some (pool.grow data).dest)
    else (pool.copy str, some pool.dest)

namespace StringPool

/-- One call. -/
def after (pool : StringPool) (op : InternOp) : StringPool := (stringPoolIntern pool op).1

/-- The string stands where its pointer points to, and all of it within the block. -/
def Stands (pool : StringPool) (a : Interned) : Prop :=
  ∃ block, pool.blocks[a.pointer.block]? = some block ∧
    Holds block.data a.pointer.offset a.string.bytes ∧
    a.pointer.offset + a.string.bytes.length ≤ poolBlockSize

/-- No block is used beyond its size, the strings stand in the blocks, as they were
interned, and apart from each other. -/
structure Intact (pool : StringPool) : Prop where
  used : ∀ block ∈ pool.blocks, block.used ≤ poolBlockSize
  stands : ∀ a ∈ pool.interned, pool.Stands a
  apart : pool.interned.Pairwise Interned.Apart

/-! ## One call -/

variable {pool : StringPool}

/-- A string for which there is memory is kept under the pointer returned. -/
theorem interned_after_some (pool : StringPool) (str : NulTerminated) (data : ℕ → Char) :
    ∃ pointer, stringPoolIntern pool ⟨some str, some data⟩ =
        (pool.after ⟨some str, some data⟩, some pointer) ∧
      (pool.after ⟨some str, some data⟩).interned = pool.interned ++ [⟨pointer, str⟩] := by
  unfold after stringPoolIntern
  dsimp only
  split
  · exact ⟨_, rfl, rfl⟩
  · exact ⟨_, rfl, rfl⟩

/-- The strings stand in the used parts of the blocks. -/
structure Packed (pool : StringPool) : Prop where
  used : ∀ block ∈ pool.blocks, block.used ≤ poolBlockSize
  stands : ∀ a ∈ pool.interned, ∃ block, pool.blocks[a.pointer.block]? = some block ∧
    Holds block.data a.pointer.offset a.string.bytes ∧
    a.pointer.offset + a.string.bytes.length ≤ block.used
  apart : pool.interned.Pairwise Interned.Apart

theorem Packed.intact (h : pool.Packed) : pool.Intact where
  used := h.used
  stands := by
    intro a ha
    obtain ⟨block, hblock, hholds, hused⟩ := h.stands a ha
    have hsize := h.used block (List.mem_of_getElem? hblock)
    exact ⟨block, hblock, hholds, hused.trans hsize⟩
  apart := h.apart

theorem packed_create (data : ℕ → Char) : (stringPoolCreate data).Packed where
  used := by simp [blocks, stringPoolCreate]
  stands := by simp [stringPoolCreate]
  apart := List.Pairwise.nil

/-- A new block keeps the strings. -/
theorem Packed.grow (h : pool.Packed) (data : ℕ → Char) : (pool.grow data).Packed where
  used := by
    intro block hblock
    rcases List.mem_append.mp hblock with hold | hnew
    · exact h.used block hold
    · rw [List.mem_singleton.mp hnew]
      exact Nat.zero_le _
  stands := by
    intro a ha
    obtain ⟨block, hblock, hstands⟩ := h.stands a ha
    refine ⟨block, ?_, hstands⟩
    have hlt : a.pointer.block < pool.blocks.length := (List.getElem?_eq_some_iff.mp hblock).1
    exact (List.getElem?_append_left hlt).trans hblock
  apart := h.apart

/-- A string that fits into the current block is packed into it. -/
theorem Packed.copy (h : pool.Packed) {str : NulTerminated}
    (hfits : pool.current.used + (str.strlen + 1) ≤ poolBlockSize) : (pool.copy str).Packed where
  used := by
    intro block hblock
    rcases List.mem_append.mp hblock with hformer | hcurrent
    · exact h.used block (List.mem_append_left _ hformer)
    · rw [List.mem_singleton.mp hcurrent]
      exact hfits
  stands := by
    intro a ha
    rcases List.mem_append.mp ha with hold | hnew
    · obtain ⟨block, hblock, hholds, hused⟩ := h.stands a hold
      by_cases hlt : a.pointer.block < pool.former.length
      · refine ⟨block, ?_, hholds, hused⟩
        rw [blocks, List.getElem?_append_left hlt] at hblock
        exact (List.getElem?_append_left hlt).trans hblock
      · -- a string of the current block, below what is written
        have heq : a.pointer.block = pool.former.length ∧ pool.current = block := by
          rw [blocks, List.getElem?_append_right (not_lt.mp hlt), List.getElem?_singleton] at hblock
          split at hblock
          · rename_i hzero
            exact ⟨by omega, Option.some.inj hblock⟩
          · cases hblock
        obtain ⟨hindex, rfl⟩ := heq
        refine ⟨(pool.copy str).current, ?_, hholds.overwrite (.inl hused), hused.trans ?_⟩
        · rw [hindex]
          exact List.getElem?_concat_length
        · exact Nat.le_add_right _ _
    · rw [List.mem_singleton.mp hnew]
      refine ⟨(pool.copy str).current, List.getElem?_concat_length, holds_overwrite _ _ _, ?_⟩
      rw [NulTerminated.length_bytes]
      exact le_rfl
  apart := by
    rw [StringPool.copy, List.pairwise_append]
    refine ⟨h.apart, List.pairwise_singleton _ _, ?_⟩
    intro a ha b hb
    rw [List.mem_singleton.mp hb]
    obtain ⟨block, hblock, -, hused⟩ := h.stands a ha
    by_cases hindex : a.pointer.block = pool.former.length
    · have hcurrent : pool.current = block := by
        rw [hindex, blocks, List.getElem?_concat_length] at hblock
        exact Option.some.inj hblock
      rw [← hcurrent] at hused
      exact .inr (.inl hused)
    · exact .inl hindex

end StringPool

/-- The string fits into a block, or needs a new one that cannot be allocated. -/
def InternOp.Fits (op : InternOp) : Prop :=
  op.malloc.isSome = true → ∀ str ∈ op.str, str.strlen + 1 ≤ poolBlockSize

namespace StringPool

variable {pool : StringPool}

theorem Packed.after (h : pool.Packed) {op : InternOp} (hop : op.Fits) : (pool.after op).Packed := by
  unfold StringPool.after stringPoolIntern
  cases hstr : op.str with
  | none => exact h
  | some str =>
    dsimp only
    split
    · cases hmalloc : op.malloc with
      | none => exact h
      | some data =>
        have hlen : str.strlen + 1 ≤ poolBlockSize := hop (by rw [hmalloc]; rfl) str hstr
        apply (h.grow data).copy
        rw [show (pool.grow data).current.used = 0 from rfl, Nat.zero_add]
        exact hlen
    · rename_i hroom
      exact h.copy (Nat.not_lt.mp hroom)

/-- A string that is too long for a block is written beyond its end. -/
theorem fits_of_intact {op : InternOp} (h : (pool.after op).Intact) : op.Fits := by
  intro hmalloc str hstr
  obtain ⟨data, hdata⟩ := Option.isSome_iff_exists.mp hmalloc
  by_contra hlong
  have hroom : pool.current.used + (str.strlen + 1) > poolBlockSize := by omega
  have hafter : pool.after op = (pool.grow data).copy str := by
    simp only [StringPool.after, stringPoolIntern, Option.mem_def.mp hstr, hdata, if_pos hroom]
  rw [hafter] at h
  have hused : 0 + (str.strlen + 1) ≤ poolBlockSize :=
    h.used ((pool.grow data).copy str).current (by simp [blocks])
  omega

/-! ## Runs -/

/-- **Interned strings are stored intact** in every state a run of calls reaches exactly
when no string longer than a block is given one. -/
theorem interned_strings_intact_iff (data : ℕ → Char) (ops : List InternOp) :
    Throughout StringPool.after Intact ops (stringPoolCreate data) ↔ ∀ op ∈ ops, op.Fits := by
  rw [← eachStep_iff_forall_mem InternOp.Fits ops (stringPoolCreate data)]
  refine throughout_iff_of_invariant (V := fun _ _ => True) (fun _ h => h.intact) ?_ ?_
    (packed_create data) ((eachStep_iff_forall_mem _ _ _).mpr fun _ _ => trivial)
  · intro pool op h _ hop
    exact h.after hop
  · intro pool op _ _ h
    exact fits_of_intact h

/-- A name of 8192 characters. -/
def longName : NulTerminated where
  chars := List.replicate 8192 'x'
  nul_notMem := fun h => absurd (List.eq_of_mem_replicate h) (by decide)

/-- With its NUL the name needs a byte more than a block has. -/
theorem long_name_not_intact :
    ¬Throughout StringPool.after Intact [⟨some longName, some fun _ => nul⟩]
      (stringPoolCreate fun _ => nul) := by
  intro h
  have hfits := fits_of_intact (h _ List.prefix_rfl)
  have hlen : longName.strlen + 1 ≤ poolBlockSize := hfits rfl longName rfl
  have hstrlen : longName.strlen = 8192 := List.length_replicate
  rw [hstrlen] at hlen
  exact absurd hlen (by decide)

end StringPool

end PhpSpx
