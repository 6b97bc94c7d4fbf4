import PhpSpx.Lib.Heap
import PhpSpx.Lib.Run

/-!
# The allocation hooks

The hooks count, in four members of the context, the blocks that the allocator gives and
takes and their sizes.  What the allocator answers is left open: an operation carries the
answer it gets.

* `tlsHookMalloc`, `tlsHookFree`, `tlsHookRealloc` — the hooks.
* `Answered` — the answers an allocator may give.
* `Balanced` — the counters follow the live blocks.
* `memory_accounting_balances_iff` — when they do.
-/

namespace PhpSpx

open Lib

variable {Ptr : Type*}

/-- The blocks of the thread's heap, and the members of `context` that the hooks update. -/
structure HookedHeap (Ptr : Type*) where
  heap : Heap Ptr
  allocCount : UInt64
  allocBytes : UInt64
  freeCount : UInt64
  freeBytes : UInt64

namespace HookedHeap

/-- `spx_php_execution_init`: the hooks are installed on a heap in use. -/
def executionInit (heap : Heap Ptr) : HookedHeap Ptr :=
  { heap, allocCount := 0, allocBytes := 0, freeCount := 0, freeBytes := 0 }

/-- The difference of the byte counters is the change of the total size of the live
blocks, that of the block counters the change of their number. -/
structure Balanced (start : Heap Ptr) (c : HookedHeap Ptr) : Prop where
  bytes : Tracks c.allocBytes c.freeBytes (c.heap.liveBytes - start.liveBytes)
  counts : Tracks c.allocCount c.freeCount (c.heap.liveCount - start.liveCount)

theorem balanced_executionInit (start : Heap Ptr) : (executionInit start).Balanced start := by
  constructor
  · rw [executionInit, sub_self]
    exact tracks_zero
  · rw [executionInit, sub_self]
    exact tracks_zero

/-- The counts of a block that comes to life, of the size the allocator reports. -/
def countAlloc (c : HookedHeap Ptr) (size : UInt64) : HookedHeap Ptr :=
  { c with allocCount := c.allocCount + 1, allocBytes := c.allocBytes + size }

/-- The counts of a block that is given back. -/
def countFree (c : HookedHeap Ptr) (size : UInt64) : HookedHeap Ptr :=
  { c with freeCount := c.freeCount + 1, freeBytes := c.freeBytes + size }

variable [DecidableEq Ptr]

/-- `tls_hook_malloc`.  The allocator fails or answers with a block, whose size is then
what `block_size` tells. -/
def tlsHookMalloc (c : HookedHeap Ptr) : Option (Ptr × UInt64) → HookedHeap Ptr × Option Ptr
  | none => (c, none)
  | some (p, size) =>
      let heap := c.heap.alloc p size
      ({ c with heap }.countAlloc (heap.blockSize p), some p)

/-- `tls_hook_free`. -/
def tlsHookFree (c : HookedHeap Ptr) : Option Ptr → HookedHeap Ptr
  | none => c
  | some p =>
      let c := c.countFree (c.heap.blockSize p)
      { c with heap := c.heap.release p }

/-- The `int` that the size difference of a block left in place is narrowed to. -/
def narrowedDiff (oldSize newSize : UInt64) : ℤ :=
  Int.bmod (newSize.toNat - oldSize.toNat) (2 ^ 32)

/-- What the hook adds to `alloc_bytes` for a block left in place. -/
def addedBytes (oldSize newSize : UInt64) : UInt64 :=
  if 0 < narrowedDiff oldSize newSize then UInt64.ofNat (narrowedDiff oldSize newSize).toNat else 0

/-- `tls_hook_realloc`. -/
def tlsHookRealloc (c : HookedHeap Ptr) (ptr : Option Ptr) (answer : Option (Ptr × UInt64)) :
    HookedHeap Ptr × Option Ptr :=
  match ptr, answer with
  | some p, some (new, size) =>
      let oldSize := c.heap.blockSize p
      if p ≠ new then
        let heap := (c.heap.release p).alloc new size
        (({ c with heap }.countFree oldSize).countAlloc (heap.blockSize new), some new)
      else
        let heap := c.heap.resize p size
        ({ c with heap, allocBytes := c.allocBytes + addedBytes oldSize (heap.blockSize p) },
          some new)
  | none, some (new, size) =>
      let heap := c.heap.alloc new size
      ({ c with heap }.countAlloc (heap.blockSize new), some new)
  | _, none => (c, none)

end HookedHeap

/-- A call that goes through the hooks, with the allocator's answer: the block and its
size, or nothing when it fails. -/
inductive MemoryOp (Ptr : Type*) where
  | malloc (answer : Option (Ptr × UInt64))
  | free (ptr : Option Ptr)
  | realloc (ptr : Option Ptr) (answer : Option (Ptr × UInt64))

namespace HookedHeap

/-- What the allocator and its callers keep to: a block given out is not in use, one
passed in is; a block is reallocated where it stands or moves to one not in use. -/
def Answered (c : HookedHeap Ptr) : MemoryOp Ptr → Prop
  | .malloc none => True
  | .malloc (some (p, _)) => p ∉ c.heap.live
  | .free none => True
  | .free (some p) => p ∈ c.heap.live
  | .realloc none none => True
  | .realloc none (some (new, _)) => new ∉ c.heap.live
  | .realloc (some p) none => p ∈ c.heap.live
  | .realloc (some p) (some (new, _)) => p ∈ c.heap.live ∧ (p = new ∨ new ∉ c.heap.live)

/-- A block reallocated where it stands does not shrink, and grows by less than 2 GiB. -/
def GrowsInPlace (c : HookedHeap Ptr) : MemoryOp Ptr → Prop
  | .realloc (some p) (some (new, size)) =>
      p = new → (size - c.heap.blockSize p).toNat < 2 ^ 31
  | _ => True

variable [DecidableEq Ptr]

instance (c : HookedHeap Ptr) : (op : MemoryOp Ptr) → Decidable (c.Answered op)
  | .malloc none | .free none | .realloc none none => inferInstanceAs (Decidable True)
  | .malloc (some (p, _)) | .realloc none (some (p, _)) =>
      inferInstanceAs (Decidable (p ∉ c.heap.live))
  | .free (some p) | .realloc (some p) none => inferInstanceAs (Decidable (p ∈ c.heap.live))
  | .realloc (some p) (some (new, _)) =>
      inferInstanceAs (Decidable (p ∈ c.heap.live ∧ (p = new ∨ new ∉ c.heap.live)))

instance (c : HookedHeap Ptr) : (op : MemoryOp Ptr) → Decidable (c.GrowsInPlace op)
  | .realloc (some p) (some (new, size)) =>
      inferInstanceAs (Decidable (p = new → (size - c.heap.blockSize p).toNat < 2 ^ 31))
  | .malloc _ | .free _ | .realloc none _ | .realloc (some _) none =>
      inferInstanceAs (Decidable True)

/-- One call. -/
def after (c : HookedHeap Ptr) : MemoryOp Ptr → HookedHeap Ptr
  | .malloc answer => (c.tlsHookMalloc answer).1
  | .free ptr => c.tlsHookFree ptr
  | .realloc ptr answer => (c.tlsHookRealloc ptr answer).1

/-! ## One call -/

/-- The `int` keeps the difference when it is a growth of less than 2 GiB, and then
only. -/
theorem addedBytes_modEq_iff (oldSize newSize : UInt64) :
    ((addedBytes oldSize newSize).toNat : ℤ) ≡ newSize.toNat - oldSize.toNat [ZMOD 2 ^ 64] ↔
      (newSize - oldSize).toNat < 2 ^ 31 := by
  have hold : oldSize.toNat < 2 ^ 64 := oldSize.toNat_lt
  have hnew : newSize.toNat < 2 ^ 64 := newSize.toNat_lt
  have hsub : (newSize - oldSize).toNat = (2 ^ 64 - oldSize.toNat + newSize.toNat) % 2 ^ 64 :=
    UInt64.toNat_sub newSize oldSize
  have hadded : (addedBytes oldSize newSize).toNat =
      (Int.bmod (newSize.toNat - oldSize.toNat) (2 ^ 32)).toNat := by
    have hlt : Int.bmod (newSize.toNat - oldSize.toNat) (2 ^ 32) < 2 ^ 31 := Int.bmod_lt (by decide)
    unfold addedBytes narrowedDiff
    split
    · rw [UInt64.toNat_ofNat']
      omega
    · rw [UInt64.toNat_zero]
      omega
  rw [hadded, hsub]
  unfold Int.ModEq
  rw [Int.bmod_def]
  split <;> omega

section
variable {start : Heap Ptr} {c : HookedHeap Ptr} {p : Ptr}

theorem Balanced.countAlloc (h : c.Balanced start) (hp : p ∉ c.heap.live) (size : UInt64) :
    ({ c with heap := c.heap.alloc p size }.countAlloc size).Balanced start := by
  constructor
  · have hbytes := h.bytes.gain size
    rw [← add_sub_right_comm, ← Nat.cast_add, ← Heap.liveBytes_alloc hp] at hbytes
    exact hbytes
  · have hcounts := h.counts.gain 1
    rw [← add_sub_right_comm, UInt64.toNat_one, ← Nat.cast_add, ← Heap.liveCount_alloc hp] at hcounts
    exact hcounts

theorem Balanced.countFree (h : c.Balanced start) (hp : p ∈ c.heap.live) :
    ({ c with heap := c.heap.release p }.countFree (c.heap.blockSize p)).Balanced start := by
  constructor
  · have hbytes := h.bytes.lose (c.heap.blockSize p)
    rw [← Heap.liveBytes_release hp, Nat.cast_add, sub_right_comm, add_sub_cancel_right] at hbytes
    exact hbytes
  · have hcounts := h.counts.lose 1
    rw [← Heap.liveCount_release hp, UInt64.toNat_one, Nat.cast_add, sub_right_comm,
      add_sub_cancel_right] at hcounts
    exact hcounts

/-- A block left in place is counted right when what the hook adds is the difference. -/
theorem Balanced.resize_iff (h : c.Balanced start) (hp : p ∈ c.heap.live) (size : UInt64) :
    Balanced start
        { c with
          heap := c.heap.resize p size
          allocBytes := c.allocBytes + addedBytes (c.heap.blockSize p) size } ↔
      (size - c.heap.blockSize p).toNat < 2 ^ 31 := by
  have htotal : ((c.heap.resize p size).liveBytes - start.liveBytes : ℤ) =
      (c.heap.liveBytes - start.liveBytes) + (size.toNat - (c.heap.blockSize p).toNat) := by
    have hresize : (c.heap.resize p size).liveBytes + (c.heap.blockSize p).toNat =
        c.heap.liveBytes + size.toNat := Heap.liveBytes_resize hp
    omega
  rw [← addedBytes_modEq_iff, ← h.bytes.gain_iff, ← htotal]
  exact ⟨fun hbalanced => hbalanced.bytes, fun hbytes => ⟨hbytes, h.counts⟩⟩

/-- **One call** keeps the balance exactly when it is not a block left in place that
shrinks, or grows by 2 GiB or more. -/
theorem balanced_after_iff (h : c.Balanced start) (op : MemoryOp Ptr) (hop : c.Answered op) :
    (c.after op).Balanced start ↔ c.GrowsInPlace op := by
  cases op with
  | malloc answer =>
    refine iff_of_true ?_ trivial
    cases answer with
    | none => exact h
    | some answer =>
      simp only [after, tlsHookMalloc, Heap.blockSize_alloc]
      exact h.countAlloc hop answer.2
  | free ptr =>
    refine iff_of_true ?_ trivial
    cases ptr with
    | none => exact h
    | some p => exact h.countFree hop
  | realloc ptr answer =>
    cases ptr with
    | none =>
      refine iff_of_true ?_ trivial
      cases answer with
      | none => exact h
      | some answer =>
        simp only [after, tlsHookRealloc, Heap.blockSize_alloc]
        exact h.countAlloc hop answer.2
    | some p =>
      cases answer with
      | none => exact iff_of_true h trivial
      | some answer =>
        obtain ⟨new, size⟩ := answer
        obtain ⟨hp, hnew⟩ := hop
        by_cases heq : p = new
        · subst heq
          simp only [after, tlsHookRealloc, ne_eq, not_true_eq_false, if_false,
            Heap.blockSize_resize]
          rw [h.resize_iff hp]
          exact ⟨fun hsmall _ => hsmall, fun hgrows => hgrows rfl⟩
        · have hfresh : new ∉ (c.heap.release p).live :=
            Heap.notMem_release (hnew.resolve_left heq)
          refine iff_of_true ?_ fun heq' => absurd heq' heq
          simp only [after, tlsHookRealloc, ne_eq, heq, not_false_eq_true, if_true,
            Heap.blockSize_alloc]
          exact (h.countFree hp).countAlloc hfresh size

end

/-! ## Runs -/

/-- **The heap accounting balances** in every state that a run of calls reaches exactly
when no block reallocated where it stands shrinks, or grows by 2 GiB or more. -/
theorem memory_accounting_balances_iff (start : Heap Ptr) (ops : List (MemoryOp Ptr))
    (hops : EachStep after Answered ops (executionInit start)) :
    Throughout after (Balanced start) ops (executionInit start) ↔
      EachStep after GrowsInPlace ops (executionInit start) := by
  refine throughout_iff_of_invariant (fun _ hc => hc) ?_ ?_ (balanced_executionInit start) hops
  · intro c op hc hop hgrows
    exact (balanced_after_iff hc op hop).mpr hgrows
  · intro c op hc hop hbalanced
    exact (balanced_after_iff hc op hop).mp hbalanced

/-- A heap without a block. -/
def emptyHeap : Heap ℕ := { live := ∅, blockSize := fun _ => 0 }

/-- A block of 64 bytes that is then shrunk where it stands: its 32 bytes are never taken
off. -/
theorem memory_accounting_unbalanced_shrink :
    EachStep after Answered [.malloc (some (1, 64)), .realloc (some 1) (some (1, 32))]
        (executionInit emptyHeap) ∧
      ¬Throughout after (Balanced emptyHeap)
        [.malloc (some (1, 64)), .realloc (some 1) (some (1, 32))] (executionInit emptyHeap) := by
  constructor
  · decide +kernel
  · intro h
    have hbytes := (h _ List.prefix_rfl).bytes
    revert hbytes
    unfold Tracks
    decide +kernel

/-- A block that grows where it stands, moves while it shrinks, and is given back. -/
theorem memory_accounting_balances_grow :
    Throughout after (Balanced emptyHeap)
      [.malloc (some (1, 64)), .realloc (some 1) (some (1, 128)),
        .realloc (some 1) (some (2, 32)), .free (some 2)] (executionInit emptyHeap) := by
  refine (memory_accounting_balances_iff emptyHeap _ ?_).mpr ?_
  · decide +kernel
  · decide +kernel

end HookedHeap

end PhpSpx
