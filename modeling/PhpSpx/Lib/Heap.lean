import Mathlib.Algebra.BigOperators.Group.Finset.Basic
import Mathlib.Data.Int.ModEq
import Mathlib.Tactic.Ring

/-!
# Heaps

The live blocks of an allocator with the size it reports for each, and the balance of
64-bit counters over them.

* `Heap.alloc`, `Heap.release`, `Heap.resize` — what an allocator does to its blocks.
* `Heap.liveBytes` — the total size of the live blocks.
* `Tracks` — two counters whose difference is a given change, modulo `2 ^ 64`.
-/

namespace PhpSpx.Lib

/-- The live blocks of an allocator, and the size it reports for a block. -/
structure Heap (Ptr : Type*) where
  live : Finset Ptr
  blockSize : Ptr → UInt64

namespace Heap

variable {Ptr : Type*} [DecidableEq Ptr]

/-- A block comes to life. -/
def alloc (h : Heap Ptr) (p : Ptr) (size : UInt64) : Heap Ptr :=
  { live := insert p h.live, blockSize := Function.update h.blockSize p size }

/-- A block is given back. -/
def release (h : Heap Ptr) (p : Ptr) : Heap Ptr :=
  { h with live := h.live.erase p }

/-- A live block changes its size where it stands. -/
def resize (h : Heap Ptr) (p : Ptr) (size : UInt64) : Heap Ptr :=
  { h with blockSize := Function.update h.blockSize p size }

/-- The total size of the live blocks. -/
def liveBytes (h : Heap Ptr) : ℕ := ∑ p ∈ h.live, (h.blockSize p).toNat

/-- The number of live blocks. -/
def liveCount (h : Heap Ptr) : ℕ := h.live.card

section
variable {h : Heap Ptr} {p q : Ptr} {size : UInt64}

@[simp] theorem blockSize_alloc : (h.alloc p size).blockSize p = size := by
  simp [alloc]

@[simp] theorem blockSize_resize : (h.resize p size).blockSize p = size := by
  simp [resize]

theorem notMem_release (hq : q ∉ h.live) : q ∉ (h.release p).live := by
  intro hmem
  exact hq (Finset.mem_of_mem_erase hmem)

/-- Another size for a block leaves the total of the blocks without it alone. -/
theorem sum_update_of_notMem {s : Finset Ptr} (f : Ptr → UInt64) (hp : p ∉ s) :
    ∑ q ∈ s, (Function.update f p size q).toNat = ∑ q ∈ s, (f q).toNat := by
  apply Finset.sum_congr rfl
  intro q hq
  have hne : q ≠ p := by
    rintro rfl
    exact hp hq
  rw [Function.update_of_ne hne]

theorem liveBytes_alloc (hp : p ∉ h.live) :
    (h.alloc p size).liveBytes = h.liveBytes + size.toNat := by
  simp only [liveBytes, alloc]
  rw [Finset.sum_insert hp, Function.update_self, sum_update_of_notMem _ hp, Nat.add_comm]

theorem liveBytes_release (hp : p ∈ h.live) :
    (h.release p).liveBytes + (h.blockSize p).toNat = h.liveBytes := by
  simp only [liveBytes, release]
  exact Finset.sum_erase_add _ _ hp

theorem liveBytes_resize (hp : p ∈ h.live) :
    (h.resize p size).liveBytes + (h.blockSize p).toNat = h.liveBytes + size.toNat := by
  simp only [liveBytes, resize]
  rw [← Finset.sum_erase_add _ _ hp, ← Finset.sum_erase_add _ _ hp, Function.update_self,
    sum_update_of_notMem _ (Finset.notMem_erase p h.live)]
  ring

theorem liveCount_alloc (hp : p ∉ h.live) :
    (h.alloc p size).liveCount = h.liveCount + 1 := by
  simp only [liveCount, alloc]
  exact Finset.card_insert_of_notMem hp

theorem liveCount_release (hp : p ∈ h.live) :
    (h.release p).liveCount + 1 = h.liveCount := by
  simp only [liveCount, release]
  exact Finset.card_erase_add_one hp

end

end Heap

/-! ## 64-bit counters -/

theorem toNat_add_modEq (a b : UInt64) :
    ((a + b).toNat : ℤ) ≡ a.toNat + b.toNat [ZMOD 2 ^ 64] := by
  rw [UInt64.toNat_add]
  push_cast
  exact Int.mod_modEq _ _

theorem toNat_sub_modEq (a b : UInt64) :
    ((a - b).toNat : ℤ) ≡ a.toNat - b.toNat [ZMOD 2 ^ 64] := by
  have hb : b.toNat < 2 ^ 64 := b.toNat_lt
  rw [UInt64.toNat_sub]
  unfold Int.ModEq
  omega

/-- The difference of a counter of gains and one of losses is the change, modulo
`2 ^ 64`. -/
def Tracks (gained lost : UInt64) (change : ℤ) : Prop :=
  ((gained - lost).toNat : ℤ) ≡ change [ZMOD 2 ^ 64]

section
variable {gained lost size : UInt64} {change : ℤ}

theorem tracks_iff : Tracks gained lost change ↔
    (gained.toNat - lost.toNat : ℤ) ≡ change [ZMOD 2 ^ 64] := by
  have hsub := toNat_sub_modEq gained lost
  exact ⟨hsub.symm.trans, hsub.trans⟩

theorem tracks_zero : Tracks 0 0 0 := by
  rw [tracks_iff]
  exact Int.ModEq.refl 0

/-- A gain is tracked when what is counted is what is gained. -/
theorem Tracks.gain_iff (h : Tracks gained lost change) (gain : ℤ) :
    Tracks (gained + size) lost (change + gain) ↔ (size.toNat : ℤ) ≡ gain [ZMOD 2 ^ 64] := by
  rw [tracks_iff] at h ⊢
  have hadd : ((gained + size).toNat - lost.toNat : ℤ)
      ≡ (gained.toNat - lost.toNat) + size.toNat [ZMOD 2 ^ 64] := by
    rw [← add_sub_right_comm]
    exact (toNat_add_modEq gained size).sub_right _
  constructor
  · intro hsum
    exact Int.ModEq.add_left_cancel h (hadd.symm.trans hsum)
  · intro hgain
    exact hadd.trans (h.add hgain)

theorem Tracks.gain (h : Tracks gained lost change) (size : UInt64) :
    Tracks (gained + size) lost (change + size.toNat) :=
  (h.gain_iff _).mpr (Int.ModEq.refl _)

theorem Tracks.lose (h : Tracks gained lost change) (size : UInt64) :
    Tracks gained (lost + size) (change - size.toNat) := by
  rw [tracks_iff] at h ⊢
  have hadd := (toNat_add_modEq lost size).sub_left (gained.toNat : ℤ)
  rw [← sub_sub] at hadd
  exact hadd.trans (h.sub_right _)

end

end PhpSpx.Lib
