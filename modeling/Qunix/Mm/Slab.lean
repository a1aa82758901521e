/-
The kernel heap (`crates/qunix-mm/src/slab.rs`).

A `SlabHeap` is the heap's record together with the bytes it reaches. Free blocks
of a size class, or of a power-of-two extent, form a singly linked list through
their own first eight bytes; address 0 is the null pointer. The sums of the
counter are checked as the development profile checks them.

The size classes and the large extents behave alike once a request has been
sorted: a `Bin` says how much a request reserves, how it is aligned, what it is
charged and which list its blocks come from and go back to. `alloc_eq` and
`dealloc_eq` state both operations over bins.
-/

import Mathlib.Tactic.IntervalCases
import Qunix.Lib.Bytes
import Qunix.Mm.Words

namespace Qunix.Mm.Slab

open Qunix.Lib Function

/-- Rust's `Layout`: the alignment is a power of two, and the size rounded up to it
does not exceed `isize::MAX`. -/
structure Layout where
  size : Nat
  align : Nat
  align_pow : align = 2 ^ Nat.log2 align
  size_lt : size + (align - 1) < 2 ^ 63
deriving DecidableEq, Repr

inductive Panic where
  | backingReplaced
  | backingWraps
  | overflow
deriving DecidableEq, Repr

/-! ### Sorting requests -/

def classes : List Nat :=
  [8, 12, 16, 24, 32, 48, 64, 96, 128, 192, 256, 384, 512, 768, 1024, 1536, 2048]

def classSize (cls : Nat) : Nat := classes.getD cls 0

def largeMin : Nat := 32
def largeMinShift : Nat := trailingZeros 64 largeMin
def largeListsLen : Nat := 18
def maxClassAlign : Nat := 16

/-- `usize::next_power_of_two`. -/
def nextPowerOfTwo (n : Nat) : Nat := if n ≤ 1 then 1 else 2 ^ (Nat.log2 (n - 1) + 1)

def largeExtent (layout : Layout) : Nat :=
  max (max (nextPowerOfTwo layout.size) layout.align) largeMin

def largeIndex (extent : Nat) : Option Nat :=
  let idx := trailingZeros 64 extent - largeMinShift
  if idx < largeListsLen then some idx else none

def classFor (layout : Layout) : Option Nat :=
  if maxClassAlign < layout.align ∨ classSize (classes.length - 1) < layout.size then none
  else
    let size := max layout.size (classSize 0)
    let k := trailingZeros 64 (nextPowerOfTwo size)
    let threeQuarter := 3 <<< (k - 2)
    some (if 4 ≤ k ∧ size ≤ threeQuarter then 2 * (k - 3) - 1 else 2 * (k - 3))

/-! ### The heap -/

structure SlabHeap where
  mem : Nat → UInt8
  freeLists : Nat → Nat
  largeLists : Nat → Nat
  bumpNext : Nat
  bumpEnd : Nat
  allocated : Nat

namespace SlabHeap

def new (mem : Nat → UInt8) : SlabHeap where
  mem := mem
  freeLists := fun _ => 0
  largeLists := fun _ => 0
  bumpNext := 0
  bumpEnd := 0
  allocated := 0

def setBacking (h : SlabHeap) (va len : Nat) : Except Panic SlabHeap :=
  if ¬ (h.bumpEnd = 0 ∧ h.allocated = 0) then .error .backingReplaced
  else
    match checkedAdd va len with
    | none => .error .backingWraps
    | some last => .ok { h with bumpNext := va, bumpEnd := last }

/-- The pointer in the first bytes of a free block. -/
def link (h : SlabHeap) (ptr : Nat) : Nat := readLE h.mem ptr 8

def setLink (h : SlabHeap) (ptr next : Nat) : SlabHeap :=
  { h with mem := writeBytes h.mem ptr (toLE 8 next) }

/-- `allocated += size`. -/
def charge (h : SlabHeap) (size : Nat) : Except Panic SlabHeap :=
  if h.allocated + size < 2 ^ 64 then .ok { h with allocated := h.allocated + size }
  else .error .overflow

/-- `allocated -= size`. -/
def credit (h : SlabHeap) (size : Nat) : Except Panic SlabHeap :=
  if size ≤ h.allocated then .ok { h with allocated := h.allocated - size }
  else .error .overflow

def bump (h : SlabHeap) (size align : Nat) : Nat × SlabHeap :=
  match (checkedAdd h.bumpNext (align - 1)).map (· &&& notU 64 (align - 1)) with
  | none => (0, h)
  | some start =>
    match checkedAdd start size with
    | none => (0, h)
    | some last => if h.bumpEnd < last then (0, h) else (start, { h with bumpNext := last })

def alloc (h : SlabHeap) (layout : Layout) : Except Panic (Nat × SlabHeap) :=
  match classFor layout with
  | some cls =>
    let size := classSize cls
    let head := h.freeLists cls
    let (ptr, h) :=
      if head = 0 then h.bump (max size maxClassAlign) maxClassAlign
      else (head, { h with freeLists := update h.freeLists cls (h.link head) })
    if ptr ≠ 0 then do
      let h ← h.charge size
      pure (ptr, h)
    else .ok (ptr, h)
  | none =>
    let extent := largeExtent layout
    let bumped : Except Panic (Nat × SlabHeap) :=
      let (ptr, h) := h.bump extent extent
      if ptr ≠ 0 then do
        let h ← h.charge extent
        pure (ptr, h)
      else .ok (ptr, h)
    match largeIndex extent with
    | some idx =>
      let head := h.largeLists idx
      if head ≠ 0 then do
        let h := { h with largeLists := update h.largeLists idx (h.link head) }
        let h ← h.charge extent
        pure (head, h)
      else bumped
    | none => bumped

def dealloc (h : SlabHeap) (ptr : Nat) (layout : Layout) : Except Panic SlabHeap :=
  match classFor layout with
  | some cls =>
    let h := h.setLink ptr (h.freeLists cls)
    let h := { h with freeLists := update h.freeLists cls ptr }
    h.credit (classSize cls)
  | none => do
    let extent := largeExtent layout
    let h ← h.credit extent
    match largeIndex extent with
    | some idx =>
      let h := h.setLink ptr (h.largeLists idx)
      pure { h with largeLists := update h.largeLists idx ptr }
    | none => pure h

end SlabHeap

/-! ### Bins -/

/-- Where the blocks of a request come from and go back to. -/
inductive Bin where
  | sized (cls : Nat)
  | large (extent : Nat)
deriving DecidableEq, Repr

def Layout.bin (layout : Layout) : Bin :=
  match classFor layout with
  | some cls => .sized cls
  | none => .large (largeExtent layout)

namespace Bin

/-- The bytes a block takes from the region. -/
def extent : Bin → Nat
  | sized cls => max (classSize cls) maxClassAlign
  | large extent => extent

def align : Bin → Nat
  | sized _ => maxClassAlign
  | large extent => extent

/-- The bytes a block counts for in `allocated`. -/
def charge : Bin → Nat
  | sized cls => classSize cls
  | large extent => extent

/-- Blocks of the bin are kept when they are freed. -/
def Recycled : Bin → Prop
  | sized _ => True
  | large extent => (largeIndex extent).isSome

instance : (bin : Bin) → Decidable bin.Recycled
  | sized _ => inferInstanceAs (Decidable True)
  | large _ => inferInstanceAs (Decidable (_ = true))

/-- The bins requests are sorted into. -/
def Valid : Bin → Prop
  | sized cls => cls < classes.length
  | large extent => ∃ k, 5 ≤ k ∧ k < 64 ∧ extent = 2 ^ k

end Bin

namespace SlabHeap

def head (h : SlabHeap) : Bin → Nat
  | .sized cls => h.freeLists cls
  | .large extent => ((largeIndex extent).map h.largeLists).getD 0

def setHead (h : SlabHeap) : Bin → Nat → SlabHeap
  | .sized cls, ptr => { h with freeLists := update h.freeLists cls ptr }
  | .large extent, ptr =>
    match largeIndex extent with
    | some idx => { h with largeLists := update h.largeLists idx ptr }
    | none => h

/-- `alloc` takes the first block of the bin, or a fresh one. -/
theorem alloc_eq (h : SlabHeap) (layout : Layout) : h.alloc layout =
    let (ptr, h') :=
      if h.head layout.bin = 0 then h.bump layout.bin.extent layout.bin.align
      else (h.head layout.bin, h.setHead layout.bin (h.link (h.head layout.bin)))
    if ptr ≠ 0 then (h'.charge layout.bin.charge).map (Prod.mk ptr) else .ok (ptr, h') := by
  unfold alloc Layout.bin
  cases classFor layout with
  | some cls =>
    rfl
  | none =>
    simp only
    cases hidx : largeIndex (largeExtent layout) with
    | none =>
      have hh : h.head (.large (largeExtent layout)) = 0 := by simp [head, hidx]
      rw [hh]
      rfl
    | some idx =>
      have hh : h.head (.large (largeExtent layout)) = h.largeLists idx := by
        simp [head, hidx]
      rw [hh]
      by_cases hnil : h.largeLists idx = 0
      · simp only [hnil]
        rfl
      · rw [if_neg hnil]
        simp only [setHead, hidx, ne_eq, hnil]
        rfl

/-- `dealloc` puts the block back into the bin if the bin keeps any. -/
theorem dealloc_eq (h : SlabHeap) (ptr : Nat) (layout : Layout) : h.dealloc ptr layout =
    (if layout.bin.Recycled then (h.setLink ptr (h.head layout.bin)).setHead layout.bin ptr
      else h).credit layout.bin.charge := by
  unfold dealloc Layout.bin
  cases classFor layout with
  | some cls =>
    rfl
  | none =>
    cases hidx : largeIndex (largeExtent layout) with
    | none =>
      have hr : ¬ (Bin.large (largeExtent layout)).Recycled := by simp [Bin.Recycled, hidx]
      rw [if_neg hr]
      simp only [Bin.charge, hidx]
      cases h.credit (largeExtent layout) <;> rfl
    | some idx =>
      have hr : (Bin.large (largeExtent layout)).Recycled := by simp [Bin.Recycled, hidx]
      simp only [head, setHead, hidx, Bin.charge, credit, setLink]
      split <;> rfl

end SlabHeap

/-! ### What a bin gives a request -/

theorem trailingZeros_two_pow {k : Nat} (hk : k < 64) : trailingZeros 64 (2 ^ k) = k := by
  have hbit : (2 ^ k).testBit k = true := Nat.testBit_two_pow_self
  obtain ⟨-, hset, -⟩ := trailingZeros_spec hk hbit
  rw [Nat.testBit_two_pow] at hset
  exact (of_decide_eq_true hset).symm

theorem nextPowerOfTwo_spec (n : Nat) : ∃ k, nextPowerOfTwo n = 2 ^ k ∧ n ≤ 2 ^ k ∧
    ∀ j, n ≤ 2 ^ j → k ≤ j := by
  unfold nextPowerOfTwo
  split
  · exact ⟨0, rfl, by omega, fun j _ => Nat.zero_le j⟩
  · refine ⟨_, rfl, ?_, fun j hj => ?_⟩
    · have := Nat.lt_log2_self (n := n - 1)
      omega
    · have hne : n - 1 ≠ 0 := by omega
      have := (Nat.log2_lt hne).mpr (show n - 1 < 2 ^ j by omega)
      omega

theorem classSize_pow {k : Nat} (hlo : 3 ≤ k) (hhi : k ≤ 11) : classSize (2 * (k - 3)) = 2 ^ k := by
  interval_cases k <;> rfl

theorem classSize_mid {k : Nat} (hlo : 4 ≤ k) (hhi : k ≤ 11) :
    classSize (2 * (k - 3) - 1) = 3 <<< (k - 2) := by
  interval_cases k <;> rfl

theorem classFor_spec {layout : Layout} {cls : Nat} (h : classFor layout = some cls) :
    cls < classes.length ∧ layout.size ≤ classSize cls ∧ layout.align ≤ maxClassAlign := by
  unfold classFor at h
  split_ifs at h with hin
  push Not at hin
  obtain ⟨ha, hs⟩ := hin
  obtain ⟨k, hk, hle, hmin⟩ := nextPowerOfTwo_spec (max layout.size (classSize 0))
  have hl : classSize (classes.length - 1) = 2 ^ 11 := rfl
  have hf : classSize 0 = 8 := rfl
  have hk11 : k ≤ 11 := hmin 11 (by omega)
  have hk3 : 3 ≤ k := by
    by_contra hlt
    have := Nat.pow_le_pow_right (n := 2) (by decide) (show k ≤ 2 by omega)
    omega
  simp only [hk, trailingZeros_two_pow (show k < 64 by omega), Option.some.injEq] at h
  subst h
  have hc : classes.length = 17 := rfl
  split_ifs with hmid
  · refine ⟨by omega, ?_, ha⟩
    rw [classSize_mid hmid.1 hk11]
    exact (Nat.le_max_left _ _).trans hmid.2
  · refine ⟨by omega, ?_, ha⟩
    rw [classSize_pow hk3 hk11]
    exact (Nat.le_max_left _ _).trans hle

/-- A large extent is a power of two that holds the size and keeps the alignment. -/
theorem largeExtent_spec (layout : Layout) : ∃ k, 5 ≤ k ∧ k < 64 ∧ largeExtent layout = 2 ^ k ∧
    layout.size ≤ 2 ^ k ∧ layout.align ∣ 2 ^ k := by
  obtain ⟨i, hi, hs, hmin⟩ := nextPowerOfTwo_spec layout.size
  have ha := layout.align_pow
  have hlt := layout.size_lt
  have hi63 : i ≤ 63 := hmin 63 (by omega)
  have hpos : 0 < layout.align := by
    rw [ha]
    exact Nat.two_pow_pos _
  have hj63 : Nat.log2 layout.align < 64 := (Nat.log2_lt (by omega)).mpr (by omega)
  have hm : Monotone fun k : Nat => 2 ^ k := fun _ _ hle => Nat.pow_le_pow_right (by decide) hle
  have hpow : ∀ a b, max (2 ^ a) (2 ^ b) = 2 ^ max a b := fun a b => hm.map_max.symm
  refine ⟨max (max i (Nat.log2 layout.align)) 5, by omega, by omega, ?_, ?_, ?_⟩
  · rw [largeExtent, hi, ← hpow, ← hpow, ← ha]
    rfl
  · exact hs.trans (Nat.pow_le_pow_right (by decide) (by omega))
  · rw [ha]
    refine (Nat.pow_dvd_pow_iff_le_right (by decide)).mpr ?_
    rw [← ha]
    omega

theorem largeIndex_two_pow {k : Nat} (hk : k < 64) :
    largeIndex (2 ^ k) = if k - 5 < largeListsLen then some (k - 5) else none := by
  have hs : largeMinShift = 5 := by decide
  rw [largeIndex, trailingZeros_two_pow hk, hs]

namespace Layout

variable (layout : Layout)

theorem bin_valid : layout.bin.Valid := by
  unfold bin
  cases hc : classFor layout with
  | some cls => exact (classFor_spec hc).1
  | none =>
    obtain ⟨k, hlo, hhi, hk, -⟩ := largeExtent_spec layout
    exact ⟨k, hlo, hhi, hk⟩

theorem size_le_extent : layout.size ≤ layout.bin.extent := by
  unfold bin
  cases hc : classFor layout with
  | some cls => exact (classFor_spec hc).2.1.trans (Nat.le_max_left _ _)
  | none =>
    obtain ⟨k, -, -, hk, hs, -⟩ := largeExtent_spec layout
    exact hk ▸ hs

theorem align_dvd_bin : layout.align ∣ layout.bin.align := by
  unfold bin
  cases hc : classFor layout with
  | some cls =>
    have hle := (classFor_spec hc).2.2
    have hpow := layout.align_pow
    rw [hpow] at hle ⊢
    exact (Nat.pow_dvd_pow_iff_le_right (l := 4) (by decide)).mpr
      ((Nat.pow_le_pow_iff_right (by decide)).mp hle)
  | none =>
    obtain ⟨k, -, -, hk, -, ha⟩ := largeExtent_spec layout
    exact hk ▸ ha

end Layout

namespace Bin

variable {bin bin' : Bin}

theorem Valid.sixteen_le_extent (h : bin.Valid) : 16 ≤ bin.extent := by
  cases bin with
  | sized cls => exact Nat.le_max_right _ _
  | large extent =>
    obtain ⟨k, hk, -, rfl⟩ := h
    have := Nat.pow_le_pow_right (n := 2) (by decide) hk
    simp only [Bin.extent]
    omega

theorem charge_le_extent (bin : Bin) : bin.charge ≤ bin.extent := by
  cases bin with
  | sized cls => exact Nat.le_max_left _ _
  | large extent => exact le_rfl

theorem Valid.align_eq (h : bin.Valid) : ∃ k, bin.align = 2 ^ k := by
  cases bin with
  | sized cls => exact ⟨4, rfl⟩
  | large extent =>
    obtain ⟨k, -, -, rfl⟩ := h
    exact ⟨k, rfl⟩

end Bin

namespace SlabHeap

variable {h : SlabHeap} {bin bin' : Bin} {ptr : Nat}

theorem head_setHead (hr : bin.Recycled) (hv : bin.Valid) (hv' : bin'.Valid) :
    (h.setHead bin ptr).head bin' = if bin' = bin then ptr else h.head bin' := by
  cases bin with
  | sized cls =>
    cases bin' with
    | sized cls' => simp [setHead, head, update_apply]
    | large extent' => simp [setHead, head]
  | large extent =>
    obtain ⟨k, hlo, hhi, rfl⟩ := hv
    simp only [Bin.Recycled, largeIndex_two_pow hhi, Option.isSome_ite] at hr
    cases bin' with
    | sized cls' => simp [setHead, head, largeIndex_two_pow hhi, hr]
    | large extent' =>
      obtain ⟨k', hlo', hhi', rfl⟩ := hv'
      rcases eq_or_ne k' k with rfl | hk
      · simp [setHead, head, largeIndex_two_pow hhi, hr]
      · have hne : (2 : Nat) ^ k' ≠ 2 ^ k := fun heq =>
          hk (Nat.pow_right_injective (Nat.le_refl 2) heq)
        have hidx : k' - 5 ≠ k - 5 := by omega
        by_cases hr' : k' - 5 < largeListsLen
        · simp [setHead, head, largeIndex_two_pow hhi, largeIndex_two_pow hhi', hr, hne,
            update_of_ne hidx]
        · simp [head, largeIndex_two_pow hhi', hr', hne]

theorem setHead_eq (h : SlabHeap) (bin : Bin) (ptr : Nat) :
    ∃ sized large, h.setHead bin ptr = { h with freeLists := sized, largeLists := large } := by
  cases bin with
  | sized cls => exact ⟨_, _, rfl⟩
  | large extent =>
    simp only [setHead]
    split
    · exact ⟨_, _, rfl⟩
    · exact ⟨_, _, rfl⟩

@[simp] theorem setHead_mem : (h.setHead bin ptr).mem = h.mem := by
  obtain ⟨_, _, heq⟩ := h.setHead_eq bin ptr
  rw [heq]

@[simp] theorem setHead_bumpNext : (h.setHead bin ptr).bumpNext = h.bumpNext := by
  obtain ⟨_, _, heq⟩ := h.setHead_eq bin ptr
  rw [heq]

@[simp] theorem setHead_bumpEnd : (h.setHead bin ptr).bumpEnd = h.bumpEnd := by
  obtain ⟨_, _, heq⟩ := h.setHead_eq bin ptr
  rw [heq]

@[simp] theorem setHead_allocated : (h.setHead bin ptr).allocated = h.allocated := by
  obtain ⟨_, _, heq⟩ := h.setHead_eq bin ptr
  rw [heq]

/-- `bump` refuses and changes nothing, or cuts an aligned range off the region. -/
theorem bump_cases (h : SlabHeap) (size k : Nat) :
    h.bump size (2 ^ k) = (0, h) ∨ ∃ start, 2 ^ k ∣ start ∧ h.bumpNext ≤ start ∧
      start + size ≤ h.bumpEnd ∧
      h.bump size (2 ^ k) = (start, { h with bumpNext := start + size }) := by
  unfold bump
  cases hr : checkedAdd h.bumpNext (2 ^ k - 1) with
  | none => exact .inl rfl
  | some rounded =>
    obtain ⟨rfl, hlt⟩ := checkedAdd_eq_some hr
    rw [Option.map_some, and_notU_two_pow_sub_one hlt]
    have hmod := Nat.div_add_mod (h.bumpNext + (2 ^ k - 1)) (2 ^ k)
    rw [Nat.mul_comm] at hmod
    have hdvd : 2 ^ k ∣ (h.bumpNext + (2 ^ k - 1)) / 2 ^ k * 2 ^ k := Nat.dvd_mul_left _ _
    generalize (h.bumpNext + (2 ^ k - 1)) / 2 ^ k * 2 ^ k = start at *
    dsimp only
    cases hend : checkedAdd start size with
    | none => exact .inl rfl
    | some last =>
      obtain ⟨rfl, -⟩ := checkedAdd_eq_some hend
      dsimp only
      split
      · exact .inl rfl
      · exact .inr ⟨start, hdvd, by omega, by omega, rfl⟩

end SlabHeap

end Qunix.Mm.Slab
