/-
Arithmetic of the allocator's words: checked sums, complements, trailing zeros,
block sizes and free tags.
-/

import Qunix.Mm.Buddy

namespace Qunix.Mm

open Qunix.Lib

/-! ### Checked sums -/

variable {a b c k w i j : Nat}

theorem addU64_ok (h : a + b < 2 ^ 64) : addU64 a b = .ok (a + b) :=
  if_pos h

theorem subU64_ok (h : b ≤ a) : subU64 a b = .ok (a - b) :=
  if_pos h

theorem addU64_eq_ok (h : addU64 a b = .ok c) : a + b < 2 ^ 64 ∧ c = a + b := by
  unfold addU64 at h
  split_ifs at h with hlt
  exact ⟨hlt, (Except.ok.inj h).symm⟩

theorem subU64_eq_ok (h : subU64 a b = .ok c) : b ≤ a ∧ c = a - b := by
  unfold subU64 at h
  split_ifs at h with hle
  exact ⟨hle, (Except.ok.inj h).symm⟩

theorem checkedAdd_eq_some (h : checkedAdd a b = some c) :
    c = a + b ∧ a + b < 2 ^ 64 := by
  unfold checkedAdd at h
  split at h
  · rename_i hlt
    exact ⟨(Option.some.inj h).symm, hlt⟩
  · simp at h

/-- The rounded-up address is the next multiple of `m` at or above `a`. -/
theorem checkedNextMultipleOf_eq_some {m : Nat} (hm : 0 < m)
    (h : checkedNextMultipleOf a m = some c) : m ∣ c ∧ a ≤ c ∧ c < a + m := by
  unfold checkedNextMultipleOf at h
  have hmod := Nat.mod_lt a hm
  split_ifs at h with hz
  · cases h
    exact ⟨Nat.dvd_of_mod_eq_zero hz, le_rfl, by omega⟩
  · obtain ⟨rfl, -⟩ := checkedAdd_eq_some h
    refine ⟨?_, by omega, by omega⟩
    have hs : a + (m - a % m) = m * (a / m + 1) := by
      have := Nat.div_add_mod a m
      rw [Nat.mul_add]
      omega
    rw [hs]
    exact Nat.dvd_mul_right m _

/-! ### Bits -/

@[simp] theorem testBit_notU (w a i : Nat) :
    (notU w a).testBit i = (decide (i < w) ^^ a.testBit i) := by
  simp [notU]

/-- Masking off the low `k` bits rounds down to a multiple of `2 ^ k`. -/
theorem and_notU_two_pow_sub_one (ha : a < 2 ^ 64) :
    a &&& notU 64 (2 ^ k - 1) = a / 2 ^ k * 2 ^ k := by
  rw [← Nat.shiftRight_eq_div_pow, ← Nat.shiftLeft_eq]
  refine Nat.eq_of_testBit_eq fun i => ?_
  by_cases hik : i < k
  · by_cases hi : i < 64
    · simp [hik, hi]
    · have := Nat.testBit_lt_two_pow (Nat.lt_of_lt_of_le ha (Nat.pow_le_pow_right (by decide)
        (Nat.le_of_not_lt hi)))
      simp [this, hik]
  · have hki : k + (i - k) = i := by omega
    by_cases hi : i < 64
    · simp [hik, hi, hki, Nat.le_of_not_lt hik]
    · have := Nat.testBit_lt_two_pow (Nat.lt_of_lt_of_le ha (Nat.pow_le_pow_right (by decide)
        (Nat.le_of_not_lt hi)))
      simp [this, hki]

/-- `trailingZeros` finds the lowest set bit of a non-zero word. -/
theorem trailingZeros_spec (hi : i < w) (hbit : a.testBit i = true) :
    trailingZeros w a < w ∧ a.testBit (trailingZeros w a) = true ∧
      ∀ j < trailingZeros w a, a.testBit j = false := by
  unfold trailingZeros
  cases hf : (List.range w).find? a.testBit with
  | none =>
    have := List.find?_eq_none.mp hf i (List.mem_range.mpr hi)
    simp [hbit] at this
  | some k =>
    obtain ⟨hk, hget⟩ := List.find?_range_eq_some.mp hf
    exact ⟨List.mem_range.mp hget.1, hk, fun j hj => by simpa using hget.2 j hj⟩

theorem testBit_and_sub_one {mask t : Nat} (hset : mask.testBit t = true)
    (hlow : ∀ j < t, mask.testBit j = false) (n : Nat) :
    (mask &&& (mask - 1)).testBit n = (mask.testBit n && decide (n ≠ t)) := by
  have hmod : mask % 2 ^ (t + 1) = 2 ^ t := by
    refine Nat.eq_of_testBit_eq fun i => ?_
    rcases Nat.lt_trichotomy i t with hlt | rfl | hgt
    · simp [hlow i hlt, Nat.ne_of_gt hlt]
    · simp [hset]
    · simp [Nat.ne_of_lt hgt, show ¬ i < t + 1 by omega]
  have hlt : 2 ^ t < 2 ^ (t + 1) := Nat.pow_lt_pow_succ (by decide)
  have hs : mask = 2 ^ (t + 1) * (mask / 2 ^ (t + 1)) + 2 ^ t := by
    rw [← hmod, Nat.div_add_mod]
  have hp : mask - 1 = 2 ^ (t + 1) * (mask / 2 ^ (t + 1)) + (2 ^ t - 1) := by omega
  rw [Nat.testBit_and, hp, Nat.testBit_two_pow_mul_add _ (by omega)]
  by_cases hn : n < t + 1
  · rcases Nat.lt_or_eq_of_le (Nat.le_of_lt_succ hn) with hlt | rfl
    · simp [hlow n hlt]
    · simp
  · have hsa : mask.testBit n = (mask / 2 ^ (t + 1)).testBit (n - (t + 1)) := by
      conv_lhs => rw [hs, Nat.testBit_two_pow_mul_add _ hlt, if_neg hn]
    rw [if_neg hn, hsa]
    simp [show n ≠ t by omega]

/-- A word with `k` trailing zeros is a multiple of `2 ^ j` for every `j ≤ k`. -/
theorem two_pow_dvd_of_trailingZeros (ha : a < 2 ^ w) (hj : j ≤ trailingZeros w a) : 2 ^ j ∣ a := by
  have hlow : ∀ i < j, a.testBit i = false := by
    intro i hi
    by_contra hbit
    have hbit : a.testBit i = true := by simpa using hbit
    by_cases hiw : i < w
    · have := (trailingZeros_spec hiw hbit).2.2 i (by omega)
      simp [hbit] at this
    · have := Nat.testBit_lt_two_pow (Nat.lt_of_lt_of_le ha (Nat.pow_le_pow_right (by decide)
        (Nat.le_of_not_lt hiw)))
      simp [hbit] at this
  apply Nat.dvd_of_mod_eq_zero
  refine Nat.eq_of_testBit_eq fun i => ?_
  by_cases hij : i < j
  · simp [hlow i hij]
  · simp [hij]

theorem le_trailingZeros (hdvd : 2 ^ k ∣ a) (hk : k ≤ w) :
    k ≤ trailingZeros w a := by
  unfold trailingZeros
  cases hf : (List.range w).find? a.testBit with
  | none => exact hk
  | some i =>
    have hbit : a.testBit i = true := List.find?_some hf
    by_contra hlt
    have hi : i < k := by simpa using hlt
    obtain ⟨m, rfl⟩ := hdvd
    rw [Nat.testBit_two_pow_mul] at hbit
    simp [Nat.not_le.mpr hi] at hbit

/-! ### Block sizes -/

theorem pageSize_pos : 0 < pageSize := by decide

theorem blockSize_eq (order : Nat) : blockSize order = pageSize * 2 ^ order := by
  rw [blockSize, Nat.shiftLeft_eq]

theorem blockSize_eq_two_pow (order : Nat) : blockSize order = 2 ^ (12 + order) := by
  rw [blockSize_eq, Nat.pow_add]
  rfl

@[simp] theorem Block.size_pageSize (b : Block) : b.size pageSize = blockSize b.order :=
  (blockSize_eq b.order).symm

theorem blockSize_pos (order : Nat) : 0 < blockSize order := by
  rw [blockSize_eq_two_pow]
  exact Nat.two_pow_pos _

theorem blockSize_succ (order : Nat) :
    blockSize (order + 1) = blockSize order + blockSize order := by
  rw [blockSize_eq_two_pow, blockSize_eq_two_pow, ← Nat.add_assoc]
  omega

theorem pageSize_dvd_blockSize (order : Nat) : pageSize ∣ blockSize order := by
  rw [blockSize_eq]
  exact Nat.dvd_mul_right _ _

theorem pageSize_le_blockSize (order : Nat) : pageSize ≤ blockSize order :=
  Nat.le_of_dvd (blockSize_pos order) (pageSize_dvd_blockSize order)

theorem Block.Aligned.pageSize_dvd {b : Block} (h : b.Aligned pageSize) : pageSize ∣ b.base := by
  refine Dvd.dvd.trans ?_ h
  rw [Block.size_pageSize]
  exact pageSize_dvd_blockSize _

/-- The word at an offset of one page-aligned address is the word at an offset
of another only if both agree. -/
theorem add_offset_inj (ha : pageSize ∣ a) (hb : pageSize ∣ b) (hi : i < pageSize)
    (hj : j < pageSize) (h : a + i = b + j) : a = b ∧ i = j := by
  obtain ⟨m, rfl⟩ := ha
  obtain ⟨n, rfl⟩ := hb
  have hmod := congrArg (· % pageSize) h
  simp only [Nat.mul_add_mod, Nat.mod_eq_of_lt hi, Nat.mod_eq_of_lt hj] at hmod
  omega

theorem pageSize_not_dvd_NIL : ¬ pageSize ∣ NIL := by decide

/-! ### Free tags -/

theorem freeTag_ne_zero (pa order : Nat) : freeTag pa order ≠ 0 := by
  intro h
  have := congrArg (Nat.testBit · 0) h
  simp [freeTag] at this

/-- The multiples of the mixing constant stay distinct without their low bit. -/
private theorem tagMix_inj : ∀ i ≤ maxOrder, ∀ j ≤ maxOrder,
    (i * 0x9E3779B97F4A7C15 % 2 ^ 64) >>> 1 = (j * 0x9E3779B97F4A7C15 % 2 ^ 64) >>> 1 →
      i = j := by
  decide +kernel

theorem freeTag_inj {pa : Nat} (hi : i ≤ maxOrder) (hj : j ≤ maxOrder)
    (h : freeTag pa i = freeTag pa j) : i = j := by
  have hs := congrArg (· >>> 1) h
  simp only [freeTag, Nat.shiftRight_or_distrib, Nat.shiftRight_xor_distrib] at hs
  norm_num at hs
  exact tagMix_inj i hi j hj (by simpa using hs)

end Qunix.Mm
