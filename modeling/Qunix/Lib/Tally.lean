/-
Counting over the slots of a finite table.

`tally f g` adds up the weight `f` of what every slot of `g` holds. With `f` the
indicator of one value it counts in how many slots that value stands; an
assignment to one slot moves the count by the difference of the two weights.
-/

import Mathlib.Algebra.Order.BigOperators.Group.Finset
import Mathlib.Data.Fintype.BigOperators

namespace Qunix.Lib

open Function

variable {ι α : Type*} [Fintype ι]

def tally (f : α → Nat) (g : ι → α) : Nat := ∑ i, f (g i)

variable {f : α → Nat} {g : ι → α} {i j : ι}

theorem tally_eq_zero : tally f g = 0 ↔ ∀ i, f (g i) = 0 := by
  simp [tally]

theorem le_tally (i : ι) : f (g i) ≤ tally f g :=
  Finset.single_le_sum (f := fun i => f (g i)) (fun _ _ => Nat.zero_le _) (Finset.mem_univ i)

variable [DecidableEq ι]

theorem tally_update (v : α) : tally f (update g i v) + f (g i) = tally f g + f v := by
  have hr : ∀ k ∈ Finset.univ.erase i, f (update g i v k) = f (g k) := fun k hk => by
    rw [update_of_ne (Finset.ne_of_mem_erase hk)]
  rw [tally, tally, ← Finset.add_sum_erase _ _ (Finset.mem_univ i), Finset.sum_congr rfl hr,
    ← Finset.add_sum_erase Finset.univ (fun k => f (g k)) (Finset.mem_univ i), update_self]
  omega

theorem add_le_tally (h : i ≠ j) : f (g i) + f (g j) ≤ tally f g := by
  rw [tally, ← Finset.add_sum_erase _ _ (Finset.mem_univ i)]
  have hj : j ∈ Finset.univ.erase i := Finset.mem_erase.mpr ⟨h.symm, Finset.mem_univ j⟩
  have := Finset.single_le_sum (f := fun k => f (g k)) (fun _ _ => Nat.zero_le _) hj
  omega

end Qunix.Lib
