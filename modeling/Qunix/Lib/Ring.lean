/-
Rings under a free-running index.

Item number `k` of a stream is written to slot `k % size` of a ring, whatever was
there. `Shows size ring log start` says that the ring still holds the items of
`log` from number `start` on. Writing the next item keeps them as long as fewer
than `size` of them are wanted.

Both sides keep the number of the next item modulo a width that `size` divides, so
they find the same slots, and the distance between two such counters is exact
while it is below the width.
-/

import Mathlib.Data.Nat.ModEq

namespace Qunix.Lib

open Function

variable {α : Type*} {size width start j k : Nat} {ring : Nat → α} {log : List α} {a : α}

/-! ### Slots -/

/-- Less than a turn apart, two items are in different slots. -/
theorem mod_ne_of_lt_of_lt_add (hlt : j < k) (ht : k < j + size) : j % size ≠ k % size := by
  intro heq
  have hdvd : size ∣ k - j := (Nat.modEq_iff_dvd' hlt.le).mp heq
  have hle := Nat.le_of_dvd (by omega) hdvd
  omega

theorem wrapped_sub (hle : j ≤ k) (hlt : k < j + width) :
    (k % width + width - j % width) % width = k - j := by
  have hpos : 0 < width := by omega
  have hmod := Nat.mod_lt j hpos
  have hsum : k % width + width - j % width + (j % width) = k % width + width := by omega
  have hc : k % width + width - j % width + j ≡ k - j + j [MOD width] := by
    rw [Nat.sub_add_cancel hle]
    calc k % width + width - j % width + j
        ≡ k % width + width - j % width + j % width [MOD width] :=
          Nat.ModEq.add_left _ (Nat.mod_modEq j width).symm
      _ = k % width + width := hsum
      _ ≡ k % width [MOD width] := Nat.add_modEq_right
      _ ≡ k [MOD width] := Nat.mod_modEq k width
  have hd := Nat.ModEq.add_right_cancel' j hc
  rw [hd, Nat.mod_eq_of_lt (by omega)]

/-! ### Contents -/

/-- The ring holds the items of `log` from number `start` on. -/
def Shows (size : Nat) (ring : Nat → α) (log : List α) (start : Nat) : Prop :=
  ∀ j, start ≤ j → ∀ a, log[j]? = some a → ring (j % size) = a

namespace Shows

theorem nil : Shows size ring [] start := fun _ _ _ h => nomatch h

theorem mono {start' : Nat} (h : Shows size ring log start) (hle : start ≤ start') :
    Shows size ring log start' :=
  fun j hj => h j (hle.trans hj)

theorem push (h : Shows size ring log start) (hr : log.length < start + size) :
    Shows size (update ring (log.length % size) a) (log ++ [a]) start := by
  intro j hj b hb
  rcases Nat.lt_trichotomy j log.length with hlt | rfl | hgt
  · rw [List.getElem?_append_left hlt] at hb
    rw [update_of_ne (mod_ne_of_lt_of_lt_add hlt (by omega))]
    exact h j hj b hb
  · rw [List.getElem?_concat_length, Option.some.injEq] at hb
    rw [update_self, hb]
  · rw [List.getElem?_eq_none (by simp; omega)] at hb
    cases hb

end Shows

end Qunix.Lib
