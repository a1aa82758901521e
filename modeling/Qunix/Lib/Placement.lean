/-
Partial maps of a bounded range, read from their range.

A `Placement` says what each place holds. No key stands in two places, so it is
a partial map from keys to places. Such a map changes by putting a key that
stands nowhere into an empty place and by emptying a place (`Placement.Move`).
-/

import Mathlib.Logic.Function.Basic
import Mathlib.Logic.Relation

namespace Qunix.Lib

open Function

universe u v

structure Placement (ι : Type u) (κ : Type v) where
  holds : ι → Option κ
  inj : ∀ i j k, holds i = some k → holds j = some k → i = j

namespace Placement

variable {ι : Type u} {κ : Type v} [DecidableEq ι]

def empty : Placement ι κ := ⟨fun _ => none, by simp⟩

/-- `k` goes into place `i`. -/
def put (p : Placement ι κ) (i : ι) (k : κ) (habsent : ∀ j, p.holds j ≠ some k) :
    Placement ι κ where
  holds := update p.holds i (some k)
  inj j j' k' hj hj' := by
    by_cases hji : j = i
    · by_cases hji' : j' = i
      · rw [hji, hji']
      · subst hji
        rw [update_self] at hj
        rw [update_of_ne hji', ← hj] at hj'
        exact absurd hj' (habsent j')
    · rw [update_of_ne hji] at hj
      by_cases hji' : j' = i
      · subst hji'
        rw [update_self] at hj'
        rw [← hj'] at hj
        exact absurd hj (habsent j)
      · rw [update_of_ne hji'] at hj'
        exact p.inj j j' k' hj hj'

/-- Place `i` is emptied. -/
def drop (p : Placement ι κ) (i : ι) : Placement ι κ where
  holds := update p.holds i none
  inj j j' k hj hj' := by
    have hold : ∀ x, update p.holds i none x = some k → p.holds x = some k := by
      intro x hx
      by_cases hxi : x = i
      · rw [hxi, update_self] at hx
        cases hx
      · rwa [update_of_ne hxi] at hx
    exact p.inj j j' k (hold j hj) (hold j' hj')

/-- One change of the map. -/
inductive Move : Placement ι κ → Placement ι κ → Prop where
  | put {p : Placement ι κ} {i : ι} {k : κ} (hempty : p.holds i = none)
      (habsent : ∀ j, p.holds j ≠ some k) : Move p (p.put i k habsent)
  | drop {p : Placement ι κ} {i : ι} : Move p (p.drop i)

end Placement

end Qunix.Lib
