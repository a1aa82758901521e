/-
Comparisons that go round.

Three things compared in a ring are out of order if no comparison goes up and one
goes down. A comparison is transitive on three things, in every order of them, exactly
where they are not in such a cycle one way round or the other; a transitive
comparison has none. One comparison refined by another has the cycles of the second
where the first finds no difference, and those of the first that the second does not
break.
-/

import Mathlib.Order.Basic

namespace Qunix.Lib

/-- Going round three comparisons never goes down, and goes up at least once. -/
def Circular (o₁ o₂ o₃ : Ordering) : Prop :=
  o₁ ≠ .gt ∧ o₂ ≠ .gt ∧ o₃ ≠ .gt ∧ ¬ (o₁ = .eq ∧ o₂ = .eq ∧ o₃ = .eq)

instance (o₁ o₂ o₃ : Ordering) : Decidable (Circular o₁ o₂ o₃) :=
  inferInstanceAs (Decidable (_ ∧ _ ∧ _ ∧ _))

/-- Transitivity, with what is said of strict comparisons. -/
def Transits (ab bc ac : Ordering) : Prop :=
  ab ≠ .gt → bc ≠ .gt → ac ≠ .gt ∧ (ab = .lt ∨ bc = .lt → ac = .lt)

instance (ab bc ac : Ordering) : Decidable (Transits ab bc ac) :=
  inferInstanceAs (Decidable (_ → _ → _))

theorem transits_iff : ∀ ab bc ac : Ordering, Transits ab bc ac ↔ ¬ Circular ab bc ac.swap := by
  decide

section

variable {α : Type*} {cmp : α → α → Ordering}

theorem not_circular [Std.TransCmp cmp] (a b c : α) : ¬ Circular (cmp a b) (cmp b c) (cmp c a) := by
  rintro ⟨hab, hbc, hca, hne⟩
  have le_of_ne : ∀ {o : Ordering}, o ≠ .gt → o.isLE = true := by decide
  have ha := le_of_ne hab
  have hb := le_of_ne hbc
  have hc := le_of_ne hca
  apply hne
  refine ⟨?_, ?_, ?_⟩
  · exact Std.OrientedCmp.isLE_antisymm ha (Std.TransCmp.isLE_trans hb hc)
  · exact Std.OrientedCmp.isLE_antisymm hb (Std.TransCmp.isLE_trans hc ha)
  · exact Std.OrientedCmp.isLE_antisymm hc (Std.TransCmp.isLE_trans ha hb)

end

section

variable {o₁ o₂ o₃ k₁ k₂ k₃ : Ordering}

theorem Circular.rotate (h : Circular o₁ o₂ o₃) : Circular o₂ o₃ o₁ :=
  ⟨h.2.1, h.2.2.1, h.1, fun ⟨h₂, h₃, h₁⟩ => h.2.2.2 ⟨h₁, h₂, h₃⟩⟩

theorem circular_then_iff : Circular (o₁.then k₁) (o₂.then k₂) (o₃.then k₃) ↔
    (o₁ = .eq ∧ o₂ = .eq ∧ o₃ = .eq ∧ Circular k₁ k₂ k₃) ∨
    (Circular o₁ o₂ o₃ ∧
      (o₁ = .eq → k₁ ≠ .gt) ∧ (o₂ = .eq → k₂ ≠ .gt) ∧ (o₃ = .eq → k₃ ≠ .gt)) := by
  cases o₁ <;> cases o₂ <;> cases o₃ <;> simp [Circular]

/-- Where the first comparison has no cycles, the second has them all. -/
theorem circular_then_of_not (h : ¬ Circular o₁ o₂ o₃) :
    Circular (o₁.then k₁) (o₂.then k₂) (o₃.then k₃) ↔
      o₁ = .eq ∧ o₂ = .eq ∧ o₃ = .eq ∧ Circular k₁ k₂ k₃ := by
  rw [circular_then_iff]
  simp [h]

end

end Qunix.Lib
