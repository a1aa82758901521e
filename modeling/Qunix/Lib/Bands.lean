/-
Sorting a list into bands.

Every element of a list has a key; the band of a key is the elements that have it,
in the order of the list. An element that stands somewhere in a band stands
somewhere in the list, and taking it out there takes it out of its band and leaves
the other bands alone.
-/

import Mathlib.Data.List.Basic

namespace Qunix.Lib

variable {α κ : Type*} [DecidableEq κ] {key : α → κ} {l : List α} {k : κ} {x : α}

def band (key : α → κ) (l : List α) (k : κ) : List α := l.filter fun x => decide (key x = k)

@[simp] theorem band_append (l₁ l₂ : List α) :
    band key (l₁ ++ l₂) k = band key l₁ k ++ band key l₂ k :=
  List.filter_append ..

theorem band_cons (x : α) (l : List α) :
    band key (x :: l) k = if key x = k then x :: band key l k else band key l k := by
  simp [band, List.filter_cons]

@[simp] theorem mem_band : x ∈ band key l k ↔ x ∈ l ∧ key x = k := by
  simp [band]

theorem band_eq_nil_iff : band key l k = [] ↔ ∀ x ∈ l, key x ≠ k := by
  simp [band]

theorem exists_split {L₁ L₂ : List α} (h : band key l k = L₁ ++ x :: L₂) :
    ∃ l₁ l₂, l = l₁ ++ x :: l₂ ∧ band key l₁ k = L₁ ∧ band key l₂ k = L₂ ∧
      ∀ k', k' ≠ k → band key (l₁ ++ l₂) k' = band key l k' := by
  obtain ⟨m, m', rfl, hm, hm'⟩ := List.filter_eq_append_iff.mp h
  obtain ⟨n, l₂, rfl, hn, hx, hl₂⟩ := List.filter_eq_cons_iff.mp hm'
  have hkey : key x = k := of_decide_eq_true hx
  have hno : band key n k = [] := List.filter_eq_nil_iff.mpr hn
  refine ⟨m ++ n, l₂, (List.append_assoc ..).symm, ?_, hl₂, ?_⟩
  · rw [band_append, hno, List.append_nil]
    exact hm
  · intro k' hne
    have hs : band key (x :: l₂) k' = band key l₂ k' := by
      rw [band_cons, if_neg]
      rintro rfl
      exact hne hkey
    simp [hs]

end Qunix.Lib
