/-
Write-back caches over a backing store.

A cache is a finite table of lines. A line is empty, waits for the bytes of its
key (`pending`), or holds a value that the backing store also holds (`clean`) or
need not hold (`dirty`). `last` records the value most recently written to each
key, if there is one. A table is coherent when every key has at most one line
and every value a line or the store could answer with is the current one
(`contents`). The lemmas say which changes of one line keep a table coherent.
-/

import Mathlib.Logic.Function.Basic

namespace Qunix.Lib

open Function

universe u v w

/-- One line of a cache. -/
inductive Line (κ : Type u) (β : Type v) where
  | empty
  | pending (k : κ)
  | clean (k : κ) (x : β)
  | dirty (k : κ) (x : β)

namespace Line

variable {κ : Type u} {β : Type v}

/-- The key a line stands for. -/
def key? : Line κ β → Option κ
  | empty => none
  | pending k | clean k _ | dirty k _ => some k

/-- What a line answers a reader with. -/
def answer? : Line κ β → Option (κ × β)
  | empty | pending _ => none
  | clean k x | dirty k x => some (k, x)

theorem key?_of_answer? {line : Line κ β} {k : κ} {x : β} (h : line.answer? = some (k, x)) :
    line.key? = some k := by
  cases line with
  | empty | pending k' => cases h
  | clean k' x' | dirty k' x' =>
    obtain ⟨rfl, -⟩ := Prod.mk.inj (Option.some.inj h)
    rfl

end Line

section WriteBack

variable {ι : Type w} {κ : Type u} {β : Type v}

/-- The current value of a key. -/
def contents (backing : κ → β) (last : κ → Option β) (k : κ) : β := (last k).getD (backing k)

/-- The store holds what was last written to `k`. -/
def Settled (backing : κ → β) (last : κ → Option β) (k : κ) : Prop :=
  ∀ x, last k = some x → backing k = x

def Line.Fits (backing : κ → β) (last : κ → Option β) : Line κ β → Prop
  | empty => True
  | pending k => Settled backing last k
  | clean k x => backing k = x ∧ Settled backing last k
  | dirty k x => last k = some x

/-- `k` has a line, or was written. -/
def Live (lines : ι → Line κ β) (last : κ → Option β) (k : κ) : Prop :=
  (∃ i, (lines i).key? = some k) ∨ last k ≠ none

structure WriteBack (lines : ι → Line κ β) (backing : κ → β) (last : κ → Option β) : Prop where
  unique : ∀ i j k, (lines i).key? = some k → (lines j).key? = some k → i = j
  fits : ∀ i, (lines i).Fits backing last
  absent : ∀ k, (∀ i, (lines i).key? ≠ some k) → Settled backing last k

variable {lines lines' : ι → Line κ β} {backing backing' : κ → β} {last last' : κ → Option β}
  {i : ι} {k : κ} {x : β}

theorem Settled.contents (h : Settled backing last k) : contents backing last k = backing k := by
  unfold Lib.contents
  cases hl : last k with
  | none => rfl
  | some x => exact (h x hl).symm

theorem contents_of_last (h : last k = some x) : contents backing last k = x := by
  simp [contents, h]

theorem Line.Fits.congr {l : Line κ β} (h : l.Fits backing last)
    (hb : ∀ k, l.key? = some k → backing' k = backing k)
    (hl : ∀ k, l.key? = some k → last' k = last k) : l.Fits backing' last' := by
  cases l with
  | empty => trivial
  | pending k | clean k x =>
    simp only [Fits, Settled, hb k rfl, hl k rfl] at h ⊢
    exact h
  | dirty k x =>
    simp only [Fits, hl k rfl] at h ⊢
    exact h

namespace WriteBack

theorem answer (h : WriteBack lines backing last) (hi : (lines i).answer? = some (k, x)) :
    x = contents backing last k := by
  have hf := h.fits i
  cases hl : lines i with
  | empty | pending k' => simp [hl, Line.answer?] at hi
  | clean k' x' =>
    rw [hl] at hi hf
    cases hi
    exact hf.1.symm.trans hf.2.contents.symm
  | dirty k' x' =>
    rw [hl] at hi hf
    cases hi
    exact (contents_of_last hf).symm

/-- The store under a dirty line may change: no current value does. -/
theorem scribble (h : WriteBack lines backing last) (hi : lines i = .dirty k x)
    (hs : ∀ k', k' ≠ k → Live lines last k' → backing' k' = backing k') :
    WriteBack lines backing' last where
  unique := h.unique
  fits := by
    intro j
    by_cases hj : j = i
    · have hf := h.fits i
      rw [hj]
      rw [hi] at hf ⊢
      exact hf
    · refine (h.fits j).congr (fun k' hk' => hs k' ?_ (.inl ⟨j, hk'⟩)) fun _ _ => rfl
      rintro rfl
      exact hj (h.unique j i _ hk' (by rw [hi]; rfl))
  absent := by
    intro k' hk' y hy
    have hne : k' ≠ k := by
      rintro rfl
      exact hk' i (by rw [hi]; rfl)
    rw [hs k' hne (.inr (by simp [hy]))]
    exact h.absent k' hk' y hy

variable [DecidableEq ι]

section

variable (h : WriteBack lines backing last)

include h

/-- One line changes. No other line may stand for its new key, and a key that
loses its line must be settled. -/
theorem set {l : Line κ β}
    (hm : ∀ k, l.key? = some k → ∀ j, (lines j).key? = some k → j = i)
    (hl : ∀ k, (lines i).key? = some k → l.key? ≠ some k → Settled backing last k)
    (hf : l.Fits backing last) : WriteBack (update lines i l) backing last where
  unique := by
    intro a b k ha hb
    by_cases hai : a = i <;> by_cases hbi : b = i
    · rw [hai, hbi]
    · rw [hai, update_self] at ha
      rw [update_of_ne hbi] at hb
      exact absurd (hm k ha b hb) hbi
    · rw [update_of_ne hai] at ha
      rw [hbi, update_self] at hb
      exact absurd (hm k hb a ha) hai
    · rw [update_of_ne hai] at ha
      rw [update_of_ne hbi] at hb
      exact h.unique a b k ha hb
  fits := by
    intro j
    by_cases hj : j = i
    · rw [hj, update_self]
      exact hf
    · rw [update_of_ne hj]
      exact h.fits j
  absent := by
    intro k hk
    by_cases hik : (lines i).key? = some k
    · exact hl k hik (by simpa using hk i)
    · refine h.absent k fun j hj => ?_
      by_cases hji : j = i
      · exact hik (hji ▸ hj)
      · exact hk j (by rw [update_of_ne hji, hj])

theorem replace {l : Line κ β}
    (hkey : l.key? = (lines i).key?) (hf : l.Fits backing last) :
    WriteBack (update lines i l) backing last :=
  h.set (fun k hk j hj => h.unique j i k hj (hkey ▸ hk)) (fun _ hk hne => absurd (hkey ▸ hk) hne)
    hf

theorem release
    (hs : ∀ k, (lines i).key? = some k → Settled backing last k) :
    WriteBack (update lines i .empty) backing last :=
  h.set (fun _ hk => nomatch hk) (fun k hk _ => hs k hk) trivial

end

variable [DecidableEq κ]

/-- A value is written to `k` through the line that is `k`'s, or through one
that was empty. -/
theorem write (h : WriteBack lines backing last)
    (hm : ∀ j, (lines j).key? = some k → j = i)
    (hl : ∀ k', (lines i).key? = some k' → k' = k) (y : β) :
    WriteBack (update lines i (.dirty k y)) backing (update last k (some y)) where
  unique := by
    have hkey : ∀ {j k'}, (update lines i (Line.dirty k y) j).key? = some k' →
        (k' = k → j = i) ∧ (k' ≠ k → (lines j).key? = some k') := by
      intro j k' hj
      by_cases hji : j = i
      · rw [hji, update_self] at hj
        exact ⟨fun _ => hji, fun hne => absurd (Option.some.inj hj).symm hne⟩
      · rw [update_of_ne hji] at hj
        exact ⟨fun heq => hm j (heq ▸ hj), fun _ => hj⟩
    intro a b k' ha hb
    by_cases hk : k' = k
    · rw [(hkey ha).1 hk, (hkey hb).1 hk]
    · exact h.unique a b k' ((hkey ha).2 hk) ((hkey hb).2 hk)
  fits := by
    intro j
    by_cases hj : j = i
    · rw [hj, update_self]
      exact update_self ..
    · rw [update_of_ne hj]
      refine (h.fits j).congr (fun _ _ => rfl) fun k' hk' => update_of_ne ?_ ..
      rintro rfl
      exact hj (hm j hk')
  absent := by
    intro k' hk' z hz
    have hne : k' ≠ k := by
      rintro rfl
      exact hk' i (by rw [update_self]; rfl)
    rw [update_of_ne hne] at hz
    refine h.absent k' (fun j hj => ?_) z hz
    by_cases hji : j = i
    · exact hne (hl k' (hji ▸ hj))
    · exact hk' j (by rw [update_of_ne hji, hj])

end WriteBack

end WriteBack

end Qunix.Lib
