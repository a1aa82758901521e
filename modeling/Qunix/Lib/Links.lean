/-
Singly linked lists, with the link words read through functions.

`Links next a l e` says that following `next` from `a` visits the nodes of `l`
and then stands at `e`. `Chain next more l` is the form with a flag for each
node: `next` counts only where `more` says so, and the last node has the flag
off. Both read the words of their members only. `chained` is what linking up a
list of nodes does to the words.
-/

import Mathlib.Data.List.Nodup

namespace Qunix.Lib

open Function

variable {α : Type*} {β : Type*}

def Links (next : α → α) : α → List α → α → Prop
  | a, [], e => a = e
  | a, b :: l, e => a = b ∧ Links next (next b) l e

variable {next next' : α → α} {l : List α}

theorem Links.congr {a e : α} (h : Links next a l e) (hs : ∀ x ∈ l, next' x = next x) :
    Links next' a l e := by
  induction l generalizing a with
  | nil => exact h
  | cons b l ih =>
    obtain ⟨rfl, ht⟩ := h
    refine ⟨rfl, ?_⟩
    rw [hs a List.mem_cons_self]
    exact ih ht fun x hx => hs x (List.mem_cons_of_mem _ hx)

def Chain (next : α → α) (more : α → Bool) : List α → Prop
  | [] => False
  | [a] => more a = false
  | a :: b :: l => more a = true ∧ next a = b ∧ Chain next more (b :: l)

theorem Chain.congr {more more' : α → Bool} (h : Chain next more l)
    (hne : ∀ x ∈ l, more x = true → next' x = next x) (hmo : ∀ x ∈ l, more' x = more x) :
    Chain next' more' l := by
  induction l with
  | nil => exact h
  | cons a l ih =>
    cases l with
    | nil =>
      rw [Chain, hmo a List.mem_cons_self]
      exact h
    | cons b l =>
      obtain ⟨hm, hn, ht⟩ := h
      refine ⟨?_, ?_, ih ht (fun x hx => hne x (List.mem_cons_of_mem _ hx))
        fun x hx => hmo x (List.mem_cons_of_mem _ hx)⟩
      · rw [hmo a List.mem_cons_self, hm]
      · rw [hne a List.mem_cons_self hm, hn]

/-- The words after the nodes of a list were linked up: `go b` makes a word that
leads to `b`, `stop` one that ends the chain. -/
def chained [DecidableEq α] (go : α → β → β) (stop : β → β) : (α → β) → List α → α → β
  | word, [] => word
  | word, [a] => update word a (stop (word a))
  | word, a :: b :: l => chained go stop (update word a (go b (word a))) (b :: l)

section Chained

variable [DecidableEq α] {go : α → β → β} {stop : β → β} {word : α → β} {l : List α}

theorem chained_of_not_mem {x : α} (hx : x ∉ l) : chained go stop word l x = word x := by
  induction l generalizing word with
  | nil => rfl
  | cons a l ih =>
    cases l with
    | nil => exact update_of_ne (by simpa using hx) ..
    | cons b l =>
      rw [chained, ih (fun h => hx (List.mem_cons_of_mem _ h))]
      have hxa : x ≠ a := by
        rintro rfl
        exact hx List.mem_cons_self
      exact update_of_ne hxa ..

theorem chained_chain (next : β → α) (more : β → Bool) (hl : l ≠ []) (hn : l.Nodup)
    (hgo : ∀ a w, next (go a w) = a ∧ more (go a w) = true) (hs : ∀ w, more (stop w) = false) :
    Chain (fun x => next (chained go stop word l x))
      (fun x => more (chained go stop word l x)) l := by
  induction l generalizing word with
  | nil => exact absurd rfl hl
  | cons a l ih =>
    cases l with
    | nil =>
      simp only [Chain, chained, update_self]
      exact hs _
    | cons b l =>
      obtain ⟨ha, hn'⟩ := List.nodup_cons.mp hn
      have hw : chained go stop word (a :: b :: l) a = go b (word a) := by
        rw [chained, chained_of_not_mem ha, update_self]
      refine ⟨?_, ?_, ih nofun hn'⟩
      · simp only [hw]
        exact (hgo b _).2
      · simp only [hw]
        exact (hgo b _).1

end Chained

end Qunix.Lib
