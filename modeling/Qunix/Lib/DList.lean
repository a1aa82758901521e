/-
Intrusive doubly linked lists, with the two link words read through functions.

`Linked next prev nil p h l` says that following `next` from `h` visits exactly
the nodes of `l` and then reaches `nil`, and that every node's `prev` names the
node before it (`p` for the first one). The three update lemmas describe what
the usual pointer surgery does to such a list. They are stated over the link
words *after* the update, so that a client only has to say which words its
stores changed.
-/

import Mathlib.Data.List.Nodup

namespace Qunix.Lib

variable {α : Type*}

/-- The nodes of `l`, in order, form a doubly linked list that starts at `h`
and whose first node points back to `p`. -/
def Linked (next prev : α → α) (nil : α) : α → α → List α → Prop
  | _, h, [] => h = nil
  | p, h, a :: l => h = a ∧ a ≠ nil ∧ prev a = p ∧ Linked next prev nil a (next a) l

namespace Linked

variable {next prev next' prev' : α → α} {nil p h a : α} {l l₁ l₂ : List α}

@[simp] theorem nil_iff : Linked next prev nil p h [] ↔ h = nil := Iff.rfl

section

variable (hl : Linked next prev nil p h l)

include hl

theorem congr (hn : ∀ x ∈ l, next' x = next x)
    (hpr : ∀ x ∈ l, prev' x = prev x) : Linked next' prev' nil p h l := by
  induction l generalizing p h with
  | nil => exact hl
  | cons a l ih =>
    obtain ⟨rfl, ha, hp, ht⟩ := hl
    refine ⟨rfl, ha, ?_, ?_⟩
    · rw [hpr _ (by simp), hp]
    · rw [hn _ (by simp)]
      exact ih ht (fun x hx => hn x (by simp [hx])) (fun x hx => hpr x (by simp [hx]))

theorem ne_nil (ha : a ∈ l) : a ≠ nil := by
  induction l generalizing p h with
  | nil => simp at ha
  | cons b l ih =>
    obtain ⟨rfl, hb, -, ht⟩ := hl
    rcases List.mem_cons.mp ha with rfl | ha
    · exact hb
    · exact ih ht ha

theorem unique {p' : α} {l' : List α}
    (hl' : Linked next prev nil p' h l') : l = l' := by
  induction l generalizing p p' h l' with
  | nil =>
    cases l' with
    | nil => rfl
    | cons a l' => exact absurd (hl'.1.symm.trans hl) hl'.2.1
  | cons a l ih =>
    obtain ⟨rfl, ha, -, ht⟩ := hl
    cases l' with
    | nil => exact absurd hl' ha
    | cons b l' =>
      obtain ⟨rfl, -, -, ht'⟩ := hl'
      rw [ih ht ht']

theorem head_eq_nil_iff : h = nil ↔ l = [] := by
  cases l with
  | nil => simpa using hl
  | cons a l =>
    obtain ⟨rfl, ha, -⟩ := hl
    simp [ha]

theorem head_mem (hh : h ≠ nil) : h ∈ l := by
  cases l with
  | nil => exact absurd hl hh
  | cons a l => simp [hl.1]

/-- Links of a member stay inside the list, apart from the two end markers. -/
theorem next_mem (ha : a ∈ l) :
    next a = nil ∨ next a ∈ l := by
  induction l generalizing p h with
  | nil => simp at ha
  | cons b l ih =>
    obtain ⟨rfl, -, -, ht⟩ := hl
    rcases List.mem_cons.mp ha with rfl | ha
    · cases l with
      | nil => exact .inl ht
      | cons c l => exact .inr (by simp [ht.1])
    · exact (ih ht ha).imp_right fun hmem => by simp [hmem]

theorem prev_mem (ha : a ∈ l) :
    prev a = p ∨ prev a ∈ l := by
  induction l generalizing p h with
  | nil => simp at ha
  | cons b l ih =>
    obtain ⟨rfl, -, hp, ht⟩ := hl
    rcases List.mem_cons.mp ha with rfl | ha
    · exact .inl hp
    · exact (ih ht ha).elim (fun heq => .inr (by simp [heq])) fun hmem =>
        .inr (by simp [hmem])

end

theorem push (hl : Linked next prev nil nil h l) (hno : (a :: l).Nodup) (ha : a ≠ nil)
    (hne : next' a = h) (hpr : prev' a = nil) (hp : h ≠ nil → prev' h = a)
    (hn : ∀ x ∈ l, next' x = next x) (hprev : ∀ x ∈ l, x ≠ h → prev' x = prev x) :
    Linked next' prev' nil nil a (a :: l) := by
  refine ⟨rfl, ha, hpr, ?_⟩
  rw [hne]
  cases l with
  | nil => exact hl
  | cons b l =>
    obtain ⟨rfl, hb, -, ht⟩ := hl
    have hf : ∀ x ∈ l, x ≠ h := fun x hx heq => by
      subst heq
      simp [hx] at hno
    refine ⟨rfl, hb, hp hb, ?_⟩
    rw [hn _ (by simp)]
    exact ht.congr (fun x hx => hn x (by simp [hx]))
      fun x hx => hprev x (by simp [hx]) (hf x hx)

variable (hl : Linked next prev nil p h (l₁ ++ a :: l₂))

include hl

/-- The node in front of `a` is the last one of the nodes before it. -/
theorem prev_mid :
    (l₁ = [] ∧ prev a = p) ∨ prev a ∈ l₁ := by
  induction l₁ generalizing p h with
  | nil => exact .inl ⟨rfl, hl.2.2.1⟩
  | cons b l₁ ih =>
    obtain ⟨rfl, -, -, ht⟩ := hl
    rcases ih ht with ⟨-, heq⟩ | hmem
    · exact .inr (by simp [heq])
    · exact .inr (by simp [hmem])

theorem next_mid :
    (l₂ = [] ∧ next a = nil) ∨ next a ∈ l₂ := by
  induction l₁ generalizing p h with
  | nil =>
    obtain ⟨-, -, -, ht⟩ := hl
    cases l₂ with
    | nil => exact .inl ⟨rfl, ht⟩
    | cons c l => exact .inr (by simp [ht.1])
  | cons b l₁ ih => exact ih hl.2.2.2

/-- Splicing a node out of the middle: the neighbours' words are redirected
past `a` and every other word is kept. -/
theorem unlink [DecidableEq α] (hn : (l₁ ++ a :: l₂).Nodup) (hp : p ∉ l₁ ++ a :: l₂)
    (hnext : ∀ x ∈ l₁ ++ l₂, next' x = if x = prev a then next a else next x)
    (hpr : ∀ x ∈ l₁ ++ l₂, prev' x = if x = next a then prev a else prev x) :
    Linked next' prev' nil p (if l₁ = [] then next a else h) (l₁ ++ l₂) := by
  induction l₁ generalizing p h with
  | nil =>
    obtain ⟨rfl, -, hpa, ht⟩ := hl
    simp only [List.nil_append] at hn hp hnext hpr ⊢
    cases l₂ with
    | nil => exact ht
    | cons b l =>
      obtain ⟨hb, hbn, -, ht⟩ := ht
      have hk : ∀ x ∈ b :: l, next' x = next x := fun x hx => by
        rw [hnext x hx, if_neg]
        rintro rfl
        exact hp (by simp only [List.mem_cons] at hx ⊢; rw [← hpa]; tauto)
      have hke : ∀ x ∈ l, prev' x = prev x := fun x hx => by
        rw [hpr x (by simp [hx]), if_neg]
        rintro rfl
        rw [hb] at hx
        simp [hx] at hn
      refine ⟨hb, hbn, ?_, ?_⟩
      · rw [hpr b (by simp), if_pos hb.symm, hpa]
      · rw [hk b (by simp)]
        exact ht.congr (fun x hx => hk x (by simp [hx])) hke
  | cons c l₁ ih =>
    obtain ⟨rfl, hc, hpc, ht⟩ := hl
    have hcf : h ∉ l₁ ++ a :: l₂ := (List.nodup_cons.mp hn).1
    have hr := ih ht (List.nodup_cons.mp hn).2 hcf
      (fun x hx => hnext x (by simp only [List.cons_append, List.mem_cons]; exact .inr hx))
      (fun x hx => hpr x (by simp only [List.cons_append, List.mem_cons]; exact .inr hx))
    have hcn : h ≠ next a := by
      rintro heq
      rcases ht.next_mid with ⟨-, hnil⟩ | hmem
      · exact hc (heq.trans hnil)
      · exact hcf (by simp [heq, hmem])
    refine ⟨rfl, hc, ?_, ?_⟩
    · rw [hpr h (by simp), if_neg hcn, hpc]
    · rw [hnext h (by simp)]
      -- `h` is the node before `a` exactly when nothing stands between them.
      rcases ht.prev_mid with ⟨hnil, heq⟩ | hmem
      · rw [if_pos heq.symm]
        rwa [if_pos hnil] at hr
      · have hne : h ≠ prev a := fun heq => hcf (by simp [heq, hmem])
        rw [if_neg hne]
        rwa [if_neg (List.ne_nil_of_mem hmem)] at hr

end Linked

end Qunix.Lib
