/-
Finite runs of labelled transition systems.

A machine is a step relation; its runs are the finite sequences of steps. What
holds at the start and is kept by every step holds in every state a run
reaches (`Run.invariant`). A machine given by a partial function has its steps
executed by `exec`, which is how single traces are exhibited. A machine may also
write down what its steps show (`Logged`), for claims about what happened before
something else did.
-/

import Mathlib.Algebra.Group.Nat.Hom

namespace Qunix.Lib

universe u v w'

variable {σ : Type u} {α : Type v} {step step' : σ → α → σ → Prop} {s t w : σ} {a : α}
  {as bs : List α}

/-- The run `as` leads from the first state to the second. -/
inductive Run (step : σ → α → σ → Prop) : σ → List α → σ → Prop where
  | nil (s : σ) : Run step s [] s
  | cons {s t w : σ} {a : α} {as : List α} : step s a t → Run step t as w → Run step s (a :: as) w

namespace Run

theorem invariant {p : σ → Prop} (hstep : ∀ s a t, p s → step s a t → p t)
    (hrun : Run step s as t) (hs : p s) : p t := by
  induction hrun with
  | nil => exact hs
  | cons hst _ ih => exact ih (hstep _ _ _ hs hst)

theorem snoc (hrun : Run step s as t) (hst : step t a w) : Run step s (as ++ [a]) w := by
  induction hrun with
  | nil => exact .cons hst (.nil _)
  | cons hf _ ih => exact .cons hf (ih hst)

theorem append (hrun : Run step s as t) (hrun' : Run step t bs w) : Run step s (as ++ bs) w := by
  induction hrun with
  | nil => exact hrun'
  | cons hst _ ih => exact .cons hst (ih hrun')

theorem mono (hs : ∀ s a t, step s a t → step' s a t) (hrun : Run step s as t) :
    Run step' s as t := by
  induction hrun with
  | nil => exact .nil _
  | cons hst _ ih => exact .cons (hs _ _ _ hst) ih

/-- A machine whose every step another machine can follow, with the same labels, is
followed over whole runs. -/
theorem simulate {τ : Type w'} {stepB : τ → α → τ → Prop} {rel : σ → τ → Prop} {u : τ}
    (hsim : ∀ s a t u, rel s u → step s a t → ∃ v, stepB u a v ∧ rel t v)
    (hrun : Run step s as t) (hrel : rel s u) : ∃ v, Run stepB u as v ∧ rel t v := by
  induction hrun generalizing u with
  | nil => exact ⟨u, .nil _, hrel⟩
  | cons hst _ ih =>
    obtain ⟨v, hv, hrel⟩ := hsim _ _ _ _ hrel hst
    obtain ⟨v', hrun, hrel⟩ := ih hrel
    exact ⟨v', .cons hv hrun, hrel⟩

/-- A machine of which each step, where `p` holds, is a step of another one or does not show
there: a run shows there as a run, and keeps `p`. -/
theorem project {τ : Type w'} {β : Type*} {r : τ → β → τ → Prop} {f : σ → τ} {p : σ → Prop}
    (hproj : ∀ s a t, p s → step s a t → p t ∧ (f t = f s ∨ ∃ b, r (f s) b (f t)))
    (hrun : Run step s as t) (hs : p s) : p t ∧ ∃ bs, Run r (f s) bs (f t) := by
  induction hrun with
  | nil => exact ⟨hs, [], .nil _⟩
  | cons hst _ ih =>
    obtain ⟨ht, hview⟩ := hproj _ _ _ hs hst
    obtain ⟨hp, bs, hbs⟩ := ih ht
    refine ⟨hp, ?_⟩
    rcases hview with heq | ⟨b, hb⟩
    · exact ⟨bs, heq ▸ hbs⟩
    · exact ⟨b :: bs, .cons hb hbs⟩

end Run

/-! ### Logs -/

section Logs

variable {ε : Type w'} {event : σ → α → σ → Option ε} {p q : σ × List ε}

/-- The machine that keeps a log of what its steps show, latest first. -/
def Logged (step : σ → α → σ → Prop) (event : σ → α → σ → Option ε) (p : σ × List ε) (a : α)
    (q : σ × List ε) : Prop :=
  step p.1 a q.1 ∧ q.2 = (event p.1 a q.1).toList ++ p.2

theorem Run.of_logged (hrun : Run (Logged step event) p as q) : Run step p.1 as q.1 := by
  induction hrun with
  | nil => exact .nil _
  | cons hst _ ih => exact .cons hst.1 ih

/-- A partial function that keeps the log. -/
def logging (f : σ → α → Option σ) (event : σ → α → σ → Option ε) (p : σ × List ε) (a : α) :
    Option (σ × List ε) :=
  (f p.1 a).map fun t => (t, (event p.1 a t).toList ++ p.2)

theorem logged_of_logging {f : σ → α → Option σ} (h : logging f event p a = some q) :
    Logged (fun s a t => f s a = some t) event p a q := by
  obtain ⟨t, ht, rfl⟩ := Option.map_eq_some_iff.mp h
  exact ⟨ht, rfl⟩

/-- `m` stands in the log, with `later` after it. -/
def Since (m : ε) (later log : List ε) : Prop := ∃ before, log = later ++ m :: before

variable {m : ε} {later log : List ε}

theorem since_cons {e : ε} :
    Since m later (e :: log) ↔ (later = [] ∧ e = m) ∨ ∃ l, later = e :: l ∧ Since m l log := by
  constructor
  · rintro ⟨before, h⟩
    cases later with
    | nil => exact .inl ⟨rfl, (List.cons.inj h).1⟩
    | cons d l =>
      obtain ⟨rfl, hlog⟩ := List.cons.inj h
      exact .inr ⟨l, rfl, before, hlog⟩
  · rintro (⟨rfl, rfl⟩ | ⟨l, rfl, before, rfl⟩)
    · exact ⟨log, rfl⟩
    · exact ⟨before, rfl⟩

/-- What stands in a log after one more step: the step showed it, or it stood
there before. -/
theorem since_toList_append {e : Option ε} :
    Since m later (e.toList ++ log) ↔
      (later = [] ∧ e = some m) ∨ ∃ l, later = e.toList ++ l ∧ Since m l log := by
  cases e with
  | none => simp
  | some d => simp [since_cons]

theorem not_since_nil : ¬ Since m later [] := by
  rintro ⟨before, h⟩
  simp at h

/-- What is followed by no `y` came after every `y` there is. -/
theorem Since.mem_of_not_mem {y : ε} {l₁ l₂ : List ε} (h : Since m later log) (hy : y ∉ later)
    (hne : m ≠ y) (hlog : log = l₁ ++ y :: l₂) : m ∈ l₁ := by
  obtain ⟨before, rfl⟩ := h
  induction later generalizing l₁ with
  | nil =>
    cases l₁ with
    | nil => exact absurd (List.cons.inj hlog).1 hne
    | cons d l₁ => exact (List.cons.inj hlog).1 ▸ List.mem_cons_self
  | cons e later ih =>
    cases l₁ with
    | nil => exact absurd (List.cons.inj hlog).1 (fun heq => hy (heq ▸ List.mem_cons_self))
    | cons d l₁ =>
      exact List.mem_cons_of_mem _
        (ih (fun hmem => hy (List.mem_cons_of_mem _ hmem)) (List.cons.inj hlog).2)

end Logs

/-! ### Computations that may fail -/

section Fallible

variable {ε β γ : Type} {x : Except ε β} {f : β → Except ε γ} {b : β} {l : List β}

theorem bind_eq_ok {c : γ} (h : x >>= f = .ok c) :
    ∃ b, x = .ok b ∧ f b = .ok c := by
  cases x with
  | error => cases h
  | ok b => exact ⟨b, rfl, h⟩

/-- A sequence whose first part returns goes on with the rest. -/
theorem bind_of_eq_ok (h : x = .ok b) :
    x >>= f = f b := by
  rw [h]
  rfl

/-- A call that is made only under a guard, and counts only if it returns. -/
theorem ite_toOption_eq_some {p : Prop} [Decidable p] :
    (if p then x.toOption else none) = some b ↔ p ∧ x = .ok b := by
  by_cases hp : p
  · cases x with
    | error | ok => simp [hp, Except.toOption]
  · simp [hp]

theorem ok_of_toOption (h : x.toOption = some b) : x = .ok b := by
  cases x with
  | error => cases h
  | ok b => exact congrArg _ (Option.some.inj h)

theorem forM_eq_ok {f : β → Except ε Unit} :
    l.forM f = .ok () ↔ ∀ x ∈ l, f x = .ok () := by
  induction l with
  | nil => exact ⟨fun _ _ h => (List.not_mem_nil h).elim, fun _ => rfl⟩
  | cons x l ih =>
    rw [List.forall_mem_cons, ← ih]
    change (f x >>= fun _ => l.forM f) = _ ↔ _
    cases f x with
    | error e => exact ⟨fun h => (nomatch h), fun h => (nomatch h.1)⟩
    | ok => exact ⟨fun h => ⟨rfl, h⟩, fun h => h.2⟩

theorem exists_of_forM_eq_error {f : β → Except ε Unit} {e : ε} (h : l.forM f = .error e) :
    ∃ x ∈ l, f x = .error e := by
  induction l with
  | nil => exact nomatch h
  | cons x l ih =>
    change (f x >>= fun _ => l.forM f) = _ at h
    cases hx : f x with
    | error d =>
      rw [hx] at h
      exact ⟨x, List.mem_cons_self, hx.trans h⟩
    | ok =>
      rw [hx] at h
      obtain ⟨y, hy, hye⟩ := ih h
      exact ⟨y, List.mem_cons_of_mem _ hy, hye⟩

theorem filterMapM_eq_ok {f : β → Except ε (Option γ)} {g : β → Option γ}
    (h : ∀ x ∈ l, f x = .ok (g x)) : l.filterMapM f = .ok (l.filterMap g) := by
  induction l with
  | nil => rfl
  | cons x l ih =>
    obtain ⟨hx, hl⟩ := List.forall_mem_cons.mp h
    rw [List.filterMapM_cons, hx, ih hl, List.filterMap_cons]
    cases g x with
    | none | some y => rfl

end Fallible

/-! ### Executions -/

/-- A partial function run over a list of labels. -/
def exec (f : σ → α → Option σ) (s : σ) : List α → Option σ
  | [] => some s
  | a :: as =>
    match f s a with
    | none => none
    | some t => exec f t as

variable {f : σ → α → Option σ} {g : σ → α → Bool} {p q : σ → Prop}

theorem run_of_exec (he : exec f s as = some t) :
    Run (fun s a t => f s a = some t) s as t := by
  induction as generalizing s with
  | nil =>
    cases he
    exact .nil _
  | cons a as ih =>
    rw [exec] at he
    cases hf : f s a with
    | none => simp [hf] at he
    | some w =>
      rw [hf] at he
      exact .cons hf (ih he)

/-- A partial function taken only where a guard allows it. -/
def guarded (g : σ → α → Bool) (f : σ → α → Option σ) (s : σ) (a : α) : Option σ :=
  if g s a then f s a else none

theorem of_guarded (h : guarded g f s a = some t) : f s a = some t ∧ g s a = true :=
  (Option.ite_none_right_eq_some.mp h).symm

theorem logged_of_guarded {ε : Type w'} {event : σ → α → σ → Option ε} {u v : σ × List ε}
    {g : σ × List ε → α → Bool} (h : guarded g (logging f event) u a = some v) :
    Logged (fun s a t => f s a = some t) event u a v ∧ g u a = true :=
  (of_guarded h).imp_left logged_of_logging

/-- What a trace computes of the state it ends in, and what follows from it
there. -/
theorem exists_run [DecidablePred p] (hf : ∀ s a t, f s a = some t → step s a t)
    (he : (exec f s as).map (fun t => decide (p t)) = some true)
    (himp : ∀ t, Run step s as t → p t → q t) : ∃ t, Run step s as t ∧ q t := by
  obtain ⟨t, ht, hp⟩ := Option.map_eq_some_iff.mp he
  have hrun := (run_of_exec ht).mono hf
  exact ⟨t, hrun, himp t hrun (of_decide_eq_true hp)⟩

theorem exists_run_of_exec [DecidablePred p]
    (he : (exec f s as).map (fun t => decide (p t)) = some true)
    (himp : ∀ t, Run (fun s a t => f s a = some t) s as t → p t → q t) :
    ∃ t, Run (fun s a t => f s a = some t) s as t ∧ q t :=
  exists_run (fun _ _ _ h => h) he himp

theorem exists_run_of_exec_guarded [DecidablePred p]
    (he : (exec (guarded g f) s as).map (fun t => decide (p t)) = some true)
    (himp : ∀ t, Run (fun s a t => f s a = some t ∧ g s a = true) s as t → p t → q t) :
    ∃ t, Run (fun s a t => f s a = some t ∧ g s a = true) s as t ∧ q t :=
  exists_run (fun _ _ _ => of_guarded) he himp

/-! ### Assignments -/

/-- What is found after an assignment was found before, unless the assignment put it
there. -/
theorem eq_of_update {ι β γ : Type*} [DecidableEq ι] {f : ι → β} {i j : ι} {v : β} {y : γ}
    (g : β → γ) (h : g (Function.update f i v j) = y) (hv : g v = y → g (f i) = y) :
    g (f j) = y := by
  rw [Function.update_apply] at h
  split at h
  · rename_i hji
    exact hji ▸ hv h
  · exact h

end Qunix.Lib
