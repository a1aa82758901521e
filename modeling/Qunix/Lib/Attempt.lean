/-
Computations that change a state and may fail.

An `Attempt` goes from a state to a result and a new state; a failure keeps the
changes made before it. `Meets` says what holds after an attempt that succeeds and
what holds after one that fails; `Ensures` asks nothing of failures, and `Keeps` is about
one property that holds before and after. There is a rule for each way to put
attempts together, loops included, so a program's property follows from those of
its primitive steps.
-/

import Mathlib.Logic.Basic

namespace Qunix.Lib

/-- A computation on states `σ` that fails with an `ε` or returns an `α`. -/
def Attempt (σ ε α : Type) : Type := σ → Except ε α × σ

namespace Attempt

variable {σ ε ε' α β : Type}

/-- The second attempt goes on from where the first one succeeded. -/
def andThen (x : Attempt σ ε α) (f : α → Attempt σ ε β) : Attempt σ ε β := fun s =>
  match x s with
  | (.ok a, s') => f a s'
  | (.error e, s') => (.error e, s')

instance : Monad (Attempt σ ε) where
  pure a := fun s => (.ok a, s)
  bind := andThen

def fail (e : ε) : Attempt σ ε α := fun s => (.error e, s)

/-- A computation that neither reads nor changes the state. -/
def lift (x : Except ε α) : Attempt σ ε α := fun s => (x, s)

def get : Attempt σ ε σ := fun s => (.ok s, s)

def modify (f : σ → σ) : Attempt σ ε Unit := fun s => (.ok (), f s)

def mapErr (f : ε → ε') (x : Attempt σ ε α) : Attempt σ ε' α :=
  fun s => ((x s).1.mapError f, (x s).2)

theorem andThen_of_ok {x : Attempt σ ε α} {f : α → Attempt σ ε β} {s s' : σ} {a : α}
    (h : x s = (.ok a, s')) : (x >>= f) s = f a s' := by
  change andThen x f s = _
  simp [andThen, h]

theorem andThen_of_error {x : Attempt σ ε α} {f : α → Attempt σ ε β} {s s' : σ} {e : ε}
    (h : x s = (.error e, s')) : (x >>= f) s = (.error e, s') := by
  change andThen x f s = _
  simp [andThen, h]

/-! ### Pre- and postconditions -/

/-- From `P`, the attempt succeeds with `Q` or fails with `E`. -/
def Meets (P : σ → Prop) (x : Attempt σ ε α) (Q : α → σ → Prop) (E : σ → Prop) : Prop :=
  ∀ s, P s → match x s with
    | (.ok a, s') => Q a s'
    | (.error _, s') => E s'

/-- What holds after the attempt if it succeeds. -/
abbrev Ensures (P : σ → Prop) (x : Attempt σ ε α) (Q : α → σ → Prop) : Prop :=
  Meets P x Q fun _ => True

/-- The attempt keeps a property, whether it succeeds or fails. -/
abbrev Keeps (I : σ → Prop) (x : Attempt σ ε α) : Prop := Meets I x (fun _ => I) I

variable {P P' E : σ → Prop} {x y : Attempt σ ε α} {f : α → Attempt σ ε β} {Q Q' : α → σ → Prop}
  {R : β → σ → Prop} {s s' : σ}

theorem Keeps.state {I : σ → Prop} (hx : Keeps I x) (hs : I s) : I (x s).2 := by
  have hrun := hx s hs
  cases heq : x s with
  | mk r s' =>
    rw [heq] at hrun
    cases r with
    | ok | error => exact hrun

theorem keeps_of_state {I : σ → Prop} (h : ∀ s, I s → I (x s).2) : Keeps I x := by
  intro s hs
  have hs' := h s hs
  cases heq : x s with
  | mk r s' =>
    rw [heq] at hs'
    cases r with
    | ok | error => exact hs'

theorem ensures_of_run (h : ∀ s, P s → ∀ a s', x s = (.ok a, s') → Q a s') : Ensures P x Q := by
  intro s hs
  cases heq : x s with
  | mk r s' =>
    cases r with
    | ok a => exact h s hs a s' heq
    | error => trivial

namespace Meets

theorem of_ok (hx : Meets P x Q E) (hs : P s) {a : α} (heq : x s = (.ok a, s')) : Q a s' := by
  have hrun := hx s hs
  rw [heq] at hrun
  exact hrun

theorem of_error (hx : Meets P x Q E) (hs : P s) {e : ε} (heq : x s = (.error e, s')) : E s' := by
  have hrun := hx s hs
  rw [heq] at hrun
  exact hrun

theorem pure {a : α} (h : ∀ s, P s → Q a s) : Meets P (Pure.pure a : Attempt σ ε α) Q E := h

theorem fail {e : ε} (h : ∀ s, P s → E s) : Meets P (Attempt.fail e : Attempt σ ε α) Q E := h

theorem modify {g : σ → σ} {Q : Unit → σ → Prop} (h : ∀ s, P s → Q () (g s)) :
    Meets P (Attempt.modify g : Attempt σ ε Unit) Q E := h

theorem lift {r : Except ε α} (h : ∀ s, P s → ∀ a, r = .ok a → Q a s) (hf : ∀ s, P s → E s) :
    Meets P (Attempt.lift r : Attempt σ ε α) Q E := by
  intro s hs
  cases r with
  | ok a => exact h s hs a rfl
  | error e => exact hf s hs

/-- After a look at the state the attempt goes on from the state that was seen. -/
theorem read {g : σ → Attempt σ ε α} (h : ∀ s, P s → Meets (· = s) (g s) Q E) :
    Meets P (Attempt.get >>= g) Q E :=
  fun s hs => h s hs s rfl

theorem bind (hx : Meets P x Q E) (hf : ∀ a, Meets (Q a) (f a) R E) : Meets P (x >>= f) R E := by
  intro s hs
  cases hrun : x s with
  | mk r s' =>
    cases r with
    | ok a =>
      rw [andThen_of_ok hrun]
      exact hf a s' (hx.of_ok hs hrun)
    | error e =>
      rw [andThen_of_error hrun]
      exact hx.of_error hs hrun

theorem mapErr {g : ε → ε'} (hx : Meets P x Q E) : Meets P (Attempt.mapErr g x) Q E := by
  intro s hs
  have hrun := hx s hs
  simp only [Attempt.mapErr]
  cases heq : x s with
  | mk r s' =>
    rw [heq] at hrun
    cases r with
    | ok | error => exact hrun

theorem ite {c : Prop} [Decidable c] (hx : c → Meets P x Q E) (hy : ¬ c → Meets P y Q E) :
    Meets P (if c then x else y) Q E := by
  split
  · exact hx ‹_›
  · exact hy ‹_›

theorem of_state (hx : Meets P x Q E) (hs : P s) : Meets (· = s) x Q E := by
  rintro _ rfl
  exact hx _ hs

/-- A part of the precondition that is not about the state. -/
theorem assuming {c : Prop} (hx : c → Meets P x Q E) : Meets (fun s => c ∧ P s) x Q E :=
  fun s hs => hx hs.1 s hs.2

theorem weaken (hx : Meets P x Q E) (hP : ∀ s, P' s → P s) (hQ : ∀ a s, Q a s → Q' a s) :
    Meets P' x Q' E := by
  intro s hs
  have hrun := hx s (hP s hs)
  cases heq : x s with
  | mk r s' =>
    rw [heq] at hrun
    cases r with
    | ok a => exact hQ a s' hrun
    | error => exact hrun

theorem ensures (hx : Meets P x Q E) : Ensures P x Q :=
  ensures_of_run fun _ hs _ _ heq => hx.of_ok hs heq

/-- A loop keeps what is said about the part of the list it has gone through. -/
theorem forM {l : List β} {g : β → Attempt σ ε Unit} {J : List β → σ → Prop}
    (hg : ∀ done b rest, l = done ++ b :: rest →
      Meets (J done) (g b) (fun _ => J (done ++ [b])) E) :
    Meets (J []) (l.forM g) (fun _ => J l) E := by
  suffices h : ∀ todo done, l = done ++ todo → Meets (J done) (todo.forM g) (fun _ => J l) E from
    h l [] rfl
  intro todo
  induction todo with
  | nil =>
    intro done hl
    rw [List.append_nil] at hl
    subst hl
    exact pure fun _ hs => hs
  | cons b rest ih =>
    intro done hl
    refine bind (hg done b rest hl) fun _ => ih (done ++ [b]) ?_
    rw [hl, List.append_assoc]
    rfl

theorem forM_keeps {I : σ → Prop} {l : List β} {g : β → Attempt σ ε Unit}
    (hg : ∀ b ∈ l, Keeps I (g b)) : Keeps I (l.forM g) := by
  refine forM (J := fun _ => I) fun done b rest hl => hg b ?_
  rw [hl]
  simp

end Meets

end Attempt

end Qunix.Lib
