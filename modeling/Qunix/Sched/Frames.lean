/-
What the steps of the scheduler machine do to the stacks of its threads.

A timer handler that calls `schedule` leaves an interrupt frame (`Tail.iret`) on
the stack of the thread it preempts, and only its return takes it away:
`step_irets`. A thread that has been in ring 3 never becomes a kernel thread:
`step_ofProcess`. A CPU comes out of a switch on another stack, and otherwise
stays on the one it is on: `step_window`.
-/

import Qunix.Sched.Elsewhere

namespace Qunix.Sched

open Function

variable {n : Nat}

/-- The interrupt frames on a stack. -/
def irets (l : List Tail) : Nat := l.count .iret

/-- In ring 3, or in the kernel on the way from there: a system call or the end
of the thread. -/
def Base.ofProcess : Base → Bool
  | .user _ => true
  | .sys _ => true
  | .exit _ => true
  | _ => false

theorem Base.ofProcess_wake (b : Base) : b.wake.ofProcess = b.ofProcess := by
  unfold wake
  split <;> rfl

variable {k k' : Ctl} {a : Local} {e : Enter} {out : ThreadState} {irq : Bool}

theorem Ctl.Runs.ofProcess (h : k.Runs a k') (hb : k.base.ofProcess = true) :
    k'.base.ofProcess = true := by
  cases h with
  | interrupt => rwa [Base.ofProcess_wake]
  | start | restore | drop | iret => exact hb
  | exitSti | syscall | sysret | sysExit | fault => rfl
  | _ => cases hb

theorem Ctl.Enters.ofProcess (h : k.Enters e k' out irq) (hb : k.base.ofProcess = true) :
    k'.base.ofProcess = true := by
  cases h with
  | tick => rwa [Base.ofProcess_wake]
  | sysYield | exit => rfl
  | _ => cases hb

theorem Ctl.Runs.irets_eq (h : k.Runs a k') :
    irets k'.tail = irets k.tail ∨ (a = .frame ∧ k.tail = .iret :: k'.tail) := by
  cases h with
  | iret => exact .inr ⟨rfl, rfl⟩
  | _ => exact .inl rfl

theorem Ctl.Enters.irets_eq (h : k.Enters e k' out irq) :
    irets k'.tail = irets k.tail ∨ (e = .tick ∧ k'.tail = .iret :: k.tail) := by
  cases h with
  | tick => exact .inr ⟨rfl, rfl⟩
  | _ => exact .inl rfl

/-- Going on with what is left on a stack takes the innermost part away. -/
theorem Ctl.Runs.frame_tail (h : k.Runs .frame k') : ∃ l, k.tail = l :: k'.tail := by
  cases h with
  | start | restore | drop | iret => exact ⟨_, rfl⟩

theorem Ctl.Runs.enterUser_base (h : k.Runs .enterUser k') :
    ∃ root, k.base = .userEntry root .enter := by
  cases h
  exact ⟨_, rfl⟩

theorem Ctl.Enters.tick_tail (h : k.Enters .tick k' out irq) : k'.tail = .iret :: k.tail := by
  cases h
  rfl

namespace St

variable {s t : St n} {c d : Fin n} {me x : ThreadId} {l : List Tail} {a : Act n}

theorem irets_update {f : ThreadId → List Tail} (h : irets l = irets (f me)) :
    irets (update f me l x) = irets (f x) := by
  rcases eq_or_ne x me with rfl | hx
  · rw [update_self, h]
  · rw [update_of_ne hx]

theorem irets_insert (f : ThreadId → List Tail) (me x : ThreadId) (h : irets l = 0) :
    irets (update f me l x) = irets (f x) ∨ (x = me ∧ irets (update f me l x) = 0) := by
  rw [update_apply]
  split_ifs with hx
  · subst hx
    exact .inr ⟨rfl, h⟩
  · exact .inl rfl

theorem setCtl_tail_of_ne (h : x ≠ me) (k : Ctl) : (s.setCtl c me k).tail x = s.tail x :=
  update_of_ne h _ _

@[simp] theorem setCtl_tail_self (k : Ctl) : (s.setCtl c me k).tail me = k.tail := update_self ..

/-- The number of interrupt frames on a stack changes by a tick and by the return
from one; a new thread has none. -/
theorem step_irets (ht : s.step a = some t) (x : ThreadId) :
    irets (t.tail x) = irets (s.tail x) ∨ (x = ⟨s.nextId⟩ ∧ irets (t.tail x) = 0) ∨
      (∃ c, a = .run c .frame ∧ s.running c = some x ∧ s.tail x = .iret :: t.tail x) ∨
      ∃ c, a = .enter c .tick ∧ s.running c = some x ∧ t.tail x = .iret :: s.tail x := by
  cases step_moves ht with
  | @run c me act k hp hcur hk =>
    rcases eq_or_ne x me with rfl | hx
    · rw [setCtl_tail_self]
      rcases hk.irets_eq with heq | ⟨rfl, hta⟩
      · exact .inl heq
      · exact .inr (.inr (.inl ⟨c, rfl, running_eq_some.mpr ⟨hp, hcur⟩, hta⟩))
    · rw [setCtl_tail_of_ne hx]
      exact .inl rfl
  | @enter c me e k out irq hp hcur hk =>
    change irets ((s.setCtl c me k).tail x) = _ ∨ _ ∨ _ ∨
      ∃ d, _ ∧ _ ∧ (s.setCtl c me k).tail x = _
    rcases eq_or_ne x me with rfl | hx
    · rw [setCtl_tail_self]
      rcases hk.irets_eq with heq | ⟨rfl, hta⟩
      · exact .inl heq
      · exact .inr (.inr (.inr ⟨c, rfl, running_eq_some.mpr ⟨hp, hcur⟩, hta⟩))
    · rw [setCtl_tail_of_ne hx]
      exact .inl rfl
  | reapNone _ _ hta | reap _ _ hta => exact .inl (irets_update (by rw [hta]; rfl))
  | noNext => exact .inl (irets_update (by split <;> rfl))
  | switch => exact .inl (irets_update rfl)
  | spawn | initLock => exact (irets_insert s.tail ⟨s.nextId⟩ x rfl).imp_right .inl
  | _ => exact .inl rfl

theorem ofProcess_update {f : ThreadId → Base} {b : Base} (hx : (f x).ofProcess = true)
    (h : x = me → b.ofProcess = true) : (update f me b x).ofProcess = true := by
  by_cases hme : x = me
  · rw [hme, update_self]
    exact h hme
  · rwa [update_of_ne hme]

/-- A thread that has been in ring 3 stays one; only a new thread may take its id. -/
theorem step_ofProcess (ht : s.step a = some t) (hnew : x ≠ ⟨s.nextId⟩)
    (hx : (s.base x).ofProcess = true) : (t.base x).ofProcess = true := by
  cases step_moves ht with
  | run _ _ hk | enter _ _ hk =>
    refine ofProcess_update hx fun hme => hk.ofProcess ?_
    rw [← hx, hme]
    rfl
  | parkCancelled _ _ _ hb | parked _ _ _ hb | adopt _ _ _ hb =>
    refine ofProcess_update hx fun hme => ?_
    rw [hme, hb] at hx
    cases hx
  | parkCheck _ _ _ hb =>
    refine ofProcess_update hx fun hme => ?_
    rcases hb with ⟨hb, -⟩ | ⟨hb, -⟩
    all_goals
      rw [hme, hb] at hx
      cases hx
  | exitCheck => exact ofProcess_update hx fun _ => rfl
  | spawn | initLock => exact ofProcess_update hx fun hme => absurd hme hnew
  | _ => exact hx

/-- A CPU outside a switch is on the stack it was on, has just completed a
switch, or has just adopted its first thread. -/
theorem step_window (ht : s.step a = some t) (hd : (t.phase d).window = none) :
    ((s.phase d).window = none ∧ t.current d = s.current d) ∨ a = .switch d ∨
      (s.phase d).starting = true := by
  have hm : ∀ {c p}, t.phase = update s.phase c p → (p.window = none → (s.phase c).window = none) →
      (s.phase d).window = none := by
    intro c p hp hc
    rw [hp] at hd
    by_cases hdc : d = c
    · rw [hdc] at hd ⊢
      rw [update_self] at hd
      exact hc hd
    · rwa [update_of_ne hdc] at hd
  cases step_moves ht with
  | enter hph | search hph | pop hph | pass hph | steal hph | giveUp hph | popLast hph
  | noNext hph | publish hph | publishNone hph | publishPush hph | initLock hph =>
    exact .inl ⟨hm rfl fun _ => by rw [hph]; rfl, rfl⟩
  | @decide c =>
    rcases eq_or_ne d c with rfl | hdc
    · simp [Phase.window] at hd
    · exact .inl ⟨hm rfl (by simp [Phase.window]), update_of_ne hdc _ _⟩
  | setKernelStack | activateRoot => exact .inl ⟨hm rfl (by simp [Phase.window]), rfl⟩
  | @switch c =>
    by_cases hdc : d = c
    · exact .inr (.inl (by rw [hdc]))
    · rw [setPhase_phase_of_ne _ hdc] at hd
      exact .inl ⟨hd, rfl⟩
  | @initSet c id hph =>
    by_cases hdc : d = c
    · rw [hdc, hph]
      exact .inr (.inr rfl)
    · rw [setPhase_phase_of_ne _ hdc] at hd
      exact .inl ⟨hd, update_of_ne hdc _ _⟩
  | _ => exact .inl ⟨hd, rfl⟩

end St

end Qunix.Sched
