/-
What a step leaves alone on the other CPUs.

A step is taken by one CPU, by a wakeup, or by whoever is about to push a thread
on a queue. `St.step_elsewhere` says that the rest of the machine does not
notice as long as every thread is in one place: on any other CPU the phase, the
current thread, the interrupt flag and the loaded root stay, and so does what
that CPU's thread is doing.
-/

import Qunix.Sched.Exclusion

namespace Qunix.Sched

open Function Qunix.Lib

variable {n : Nat}

/-- The CPU that takes a step. -/
def Act.cpu : Act n → Option (Fin n)
  | .run c _ => some c
  | .enter c _ => some c
  | .parkSection c => some c
  | .parkCheck c => some c
  | .exitCheck c => some c
  | .adopt c => some c
  | .reap c _ => some c
  | .takeLocal c => some c
  | .stealFrom c _ => some c
  | .takeLast c => some c
  | .noNext c => some c
  | .decide c => some c
  | .setKernelStack c => some c
  | .activateRoot c => some c
  | .switch c => some c
  | .publishSwap c => some c
  | .publishPush c => some c
  | .spawn c _ _ _ _ => some c
  | .initLock c _ => some c
  | .initSet c => some c
  | .markOnline c => some c
  | .unpark _ => none
  | .wakePush _ _ => none
  | .spawnPush _ _ _ => none
  | .setPreemption _ => none

/-- The actions a CPU takes while it runs a thread. -/
def Act.byThread : Act n → Bool
  | .run _ _ => true
  | .enter _ _ => true
  | .parkSection _ => true
  | .parkCheck _ => true
  | .exitCheck _ => true
  | .adopt _ => true
  | .reap _ _ => true
  | .spawn _ _ _ _ _ => true
  | .markOnline _ => true
  | _ => false

/-- In ring 3. -/
def Base.isUser : Base → Bool
  | .user _ => true
  | _ => false

/-- In a system call. -/
def Base.isSys : Base → Bool
  | .sys _ => true
  | _ => false

theorem Base.isSys_wake (b : Base) : b.wake.isSys = b.isSys := by
  unfold wake
  split <;> rfl

variable {k k' : Ctl} {a : Local} {e : Enter} {out : ThreadState} {irq : Bool}

theorem Ctl.Runs.sys (h : k.Runs a k') (hb : k'.base.isSys = true) :
    k.base.isSys = true ∨ a = .syscall := by
  cases h with
  | interrupt =>
    rw [Base.isSys_wake] at hb
    exact .inl hb
  | start | restore | drop | iret => exact .inl hb
  | syscall => exact .inr rfl
  | _ => cases hb

theorem Ctl.Enters.sys (h : k.Enters e k' out irq) (hb : k'.base.isSys = true) :
    k.base.isSys = true := by
  cases h with
  | tick =>
    rw [Base.isSys_wake] at hb
    exact hb
  | sysYield => rfl
  | _ => cases hb

/-- What a process does, in ring 3 and in its system calls. -/
theorem Ctl.Runs.of_process (h : k.Runs a k') (ht : k.tail = [])
    (hb : k.base.isUser = true ∨ k.base.isSys = true) :
    a = .interrupt ∨ a = .syscall ∨ a = .sysret ∨ a = .fault ∨
      (k.base.isSys = true ∧ a = .sysExit) := by
  cases h with
  | start | restore | drop | iret => cases ht
  | interrupt | syscall | sysret | fault => simp
  | sysExit => exact .inr (.inr (.inr (.inr ⟨rfl, rfl⟩)))
  | _ => simp [Base.isUser, Base.isSys] at hb

theorem Ctl.Enters.of_process (h : k.Enters e k' out irq)
    (hb : k.base.isUser = true ∨ k.base.isSys = true) :
    e = .tick ∨ (k.base.isSys = true ∧ e = .yield) := by
  cases h with
  | tick => exact .inl rfl
  | sysYield => exact .inr ⟨rfl, rfl⟩
  | _ => simp [Base.isUser, Base.isSys] at hb

namespace St

/-- CPU `c` is in the same situation in both states. -/
structure SameCpu (s t : St n) (c : Fin n) : Prop where
  phase : t.phase c = s.phase c
  current : t.current c = s.current c
  irqOn : t.irqOn c = s.irqOn c
  cr3 : t.cr3 c = s.cr3 c
  base : ∀ me, s.current c = some me → t.base me = s.base me
  tail : ∀ me, s.current c = some me → t.tail me = s.tail me

variable {s t : St n} {c d : Fin n} {me x : ThreadId}

theorem SameCpu.refl (s : St n) (c : Fin n) : SameCpu s s c :=
  ⟨rfl, rfl, rfl, rfl, fun _ _ => rfl, fun _ _ => rfl⟩

theorem SameCpu.trans {u : St n} (h : SameCpu s t c) (h' : SameCpu t u c) : SameCpu s u c where
  phase := h'.phase.trans h.phase
  current := h'.current.trans h.current
  irqOn := h'.irqOn.trans h.irqOn
  cr3 := h'.cr3.trans h.cr3
  base := fun me hme => (h'.base me (h.current.trans hme)).trans (h.base me hme)
  tail := fun me hme => (h'.tail me (h.current.trans hme)).trans (h.tail me hme)

theorem SameCpu.setPhase (hd : d ≠ c) (p : Phase n) : SameCpu s (s.setPhase d p) c :=
  { SameCpu.refl s c with phase := setPhase_phase_of_ne p hd.symm }

theorem SameCpu.setCtl (hex : Exclusive s) (hme : s.current d = some me) (hd : d ≠ c) (k : Ctl) :
    SameCpu s (s.setCtl d me k) c := by
  have hne : ∀ x, s.current c = some x → x ≠ me := by
    rintro x hx rfl
    exact hd (hex.current_inj hme hx)
  exact { SameCpu.refl s c with
    irqOn := update_of_ne hd.symm _ _
    cr3 := update_of_ne hd.symm _ _
    base := fun x hx => update_of_ne (hne x hx) _ _
    tail := fun x hx => update_of_ne (hne x hx) _ _ }

theorem SameCpu.setBase (hex : Exclusive s) (hme : s.current d = some me) (hd : d ≠ c) (b : Base) :
    SameCpu s (s.setBase me b) c := by
  refine { SameCpu.refl s c with base := fun x hx => update_of_ne ?_ _ _ }
  rintro rfl
  exact hd (hex.current_inj hme hx)

theorem SameCpu.setTail (hne : s.current c ≠ some x) (l : List Tail) :
    SameCpu s { s with tail := update s.tail x l } c := by
  refine { SameCpu.refl s c with tail := fun y hy => update_of_ne ?_ _ _ }
  rintro rfl
  exact hne hy

theorem SameCpu.insert (hex : Exclusive s) (b : Base) (l : List Tail) :
    SameCpu s { s with
      base := update s.base ⟨s.nextId⟩ b
      tail := update s.tail ⟨s.nextId⟩ l } c :=
  { SameCpu.refl s c with
    base := fun _ hx => update_of_ne (hex.current_ne_nextId hx) _ _
    tail := fun _ hx => update_of_ne (hex.current_ne_nextId hx) _ _ }

variable {a : Act n}

theorem step_elsewhere (hex : Exclusive s) (ht : s.step a = some t) (hc : a.cpu ≠ some c) :
    SameCpu s t c := by
  have hne : ∀ {d}, a.cpu = some d → d ≠ c := by
    rintro d hd rfl
    exact hc hd
  have hcur : ∀ {d me}, a.cpu = some d → s.current d = some me → s.current c ≠ some me :=
    fun hd hme h => hne hd (hex.current_inj hme h)
  cases step_moves ht with
  | run _ hme => exact .setCtl hex hme (hne rfl) _
  | enter _ hme => exact (SameCpu.setCtl hex hme (hne rfl) _).trans (.setPhase (hne rfl) _)
  | parkCancelled _ hme | parked _ hme | parkCheck _ hme | exitCheck _ hme | adopt _ hme =>
    exact { SameCpu.setBase hex hme (hne rfl) _ with }
  | reapNone _ hme | reap _ hme => exact { SameCpu.setTail (hcur rfl hme) _ with }
  | search | pop | pass | steal | giveUp | popLast | setKernelStack | publish | publishNone
  | publishPush => exact { SameCpu.setPhase (hne rfl) _ with }
  | noNext _ hme => exact (SameCpu.setTail (hcur rfl hme) _).trans (.setPhase (hne rfl) _)
  | decide | initSet =>
    exact { SameCpu.setPhase (s := s) (hne rfl) _ with current := update_of_ne (hne rfl).symm _ _ }
  | activateRoot =>
    exact { SameCpu.setPhase (hne rfl) _ with cr3 := update_of_ne (hne rfl).symm _ _ }
  | @switch d w hp =>
    have hout : s.current c ≠ some w.outgoing :=
      (hex.outgoing_nowhere (by rw [hp]; rfl) c).1
    exact { (SameCpu.setTail hout _).trans (.setPhase (hne rfl) _) with }
  | spawn => exact { SameCpu.insert hex _ _ with }
  | initLock => exact { (SameCpu.insert hex _ _).trans (.setPhase (hne rfl) _) with }
  | note | wakeCurrent | wakeClaim | wake | wakePush | spawnPush | markOnline | setPreemption =>
    exact { SameCpu.refl s c with }

theorem runLocal_elsewhere {a : Local} (hex : Exclusive s) (ht : s.runLocal d a = some t)
    (hd : d ≠ c) : SameCpu s t c :=
  step_elsewhere (a := .run d a) hex ht fun h => hd (Option.some.inj h)

theorem enter_elsewhere {e : Enter} (hex : Exclusive s) (ht : s.enter d e = some t) (hd : d ≠ c) :
    SameCpu s t c :=
  step_elsewhere (a := .enter d e) hex ht fun h => hd (Option.some.inj h)

/-! ### What changes at all -/

/-- The scheduler's own steps are taken in its phases, not while a thread runs. -/
theorem byThread_of_run (ha : a.cpu = some c) (hp : s.phase c = .run) (ht : s.step a = some t) :
    a.byThread = true := by
  cases step_moves ht with
  | note | wakeCurrent | wakeClaim | wake | wakePush | spawnPush | setPreemption => cases ha
  | run | enter | parkCancelled | parked | parkCheck | exitCheck | adopt | reapNone | reap
  | spawn | markOnline => rfl
  | search h | pop h | pass h | steal h | giveUp h | popLast h | noNext h | decide h
  | setKernelStack h | activateRoot h | switch h | publish h | publishNone h | publishPush h
  | initLock h | initSet h =>
    cases ha
    cases hp.symm.trans h

theorem current_runLocal {a : Local} (ht : s.runLocal c a = some t) : t.current = s.current := by
  cases runLocal_moves ht with | run => rfl

theorem nextId_runLocal {a : Local} (ht : s.runLocal c a = some t) : t.nextId = s.nextId := by
  cases runLocal_moves ht with | run => rfl

variable (ht : s.step a = some t)

include ht

/-- A thread becomes current by a dispatch or as the first thread of a CPU. -/
theorem step_current (hx : t.current d = some x) :
    s.current d = some x ∨ (a = .decide d ∧ ∃ out irq, s.phase d = .took out irq x) ∨
      (a = .initSet d ∧ s.phase d = .adopting x) := by
  cases step_moves ht with
  | @decide c out irq next me e ctx old hp =>
    rcases eq_or_ne d c with rfl | hdc
    · simp only [update_self, Option.some.injEq] at hx
      exact .inr (.inl ⟨rfl, out, irq, hx ▸ hp⟩)
    · simp only [update_of_ne hdc] at hx
      exact .inl hx
  | @initSet c id hp =>
    rcases eq_or_ne d c with rfl | hdc
    · simp only [St.setPhase, update_self, Option.some.injEq] at hx
      exact .inr (.inr ⟨rfl, hx ▸ hp⟩)
    · simp only [St.setPhase, update_of_ne hdc] at hx
      exact .inl hx
  | _ => exact .inl hx

/-- Only a new thread is about to become the first one of a CPU. -/
theorem step_adopting (hx : t.phase d = .adopting x) :
    s.phase d = .adopting x ∨ x = ⟨s.nextId⟩ := by
  cases step_moves ht with
  | enter | search | pop | pass | steal | giveUp | popLast | noNext | decide | setKernelStack
  | activateRoot | switch | publish | publishNone | publishPush | initSet =>
    exact .inl (eq_of_update id hx (by simp))
  | @initLock c =>
    rcases eq_or_ne d c with rfl | hdc
    · rw [setPhase_phase_self, Phase.adopting.injEq] at hx
      exact .inr hx.symm
    · rw [setPhase_phase_of_ne _ hdc] at hx
      exact .inl hx
  | _ => exact .inl hx

theorem step_sys (hx : (t.base x).isSys = true) :
    (s.base x).isSys = true ∨ ∃ c, a = .run c .syscall ∧ s.running c = some x := by
  cases step_moves ht with
  | @run c me act k hp hcur hk =>
    rcases eq_or_ne x me with rfl | hme
    · rw [setCtl_base_self] at hx
      rcases hk.sys hx with hb | rfl
      · exact .inl hb
      · exact .inr ⟨c, rfl, running_eq_some.mpr ⟨hp, hcur⟩⟩
    · refine .inl ?_
      rwa [setCtl_base_of_ne hme] at hx
  | @enter c me e k _ _ _ _ hk =>
    refine .inl ?_
    rcases eq_or_ne x me with rfl | hme
    · exact hk.sys ((setCtl_base_self (c := c) k) ▸ hx)
    · exact (setCtl_base_of_ne (c := c) hme k) ▸ hx
  | parkCancelled | parked | parkCheck | exitCheck | adopt | initLock =>
    exact .inl (eq_of_update Base.isSys hx nofun)
  | @spawn _ _ _ _ process =>
    refine .inl (eq_of_update Base.isSys hx ?_)
    cases process <;> nofun
  | _ => exact .inl hx

theorem nextId_le_step : s.nextId ≤ t.nextId := by
  cases step_moves ht with
  | spawn | initLock => exact Nat.le_succ _
  | _ => exact le_rfl

end St

end Qunix.Sched
