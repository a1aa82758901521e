/-
The stack a system call returns to.

The stub keeps the caller's stack pointer in `user_rsp` of the CPU's block, one
slot per CPU. Another system call on the same CPU overwrites it, and a caller
that is resumed on another CPU finds that CPU's slot: `returns_to_other_stack`.
If a call is entered only on a CPU where no other call is open, and a thread in
a call is resumed only where it entered, every `sysretq` returns to the stack
its own `SYSCALL` came from: `sysret_restores_stack`.
-/

import Qunix.Hal.GsBase
import Qunix.Sched.InFlight

namespace Qunix.Hal

open Function Qunix.Sched Qunix.Lib

variable {n : Nat}

/-- `SYSCALL` is executed on a CPU where no other call is open, and a thread in a
call is dispatched on the CPU where it entered. -/
def Machine.undisturbed (m : Machine n) : Move n → Bool
  | .syscall c => (List.range m.st.nextId).all fun i =>
    !((m.st.base ⟨i⟩).isSys && (m.entry ⟨i⟩).any fun e => e.2 == c)
  | .sched (.decide c) =>
    match m.st.phase c with
    | .took _ _ next => !(m.st.base next).isSys || (m.entry next).any fun e => e.2 == c
    | _ => true
  | _ => true

/-- A thread in a system call: where its stack pointer is, and that it runs
nowhere else. -/
def Machine.Open (m : Machine n) (x : ThreadId) : Prop :=
  x.val < m.st.nextId ∧ ∃ r c, m.entry x = some (r, c) ∧ m.userRsp c = r ∧
    ∀ d, m.st.current d = some x → d = c

structure Kept (m : Machine n) : Prop where
  own : ∀ c d, m.gsBase c = some d → d = c
  kernelOwn : ∀ c d, m.kernelGsBase c = some d → d = c
  slot : ∀ x, (m.st.base x).isSys = true → m.Open x
  log : ∀ x entered returned, Event.sysret x entered returned ∈ m.log → entered = returned

namespace Kept

variable {m m' : Machine n} {c : Fin n} {x me : ThreadId}

theorem boot : Kept (Machine.boot n) where
  own := fun c d h => (Option.some.inj h).symm
  kernelOwn := fun c d h => (Option.some.inj h).symm
  slot := fun x hx => by cases hx
  log := fun x e r h => by cases h

/-- A zero, or a copy of the other base, keeps a base the CPU's own. -/
theorem own_update {f : Fin n → Option (Fin n)} {v : Option (Fin n)}
    (hf : ∀ c d, f c = some d → d = c) (hv : ∀ d, v = some d → d = c) :
    ∀ e d, update f c v e = some d → d = e :=
  (forall_update_iff f fun e v => ∀ d, v = some d → d = e).mpr ⟨hv, fun e _ => hf e⟩

section

variable (h : Kept m)

include h

theorem slot_step (hfl : InFlight m.st) {a : Act n} (ht : m.st.step a = some m'.st)
    (ha : ∀ c, a ≠ .run c .syscall) (hg : m.undisturbed (.sched a) = true)
    (he : m'.entry = m.entry) (hu : m'.userRsp = m.userRsp)
    (hx : (m'.st.base x).isSys = true) : m'.Open x := by
  have hsys : (m.st.base x).isSys = true := by
    rcases St.step_sys ht hx with hsys | ⟨c, rfl, -⟩
    · exact hsys
    · exact absurd rfl (ha c)
  obtain ⟨hlt, r, c, hr, hs, ho⟩ := h.slot x hsys
  refine ⟨Nat.lt_of_lt_of_le hlt (St.nextId_le_step ht), r, c, by rw [he, hr],
    by rw [hu, hs], fun d hd => ?_⟩
  rcases St.step_current ht hd with hcur | ⟨rfl, out, irq, hto⟩ | ⟨rfl, had⟩
  · exact ho d hcur
  · simp only [Machine.undisturbed, hto, hsys, hr, Option.any_some, Bool.not_true,
      Bool.false_or, beq_iff_eq] at hg
    exact hg.symm
  · rw [hfl.adopting d x had] at hsys
    cases hsys

/-- Moves that change neither the scheduler's state nor the slots. -/
theorem slot_same (hst : m'.st = m.st) (he : m'.entry = m.entry)
    (hu : m'.userRsp = m.userRsp) (hx : (m'.st.base x).isSys = true) : m'.Open x := by
  rw [hst] at hx
  have ho := h.slot x hx
  simp only [Machine.Open, hst, he, hu]
  exact ho

theorem touch (c : Fin n) : Kept (m.touch c) :=
  ⟨h.own, h.kernelOwn, fun _ => h.slot_same rfl rfl rfl,
    fun x e r he => h.log x e r (by simpa [Machine.touch] using he)⟩

theorem sched (hfl : InFlight m.st) {a : Act n} (hm : m.sched a = some m')
    (hg : m.undisturbed (.sched a) = true) : Kept m' := by
  obtain ⟨hvia, -, -, t, ht, hc⟩ := Machine.sched_spec hm
  have ha : ∀ c, a ≠ .run c .syscall := by
    rintro c rfl
    cases hvia
  rcases hc with ⟨-, rfl⟩ | ⟨c, -, -, rfl⟩ | ⟨c, d, -, -, rfl⟩
  · exact ⟨h.own, h.kernelOwn, fun x => h.slot_step hfl ht ha hg rfl rfl, h.log⟩
  · exact h.touch c
  · exact ⟨h.own, h.kernelOwn, fun x => h.slot_step hfl ht ha hg rfl rfl,
      fun x e r he => h.log x e r (by simpa using he)⟩

/-- The stub stores the caller's stack pointer; no other call's slot is
overwritten. -/
theorem syscall (hex : Exclusive m.st) (hm : m.syscall c = some m')
    (hg : m.undisturbed (.syscall c) = true) : Kept m' := by
  obtain ⟨me, t, -, hme, ht, hc⟩ := Machine.syscall_spec hm
  obtain ⟨-, hcur⟩ := St.running_eq_some.mp hme
  rcases hc with ⟨hn, rfl⟩ | ⟨d, hd, rfl⟩
  · rw [Machine.syscallEntry_of_none hn]
    exact ⟨own_update h.own (by simp), own_update h.kernelOwn (h.own c),
      fun x => h.slot_same rfl rfl rfl, fun x e r he => h.log x e r (by simpa using he)⟩
  · obtain rfl := h.kernelOwn c d hd
    refine ⟨own_update h.own (by simp), own_update h.kernelOwn (h.own d), fun x hx => ?_,
      fun x e r he => h.log x e r (by simpa using he)⟩
    rcases eq_or_ne x me with rfl | hxm
    · refine ⟨?_, m.rsp x, d, update_self .., update_self .., fun e he => ?_⟩
      · rw [St.nextId_runLocal ht]
        exact hex.fresh x (.inl (hex.live_current hcur).1)
      · rw [St.current_runLocal ht] at he
        exact hex.current_inj he hcur
    · -- Another open call has its slot on another CPU.
      have hsys : (m.st.base x).isSys = true := by
        rcases St.step_sys (a := .run d .syscall) ht hx with hsys | ⟨c, hact, hrun⟩
        · exact hsys
        · cases hact
          exact absurd (Option.mem_unique hrun hme) hxm
      obtain ⟨hlt, r, c, hr, hs, ho⟩ := h.slot x hsys
      have hne : c ≠ d := by
        rintro rfl
        have := List.all_eq_true.mp hg x.val (List.mem_range.mpr hlt)
        simp [hsys, hr] at this
      refine ⟨by rwa [St.nextId_runLocal ht], r, c, (update_of_ne hxm _ _).trans hr,
        (update_of_ne hne _ _).trans hs, fun e he => ho e ?_⟩
      rwa [St.current_runLocal ht] at he

section

variable (hfl : InFlight m.st)

include hfl

/-- The call returns on its own CPU, whose slot still holds its stack pointer. -/
theorem sysret (hm : m.sysret c = some m') : Kept m' := by
  obtain ⟨me, t, -, hme, ht, hc⟩ := Machine.sysret_spec hm
  obtain ⟨-, hcur⟩ := St.running_eq_some.mp hme
  have hs : m.st.step (.run c .sysret) = some t := ht
  rcases hc with ⟨-, rfl⟩ | ⟨d, hd, rfl⟩
  · exact h.touch c
  · obtain rfl := h.own c d hd
    refine ⟨own_update h.own (h.kernelOwn d), own_update h.kernelOwn (by simp),
      fun x => h.slot_step hfl hs (by simp) rfl rfl rfl, fun x e r he => ?_⟩
    simp only [List.mem_cons, Event.sysret.injEq, reduceCtorEq, false_or] at he
    rcases he with ⟨rfl, rfl, rfl⟩ | he
    · obtain ⟨root, ⟨me', -, hcur', -, hb⟩, -⟩ := InProcess.sysret ht
      obtain rfl := Option.mem_unique hcur hcur'
      obtain ⟨-, r, c, hr, hsl, ho⟩ := h.slot x (by rw [hb]; rfl)
      obtain rfl := ho d hcur
      rw [hr, hsl]
      rfl
    · exact h.log x e r he

theorem entered {a : Act n} (ht : m.st.step a = some m'.st)
    (ha : ∀ c, a ≠ .run c .syscall) (hd : ∀ c, a ≠ .decide c) (hen : m'.entry = m.entry)
    (hu : m'.userRsp = m.userRsp) (hgs : m'.gsBase = m.gsBase ∨
      m'.gsBase = update m.gsBase c (m.kernelGsBase c)) (hk : m'.kernelGsBase = m.kernelGsBase)
    (hlog : ∀ x e r, Event.sysret x e r ∈ m'.log → Event.sysret x e r ∈ m.log) : Kept m' := by
  have hg : m.undisturbed (.sched a) = true := by
    cases a with
    | decide c => exact absurd rfl (hd c)
    | _ => rfl
  refine ⟨?_, by rw [hk]; exact h.kernelOwn,
    fun x => h.slot_step hfl ht ha hg hen hu, fun x e r he => h.log x e r (hlog x e r he)⟩
  rcases hgs with hgs | hgs
  · rw [hgs]
    exact h.own
  · rw [hgs]
    exact own_update h.own (h.kernelOwn c)

theorem fault (hm : m.fault c = some m') : Kept m' := by
  obtain ⟨t, -, ht, ⟨-, rfl⟩ | ⟨d, hd, rfl⟩⟩ := Machine.fault_spec hm
  · exact ⟨own_update h.own (h.kernelOwn c), h.kernelOwn, fun x => h.slot_same rfl rfl rfl,
      fun x e r he => h.log x e r (by
        simpa [Machine.touch, Machine.restoreGsBase, Machine.noteKernelGs] using he)⟩
  · exact h.entered (a := .run c .fault) hfl ht (by simp) (by simp) rfl rfl
      (.inr (by rw [hd])) rfl fun x e r he => by simpa using he

theorem interrupt {handler : Handler}
    (hm : m.interrupt c handler = some m') : Kept m' := by
  obtain ⟨t, -, ht, rfl⟩ := Machine.interrupt_spec hm
  exact h.entered (a := .run c .interrupt) hfl ht (by simp) (by simp) rfl rfl
    (.inr rfl) rfl fun x e r he => by simpa using he

theorem tick (hm : m.tick c = some m') : Kept m' := by
  obtain ⟨t, -, ht, ⟨-, rfl⟩ | ⟨d, -, rfl⟩⟩ := Machine.tick_spec hm
  · exact h.touch c
  · exact h.entered (a := .enter c .tick) (c := c) hfl ht (by simp) (by simp) rfl rfl
      (.inl rfl) rfl fun x e r he => by simpa using he

end

theorem step {a : Move n} (hex : Exclusive m.st) (hfl : InFlight m.st)
    (hm : m.step a = some m') (hg : m.undisturbed a = true) : Kept m' := by
  obtain ⟨-, hm⟩ := Machine.step_spec hm
  cases a with
  | sched a => exact h.sched hfl hm hg
  | clearGs c =>
    obtain ⟨-, rfl⟩ := Machine.clearGs_spec hm
    exact ⟨own_update h.own (by simp), h.kernelOwn, h.slot, h.log⟩
  | setRsp c value =>
    obtain ⟨me, -, -, rfl⟩ := Machine.setRsp_spec hm
    exact ⟨h.own, h.kernelOwn, h.slot, h.log⟩
  | syscall c => exact h.syscall hex hm hg
  | sysret c => exact h.sysret hfl hm
  | fault c => exact h.fault hfl hm
  | interrupt c handler => exact h.interrupt hfl hm
  | handlerEnd c =>
    obtain ⟨-, rfl⟩ := Machine.handlerEnd_spec hm
    exact ⟨h.own, h.kernelOwn, h.slot, h.log⟩
  | tick c => exact h.tick hfl hm
  | wakeIpi c =>
    obtain ⟨t, -, ht, rfl⟩ := Machine.wakeIpi_spec hm
    exact h.entered (a := .run c .interrupt) (c := c) hfl ht (by simp) (by simp) rfl rfl
      (.inl rfl) rfl fun x e r he => he

end

end Kept

/-- If `SYSCALL` is executed only on a CPU where no other call is open, and a
thread in a call is dispatched only on the CPU where it entered, every `sysretq`
returns to the stack pointer that its thread had at the `SYSCALL`. -/
theorem sysret_restores_stack {as : List (Move n)} {m : Machine n}
    (hrun : Run (fun m a m' => Machine.Step m a m' ∧ m.undisturbed a = true)
      (Machine.boot n) as m) :
    ∀ x entered returned, Event.sysret x entered returned ∈ m.log → entered = returned := by
  have hinv : (Exclusive m.st ∧ InFlight m.st) ∧ Kept m := by
    refine hrun.invariant (p := fun m => (Exclusive m.st ∧ InFlight m.st) ∧ Kept m)
      (fun m a m' h hstep => ?_) ⟨⟨Exclusive.boot, InFlight.boot⟩, Kept.boot⟩
    obtain ⟨⟨hex, hfl⟩, hkept⟩ := h
    refine ⟨?_, hkept.step hex hfl hstep.1 hstep.2⟩
    exact Machine.invariant_step (p := fun s => Exclusive s ∧ InFlight s) ⟨hex, hfl⟩
      (fun s a t h ht => ⟨h.1.step ht, h.2.step h.1 ht⟩) hstep.1
  exact hinv.2.log

/-- A call that yields and is resumed on the same CPU. -/
theorem sysret_restores_stack_after_yield :
    ∃ m : Machine 1, Run (fun m a m' => Machine.Step m a m' ∧ m.undisturbed a = true)
      (Machine.boot 1)
      (List.map Move.sched (bootCpu 0 ++ spawnOn 0 ⟨1⟩ 4096 (some 7) ++ yieldTo 0 ++
          enterProcess 0) ++
        [.setRsp 0 100, .syscall 0] ++
        List.map Move.sched ([.enter 0 .yield, .takeLocal 0, .takeLast 0] ++ switchOver 0 ++
          leaveSchedule 0 ++ yieldTo 0 ++ leaveSchedule 0) ++
        [.sysret 0]) m ∧
      Event.sysret ⟨1⟩ 100 (m.rsp ⟨1⟩) ∈ m.log ∧ m.rsp ⟨1⟩ = 100 := by
  refine exists_run_of_exec_guarded (by decide +kernel) fun m hrun hlog => ⟨hlog, ?_⟩
  exact (sysret_restores_stack hrun _ _ _ hlog).symm

/-- A process yields in a system call, another one makes a system call on the
same CPU, and the first one returns to the stack of the second. -/
theorem returns_to_other_stack :
    ∃ m : Machine 1, Run Machine.Step (Machine.boot 1)
      (List.map Move.sched (bootCpu 0 ++ spawnOn 0 ⟨1⟩ 4096 (some 7) ++
          spawnOn 0 ⟨2⟩ 8192 (some 8) ++ yieldTo 0 ++ enterProcess 0) ++
        [.setRsp 0 100, .syscall 0] ++
        List.map Move.sched (yieldTo 0 ++ enterProcess 0) ++
        [.setRsp 0 200, .syscall 0] ++
        List.map Move.sched (yieldTo 0 ++ leaveSchedule 0) ++
        [.sysret 0]) m ∧
      Event.sysret ⟨1⟩ 100 200 ∈ m.log := by
  exact exists_run_of_exec (by decide +kernel) fun _ _ hfacts => hfacts

end Qunix.Hal
