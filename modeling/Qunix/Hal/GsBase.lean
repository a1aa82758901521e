/-
Whose block `gs:` reaches.

Ring 3 can clear `GS_BASE`. The interrupt handlers repair it from
`KERNEL_GS_BASE`, and the syscall stub repairs it by exchanging the two, so that
inside a system call of a process that cleared it the zero is in
`KERNEL_GS_BASE` instead. Nothing is wrong as long as the call returns on this
CPU before anything else happens there. A `Yield` or an `Exit` in such a call
leaves the zero behind for the next interrupt: `zero_restored_after_yield`. In a
run without one, every access through `gs:` uses the CPU's own block and every
repair finds it: `gs_is_own_block`.
-/

import Qunix.Hal.Moves

namespace Qunix.Hal

open Function Qunix.Sched Qunix.Lib

variable {n : Nat}

/-- The use of a base that the CPU's own code could ask for. -/
def Event.Own : Event n → Prop
  | .gs c base => base = some c
  | .kernelGs c base => base = some c
  | .sysret _ _ _ => True

namespace Machine

/-- `Yield` and `Exit` are not executed in a call that was entered with a cleared
`GS_BASE`. -/
def unclobbered (m : Machine n) : Move n → Bool
  | .sched (.enter c .yield) => m.kernelGsBase c == some c
  | .sched (.run c .sysExit) => m.kernelGsBase c == some c
  | _ => true

end Machine

/-! ### A process on its CPU -/

/-- CPU `c` runs a thread's own code, which is at `b`. -/
def InProcess (s : St n) (c : Fin n) (b : Base) : Prop :=
  ∃ me, s.phase c = .run ∧ s.current c = some me ∧ s.tail me = [] ∧ s.base me = b

namespace InProcess

variable {s t : St n} {c : Fin n} {b b' : Base}

theorem same (h : InProcess s c b) (hs : St.SameCpu s t c) : InProcess t c b := by
  obtain ⟨me, hp, hcur, ht, hb⟩ := h
  exact ⟨me, hs.phase.trans hp, hs.current.trans hcur,
    (hs.tail me hcur).trans ht, (hs.base me hcur).trans hb⟩

theorem eq (h : InProcess s c b) (h' : InProcess s c b') : b = b' := by
  obtain ⟨me, -, hcur, -, rfl⟩ := h
  obtain ⟨me', -, hcur', -, rfl⟩ := h'
  rw [Option.mem_unique hcur hcur']

theorem setCtl {me : ThreadId} {k : Ctl} (hp : s.phase c = .run) (hcur : s.current c = some me)
    (ht : k.tail = []) : InProcess (s.setCtl c me k) c k.base :=
  ⟨me, hp, hcur, (update_self ..).trans ht, St.setCtl_base_self k⟩

theorem syscall (ht : s.runLocal c .syscall = some t) :
    ∃ root, InProcess s c (.user root) ∧ InProcess t c (.sys root) ∧ t.irqOn c = false := by
  obtain @⟨_, me, _, k, hp, hcur, hk⟩ := St.runLocal_moves ht
  obtain ⟨root, hb, hta, rfl⟩ := hk.syscall_eq
  exact ⟨root, ⟨me, hp, hcur, hta, hb⟩, setCtl hp hcur rfl, update_self ..⟩

theorem sysret (ht : s.runLocal c .sysret = some t) :
    ∃ root, InProcess s c (.sys root) ∧ InProcess t c (.user root) := by
  obtain @⟨_, me, _, k, hp, hcur, hk⟩ := St.runLocal_moves ht
  obtain ⟨root, hb, hta, rfl⟩ := hk.sysret_eq
  exact ⟨root, ⟨me, hp, hcur, hta, hb⟩, setCtl hp hcur rfl⟩

theorem fault (ht : s.runLocal c .fault = some t) : ∃ root, InProcess s c (.user root) := by
  obtain @⟨_, me, _, k, hp, hcur, hk⟩ := St.runLocal_moves ht
  obtain ⟨root, hb, hta⟩ := hk.fault_eq
  exact ⟨root, me, hp, hcur, hta, hb⟩

/-- An interrupt handler returns to where it came from, except from a halt. -/
theorem interrupt (ht : s.runLocal c .interrupt = some t) :
    s.irqOn c = true ∧ (b.wake = b → InProcess s c b → InProcess t c b) := by
  obtain @⟨_, me, _, k, hp, hcur, hk⟩ := St.runLocal_moves ht
  obtain ⟨hirq, rfl⟩ := hk.interrupt_eq
  refine ⟨hirq, fun hb h => ?_⟩
  obtain ⟨me', -, hcur', hta, hba⟩ := h
  obtain rfl := Option.mem_unique hcur hcur'
  have hw : (s.base me).wake = b := (congrArg Base.wake hba).trans hb
  exact hw ▸ setCtl hp hcur hta

/-- What a process can do on its own besides entering and leaving the kernel. -/
theorem step {a : Act n} (h : InProcess s c b) (hb : b.isUser = true ∨ b.isSys = true)
    (ha : a.cpu = some c) (hvia : viaEntry a = false) (ht : s.step a = some t) :
    (b.isSys = true ∧ (a = .enter c .yield ∨ a = .run c .sysExit)) ∨ a = .markOnline c := by
  obtain ⟨me, hp, hcur, hta, rfl⟩ := h
  cases St.step_moves ht with
  | run _ hcur' hk =>
    cases ha
    obtain rfl := Option.mem_unique hcur hcur'
    rcases hk.of_process hta hb with rfl | rfl | rfl | rfl | ⟨hsys, rfl⟩
    on_goal 5 => exact .inl ⟨hsys, .inr rfl⟩
    all_goals cases hvia
  | enter _ hcur' hk =>
    cases ha
    obtain rfl := Option.mem_unique hcur hcur'
    rcases hk.of_process hb with rfl | ⟨hsys, rfl⟩
    · cases hvia
    · exact .inl ⟨hsys, .inl rfl⟩
  | parkCancelled _ hcur' _ hba | parked _ hcur' _ hba | exitCheck _ hcur' _ hba
  | adopt _ hcur' _ hba | spawn _ hcur' _ hba =>
    cases ha
    obtain rfl := Option.mem_unique hcur hcur'
    simp [hba, Base.isUser, Base.isSys] at hb
  | parkCheck _ hcur' _ hba =>
    cases ha
    obtain rfl := Option.mem_unique hcur hcur'
    rcases hba with ⟨hba, -⟩ | ⟨hba, -⟩ <;> simp [hba, Base.isUser, Base.isSys] at hb
  | reapNone _ hcur' ht' | reap _ hcur' ht' =>
    cases ha
    obtain rfl := Option.mem_unique hcur hcur'
    rw [hta] at ht'
    cases ht'
  | markOnline =>
    cases ha
    exact .inr rfl
  | _ => cases St.byThread_of_run ha hp ht

end InProcess

namespace Machine

variable {m m' : Machine n} {c d : Fin n}

theorem inUser_iff :
    m.inUser c = true ↔ m.handling c = none ∧ ∃ root, InProcess m.st c (.user root) := by
  unfold inUser
  simp only [Bool.and_eq_true, Option.isNone_iff_eq_none, Option.any_eq_true, List.isEmpty_iff]
  refine and_congr_right fun _ => ⟨?_, ?_⟩
  · rintro ⟨me, hrun, ht, hba⟩
    obtain ⟨hp, hcur⟩ := St.running_eq_some.mp hrun
    cases hb : m.st.base me with
    | user root => exact ⟨root, me, hp, hcur, ht, hb⟩
    | _ => simp [hb, Base.isUser] at hba
  · rintro ⟨root, me, hp, hcur, ht, hba⟩
    exact ⟨me, St.running_eq_some.mpr ⟨hp, hcur⟩, ht, by rw [hba]; rfl⟩

/-- In a system call, masked. -/
def InCall (m : Machine n) (c : Fin n) : Prop :=
  m.handling c = none ∧ (∃ root, InProcess m.st c (.sys root)) ∧ m.st.irqOn c = false

theorem inUser_same (h : m.inUser c = true) (hs : St.SameCpu m.st m'.st c)
    (hh : m'.handling c = m.handling c) : m'.inUser c = true := by
  rw [inUser_iff] at h ⊢
  obtain ⟨hi, root, hin⟩ := h
  exact ⟨hh.trans hi, root, hin.same hs⟩

theorem InCall.same (h : m.InCall c) (hs : St.SameCpu m.st m'.st c)
    (hh : m'.handling c = m.handling c) : m'.InCall c := by
  obtain ⟨hi, ⟨root, hin⟩, hirq⟩ := h
  exact ⟨hh.trans hi, ⟨root, hin.same hs⟩, hs.irqOn.trans hirq⟩

end Machine

/-- Where a zero can be: in `GS_BASE` while in ring 3, in `KERNEL_GS_BASE` while
in a system call. -/
structure BasedAt (m : Machine n) (c : Fin n) : Prop where
  gs : m.gsBase c = some c ∨ (m.gsBase c = none ∧ m.inUser c = true)
  kernelGs : m.kernelGsBase c = some c ∨ (m.kernelGsBase c = none ∧ m.InCall c)

structure Based (m : Machine n) : Prop where
  live : m.stopped = false
  log : ∀ e ∈ m.log, e.Own
  cpus : ∀ c, BasedAt m c

namespace BasedAt

variable {m m' : Machine n} {c : Fin n}

variable (h : BasedAt m c)

include h

theorem same (hgs : m'.gsBase c = m.gsBase c)
    (hk : m'.kernelGsBase c = m.kernelGsBase c) (hs : St.SameCpu m.st m'.st c)
    (hh : m'.handling c = m.handling c) : BasedAt m' c := by
  refine ⟨?_, ?_⟩
  · rw [hgs]
    exact h.gs.imp_right fun hu => ⟨hu.1, Machine.inUser_same hu.2 hs hh⟩
  · rw [hk]
    exact h.kernelGs.imp_right fun hc => ⟨hc.1, hc.2.same hs hh⟩

theorem gs_own (hu : m.inUser c = false) : m.gsBase c = some c :=
  h.gs.resolve_right fun hn => by simp [hu] at hn

/-- Outside a masked system call the kernel's copy is the CPU's own. -/
theorem kernelGs_own (hc : ¬ m.InCall c) : m.kernelGsBase c = some c :=
  h.kernelGs.resolve_right fun hn => hc hn.2

theorem kernelGs_of_user {root : Nat} (hu : InProcess m.st c (.user root)) :
    m.kernelGsBase c = some c := by
  refine h.kernelGs_own fun hc => ?_
  obtain ⟨-, ⟨root', hsys⟩, -⟩ := hc
  cases hu.eq hsys

theorem kernelGs_of_irq (hirq : m.st.irqOn c = true) :
    m.kernelGsBase c = some c := by
  refine h.kernelGs_own fun hc => ?_
  rw [hc.2.2] at hirq
  cases hirq

theorem both_of_handling {handler : Handler} (hh : m.handling c = some handler) :
    m.gsBase c = some c ∧ m.kernelGsBase c = some c := by
  refine ⟨h.gs_own ?_, h.kernelGs_own fun hc => ?_⟩
  · rw [Bool.eq_false_iff]
    intro hu
    rw [(Machine.inUser_iff.mp hu).1] at hh
    cases hh
  · rw [hc.1] at hh
    cases hh

theorem sched (hex : Exclusive m.st) {a : Act n} {t : St n}
    (hvia : viaEntry a = false) (hu : ∀ d, gsCpu a = some d → m.inUser d = false)
    (hg : m.unclobbered (.sched a) = true) (ht : m.st.step a = some t) :
    BasedAt { m with st := t } c := by
  by_cases hcpu : a.cpu = some c
  · refine ⟨h.gs.imp_right fun hn => ?_, h.kernelGs.imp_right fun hn => ?_⟩
    · -- Ring 3 does nothing else than to enter the kernel.
      obtain ⟨-, root, hin⟩ := Machine.inUser_iff.mp hn.2
      rcases hin.step (.inl rfl) hcpu hvia ht with ⟨hsys, -⟩ | rfl
      · cases hsys
      · rw [hu c rfl] at hn
        cases hn.2
    · obtain ⟨hz, hi, ⟨root, hin⟩, hirq⟩ := hn
      rcases hin.step (.inr rfl) hcpu hvia ht with ⟨-, rfl | rfl⟩ | rfl
      · simp [Machine.unclobbered, hz] at hg
      · simp [Machine.unclobbered, hz] at hg
      · cases St.step_moves ht
        exact ⟨hz, hi, ⟨root, hin⟩, hirq⟩
  · exact h.same rfl rfl (St.step_elsewhere hex ht hcpu) rfl

end BasedAt

namespace Based

variable {m m' : Machine n} {c : Fin n}

theorem boot : Based (Machine.boot n) where
  live := rfl
  log := fun e he => by cases he
  cpus := fun _ => ⟨Or.inl rfl, .inl rfl⟩

section

variable (h : Based m)

include h

/-- A move of CPU `c`, which used its own block. -/
theorem of_cpu (es : List (Event n)) (hl : m'.stopped = false) (hlog : m'.log = es ++ m.log)
    (hes : ∀ e ∈ es, e.Own)
    (hgs : ∀ d, d ≠ c → m'.gsBase d = m.gsBase d)
    (hk : ∀ d, d ≠ c → m'.kernelGsBase d = m.kernelGsBase d)
    (hst : ∀ d, d ≠ c → St.SameCpu m.st m'.st d)
    (hh : ∀ d, d ≠ c → m'.handling d = m.handling d) (hc : BasedAt m' c) : Based m' := by
  refine ⟨hl, ?_, fun d => ?_⟩
  · rw [hlog]
    exact List.forall_mem_append.mpr ⟨hes, h.log⟩
  rcases eq_or_ne d c with rfl | hdc
  · exact hc
  · exact (h.cpus d).same (hgs d hdc) (hk d hdc) (hst d hdc) (hh d hdc)

theorem sched (hex : Exclusive m.st) {a : Act n} (hm : m.sched a = some m')
    (hg : m.unclobbered (.sched a) = true) : Based m' := by
  obtain ⟨hvia, -, hu, t, ht, hca⟩ := Machine.sched_spec hm
  have hcp : ∀ c, BasedAt { m with st := t } c := fun c =>
    (h.cpus c).sched hex hvia hu hg ht
  have hown : ∀ c, gsCpu a = some c → m.gsBase c = some c := fun c hc =>
    (h.cpus c).gs_own (hu c hc)
  rcases hca with ⟨-, rfl⟩ | ⟨c, hc, hz, -⟩ | ⟨c, d, hc, hd, rfl⟩
  · exact ⟨h.live, h.log, hcp⟩
  · rw [hown c hc] at hz
    cases hz
  · obtain rfl : c = d := Option.some.inj ((hown c hc).symm.trans hd)
    exact ⟨rfl, List.forall_mem_cons.mpr ⟨rfl, h.log⟩, fun d => ⟨(hcp d).gs, (hcp d).kernelGs⟩⟩

theorem clearGs (hm : m.clearGs c = some m') : Based m' := by
  obtain ⟨hu, rfl⟩ := Machine.clearGs_spec hm
  exact h.of_cpu [] h.live rfl nofun (fun d hd => update_of_ne hd _ _) (fun _ _ => rfl)
    (fun d _ => .refl m.st d) (fun _ _ => rfl)
    ⟨Or.inr ⟨update_self .., hu⟩, (h.cpus c).kernelGs⟩

section

variable (hex : Exclusive m.st)

include hex

theorem syscall (hm : m.syscall c = some m') : Based m' := by
  obtain ⟨me, t, hi, -, ht, hc⟩ := Machine.syscall_spec hm
  obtain ⟨root, hu, hsys, hirq⟩ := InProcess.syscall ht
  obtain rfl := Machine.found_own hc ((h.cpus c).kernelGs_of_user hu)
  refine h.of_cpu [_, _, _] rfl rfl (by simp [Event.Own]) (fun d hd => update_of_ne hd _ _)
    (fun d hd => update_of_ne hd _ _) (fun d hd => St.runLocal_elsewhere hex ht hd.symm)
    (fun _ _ => rfl) ⟨Or.inl (update_self ..), ?_⟩
  -- The exchange moves a zero into the kernel's copy.
  simp only [update_self]
  exact (h.cpus c).gs.imp_right fun hn => ⟨hn.1, hi, ⟨root, hsys⟩, hirq⟩

theorem sysret (hm : m.sysret c = some m') : Based m' := by
  obtain ⟨me, t, hi, -, ht, hc⟩ := Machine.sysret_spec hm
  obtain ⟨root, hsys, hus⟩ := InProcess.sysret ht
  have hgs : m.gsBase c = some c := by
    refine (h.cpus c).gs_own (Bool.eq_false_iff.mpr fun hu => ?_)
    obtain ⟨-, root', hu⟩ := Machine.inUser_iff.mp hu
    cases hsys.eq hu
  obtain rfl := Machine.found_own hc hgs
  refine h.of_cpu [_, _] rfl rfl (by simp [Event.Own]) (fun d hd => update_of_ne hd _ _)
    (fun d hd => update_of_ne hd _ _) (fun d hd => St.runLocal_elsewhere hex ht hd.symm)
    (fun _ _ => rfl) ⟨?_, .inl (update_self ..)⟩
  -- The second exchange gives the zero back to ring 3.
  simp only [update_self]
  exact (h.cpus c).kernelGs.imp_right fun hn => ⟨hn.1, Machine.inUser_iff.mpr ⟨hi, root, hus⟩⟩

theorem fault (hm : m.fault c = some m') : Based m' := by
  obtain ⟨t, -, ht, hc⟩ := Machine.fault_spec hm
  obtain ⟨root, hu⟩ := InProcess.fault ht
  have hk := (h.cpus c).kernelGs_of_user hu
  obtain rfl := Machine.found_own hc hk
  exact h.of_cpu [_, _] rfl rfl (by simp [Event.Own]) (fun d hd => update_of_ne hd _ _)
    (fun _ _ => rfl) (fun d hd => St.runLocal_elsewhere hex ht hd.symm) (fun _ _ => rfl)
    ⟨Or.inl (update_self ..), .inl hk⟩

/-- An interrupt is taken outside masked calls, so that it finds the right copy. -/
theorem interrupt {handler : Handler}
    (hm : m.interrupt c handler = some m') : Based m' := by
  obtain ⟨t, -, ht, rfl⟩ := Machine.interrupt_spec hm
  have hk := (h.cpus c).kernelGs_of_irq (InProcess.interrupt (b := .code) ht).1
  exact h.of_cpu [_] h.live rfl (by simpa [Event.Own] using hk) (fun d hd => update_of_ne hd _ _)
    (fun _ _ => rfl) (fun d hd => St.runLocal_elsewhere hex ht hd.symm)
    (fun d hd => update_of_ne hd _ _) ⟨Or.inl ((update_self ..).trans hk), .inl hk⟩

end

theorem handlerEnd (hm : m.handlerEnd c = some m') : Based m' := by
  obtain ⟨⟨handler, hh⟩, rfl⟩ := Machine.handlerEnd_spec hm
  obtain ⟨hgs, hk⟩ := (h.cpus c).both_of_handling hh
  exact h.of_cpu [] h.live rfl nofun (fun _ _ => rfl) (fun _ _ => rfl)
    (fun d _ => .refl m.st d) (fun d hd => update_of_ne hd _ _) ⟨Or.inl hgs, .inl hk⟩

theorem tick (hex : Exclusive m.st) (hm : m.tick c = some m') : Based m' := by
  obtain ⟨t, hh, ht, hc⟩ := Machine.tick_spec hm
  obtain ⟨hgs, hk⟩ := (h.cpus c).both_of_handling hh
  obtain rfl := Machine.found_own hc hgs
  exact h.of_cpu [_] rfl rfl (by simp [Event.Own]) (fun _ _ => rfl) (fun _ _ => rfl)
    (fun d hd => St.enter_elsewhere hex ht hd.symm) (fun d hd => update_of_ne hd _ _)
    ⟨Or.inl hgs, .inl hk⟩

theorem wakeIpi (hex : Exclusive m.st) (hm : m.wakeIpi c = some m') : Based m' := by
  obtain ⟨t, hi, ht, rfl⟩ := Machine.wakeIpi_spec hm
  have hk := (h.cpus c).kernelGs_of_irq (InProcess.interrupt (b := .code) ht).1
  refine h.of_cpu [] h.live rfl nofun (fun _ _ => rfl) (fun _ _ => rfl)
    (fun d hd => St.runLocal_elsewhere hex ht hd.symm) (fun _ _ => rfl)
    ⟨(h.cpus c).gs.imp_right fun hn => ⟨hn.1, ?_⟩, .inl hk⟩
  obtain ⟨-, root, hu⟩ := Machine.inUser_iff.mp hn.2
  exact Machine.inUser_iff.mpr ⟨hi, root, (InProcess.interrupt ht).2 rfl hu⟩

theorem step {a : Move n} (hex : Exclusive m.st) (hm : m.step a = some m')
    (hg : m.unclobbered a = true) : Based m' := by
  obtain ⟨-, hm⟩ := Machine.step_spec hm
  cases a with
  | sched a => exact h.sched hex hm hg
  | clearGs c => exact h.clearGs hm
  | setRsp c value =>
    obtain ⟨me, -, -, rfl⟩ := Machine.setRsp_spec hm
    exact ⟨h.live, h.log, fun c => ⟨(h.cpus c).gs, (h.cpus c).kernelGs⟩⟩
  | syscall c => exact h.syscall hex hm
  | sysret c => exact h.sysret hex hm
  | fault c => exact h.fault hex hm
  | interrupt c handler => exact h.interrupt hex hm
  | handlerEnd c => exact h.handlerEnd hm
  | tick c => exact h.tick hex hm
  | wakeIpi c => exact h.wakeIpi hex hm

end

end Based

/-- If no process executes `Yield` or `Exit` in a system call that it entered
with a cleared `GS_BASE`, then every access through `gs:` used the block of the
CPU it ran on, every `restore_gs_base` and every first `swapgs` of the stub found
that block in `KERNEL_GS_BASE`, and outside ring 3 `GS_BASE` is that block. -/
theorem gs_is_own_block {as : List (Move n)} {m : Machine n}
    (hrun : Run (fun m a m' => Machine.Step m a m' ∧ m.unclobbered a = true)
      (Machine.boot n) as m) :
    (∀ c base, Event.gs c base ∈ m.log → base = some c) ∧
    (∀ c base, Event.kernelGs c base ∈ m.log → base = some c) ∧
    ∀ c, m.inUser c = false → m.gsBase c = some c := by
  have hinv : Exclusive m.st ∧ Based m := by
    refine hrun.invariant (p := fun m => Exclusive m.st ∧ Based m) (fun m a m' h hstep => ?_)
      ⟨Exclusive.boot, Based.boot⟩
    exact ⟨Machine.exclusive_step h.1 hstep.1, h.2.step h.1 hstep.1 hstep.2⟩
  exact ⟨fun c base he => hinv.2.log _ he, fun c base he => hinv.2.log _ he,
    fun c hu => (hinv.2.cpus c).gs_own hu⟩

/-- A process clears its base, makes a system call that returns, clears it again
and is interrupted. -/
theorem gs_is_own_block_in_handler :
    ∃ m : Machine 1, Run (fun m a m' => Machine.Step m a m' ∧ m.unclobbered a = true)
      (Machine.boot 1)
      (List.map Move.sched (bootCpu 0 ++ .run 0 (.setIrq true) :: spawnOn 0 ⟨1⟩ 4096 (some 7) ++
          yieldTo 0 ++ enterProcess 0) ++
        [.clearGs 0, .syscall 0, .sysret 0, .clearGs 0, .interrupt 0 .timer]) m ∧
      m.inUser 0 = false ∧ m.gsBase 0 = some 0 := by
  refine exists_run_of_exec_guarded (by decide +kernel)
    fun m hrun huser => ⟨huser, ?_⟩
  exact (gs_is_own_block hrun).2.2 0 huser

/-- A process clears its base and yields. The thread that runs next is
interrupted by the timer, whose handler copies the zero and uses it. -/
theorem zero_restored_after_yield :
    ∃ m : Machine 1, Run Machine.Step (Machine.boot 1)
      (List.map Move.sched (bootCpu 0 ++ .run 0 (.setIrq true) :: spawnOn 0 ⟨1⟩ 4096 (some 7) ++
          yieldTo 0 ++ enterProcess 0) ++
        [.clearGs 0, .syscall 0] ++
        List.map Move.sched ([.enter 0 .yield, .takeLocal 0, .takeLast 0] ++ switchOver 0 ++
          [.run 0 .frame, .setPreemption true]) ++
        [.interrupt 0 .timer, .tick 0]) m ∧
      Event.kernelGs 0 none ∈ m.log ∧ Event.gs 0 none ∈ m.log := by
  exact exists_run_of_exec (by decide +kernel) fun _ _ hlog => hlog

end Qunix.Hal
