/-
The nested-task flag in the kernel.

A process may set NT in ring 3. It keeps it through `SYSCALL`, and if it yields
there the CPU takes NT to the next thread, whose first `iretq` faults:
`enter_user_with_nt`. As long as every context switch is executed with NT clear,
NT stays where no `iretq` comes next (`NtConfined`): on a CPU that executes a
process, its system call or its exit with no interrupt frame below, or in the
outermost frame of an interrupt that came from there. Then every `iretq` finds it
clear: `iretq_nt_clear`.
-/

import Qunix.Hal.Flags
import Qunix.Sched.InFlight
import Qunix.Sched.Frames

namespace Qunix.Hal

open Function Qunix.Sched Qunix.Lib

variable {n : Nat}

/-! ### Where NT can be -/

/-- NT may be set while a CPU is on this thread's stack: the thread has been in
ring 3, and no interrupt frame lies on the stack. -/
structure Bare (s : St n) (me : ThreadId) : Prop where
  irets : irets (s.tail me) = 0
  process : (s.base me).ofProcess = true

/-- The flags in a preempted thread's interrupt frames: one for each frame, and
NT at most in the outermost, which was pushed in ring 3 or in a system call. -/
structure Stacked (s : St n) (x : ThreadId) (frames : List (BitVec 64)) : Prop where
  length : frames.length = irets (s.tail x)
  inner : ∀ v ∈ frames.dropLast, nt v = false
  outer : ∀ v ∈ frames.getLast?, nt v = true → (s.base x).ofProcess = true

/-- A CPU that has NT set is in a switch, or executes no handler and is on a bare
stack; a handler that interrupted it under NT did so on a bare stack. -/
structure Confined (m : Machine n) (rflags saved : BitVec 64) (c : Fin n) : Prop where
  live : nt rflags = true → (m.st.phase c).window = none →
    m.handling c = none ∧ ∃ me, m.st.current c = some me ∧ Bare m.st me
  handler : m.handling c ≠ none → m.st.phase c = .run
  saved : m.handling c ≠ none → nt saved = true → ∃ me, m.st.current c = some me ∧ Bare m.st me

structure NtConfined (f : FlagMachine n) : Prop where
  cpu : ∀ c, Confined f.hal (f.rflags c) (f.saved c) c
  stacked : ∀ x, Stacked f.hal.st x (f.frames x)
  fresh : ∀ x : ThreadId, f.hal.st.nextId ≤ x.val → f.frames x = []

section

variable {s t : St n} {a : Act n} {c d : Fin n} {me x : ThreadId} {l : List (BitVec 64)}

theorem Bare.step (h : Bare s me) (ht : s.step a = some t) (hme : me ≠ ⟨s.nextId⟩)
    (ha : ∀ c, a = .enter c .tick → s.running c ≠ some me) : Bare t me := by
  refine ⟨?_, St.step_ofProcess ht hme h.process⟩
  rcases St.step_irets ht me with heq | ⟨hnew, -⟩ | ⟨c, -, -, hta⟩ | ⟨c, rfl, hrun, -⟩
  · rw [heq, h.irets]
  · exact absurd hnew hme
  · have := h.irets
    simp [hta, Sched.irets] at this
  · exact absurd hrun (ha c rfl)

theorem Bare.same (h : Bare s me) (hcpu : St.SameCpu s t c) (hme : s.current c = some me) :
    Bare t me :=
  ⟨by rw [hcpu.tail me hme, h.irets], by rw [hcpu.base me hme, h.process]⟩

theorem running_of_runLocal {l : Local} (ht : s.runLocal c l = some t) :
    ∃ me, s.running c = some me := by
  obtain ⟨hp, hcur, -⟩ := St.runLocal_moves ht
  exact ⟨_, St.running_eq_some.mpr ⟨hp, hcur⟩⟩

theorem not_bare_of_enterUser (ht : s.runLocal c .enterUser = some t)
    (hcur : s.current c = some me) : ¬ Bare s me := by
  obtain @⟨_, x, _, k, -, hx, hk⟩ := St.runLocal_moves ht
  obtain rfl := Option.mem_unique hcur hx
  intro hba
  have hp : (s.ctl c me).base.ofProcess = true := hba.process
  obtain ⟨root, hb⟩ := hk.enterUser_base
  rw [hb] at hp
  cases hp

theorem tail_of_frame {l : List Tail} (ht : s.runLocal c .frame = some t)
    (hcur : s.current c = some me) (hta : s.tail me = .iret :: l) :
    s.tail me = .iret :: t.tail me := by
  obtain @⟨_, x, _, k, -, hx, hk⟩ := St.runLocal_moves ht
  obtain rfl := Option.mem_unique hcur hx
  obtain ⟨head, hh⟩ := hk.frame_tail
  have hl : Tail.iret :: l = head :: k.tail := hta.symm.trans hh
  rw [St.setCtl_tail_self, hta, hl, (List.cons.inj hl).1]

theorem tail_of_tick (ht : s.enter c .tick = some t) :
    ∃ me, s.running c = some me ∧ t.tail me = .iret :: s.tail me := by
  cases St.enter_moves ht with
  | @enter _ me _ k out irq hp hcur hk =>
    have hta : (s.setCtl c me k).tail me = .iret :: s.tail me :=
      (St.setCtl_tail_self k).trans hk.tick_tail
    exact ⟨me, St.running_eq_some.mpr ⟨hp, hcur⟩, hta⟩

theorem Stacked.nil (h : irets (s.tail x) = 0) : Stacked s x [] :=
  ⟨h.symm, by simp, by simp⟩

theorem Stacked.step (h : Stacked s x l) (ht : s.step a = some t) (hf : s.nextId ≤ x.val → l = [])
    (hfr : ∀ c, a = .run c .frame → s.running c = some x → ∀ l', s.tail x ≠ .iret :: l')
    (hti : ∀ c, a = .enter c .tick → s.running c ≠ some x) : Stacked t x l := by
  rcases St.step_irets ht x with heq | ⟨rfl, hz⟩ | ⟨c, rfl, hrun, hta⟩ | ⟨c, rfl, hrun, -⟩
  · by_cases hx : x = ⟨s.nextId⟩
    · obtain rfl := hf (by rw [hx])
      exact .nil (heq.trans h.length.symm)
    · exact ⟨by rw [heq, h.length], h.inner, fun v hv hnt =>
        St.step_ofProcess ht hx (h.outer v hv hnt)⟩
  · obtain rfl := hf (le_rfl)
    exact .nil hz
  · exact absurd hta (hfr c rfl hrun _)
  · exact absurd hrun (hti c rfl)

/-- A tick pushes the handler's frame. NT is set in it only if it is the first. -/
theorem Stacked.push {v : BitVec 64} (h : Stacked s x l) (ht : t.tail x = .iret :: s.tail x)
    (hb : (s.base x).ofProcess = true → (t.base x).ofProcess = true)
    (hv : nt v = true → Bare s x) : Stacked t x (v :: l) := by
  refine ⟨?_, ?_, ?_⟩
  · simp [ht, irets, h.length]
  · cases l with
    | nil => simp
    | cons w l =>
      have hpos : irets (s.tail x) ≠ 0 := by
        rw [← h.length]
        simp
      intro u hu
      rcases List.mem_cons.mp hu with rfl | hu
      · exact Bool.eq_false_iff.mpr fun hnt => hpos (hv hnt).irets
      · exact h.inner u hu
  · cases l with
    | nil =>
      intro u hu hnt
      obtain rfl : v = u := by simpa using hu
      exact hb (hv hnt).process
    | cons w l =>
      intro u hu hnt
      exact hb (h.outer u (by simpa using hu) hnt)

/-- The frame a return pops. If NT is set in it, the stack is bare afterwards. -/
theorem Stacked.pop {v : BitVec 64} (h : Stacked s x (v :: l)) (ht : s.tail x = .iret :: t.tail x)
    (hb : (s.base x).ofProcess = true → (t.base x).ofProcess = true) :
    Stacked t x l ∧ (nt v = true → Bare t x) := by
  have hlen : l.length = irets (t.tail x) := by
    have := h.length
    simp only [ht, irets, List.count_cons_self] at this
    exact Nat.succ.inj this
  cases l with
  | nil =>
    refine ⟨.nil hlen.symm, fun hnt => ⟨hlen.symm, hb (h.outer v rfl hnt)⟩⟩
  | cons w l =>
    have hv : nt v = false := h.inner v (List.mem_cons_self)
    refine ⟨⟨hlen, fun u hu => h.inner u (List.mem_cons_of_mem _ hu), fun u hu hnt =>
      hb (h.outer u (by simpa using hu) hnt)⟩, fun hnt => ?_⟩
    rw [hv] at hnt
    cases hnt

end

namespace Confined

variable {m m' : Machine n} {r r' v : BitVec 64} {a : Act n} {c : Fin n}

theorem elsewhere (h : Confined m r v c) (hcpu : St.SameCpu m.st m'.st c)
    (hha : m'.handling c = m.handling c) : Confined m' r v c := by
  refine ⟨fun hnt hwin => ?_, fun hh => ?_, fun hh hnt => ?_⟩
  · rw [hcpu.phase] at hwin
    obtain ⟨hi, me, hme, hb⟩ := h.live hnt hwin
    exact ⟨hha.trans hi, me, hcpu.current.trans hme, hb.same hcpu hme⟩
  · rw [hcpu.phase]
    exact h.handler (hha ▸ hh)
  · obtain ⟨me, hme, hb⟩ := h.saved (hha ▸ hh) hnt
    exact ⟨me, hcpu.current.trans hme, hb.same hcpu hme⟩

/-- The CPU's own steps outside handlers. It takes its flags to another stack
only by a switch. -/
theorem own (h : Confined m r v c) (hex : Exclusive m.st) (hfl : InFlight m.st)
    (ht : m.st.step a = some m'.st) (hi : m'.handling c = none)
    (hti : ∀ c, a ≠ .enter c .tick) (hsw : a = .switch c → nt r = false) :
    Confined m' r v c := by
  refine ⟨fun hnt hwin => ?_, fun hh => absurd hi hh, fun hh => absurd hi hh⟩
  refine ⟨hi, ?_⟩
  rcases St.step_window ht hwin with ⟨hwin, hcur⟩ | rfl | hs
  · obtain ⟨-, me, hme, hb⟩ := h.live hnt hwin
    exact ⟨me, hcur.trans hme, hb.step ht (hex.current_ne_nextId hme) fun c hc =>
      absurd hc (hti c)⟩
  · rw [hsw rfl] at hnt
    cases hnt
  · have hwin : (m.st.phase c).window = none := by
      cases hp : m.st.phase c with
      | off | adopting => rfl
      | _ =>
        rw [hp] at hs
        cases hs
    obtain ⟨-, me, hme, -⟩ := h.live hnt hwin
    rw [hfl.starting c hs] at hme
    cases hme

theorem setFlags (h : Confined m r v c) (hr : nt r' = true →
    m.handling c = none ∧ ∃ me, m.st.current c = some me ∧ Bare m.st me) : Confined m r' v c :=
  ⟨fun hnt _ => hr hnt, h.handler, h.saved⟩

end Confined

namespace NtConfined

variable {f f' : FlagMachine n} {hal : Machine n} {a : Act n} {c : Fin n} {me : ThreadId}
  {value : BitVec 64}

theorem boot : NtConfined (FlagMachine.boot n) where
  cpu := fun c => ⟨fun hnt => absurd hnt (by simp [FlagMachine.boot, nt]), fun hh => absurd rfl hh,
    fun hh => absurd rfl hh⟩
  stacked := fun x => .nil rfl
  fresh := fun x _ => rfl

section

variable (h : NtConfined f)

include h

/-- The CPUs, after a step of the scheduler machine that pushes no frame. -/
theorem cpu_step (hex : Exclusive f.hal.st) (hfl : InFlight f.hal.st)
    (ht : f.hal.st.step a = some hal.st) (hh : hal.handling = f.hal.handling)
    (hi : ∀ c, a.cpu = some c → f.hal.handling c = none) (hti : ∀ c, a ≠ .enter c .tick)
    (hs : ∀ c, a = .switch c → nt (f.rflags c) = false) (d : Fin n) :
    Confined hal (f.rflags d) (f.saved d) d := by
  by_cases hd : a.cpu = some d
  · exact (h.cpu d).own hex hfl ht (by rw [hh, hi d hd]) hti (hs d)
  · exact (h.cpu d).elsewhere (St.step_elsewhere hex ht hd) (congrFun hh d)

theorem fresh_step (ht : f.hal.st.step a = some hal.st) (x : ThreadId)
    (hx : hal.st.nextId ≤ x.val) : f.frames x = [] :=
  h.fresh x (Nat.le_trans (St.nextId_le_step ht) hx)

/-- A step of the scheduler machine that neither pushes nor pops a frame. -/
theorem keep (hex : Exclusive f.hal.st) (hfl : InFlight f.hal.st)
    (ht : f.hal.st.step a = some hal.st) (hh : hal.handling = f.hal.handling)
    (hi : ∀ c, a.cpu = some c → f.hal.handling c = none) (hti : ∀ c, a ≠ .enter c .tick)
    (hs : ∀ c, a = .switch c → nt (f.rflags c) = false)
    (hf : ∀ c x l, a = .run c .frame → f.hal.st.running c = some x →
      f.hal.st.tail x ≠ .iret :: l) : NtConfined { f with hal := hal } where
  cpu := h.cpu_step hex hfl ht hh hi hti hs
  stacked := fun x => (h.stacked x).step ht (h.fresh x) (fun c hc hrun l => hf c x l hc hrun)
    fun c hc => absurd hc (hti c)
  fresh := h.fresh_step ht

/-- A step that a running thread takes outside handlers and not on a frame. -/
theorem run (hex : Exclusive f.hal.st) (hfl : InFlight f.hal.st) {act : Local}
    (hal : Machine n) (ht : f.hal.st.runLocal c act = some hal.st)
    (hh : hal.handling = f.hal.handling) (hi : f.hal.handling c = none)
    (hact : act ≠ .frame) : NtConfined { f with hal := hal } := by
  have hs : f.hal.st.step (.run c act) = some hal.st := ht
  refine h.keep hex hfl hs hh (fun d hd => ?_) (by simp) (by simp) fun d x l hd => ?_
  · cases hd
    exact hi
  · cases hd
    exact absurd rfl hact

theorem setFlags (c : Fin n) (value : BitVec 64)
    (hv : nt value = true → f.hal.handling c = none ∧
      ∃ me, f.hal.st.current c = some me ∧ Bare f.hal.st me) : NtConfined (f.setFlags c value) where
  cpu := fun d => by
    rcases eq_or_ne d c with rfl | hd
    · simp only [FlagMachine.setFlags, update_self]
      exact (h.cpu d).setFlags hv
    · simp only [FlagMachine.setFlags, update_of_ne hd]
      exact h.cpu d
  stacked := h.stacked
  fresh := h.fresh

theorem setFlags_clear (hv : nt value = false) :
    NtConfined (f.setFlags c value) :=
  h.setFlags c value fun hnt => by
    rw [hv] at hnt
    cases hnt

/-- Outside handlers NT is clear on a stack that is not bare. -/
theorem nt_clear (hp : f.hal.st.phase c = .run)
    (hcur : f.hal.st.current c = some me) (hba : ¬ Bare f.hal.st me) :
    nt (f.rflags c) = false := by
  refine Bool.eq_false_iff.mpr fun hnt => ?_
  obtain ⟨-, x, hx, hb⟩ := (h.cpu c).live hnt (by rw [hp]; rfl)
  exact hba (Option.mem_unique hcur hx ▸ hb)

theorem nt_clear_of_handler (hh : f.hal.handling c ≠ none) :
    nt (f.rflags c) = false := by
  refine Bool.eq_false_iff.mpr fun hnt => ?_
  exact hh ((h.cpu c).live hnt (by rw [(h.cpu c).handler hh]; rfl)).1

end

/-! ### Moves -/

theorem sched_live {m m' : Machine n} (hm : m.sched a = some m') (hl : m'.stopped = false) :
    viaEntry a = false ∧ (∀ c, a.cpu = some c → m.handling c = none) ∧
      m.st.step a = some m'.st ∧ m'.handling = m.handling := by
  obtain ⟨hvia, hi, -, t, ht, ⟨-, rfl⟩ | ⟨c, -, hgs, rfl⟩ | ⟨c, d, -, -, rfl⟩⟩ :=
    Machine.sched_spec hm
  · exact ⟨hvia, hi, ht, rfl⟩
  · rw [Machine.stopped_touch_of_none hgs] at hl
    cases hl
  · exact ⟨hvia, hi, ht, rfl⟩

theorem iretq (h : NtConfined { f with hal := hal }) (hc : nt (f.rflags c) = false)
    (hv : nt value = true → hal.handling c = none ∧
      ∃ me, hal.st.current c = some me ∧ Bare hal.st me) : NtConfined (f.iretq c value hal) := by
  have hset := h.setFlags c value hv
  rw [FlagMachine.iretq, hc]
  exact { hset with }

/-- An entry whose handler returns at once, to the flags it came from. -/
theorem bounce (h : NtConfined { f with hal := hal }) :
    NtConfined ((f.setFlags c (delivered (f.rflags c))).iretq c (f.rflags c) hal) := by
  have hc : nt (delivered (f.rflags c)) = false := nt_delivered _
  simp only [FlagMachine.iretq, FlagMachine.setFlags, update_self, hc, update_idem, update_eq_self]
  exact { h with }

section

variable (h : NtConfined f)

include h

theorem interrupt (hex : Exclusive f.hal.st) {handler : Handler}
    (hm : f.hal.interrupt c handler = some hal) :
    NtConfined (f.follow hal (.interrupt c handler)) := by
  obtain ⟨t, hi, ht, rfl⟩ := Machine.interrupt_spec hm
  have hs : f.hal.st.step (.run c .interrupt) = some t := ht
  obtain @⟨_, me, _, k, hp, hcur, -⟩ := St.runLocal_moves ht
  refine ⟨fun d => ?_, fun x => ?_, ?_⟩
  · rcases eq_or_ne d c with rfl | hd
    · refine ⟨fun hnt => ?_, fun _ => ?_, fun _ hnt => ?_⟩
      · simp [FlagMachine.follow, FlagMachine.setFlags] at hnt
      · exact hp
      · simp only [FlagMachine.follow, update_self] at hnt
        obtain ⟨-, x, hx, hb⟩ := (h.cpu d).live hnt (by rw [hp]; rfl)
        exact ⟨x, hx, hb.step hs (hex.current_ne_nextId hx) (by simp)⟩
    · simp only [FlagMachine.follow, FlagMachine.setFlags, update_of_ne hd]
      refine (h.cpu d).elsewhere (St.step_elsewhere hex hs ?_) (update_of_ne hd _ _)
      simpa [Act.cpu] using fun hc => hd hc.symm
  · exact (h.stacked x).step hs (h.fresh x) (by simp) (by simp)
  · exact h.fresh_step hs

theorem handlerEnd (hm : f.hal.handlerEnd c = some hal) :
    NtConfined (f.follow hal (.handlerEnd c)) := by
  obtain ⟨⟨handler, hh⟩, rfl⟩ := Machine.handlerEnd_spec hm
  have hs : f.hal.handling c ≠ none := by simp [hh]
  refine iretq ⟨fun d => ?_, h.stacked, h.fresh⟩ (h.nt_clear_of_handler hs) fun hnt =>
    ⟨update_self .., (h.cpu c).saved hs hnt⟩
  rcases eq_or_ne d c with rfl | hd
  · refine ⟨fun hnt => ?_, fun hne => absurd (update_self ..) hne,
      fun hne => absurd (update_self ..) hne⟩
    rw [h.nt_clear_of_handler hs] at hnt
    cases hnt
  · exact (h.cpu d).elsewhere (.refl _ d) (update_of_ne hd _ _)

section

variable (hex : Exclusive f.hal.st)

include hex

/-- `schedule` leaves the handler's frame on the stack of the thread it preempts. -/
theorem tick (hm : f.hal.tick c = some hal)
    (hl : hal.stopped = false) : NtConfined (f.follow hal (.tick c)) := by
  obtain ⟨t, hh, ht, ⟨hgs, rfl⟩ | ⟨d, -, rfl⟩⟩ := Machine.tick_spec hm
  · rw [Machine.stopped_touch_of_none hgs] at hl
    cases hl
  · have hs : f.hal.st.step (.enter c .tick) = some t := ht
    have hso : f.hal.handling c ≠ none := by simp [hh]
    obtain ⟨me, hrun, hta⟩ := tail_of_tick ht
    obtain ⟨hp, hcur⟩ := St.running_eq_some.mp hrun
    simp only [FlagMachine.follow, hrun]
    refine ⟨fun d => ?_, fun x => ?_, fun x hx => ?_⟩
    · rcases eq_or_ne d c with rfl | hd
      · refine ⟨fun hnt => ?_, fun hne => absurd (update_self ..) hne,
          fun hne => absurd (update_self ..) hne⟩
        rw [h.nt_clear_of_handler hso] at hnt
        cases hnt
      · refine (h.cpu d).elsewhere (St.step_elsewhere hex hs ?_) (update_of_ne hd _ _)
        simpa [Act.cpu] using fun hc => hd hc.symm
    · rcases eq_or_ne x me with rfl | hx
      · simp only [update_self]
        refine (h.stacked x).push hta (St.step_ofProcess hs (hex.current_ne_nextId hcur))
          fun hnt => ?_
        obtain ⟨y, hy, hb⟩ := (h.cpu c).saved hso hnt
        exact Option.mem_unique hcur hy ▸ hb
      · simp only [update_of_ne hx]
        refine (h.stacked x).step hs (h.fresh x) (by simp) fun d hd hrun' => ?_
        cases hd
        exact hx (Option.mem_unique hrun' hrun)
    · have hne : x ≠ me := by
        rintro rfl
        have := hex.fresh x (.inl (hex.live_current hcur).1)
        exact absurd (Nat.le_trans (St.nextId_le_step hs) hx) (Nat.not_le.mpr this)
      simp only [update_of_ne hne]
      exact h.fresh_step hs x hx

section

variable (hfl : InFlight f.hal.st)

include hfl

/-- The return from a preemption, through the frame the tick had left. -/
theorem frame
    {l : List Tail} {frames : List (BitVec 64)} (ht : f.hal.st.runLocal c .frame = some hal.st)
    (hh : hal.handling = f.hal.handling) (hi : f.hal.handling c = none)
    (hrun : f.hal.st.running c = some me) (hta : f.hal.st.tail me = .iret :: l)
    (hf : f.frames me = value :: frames) :
    NtConfined { f.iretq c value hal with frames := update f.frames me frames } ∧
      nt (f.rflags c) = false := by
  have hs : f.hal.st.step (.run c .frame) = some hal.st := ht
  obtain ⟨hp, hcur⟩ := St.running_eq_some.mp hrun
  have hc : nt (f.rflags c) = false := by
    refine h.nt_clear hp hcur fun hb => ?_
    have := hb.irets
    simp [hta, irets] at this
  have hpop := tail_of_frame ht hcur hta
  have hme := hf ▸ h.stacked me
  obtain ⟨hst, hb⟩ := hme.pop hpop (St.step_ofProcess hs (hex.current_ne_nextId hcur))
  have hk : NtConfined { f with hal := hal, frames := update f.frames me frames } := by
    refine ⟨h.cpu_step hex hfl hs hh (fun d hd => ?_) (by simp) (by simp), fun x => ?_,
      fun x hx => ?_⟩
    · cases hd
      exact hi
    · rcases eq_or_ne x me with rfl | hx
      · simpa using hst
      · simp only [update_of_ne hx]
        refine (h.stacked x).step hs (h.fresh x) (fun d hd hrun' => ?_) (by simp)
        cases hd
        exact absurd (Option.mem_unique hrun' hrun) hx
    · have hold := h.fresh_step hs x hx
      have hne : x ≠ me := by
        rintro rfl
        rw [hf] at hold
        cases hold
      simpa [update_of_ne hne] using hold
  refine ⟨iretq (f := { f with frames := update f.frames me frames }) hk hc fun hnt => ?_,
    hc⟩
  exact ⟨by rw [hh, hi], me, by rw [St.current_runLocal ht, hcur], hb hnt⟩

theorem sched
    (hlog : ∀ v ∈ f.iretqs, nt v = false) (hm : f.hal.sched a = some hal)
    (hl : hal.stopped = false) (hg : f.switchesClear (.hal (.sched a)) = true) :
    NtConfined (f.follow hal (.sched a)) ∧
      ∀ v ∈ (f.follow hal (.sched a)).iretqs, nt v = false := by
  obtain ⟨hvia, hi, ht, hh⟩ := sched_live hm hl
  have hti : ∀ c, a ≠ .enter c .tick := by
    rintro c rfl
    cases hvia
  have hs : ∀ c, a = .switch c → nt (f.rflags c) = false := by
    rintro c rfl
    simpa [FlagMachine.switchesClear] using hg
  by_cases hf : ∃ c, a = .run c .frame
  · obtain ⟨c, rfl⟩ := hf
    obtain ⟨me, hrun⟩ := running_of_runLocal ht
    rcases FlagMachine.follow_frame hal hrun with
      ⟨l, value, frames, hta, hfr, heq⟩ | ⟨hno, heq⟩
    · obtain ⟨hco, hcl⟩ := h.frame hex hfl ht hh (hi c rfl) hrun hta hfr
      rw [heq]
      exact ⟨hco, List.forall_mem_cons.mpr ⟨hcl, hlog⟩⟩
    · rw [heq]
      refine ⟨h.keep hex hfl ht hh hi hti hs fun d x l hd hx hta => ?_, hlog⟩
      cases hd
      obtain rfl := Option.mem_unique hrun hx
      -- A frame on the stack has its flags in the list.
      have hlen := (h.stacked me).length
      rw [hno l hta, hta] at hlen
      simp [irets] at hlen
  · have hk := h.keep hex hfl ht hh hi hti hs fun c x l hc =>
      absurd ⟨c, hc⟩ hf
    by_cases hu : ∃ c, a = .run c .enterUser
    · obtain ⟨c, rfl⟩ := hu
      obtain ⟨me, hrun⟩ := running_of_runLocal ht
      obtain ⟨hp, hcur⟩ := St.running_eq_some.mp hrun
      have hcl := h.nt_clear hp hcur (not_bare_of_enterUser ht hcur)
      exact ⟨hk.iretq hcl (by simp), List.forall_mem_cons.mpr ⟨hcl, hlog⟩⟩
    · rw [FlagMachine.follow_sched_of_ne (fun c hc => hf ⟨c, hc⟩) fun c hc => hu ⟨c, hc⟩]
      exact ⟨hk, hlog⟩

/-- The flags that `SYSCALL` leaves have NT as the process had it. -/
theorem syscall
    (hm : f.hal.syscall c = some hal) (hl : hal.stopped = false) :
    NtConfined (f.follow hal (.syscall c)) := by
  obtain ⟨me, t, hi, hrun, ht, ⟨hk, rfl⟩ | ⟨d, -, rfl⟩⟩ := Machine.syscall_spec hm
  · rw [Machine.syscallEntry_of_none hk] at hl
    cases hl
  · have hke := h.run hex hfl { f.hal with st := t } ht rfl hi (by simp)
    have hset := hke.setFlags c (f.rflags c &&& ~~~fmask) fun hnt => by
      rw [nt_and_fmask] at hnt
      refine (hke.cpu c).live hnt ?_
      obtain ⟨hp, -, -⟩ := St.runLocal_moves ht
      exact congrArg Phase.window hp
    simp only [FlagMachine.follow, hrun]
    exact { hset with cpu := fun d => { hset.cpu d with } }

theorem sysret
    (hm : f.hal.sysret c = some hal) (hl : hal.stopped = false) :
    NtConfined (f.follow hal (.sysret c)) := by
  obtain ⟨me, t, hi, hrun, ht, ⟨hgs, rfl⟩ | ⟨d, -, rfl⟩⟩ := Machine.sysret_spec hm
  · rw [Machine.stopped_touch_of_none hgs] at hl
    cases hl
  · have hke := h.run hex hfl { f.hal with st := t } ht rfl hi (by simp)
    have hset := hke.setFlags c (fromR11 (f.r11 me)) fun _ => by
      obtain @⟨_, x, _, k, -, hcur, hk⟩ := St.runLocal_moves ht
      obtain ⟨root, -, -, rfl⟩ := hk.sysret_eq
      exact ⟨hi, x, hcur, by rw [St.setCtl_tail_self]; rfl, by rw [St.setCtl_base_self]; rfl⟩
    simp only [FlagMachine.follow, hrun]
    exact { hset with cpu := fun d => { hset.cpu d with } }

theorem fault
    (hm : f.hal.fault c = some hal) (hl : hal.stopped = false) :
    NtConfined (f.follow hal (.fault c)) := by
  obtain ⟨t, hi, ht, ⟨hk, rfl⟩ | ⟨d, -, rfl⟩⟩ := Machine.fault_spec hm
  · have hn : (f.hal.restoreGsBase c).gsBase c = none := by
      simp [Machine.restoreGsBase, hk]
    rw [Machine.stopped_touch_of_none hn] at hl
    cases hl
  · have hke := h.run hex hfl { f.hal with st := t } ht rfl hi (by simp)
    have hset := hke.setFlags_clear (c := c) (nt_delivered (f.rflags c))
    exact { hset with cpu := fun d => { hset.cpu d with } }

end

end

theorem popfq (hu : f.hal.inUser c = true) :
    NtConfined (f.setFlags c value) := by
  refine h.setFlags c value fun _ => ?_
  simp only [Machine.inUser, Bool.and_eq_true, Option.any_eq_true] at hu
  obtain ⟨hi, me, hrun, ht, hb⟩ := hu
  refine ⟨Option.isNone_iff_eq_none.mp hi, me, (St.running_eq_some.mp hrun).2, ?_, ?_⟩
  · rw [List.isEmpty_iff.mp ht]
    rfl
  · cases hba : f.hal.st.base me with
    | user root => rfl
    | _ =>
      rw [hba] at hb
      cases hb

end

end NtConfined

/-- No `iretq` so far faulted, and while the machine runs none will. -/
structure Returning (f : FlagMachine n) : Prop where
  confined : f.hal.stopped = false → NtConfined f
  log : ∀ v ∈ f.iretqs, nt v = false

theorem Returning.hal {f : FlagMachine n} {hal : Machine n} {a : Move n} (h : Returning f)
    (hex : Exclusive f.hal.st) (hfl : InFlight f.hal.st) (hm : f.hal.step a = some hal)
    (hl : hal.stopped = false) (hg : f.switchesClear (.hal a) = true) :
    NtConfined (f.follow hal a) ∧ ∀ v ∈ (f.follow hal a).iretqs, nt v = false := by
  obtain ⟨hold, hm⟩ := Machine.step_spec hm
  have hc := h.confined hold
  cases a with
  | sched a => exact hc.sched hex hfl h.log hm hl hg
  | clearGs c =>
    obtain ⟨-, rfl⟩ := Machine.clearGs_spec hm
    exact ⟨{ hc with cpu := fun d => { hc.cpu d with } }, h.log⟩
  | setRsp c value =>
    obtain ⟨me, -, -, rfl⟩ := Machine.setRsp_spec hm
    exact ⟨{ hc with cpu := fun d => { hc.cpu d with } }, h.log⟩
  | syscall c =>
    refine ⟨hc.syscall hex hfl hm hl, ?_⟩
    simp only [FlagMachine.follow]
    split <;> exact h.log
  | sysret c =>
    refine ⟨hc.sysret hex hfl hm hl, ?_⟩
    simp only [FlagMachine.follow]
    split <;> exact h.log
  | fault c => exact ⟨hc.fault hex hfl hm hl, h.log⟩
  | interrupt c handler => exact ⟨hc.interrupt hex hm, h.log⟩
  | handlerEnd c =>
    obtain ⟨⟨handler, hh⟩, -⟩ := Machine.handlerEnd_spec hm
    have hcl := hc.nt_clear_of_handler (c := c) (by simp [hh])
    exact ⟨hc.handlerEnd hm, List.forall_mem_cons.mpr ⟨hcl, h.log⟩⟩
  | tick c =>
    refine ⟨hc.tick hex hm hl, ?_⟩
    simp only [FlagMachine.follow]
    split <;> exact h.log
  | wakeIpi c =>
    obtain ⟨t, hi, ht, rfl⟩ := Machine.wakeIpi_spec hm
    have hk := hc.run hex hfl { f.hal with st := t } ht rfl hi (by simp)
    exact ⟨hk.bounce, List.forall_mem_cons.mpr ⟨by simp [FlagMachine.setFlags], h.log⟩⟩

theorem Returning.step {f f' : FlagMachine n} {a : FlagMove n} (h : Returning f)
    (hex : Exclusive f.hal.st) (hfl : InFlight f.hal.st) (hf : f.step a = some f')
    (hg : f.switchesClear a = true) : Returning f' := by
  cases a with
  | hal a =>
    obtain ⟨hal, hm, heq⟩ := Option.map_eq_some_iff.mp hf
    split_ifs at heq with hs
    · subst heq
      refine ⟨fun hl => ?_, h.log⟩
      rw [hs] at hl
      cases hl
    · subst heq
      obtain ⟨hc, hlog⟩ := h.hal hex hfl hm (Bool.eq_false_iff.mpr hs) hg
      exact ⟨fun _ => hc, hlog⟩
  | popfq c value =>
    simp only [FlagMachine.step] at hf
    split_ifs at hf with hu
    cases hf
    exact ⟨fun hl => (h.confined hl).popfq hu.2, h.log⟩
  | breakpoint c =>
    simp only [FlagMachine.step] at hf
    split_ifs at hf with hrun
    cases hf
    exact ⟨fun _ => (h.confined hrun.1).bounce,
      List.forall_mem_cons.mpr ⟨by simp [FlagMachine.setFlags], h.log⟩⟩

/-- If every context switch is executed with NT clear, every `iretq` of the
kernel is, whatever flags the processes load. -/
theorem iretq_nt_clear {as : List (FlagMove n)} {f : FlagMachine n}
    (hrun : Run (fun f a f' => FlagMachine.Step f a f' ∧ f.switchesClear a = true)
      (FlagMachine.boot n) as f) : ∀ v ∈ f.iretqs, nt v = false := by
  have hinv : (Exclusive f.hal.st ∧ InFlight f.hal.st) ∧ Returning f := by
    refine hrun.invariant
      (p := fun f : FlagMachine n => (Exclusive f.hal.st ∧ InFlight f.hal.st) ∧ Returning f)
      (fun f a f' h hstep => ?_)
      ⟨⟨Exclusive.boot, InFlight.boot⟩, fun _ => NtConfined.boot, fun v hv => by cases hv⟩
    obtain ⟨⟨hex, hfl⟩, hret⟩ := h
    refine ⟨?_, hret.step hex hfl hstep.1 hstep.2⟩
    exact FlagMachine.invariant_step (p := fun s => Exclusive s ∧ InFlight s) ⟨hex, hfl⟩
      (fun s a t h ht => ⟨h.1.step ht, h.2.step h.1 ht⟩) hstep.1
  exact hinv.2.log

/-- A process sets NT, makes a system call that returns without a switch, and is
interrupted by the timer. -/
theorem iretq_nt_clear_interrupted :
    ∃ f : FlagMachine 1, Run (fun f a f' => FlagMachine.Step f a f' ∧ f.switchesClear a = true)
      (FlagMachine.boot 1)
      (List.map (FlagMove.hal ∘ Move.sched)
        (bootCpu 0 ++ spawnOn 0 ⟨1⟩ 4096 (some 7) ++ yieldTo 0 ++
          enterProcess 0) ++
        [.popfq 0 0x4202#64, .hal (.syscall 0), .hal (.sysret 0), .hal (.interrupt 0 .timer),
          .hal (.handlerEnd 0)]) f ∧
      nt (f.rflags 0) = true ∧ f.iretqs.length = 2 ∧ ∀ v ∈ f.iretqs, nt v = false := by
  exact exists_run_of_exec_guarded (f := FlagMachine.step) (by decide +kernel)
    fun f hrun hend => and_assoc.mp ⟨hend, iretq_nt_clear hrun⟩

/-- A process sets NT and yields in a system call, and the CPU starts another
process: the `iretq` of `enter_user` faults. -/
theorem enter_user_with_nt :
    ∃ f : FlagMachine 1, Run FlagMachine.Step (FlagMachine.boot 1)
      (List.map (FlagMove.hal ∘ Move.sched) (bootCpu 0 ++ spawnOn 0 ⟨1⟩ 4096 (some 7) ++
          spawnOn 0 ⟨2⟩ 8192 (some 8) ++ yieldTo 0 ++ enterProcess 0) ++
        [.popfq 0 0x4202#64, .hal (.syscall 0)] ++
        List.map (FlagMove.hal ∘ Move.sched) (yieldTo 0 ++ enterProcess 0)) f ∧
      (∃ v ∈ f.iretqs, nt v = true) ∧ f.hal.stopped = true := by
  refine exists_run_of_exec
    (p := fun f => f.iretqs.any nt = true ∧ f.hal.stopped = true)
    (by decide +kernel) fun f _ hend => ⟨List.any_eq_true.mp hend.1, hend.2⟩

end Qunix.Hal
