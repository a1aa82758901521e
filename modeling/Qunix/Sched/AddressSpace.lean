/-
A process runs on its own page tables.

`user_thread_entry` loads the root of the process and then records the address
space in the thread's entry, with interrupts enabled. Every dispatch loads the
root that the entry names. A tick between the two steps that switches the thread
away makes its next dispatch load the kernel's root, and the thread goes on to
ring 3 with it: `entered_without_tables`. If no thread is switched away from
between the two, a thread in user mode has its own root loaded:
`user_runs_on_own_tables`.
-/

import Qunix.Sched.InFlight

namespace Qunix.Sched

open Function Qunix.Lib

variable {n : Nat}

namespace Base

/-- The root of a process whose page tables have been loaded. -/
def root : Base → Option Nat
  | .userEntry root .adopt => some root
  | .userEntry root .enter => some root
  | .user root => some root
  | .sys root => some root
  | _ => none

/-- The root of a process whose address space is in the table. -/
def recorded : Base → Option Nat
  | .userEntry root .enter => some root
  | .user root => some root
  | .sys root => some root
  | _ => none

/-- Loaded, but not recorded yet. -/
def adopting : Base → Bool
  | .userEntry _ .adopt => true
  | _ => false

theorem root_wake (b : Base) : b.wake.root = b.root := by
  unfold wake
  split <;> rfl

theorem recorded_wake (b : Base) : b.wake.recorded = b.recorded := by
  unfold wake
  split <;> rfl

variable {b : Base} {r : Nat}

theorem recorded_or_adopting (h : b.root = some r) :
    b.recorded = some r ∨ b.adopting = true := by
  unfold root at h
  split at h
  · exact .inr rfl
  · exact .inl h
  · exact .inl h
  · exact .inl h
  · cases h

theorem root_of_recorded (h : b.recorded = some r) : b.root = some r := by
  unfold recorded at h
  split at h
  · exact h
  · exact h
  · exact h
  · cases h

theorem root_of_adopting (h : b.adopting = true) : ∃ r, b.root = some r := by
  unfold adopting at h
  split at h
  · exact ⟨_, rfl⟩
  · cases h

end Base

variable {k k' : Ctl} {a : Local} {r : Nat}

/-- Whatever was recorded stays so; a process's way through `sys` and back
changes nothing. -/
theorem Ctl.Runs.recorded (h : k.Runs a k') (hr : k'.base.recorded = some r) :
    k.base.recorded = some r := by
  cases h with
  | interrupt =>
    rw [Base.recorded_wake] at hr
    exact hr
  | start | restore | drop | iret | enterUser | syscall | sysret => exact hr
  | _ => cases hr

/-- The loaded root follows the thread through its own steps. -/
theorem Ctl.Runs.loaded (h : k.Runs a k') (hk : ∀ r, k.base.root = some r → k.cr3 = some r)
    (hr : k'.base.root = some r) :
    k'.cr3 = some r := by
  cases h with
  | interrupt =>
    rw [Base.root_wake] at hr
    exact hk r hr
  | activate => exact hr
  | start | restore | drop | iret | enterUser | syscall | sysret => exact hk r hr
  | _ => cases hr

theorem Ctl.Enters.process {e : Enter} {out : ThreadState} {irq : Bool}
    (h : k.Enters e k' out irq) :
    k'.cr3 = k.cr3 ∧ k'.base.root = k.base.root ∧ k'.base.recorded = k.base.recorded := by
  cases h with
  | tick => exact ⟨rfl, Base.root_wake _, Base.recorded_wake _⟩
  | _ => exact ⟨rfl, rfl, rfl⟩

/-- No thread is switched away from between loading and recording its address
space. -/
def St.settled (s : St n) : Act n → Bool
  | .decide c => (s.current c).all fun me => !(s.base me).adopting
  | _ => true

structure Mapped (s : St n) : Prop where
  space : ∀ x r, (s.base x).recorded = some r →
    (s.table x).map Thread.addressSpace = some (some r)
  adopting : ∀ x, (s.base x).adopting = true →
    ∃ c, s.current c = some x ∧ (s.phase c).window = none
  loaded : ∀ c x r, (s.phase c).window = none → s.current c = some x →
    (s.base x).root = some r → s.cr3 c = some r

namespace Mapped

open St

variable {s t : St n} {c d : Fin n} {x me id : ThreadId}

theorem boot : Mapped (St.boot n) := by
  constructor
  · intro x r hr
    cases hr
  · intro x hx
    cases hx
  · intro c x r _ hcur
    cases hcur

theorem calm (h : Mapped s) (hq : Calm s t) : Mapped t := by
  refine ⟨fun x r hr => ?_, fun x hx => ?_, fun c x r hwin hcur hr => ?_⟩
  · rw [hq.base] at hr
    rw [hq.space]
    exact h.space x r hr
  · rw [hq.base] at hx
    obtain ⟨c, hcur, hwin⟩ := h.adopting x hx
    exact ⟨c, by rw [hq.current, hcur], (hq.window c).trans hwin⟩
  · rw [hq.current] at hcur
    rw [hq.base] at hr
    rw [hq.cr3]
    exact h.loaded c x r ((hq.window c).symm.trans hwin) hcur hr

theorem own (hex : Exclusive s) (h : Mapped s) (o : OwnStep s c me t)
    (hrec : ∀ r, (t.base me).recorded = some r →
      (t.table me).map Thread.addressSpace = some (some r))
    (hl : ∀ r, (t.base me).root = some r → t.cr3 c = some r) : Mapped t := by
  refine ⟨fun x r hr => ?_, fun x hx => ?_, fun d x r hwin hc hr => ?_⟩
  all_goals by_cases hxm : x = me
  · subst hxm
    exact hrec r hr
  · rw [o.base x hxm] at hr
    rw [o.space x hxm]
    exact h.space x r hr
  · subst hxm
    exact ⟨c, by rw [o.current, o.running], (o.window c).trans (by rw [o.phase]; rfl)⟩
  · rw [o.base x hxm] at hx
    obtain ⟨d, hc, hwin⟩ := h.adopting x hx
    exact ⟨d, by rw [o.current, hc], (o.window d).trans hwin⟩
  · subst hxm
    rw [o.current] at hc
    obtain rfl := hex.current_inj o.running hc
    exact hl r hr
  · rw [o.current] at hc
    have hdc : d ≠ c := by
      rintro rfl
      exact hxm (Option.mem_unique hc o.running)
    rw [o.base x hxm] at hr
    rw [o.cr3 d hdc]
    exact h.loaded d x r ((o.window d).symm.trans hwin) hc hr

/-- A step of a thread that is not on the way to a root of its own. -/
theorem ownBase (hex : Exclusive s) (h : Mapped s) (o : OwnStep s c me t)
    (hro : (t.base me).root = none) : Mapped t := by
  refine h.own hex o (fun r hr => ?_) fun r hr => ?_
  · rw [Base.root_of_recorded hr] at hro
    cases hro
  · rw [hro] at hr
    cases hr

/-- One CPU goes to another phase. It has no thread that is about to record its
address space, and what it runs next finds its root. -/
theorem moved (h : Mapped s) {p : Phase n} (m : PhaseStep s c p t)
    (hh : ∀ x, s.current c = some x → (s.phase c).window = none → (s.base x).adopting = false)
    (hl : ∀ x r, p.window = none → t.current c = some x → (s.base x).root = some r →
      t.cr3 c = some r) : Mapped t := by
  constructor <;> rw [m.base]
  · exact fun x r hr => (m.space x).trans (h.space x r hr)
  · intro x hx
    obtain ⟨d, hc, hwin⟩ := h.adopting x hx
    have hdc : d ≠ c := by
      rintro rfl
      rw [hh x hc hwin] at hx
      cases hx
    exact ⟨d, (m.current d hdc).trans hc, by rw [m.phase, update_of_ne hdc, hwin]⟩
  · rw [m.phase]
    exact (forall_update_iff s.phase fun d q => ∀ x r, q.window = none → t.current d = some x →
      (s.base x).root = some r → t.cr3 d = some r).mpr
      ⟨hl, fun d hd x r hwin hc hr =>
        (m.cr3 d hd).trans (h.loaded d x r hwin ((m.current d hd).symm.trans hc) hr)⟩

theorem insert (h : Mapped s) {place : ThreadId → Nat} {e : Option (Thread n)} {b : Base}
    (hb : b.root = none) (ht : t.table = relocate place (update s.table ⟨s.nextId⟩ e))
    (hba : t.base = update s.base ⟨s.nextId⟩ b) (hcur : t.current = s.current)
    (hcr3 : t.cr3 = s.cr3) (hwin : ∀ c, (t.phase c).window = (s.phase c).window) : Mapped t := by
  have hold : ∀ x r, (t.base x).root = some r → x ≠ ⟨s.nextId⟩ := by
    rintro x r hr rfl
    rw [hba, update_self, hb] at hr
    cases hr
  refine ⟨fun x r hr => ?_, fun x hx => ?_, fun d x r hw hc hr => ?_⟩
  · have hne := hold x r (Base.root_of_recorded hr)
    rw [hba, update_of_ne hne] at hr
    rw [ht, map_relocate Thread.addressSpace fun _ _ => rfl, update_of_ne hne]
    exact h.space x r hr
  · obtain ⟨r, hr⟩ := Base.root_of_adopting hx
    rw [hba, update_of_ne (hold x r hr)] at hx
    obtain ⟨d, hc, hw⟩ := h.adopting x hx
    exact ⟨d, by rw [hcur, hc], (hwin d).trans hw⟩
  · have hne := hold x r hr
    rw [hba, update_of_ne hne] at hr
    rw [hcur] at hc
    rw [hcr3]
    exact h.loaded d x r ((hwin d).symm.trans hw) hc hr

theorem step {a : Act n} (hex : Exclusive s) (hfl : InFlight s) (h : Mapped s)
    (ht : s.step a = some t) (hset : s.settled a = true) : Mapped t := by
  cases step_moves ht with
  | @run c me _ k hp hcur hk =>
    refine h.own hex (.run hp hcur k) (fun r hr => ?_) fun r hr => ?_
    · rw [setCtl_base_self] at hr
      exact h.space me r (hk.recorded hr)
    · rw [setCtl_base_self] at hr
      rw [setCtl_cr3_self]
      exact hk.loaded (fun r => h.loaded c me r (by rw [hp]; rfl) hcur) hr
  | @enter c me _ k out irq hp hcur hk =>
    obtain ⟨hcr3, hro, hrec⟩ := hk.process
    refine h.own hex (.enter hp hcur ..) (fun r hr => ?_) fun r hr => ?_
    · change ((s.setCtl c me k).base me).recorded = some r at hr
      rw [setCtl_base_self, hrec] at hr
      exact h.space me r hr
    · change ((s.setCtl c me k).base me).root = some r at hr
      change (s.setCtl c me k).cr3 c = some r
      rw [setCtl_base_self, hro] at hr
      rw [setCtl_cr3_self, hcr3]
      exact h.loaded c me r (by rw [hp]; rfl) hcur hr
  | parkCancelled hp hcur | parked hp hcur =>
    exact h.ownBase hex (.modify hp hcur ..) (by rw [setBase_base_self]; rfl)
  | parkCheck hp hcur | exitCheck hp hcur =>
    exact h.ownBase hex (.setBase hp hcur _) (by rw [setBase_base_self]; rfl)
  | @adopt c me root e hp hcur _ hba hta =>
    -- The root that `user_thread_entry` loaded is now in the table.
    refine h.own hex (.modify hp hcur ..) (fun r hr => ?_) fun r hr => ?_
    · simp only [setBase, update_self, Base.recorded] at hr
      simp [setBase, modify_table, hta, hr]
    · simp only [setBase, update_self] at hr
      exact h.loaded c me r (by rw [hp]; rfl) hcur (by rw [hba]; exact hr)
  | reapNone => exact { h with }
  | reap =>
    -- Only threads that left their process for good are removed.
    refine { h with space := fun x r hr => ?_ }
    have hke : x ∉ s.gone := by
      intro hg
      obtain ⟨stage, hb⟩ := hex.dead x (List.mem_filter.mp hg).1
      rw [hb] at hr
      cases hr
    rw [map_relocate Thread.addressSpace fun _ _ => rfl, if_neg hke]
    exact h.space x r hr
  | decide _ hcur =>
    refine h.moved ⟨rfl, fun d hd => update_of_ne hd _ _, fun _ _ => rfl, rfl,
      fun _ => map_decided _ fun _ _ => rfl⟩ (fun x hx _ => ?_) (by simp [Phase.window])
    simpa [settled, hx] using hset
  | activateRoot hp =>
    refine h.moved ⟨rfl, fun _ _ => rfl, fun d hd => update_of_ne hd _ _, rfl, fun _ => rfl⟩
      (fun _ _ hwin => ?_) (by simp [Phase.window])
    rw [hp] at hwin
    cases hwin
  | @switch c w hp =>
    have hw : (s.phase c).window = some w := by rw [hp]; rfl
    refine h.moved ⟨rfl, fun _ _ => rfl, fun _ _ => rfl, rfl,
      fun _ => map_storeContext _ fun _ _ => rfl⟩ (fun _ _ hwin => ?_) fun x r _ hc hr => ?_
    · rw [hw] at hwin
      cases hwin
    · rcases Base.recorded_or_adopting hr with hrec | had
      · -- The incoming thread finds the root that its entry names.
        obtain rfl : w.incoming = x := Option.some.inj ((hfl.incoming c w hw).symm.trans hc)
        have hro := Option.some.inj ((hfl.root c w hw).symm.trans (h.space _ r hrec))
        exact (hfl.rooted c w hp).trans hro
      · -- A thread that is about to record its space has not been switched away.
        obtain ⟨d, hcur, hwin⟩ := h.adopting x had
        obtain rfl := hex.current_inj hc hcur
        rw [hw] at hwin
        cases hwin
  | @spawn _ _ _ _ process _ _ _ _ _ _ _ _ hta =>
    have hb : (startBase process).root = none := by
      cases process <;> rfl
    exact h.insert hb hta rfl rfl rfl fun _ => rfl
  | initLock hp _ hta =>
    exact h.insert rfl hta rfl rfl rfl (window_update (by rw [hp]; rfl))
  | @initSet c id hp =>
    refine h.moved ⟨rfl, fun d hd => update_of_ne hd _ _, fun _ _ => rfl, rfl, fun _ => rfl⟩
      (fun x hx _ => ?_) fun x r _ hc hr => ?_
    · exact absurd (hx.symm.trans (hfl.starting c (by rw [hp]; rfl))) (Option.some_ne_none x)
    · -- The thread a CPU starts with is kernel code.
      obtain rfl : id = x := by simpa [St.setPhase] using hc
      rw [hfl.adopting c id hp] at hr
      cases hr
  | _ => exact h.calm (step_calm rfl ht)

end Mapped

/-- If no thread is switched away from between loading and recording its address
space, a thread that is about to enter or is in user mode runs on the root of
its own address space. -/
theorem user_runs_on_own_tables {as : List (Act n)} {s : St n}
    (hrun : Run (fun s a t => St.Step s a t ∧ s.settled a = true) (St.boot n) as s) {c : Fin n}
    {x : ThreadId} {root : Nat} (hphase : s.phase c = .run) (hcur : s.current c = some x)
    (hbase : s.base x = .userEntry root .enter ∨ s.base x = .user root) : s.cr3 c = some root := by
  have hinv := InFlight.of_run Mapped.boot (fun hex hfl h ht => h.step hex hfl ht) hrun
  refine hinv.2.2.loaded c x root (by rw [hphase]; rfl) hcur ?_
  rcases hbase with hb | hb <;> rw [hb] <;> rfl

/-- A process that is preempted in user mode and dispatched again. -/
theorem user_runs_on_own_tables_again :
    ∃ s : St 1, Run (fun s a t => St.Step s a t ∧ s.settled a = true) (St.boot 1)
      (bootCpu 0 ++ spawnOn 0 ⟨1⟩ 4096 (some 7) ++ yieldTo 0 ++ enterProcess 0 ++
        [.setPreemption true, .enter 0 .tick, .takeLocal 0, .takeLast 0] ++ switchOver 0 ++
        leaveSchedule 0 ++ yieldTo 0) s ∧
      s.base ⟨1⟩ = .user 7 ∧ s.cr3 0 = some 7 := by
  refine exists_run_of_exec_guarded
    (p := fun s => s.phase 0 = .run ∧ s.current 0 = some ⟨1⟩ ∧ s.base ⟨1⟩ = .user 7)
    (by decide +kernel) fun s hrun hfacts => ?_
  obtain ⟨hphase, hcur, hbase⟩ := hfacts
  exact ⟨hbase, user_runs_on_own_tables hrun hphase hcur (.inr hbase)⟩

/-- A tick between `activate` and `adopt_address_space`: the thread is dispatched
again with the kernel's root, and enters user mode on it. -/
theorem entered_without_tables :
    ∃ s : St 1, Run St.Step (St.boot 1)
      (bootCpu 0 ++ spawnOn 0 ⟨1⟩ 4096 (some 7) ++ yieldTo 0 ++
        [.run 0 .frame, .run 0 .activate, .setPreemption true, .enter 0 .tick, .takeLocal 0,
          .takeLast 0] ++ switchOver 0 ++ leaveSchedule 0 ++ yieldTo 0 ++ leaveSchedule 0 ++
        [.run 0 .frame, .adopt 0, .run 0 .enterUser]) s ∧
      s.phase 0 = .run ∧ s.current 0 = some ⟨1⟩ ∧ s.base ⟨1⟩ = .user 7 ∧ s.cr3 0 = none := by
  exact exists_run_of_exec (by decide +kernel) fun _ _ hfacts => hfacts

end Qunix.Sched
