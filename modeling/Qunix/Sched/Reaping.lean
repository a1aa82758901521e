/-
When a thread may be freed.

Until a switch is complete the CPU executes on the outgoing thread's stack, and
until it has loaded another root it runs on that thread's page tables. `reap`
spares a thread that is current somewhere, but an exiting thread stops being
current when the decision is made. A `reap` on another CPU can therefore free
it too early: `reaped_while_standing`. If no CPU is switching away from a
reapable thread when `reap` runs, what a CPU stands on stays in the table:
`reap_spares_occupied`.
-/

import Qunix.Sched.InFlight

namespace Qunix.Sched

open Function Qunix.Lib

variable {n : Nat}

namespace St

/-- The thread whose stack a CPU executes on. -/
def standing (s : St n) (c : Fin n) : Option ThreadId :=
  match (s.phase c).window with
  | some w => some w.outgoing
  | none => s.current c

/-- The thread whose page tables a CPU has loaded, if they are not the
kernel's. -/
def tablesOf (s : St n) (c : Fin n) : Option ThreadId :=
  match s.phase c with
  | .rooted w => some w.incoming
  | _ => s.standing c

/-- The thread is in the table and `root` is that of its address space, recorded
in its entry or still held by `user_thread_entry`. -/
def Owns (s : St n) (x : ThreadId) (root : Nat) : Prop :=
  (s.table x).map Thread.addressSpace = some (some root) ∨
    ((s.table x).isSome ∧ s.base x = .userEntry root .adopt)

/-- `reap` runs while no CPU is switching away from a reapable thread. -/
def unoccupied (s : St n) : Act n → Bool
  | .reap _ _ => (List.finRange n).all fun c =>
    match (s.phase c).window with
    | some w => !s.reapable.contains w.outgoing
    | none => true
  | _ => true

variable {s t : St n} {c d : Fin n} {x me : ThreadId} {root : Nat}

theorem standing_of_window {w : Window} (h : (s.phase c).window = some w) :
    s.standing c = some w.outgoing := by
  simp [standing, h]

theorem standing_of_none (h : (s.phase c).window = none) : s.standing c = s.current c := by
  simp [standing, h]

theorem tablesOf_rooted {w : Window} (h : s.phase c = .rooted w) :
    s.tablesOf c = some w.incoming := by
  simp [tablesOf, h]

theorem tablesOf_of_ne (h : ∀ w, s.phase c ≠ .rooted w) : s.tablesOf c = s.standing c := by
  unfold tablesOf
  split
  · rename_i w hw
    exact absurd hw (h w)
  · rfl

/-- Whose tables are loaded: an incoming, an outgoing or a current thread. -/
theorem tablesOf_cases (hfl : InFlight s) (h : s.tablesOf c = some x) :
    s.current c = some x ∨ ∃ w, (s.phase c).window = some w ∧ w.outgoing = x := by
  unfold tablesOf at h
  split at h
  · rename_i w hw
    exact .inl ((hfl.incoming c w (by rw [hw]; rfl)).trans h)
  · cases hwin : (s.phase c).window with
    | none =>
      rw [standing_of_none hwin] at h
      exact .inl h
    | some w =>
      rw [standing_of_window hwin] at h
      exact .inr ⟨w, rfl, Option.some.inj h⟩

theorem tablesOf_congr (hwin : ∀ c, (t.phase c).window = (s.phase c).window)
    (hro : ∀ c w, t.phase c = .rooted w ↔ s.phase c = .rooted w) (hcur : t.current = s.current)
    (c : Fin n) : t.tablesOf c = s.tablesOf c := by
  have hs : t.standing c = s.standing c := by
    simp [standing, hwin, hcur]
  by_cases hr : ∃ w, s.phase c = .rooted w
  · obtain ⟨w, hw⟩ := hr
    rw [tablesOf_rooted hw, tablesOf_rooted ((hro c w).mpr hw)]
  · rw [tablesOf_of_ne fun w hw => hr ⟨w, hw⟩,
      tablesOf_of_ne fun w hw => hr ⟨w, (hro c w).mp hw⟩, hs]

/-- A running thread's tables are loaded on its own CPU only. -/
theorem tablesOf_ne (hex : Exclusive s) (hfl : InFlight s) (hcur : s.current c = some me)
    (hd : d ≠ c) : s.tablesOf d ≠ some me := by
  intro h
  rcases tablesOf_cases hfl h with hcur' | ⟨w, hw, hout⟩
  · exact hd (hex.current_inj hcur' hcur)
  · exact (hex.outgoing_nowhere hw c).1 (hout ▸ hcur)

theorem Owns.isSome (h : s.Owns x root) : (s.table x).isSome := by
  rcases h with h | h
  · exact Option.isSome_map ▸ Option.isSome_of_eq_some h
  · exact h.1

/-- The tables a CPU uses belong to a thread that this `reap` spares. -/
theorem not_gone (hex : Exclusive s) {place : ThreadId → Nat}
    (hc : s.unoccupied (.reap c place) = true)
    (hx : s.current d = some x ∨ ∃ w, (s.phase d).window = some w ∧ w.outgoing = x) :
    x ∉ s.gone := by
  intro hg
  have hr : x ∈ s.reapable := (List.mem_filter.mp hg).1
  rcases hx with hcur | ⟨w, hw, rfl⟩
  · exact (hex.live_current hcur).2 hr
  · have hd := List.all_eq_true.mp hc d (List.mem_finRange d)
    rw [hw] at hd
    simp [hr] at hd

end St

open St in
structure Grounded (s : St n) : Prop where
  outgoing : ∀ c w, (s.phase c).window = some w → (s.table w.outgoing).isSome
  loaded : ∀ c root, s.cr3 c = some root → ∃ x, s.tablesOf c = some x ∧ s.Owns x root

/-- A root that is loaded was just activated and is not recorded yet, or it is
the one that was loaded before. -/
theorem Ctl.Runs.owned {k k' : Ctl} {a : Local} {root : Nat} (h : k.Runs a k')
    (hr : k'.cr3 = some root) :
    k'.base = .userEntry root .adopt ∨
      (k.cr3 = some root ∧ k.base ≠ .userEntry root .adopt) := by
  by_cases hb : k.base = .userEntry root .adopt
  · refine .inl ?_
    cases h with
    | start | restore | drop | iret => exact hb
    | interrupt =>
      simp only at hb
      rw [hb]
      rfl
    | _ => cases hb
  · cases h with
    | activate =>
      cases hr
      exact .inl rfl
    | sysExit | fault => cases hr
    | _ => exact .inr ⟨hr, hb⟩

theorem Ctl.Enters.owned {k k' : Ctl} {e : Enter} {out : ThreadState} {irq : Bool}
    (h : k.Enters e k' out irq) (root : Nat) : k'.cr3 = k.cr3 ∧
      (k.base = .userEntry root .adopt → k'.base = .userEntry root .adopt) := by
  cases h with
  | tick => exact ⟨rfl, fun hb => by simp only at hb; rw [hb]; rfl⟩
  | yield | sysYield => exact ⟨rfl, fun hb => hb⟩
  | park | exit => exact ⟨rfl, fun hb => Base.noConfusion hb⟩

namespace Grounded

open St

variable {s t : St n} {c d : Fin n} {x me id : ThreadId}

theorem boot : Grounded (St.boot n) := by
  constructor
  · intro c w hw
    cases hw
  · intro c root hr
    cases hr

theorem keep (hfl : InFlight s) (h : Grounded s) (hph : SamePhases s t)
    (hcur : t.current = s.current) (hcr3 : t.cr3 = s.cr3)
    (hs : ∀ c w, (s.phase c).window = some w → (s.table w.outgoing).isSome →
      (t.table w.outgoing).isSome)
    (ho : ∀ c x root,
      (s.current c = some x ∨ ∃ w, (s.phase c).window = some w ∧ w.outgoing = x) →
      s.Owns x root → t.Owns x root) : Grounded t := by
  refine ⟨fun c w hw => ?_, fun c root hr => ?_⟩
  · have hw' := (hph.window c).symm.trans hw
    exact hs c w hw' (h.outgoing c w hw')
  · rw [hcr3] at hr
    obtain ⟨x, hx, hown⟩ := h.loaded c root hr
    exact ⟨x, (tablesOf_congr hph.window hph.rooted hcur c).trans hx,
      ho c x root (tablesOf_cases hfl hx) hown⟩

theorem calm (hfl : InFlight s) (h : Grounded s) (hq : Calm s t) : Grounded t := by
  refine h.keep hfl hq.toSamePhases hq.current hq.cr3 (fun c w _ hw => ?_) fun c x root _ hown => ?_
  · rw [hq.isSome]
    exact hw
  · rw [Owns, hq.space, hq.isSome, hq.base]
    exact hown

theorem own (hex : Exclusive s) (hfl : InFlight s) (h : Grounded s) (o : OwnStep s c me t)
    (hme : ∀ root, t.cr3 c = some root → (s.cr3 c = some root → s.Owns me root) →
      t.Owns me root) : Grounded t := by
  refine ⟨fun d w hw => ?_, fun d root hr => ?_⟩
  · rw [o.isSome]
    exact h.outgoing d w ((o.window d).symm.trans hw)
  · rw [tablesOf_congr o.window o.rooted o.current]
    have hs : s.tablesOf c = some me := by
      rw [tablesOf_of_ne (by simp [o.phase]), standing_of_none (by rw [o.phase]; rfl), o.running]
    rcases eq_or_ne d c with rfl | hdc
    · refine ⟨me, hs, hme root hr fun hold => ?_⟩
      obtain ⟨x, hx, hown⟩ := h.loaded d root hold
      obtain rfl : me = x := Option.mem_unique hs hx
      exact hown
    · rw [o.cr3 d hdc] at hr
      obtain ⟨x, hx, hown⟩ := h.loaded d root hr
      have hne : x ≠ me := by
        rintro rfl
        exact tablesOf_ne hex hfl o.running hdc hx
      refine ⟨x, hx, ?_⟩
      rw [Owns, o.space x hne, o.isSome, o.base x hne]
      exact hown

theorem ownBase (hex : Exclusive s) (hfl : InFlight s) (h : Grounded s) (o : OwnStep s c me t)
    (hb : ∀ root, s.base me ≠ .userEntry root .adopt) (hcr3 : t.cr3 = s.cr3)
    (hs : (t.table me).map Thread.addressSpace = (s.table me).map Thread.addressSpace) :
    Grounded t := by
  refine h.own hex hfl o fun root hro hold => .inl ?_
  rw [hs]
  exact (hold (hcr3 ▸ hro)).resolve_right fun hr => hb root hr.2

theorem moved (h : Grounded s) {p : Phase n} (m : PhaseStep s c p t)
    (hout : ∀ w, p.window = some w → (s.table w.outgoing).isSome)
    (hl : ∀ root, t.cr3 c = some root → ∃ x, t.tablesOf c = some x ∧ s.Owns x root) :
    Grounded t := by
  constructor
  · rw [m.phase]
    exact (forall_update_iff s.phase fun _ q => ∀ w, q.window = some w →
      (t.table w.outgoing).isSome).mpr ⟨fun w hw => (m.isSome _).trans (hout w hw),
        fun d _ w hw => (m.isSome _).trans (h.outgoing d w hw)⟩
  · intro d root hr
    have hse : ∃ x, t.tablesOf d = some x ∧ s.Owns x root := by
      rcases eq_or_ne d c with rfl | hdc
      · exact hl root hr
      · rw [m.cr3 d hdc] at hr
        obtain ⟨x, hx, hown⟩ := h.loaded d root hr
        refine ⟨x, ?_, hown⟩
        simp only [tablesOf, standing, m.phase, update_of_ne hdc, m.current d hdc]
        exact hx
    obtain ⟨x, hx, hown⟩ := hse
    refine ⟨x, hx, ?_⟩
    rw [Owns, m.space, m.isSome, m.base]
    exact hown

theorem insert (hex : Exclusive s) (h : Grounded s) {place : ThreadId → Nat}
    {e : Option (Thread n)} {b : Base}
    (ht : t.table = relocate place (update s.table ⟨s.nextId⟩ e))
    (hb : t.base = update s.base ⟨s.nextId⟩ b) (hcur : t.current = s.current)
    (hcr3 : t.cr3 = s.cr3) (hwin : ∀ c, (t.phase c).window = (s.phase c).window)
    (hro : ∀ c w, t.phase c = .rooted w ↔ s.phase c = .rooted w) : Grounded t := by
  have hold : ∀ x, (s.table x).isSome → x ≠ ⟨s.nextId⟩ := by
    rintro x hx rfl
    have hlt := hex.fresh ⟨s.nextId⟩ (.inl (by rw [flags, Option.isSome_map]; exact hx))
    exact Nat.lt_irrefl _ hlt
  refine ⟨fun c w hw => ?_, fun c root hr => ?_⟩
  · have hs := h.outgoing c w ((hwin c).symm.trans hw)
    rw [ht, isSome_relocate, update_of_ne (hold _ hs)]
    exact hs
  · rw [hcr3] at hr
    obtain ⟨x, hx, hown⟩ := h.loaded c root hr
    have hne := hold x hown.isSome
    refine ⟨x, (tablesOf_congr hwin hro hcur c).trans hx, ?_⟩
    rw [Owns, ht, map_relocate Thread.addressSpace fun _ _ => rfl, isSome_relocate,
      update_of_ne hne, hb, update_of_ne hne]
    exact hown

/-- A CPU that is starting has no thread yet, so its root is the kernel's. -/
theorem cr3_of_starting (hfl : InFlight s) (h : Grounded s) (hp : s.phase c = .adopting id) :
    s.cr3 c = none := by
  rw [Option.eq_none_iff_forall_ne_some]
  intro root hr
  obtain ⟨x, hx, -⟩ := h.loaded c root hr
  rcases tablesOf_cases hfl hx with hcur | ⟨w, hw, -⟩
  · rw [hfl.starting c (by rw [hp]; rfl)] at hcur
    cases hcur
  · rw [hp] at hw
    cases hw

theorem step {a : Act n} (hex : Exclusive s) (hfl : InFlight s) (h : Grounded s)
    (ht : s.step a = some t) (hc : s.unoccupied a = true) : Grounded t := by
  cases step_moves ht with
  | @run c me _ k hp hcur hk =>
    refine h.own hex hfl (.run hp hcur k) fun root hro hold => ?_
    rw [setCtl_cr3_self] at hro
    have hl : (s.table me).isSome := Option.isSome_map ▸ (hex.live_current hcur).1
    rcases hk.owned hro with hb | ⟨hold', hb⟩
    · exact .inr ⟨hl, (setCtl_base_self k).trans hb⟩
    · exact .inl ((hold hold').resolve_right fun hr => hb hr.2)
  | @enter c me _ k out irq hp hcur hk =>
    refine h.own hex hfl (.enter hp hcur ..) fun root hro hold => ?_
    change (s.setCtl c me k).cr3 c = some root at hro
    rw [setCtl_cr3_self] at hro
    obtain ⟨hsa, hb⟩ := hk.owned root
    refine (hold (hsa.symm.trans hro)).imp_right fun hr => ⟨hr.1, ?_⟩
    exact (setCtl_base_self (c := c) k).trans (hb hr.2)
  | parkCancelled hp hcur _ hba | parked hp hcur _ hba =>
    exact h.ownBase hex hfl (.modify hp hcur ..) (by simp [hba]) rfl (map_modify _ fun _ => rfl)
  | @parkCheck c me _ _ hp hcur _ hs =>
    have hba : ∀ root, s.base me ≠ .userEntry root .adopt := fun root => by
      rcases hs with ⟨hba, -⟩ | ⟨hba, -⟩ <;> simp [hba]
    exact h.ownBase hex hfl (.setBase hp hcur _) hba rfl rfl
  | exitCheck hp hcur _ hba =>
    exact h.ownBase hex hfl (.setBase hp hcur _) (by simp [hba]) rfl rfl
  | @adopt c me root e hp hcur _ hba hta hsp =>
    refine h.own hex hfl (.modify hp hcur ..) fun r hro hold => .inl ?_
    rcases hold hro with hown | ⟨-, hown⟩
    · rw [hta, Option.map_some, hsp] at hown
      cases hown
    · rw [hba] at hown
      cases hown
      simp only [setBase, modify_table, hta]
      rfl
  | reapNone => exact { h with }
  | reap =>
    refine h.keep hfl (.of_eq rfl) rfl rfl (fun d w hw hso => ?_) fun d x root hx hown => ?_
    · have hke := not_gone hex hc (.inr ⟨w, hw, rfl⟩)
      simpa [if_neg hke] using hso
    · have hke := not_gone hex hc hx
      simp only [Owns, map_relocate Thread.addressSpace fun _ _ => rfl, isSome_relocate,
        if_neg hke]
      exact hown
  | @decide c _ _ _ me _ _ _ hp hcur =>
    -- The outgoing thread is what the CPU stands on until the switch.
    refine h.moved ⟨rfl, fun d hd => update_of_ne hd _ _, fun _ _ => rfl, rfl,
      fun _ => map_decided _ fun _ _ => rfl⟩ ?_ fun root hro => ?_
    · rintro w ⟨⟩
      exact Option.isSome_map ▸ (hex.live_current hcur).1
    · obtain ⟨x, hx, hown⟩ := h.loaded c root hro
      refine ⟨x, ?_, hown⟩
      rw [tablesOf_of_ne (by simp [hp]), standing_of_none (by rw [hp]; rfl), hcur] at hx
      simpa [tablesOf, standing, Phase.window] using hx
  | @activateRoot c w hp =>
    have hwin : (s.phase c).window = some w := by rw [hp]; rfl
    refine h.moved ⟨rfl, fun _ _ => rfl, fun d hd => update_of_ne hd _ _, rfl, fun _ => rfl⟩
      (fun w' hw => h.outgoing c w' (hwin.trans hw)) fun root hro => ?_
    refine ⟨w.incoming, tablesOf_rooted (setPhase_phase_self _), .inl ?_⟩
    simp only [setPhase, update_self] at hro
    exact (hfl.root c w hwin).trans (by rw [hro])
  | @switch c w hp =>
    refine h.moved ⟨rfl, fun _ _ => rfl, fun _ _ => rfl, rfl,
      fun _ => map_storeContext _ fun _ _ => rfl⟩ (by simp [Phase.window]) fun root hro => ?_
    obtain ⟨x, hx, hown⟩ := h.loaded c root hro
    refine ⟨x, ?_, hown⟩
    rw [tablesOf_rooted hp] at hx
    rw [tablesOf_of_ne (by simp), standing_of_none (by rw [setPhase_phase_self]; rfl), ← hx]
    exact hfl.incoming c w (by rw [hp]; rfl)
  | spawn _ _ _ _ _ _ hta =>
    exact h.insert hex hta rfl rfl rfl (fun _ => rfl) fun _ _ => Iff.rfl
  | @initLock c _ _ hp _ hta =>
    refine h.insert hex hta rfl rfl rfl (window_update (by rw [hp]; rfl)) ?_
    exact (forall_update_iff s.phase fun d q => ∀ w, q = .rooted w ↔ s.phase d = .rooted w).mpr
      ⟨by simp [hp], fun _ _ _ => Iff.rfl⟩
  | initSet hp =>
    refine h.moved ⟨rfl, fun d hd => update_of_ne hd _ _, fun _ _ => rfl, rfl, fun _ => rfl⟩
      (by simp [Phase.window])
      fun root hro => ?_
    have hn := cr3_of_starting hfl h hp
    exact absurd (hro.symm.trans hn) (Option.some_ne_none root)
  | _ => exact h.calm hfl (step_calm rfl ht)

end Grounded

/-- If `reap` never runs while a CPU is switching away from a reapable thread,
then whatever thread a CPU stands on is in the table, and so is the thread whose
page tables it has loaded, with that root. -/
theorem reap_spares_occupied {as : List (Act n)} {s : St n}
    (hrun : Run (fun s a t => St.Step s a t ∧ s.unoccupied a = true) (St.boot n) as s) :
    (∀ c x, s.standing c = some x → (s.table x).isSome) ∧
    ∀ c root, s.cr3 c = some root → ∃ x, s.tablesOf c = some x ∧ s.Owns x root := by
  obtain ⟨hex, -, hground⟩ :=
    InFlight.of_run Grounded.boot (fun hex hfl h ht => h.step hex hfl ht) hrun
  refine ⟨fun c x hx => ?_, hground.loaded⟩
  cases hwin : (s.phase c).window with
  | none =>
    rw [St.standing_of_none hwin] at hx
    exact Option.isSome_map ▸ (hex.live_current hx).1
  | some w =>
    rw [St.standing_of_window hwin] at hx
    cases hx
    exact hground.outgoing c w hwin

/-- A thread that has just been switched to exits, up to the decision what runs next. -/
def exitDecided (c : Fin n) : List (Act n) :=
  [.run c .frame, .run c .exit, .enter c .exit, .takeLocal c, .takeLast c, .decide c]

/-- A CPU finds nothing to run and reaps. -/
def idleReap (c : Fin n) : List (Act n) :=
  [.enter c .yield, .takeLocal c, .takeLast c, .noNext c, .reap c ThreadId.val]

/-- A thread exits on one CPU and is reaped on the other after the switch. -/
theorem reap_spares_occupied_after_switch :
    ∃ s : St 2, Run (fun s a t => St.Step s a t ∧ s.unoccupied a = true) (St.boot 2)
      (bootCpu 0 ++ bootCpu 1 ++ spawnOn 0 ⟨2⟩ 4096 none ++ yieldTo 0 ++ exitDecided 0 ++
        [.setKernelStack 0, .activateRoot 0, .switch 0] ++ idleReap 1) s ∧
      s.table ⟨2⟩ = none ∧ s.standing 0 = some ⟨0⟩ ∧ (s.table ⟨0⟩).isSome := by
  refine exists_run_of_exec_guarded (by decide +kernel) fun s hrun hfacts =>
    and_assoc.mp ⟨hfacts, ?_⟩
  exact (reap_spares_occupied hrun).1 0 ⟨0⟩ hfacts.2

/-- The same exit, with the other CPU's `reap` between the decision and the
switch: the CPU executes on the stack of a thread that has been freed. -/
theorem reaped_while_standing :
    ∃ s : St 2, Run St.Step (St.boot 2)
      (bootCpu 0 ++ bootCpu 1 ++ spawnOn 0 ⟨2⟩ 4096 none ++ yieldTo 0 ++ exitDecided 0 ++
        idleReap 1) s ∧
      s.standing 0 = some ⟨2⟩ ∧ s.table ⟨2⟩ = none ∧
      s.tail ⟨1⟩ = [.drop [⟨2⟩], .restore false] := by
  exact exists_run_of_exec (by decide +kernel) fun _ _ hfacts => hfacts

end Qunix.Sched
