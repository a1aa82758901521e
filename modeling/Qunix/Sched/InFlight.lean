/-
Decisions in flight.

`schedule` copies what it needs about the incoming thread out of the table and
releases the lock before it uses the copies. `InFlight` says that the copies
stay true: until the switch is complete the CPU names the incoming thread as
its own, nobody changes the address space that thread owns, and the root that
was loaded is the one that was copied.
-/

import Qunix.Sched.Exclusion

namespace Qunix.Sched

open Function Qunix.Lib

variable {n : Nat}

structure InFlight (s : St n) : Prop where
  incoming : ∀ c w, (s.phase c).window = some w → s.current c = some w.incoming
  root : ∀ c w, (s.phase c).window = some w →
    (s.table w.incoming).map Thread.addressSpace = some w.root
  rooted : ∀ c w, s.phase c = .rooted w → s.cr3 c = w.root
  starting : ∀ c, (s.phase c).starting = true → s.current c = none
  adopting : ∀ c id, s.phase c = .adopting id → s.base id = .code

namespace St

variable {s t : St n} {c : Fin n} {me : ThreadId}

/-- Thread `me` takes a step of its own on CPU `c`. -/
structure OwnStep (s : St n) (c : Fin n) (me : ThreadId) (t : St n) : Prop
    extends SamePhases s t where
  phase : s.phase c = .run
  running : s.current c = some me
  current : t.current = s.current
  cr3 : ∀ d, d ≠ c → t.cr3 d = s.cr3 d
  base : ∀ x, x ≠ me → t.base x = s.base x
  isSome : ∀ x, (t.table x).isSome = (s.table x).isSome
  space : ∀ x, x ≠ me → (t.table x).map Thread.addressSpace = (s.table x).map Thread.addressSpace

/-- CPU `c` goes to phase `p`, with another thread or another root. -/
structure PhaseStep (s : St n) (c : Fin n) (p : Phase n) (t : St n) : Prop where
  phase : t.phase = update s.phase c p
  current : ∀ d, d ≠ c → t.current d = s.current d
  cr3 : ∀ d, d ≠ c → t.cr3 d = s.cr3 d
  base : t.base = s.base
  space : ∀ x, (t.table x).map Thread.addressSpace = (s.table x).map Thread.addressSpace

theorem PhaseStep.setPhase (s : St n) (c : Fin n) (p : Phase n) :
    PhaseStep s c p (s.setPhase c p) :=
  ⟨rfl, fun _ _ => rfl, fun _ _ => rfl, rfl, fun _ => rfl⟩

theorem PhaseStep.isSome {p : Phase n} (h : PhaseStep s c p t) (x : ThreadId) :
    (t.table x).isSome = (s.table x).isSome := by
  rw [← Option.isSome_map, h.space, Option.isSome_map]

section

variable (hp : s.phase c = .run) (hcur : s.current c = some me)

include hp hcur

theorem OwnStep.run (k : Ctl) : OwnStep s c me (s.setCtl c me k) :=
  ⟨.of_eq rfl, hp, hcur, rfl, fun _ hd => update_of_ne hd _ _, fun _ hx => update_of_ne hx _ _,
    fun _ => rfl, fun _ _ => rfl⟩

theorem OwnStep.enter (k : Ctl) (out : ThreadState) (irq : Bool) :
    OwnStep s c me ((s.setCtl c me k).setPhase c (.pick out irq)) :=
  { OwnStep.run hp hcur k with
    toSamePhases := .setPhase rfl (by rw [hp]; rfl) (by simp [hp]) (by simp) rfl }

theorem OwnStep.modify (f : Thread n → Thread n) (b : Base) :
    OwnStep s c me ((s.modify me f).setBase me b) :=
  ⟨.of_eq rfl, hp, hcur, rfl, fun _ _ => rfl, fun _ hx => update_of_ne hx _ _,
    fun x => isSome_modify f x, fun x hx => by simp [setBase, modify_table, if_neg hx]⟩

theorem OwnStep.setBase (b : Base) : OwnStep s c me (s.setBase me b) :=
  ⟨.of_eq rfl, hp, hcur, rfl, fun _ _ => rfl, fun _ hx => update_of_ne hx _ _, fun _ => rfl,
    fun _ _ => rfl⟩

end

end St

namespace InFlight

open St

variable {s t : St n} {c : Fin n} {x me id : ThreadId}

theorem boot : InFlight (St.boot n) := by
  constructor
  · intro c w hw
    cases hw
  · intro c w hw
    cases hw
  · intro c w hw
    cases hw
  · exact fun c _ => rfl
  · intro c id hid
    cases hid

/-- Steps that touch neither the decisions nor what they copied. -/
theorem keep (h : InFlight s) (hph : SamePhases s t) (hcur : t.current = s.current)
    (hcr3 : ∀ c w, s.phase c = .rooted w → t.cr3 c = s.cr3 c)
    (hs : ∀ c w, (s.phase c).window = some w →
      (t.table w.incoming).map Thread.addressSpace = (s.table w.incoming).map Thread.addressSpace)
    (hb : ∀ c id, s.phase c = .adopting id → t.base id = s.base id) : InFlight t := by
  refine ⟨fun c w hw => ?_, fun c w hw => ?_, fun c w hw => ?_, fun c hc => ?_, fun c id hid => ?_⟩
  · rw [hcur]
    exact h.incoming c w ((hph.window c).symm.trans hw)
  · have hw' := (hph.window c).symm.trans hw
    rw [hs c w hw']
    exact h.root c w hw'
  · have hw' := (hph.rooted c w).mp hw
    rw [hcr3 c w hw']
    exact h.rooted c w hw'
  · rw [hcur]
    exact h.starting c (hph.starting c hc)
  · have hid' := hph.adopting c id hid
    rw [hb c id hid']
    exact h.adopting c id hid'

theorem calm (h : InFlight s) (hq : Calm s t) : InFlight t :=
  h.keep hq.toSamePhases hq.current (fun c _ _ => by rw [hq.cr3]) (fun _ _ _ => hq.space _)
    fun _ _ _ => by rw [hq.base]

/-- Steps of a thread on its CPU: the CPU is not in a switch, so its root is not
part of a decision. -/
theorem own (hex : Exclusive s) (h : InFlight s) (o : OwnStep s c me t) : InFlight t := by
  refine h.keep o.toSamePhases o.current (fun d w hd => o.cr3 d ?_) (fun d w hw => o.space _ ?_)
    fun d id hid => o.base id ?_
  · rintro rfl
    rw [o.phase] at hd
    cases hd
  · -- The thread runs, so it is not the one a CPU is switching to.
    intro heq
    obtain rfl := hex.current_inj o.running (heq ▸ h.incoming d w hw)
    rw [o.phase] at hw
    cases hw
  · rintro rfl
    exact (hex.adopting_ne hid).2 c o.running

theorem moved (h : InFlight s) {p : Phase n} (m : PhaseStep s c p t)
    (hin : ∀ w, p.window = some w → t.current c = some w.incoming ∧
      (t.table w.incoming).map Thread.addressSpace = some w.root)
    (hr : ∀ w, p = .rooted w → t.cr3 c = w.root)
    (hst : p.starting = true → t.current c = none)
    (ha : ∀ id, p = .adopting id → t.base id = .code) : InFlight t := by
  constructor <;> rw [m.phase]
  · exact (forall_update_iff s.phase fun d q => ∀ w, q.window = some w →
      t.current d = some w.incoming).mpr
      ⟨fun w hw => (hin w hw).1, fun d hd w hw => (m.current d hd).trans (h.incoming d w hw)⟩
  · exact (forall_update_iff s.phase fun _ q => ∀ w, q.window = some w →
      (t.table w.incoming).map Thread.addressSpace = some w.root).mpr
      ⟨fun w hw => (hin w hw).2, fun d _ w hw => (m.space _).trans (h.root d w hw)⟩
  · exact (forall_update_iff s.phase fun d q => ∀ w, q = .rooted w → t.cr3 d = w.root).mpr
      ⟨hr, fun d hd w hw => (m.cr3 d hd).trans (h.rooted d w hw)⟩
  · exact (forall_update_iff s.phase fun d q => q.starting = true → t.current d = none).mpr
      ⟨hst, fun d hd hs => (m.current d hd).trans (h.starting d hs)⟩
  · exact (forall_update_iff s.phase fun _ q => ∀ id, q = .adopting id → t.base id = .code).mpr
      ⟨ha, fun d _ id hid => m.base ▸ h.adopting d id hid⟩

theorem insert (hex : Exclusive s) (h : InFlight s) {place : ThreadId → Nat}
    {e : Option (Thread n)} {b : Base}
    (ht : t.table = relocate place (update s.table ⟨s.nextId⟩ e))
    (hb : t.base = update s.base ⟨s.nextId⟩ b) (hcur : t.current = s.current)
    (hcr3 : t.cr3 = s.cr3) (hp : t.phase = s.phase) : InFlight t := by
  refine h.keep (.of_eq hp) hcur (fun c _ _ => by rw [hcr3]) (fun d w hw => ?_) fun d id hid => ?_
  · rw [ht, map_relocate Thread.addressSpace fun _ _ => rfl,
      update_of_ne (hex.current_ne_nextId (h.incoming d w hw))]
  · rw [hb, update_of_ne (hex.adopting_ne hid).1]

theorem step {a : Act n} (hex : Exclusive s) (h : InFlight s) (ht : s.step a = some t) :
    InFlight t := by
  cases step_moves ht with
  | run hp hcur => exact h.own hex (.run hp hcur _)
  | enter hp hcur => exact h.own hex (.enter hp hcur ..)
  | parkCancelled hp hcur | parked hp hcur | adopt hp hcur => exact h.own hex (.modify hp hcur ..)
  | parkCheck hp hcur | exitCheck hp hcur => exact h.own hex (.setBase hp hcur _)
  | reapNone => exact { h with }
  | reap =>
    refine h.keep (.of_eq rfl) rfl (fun _ _ _ => rfl) (fun d w hw => ?_) fun _ _ _ => rfl
    have hg : w.incoming ∉ s.gone := fun hmem =>
      (hex.live_current (h.incoming d w hw)).2 (List.mem_filter.mp hmem).1
    rw [map_relocate Thread.addressSpace fun _ _ => rfl, if_neg hg]
  | @decide c out irq next me e ctx old hp _ hn =>
    have hs : (((s.handOn c me out).modify next fun e => { e with state := .running }).table
        next).map Thread.addressSpace = ((s.handOn c me out).table next).map Thread.addressSpace :=
      map_modify _ fun _ => rfl
    rw [hn] at hs
    refine h.moved ⟨rfl, fun d hd => update_of_ne hd _ _, fun _ _ => rfl, rfl,
      fun _ => map_decided _ fun _ _ => rfl⟩ ?_ nofun nofun nofun
    rintro w ⟨⟩
    exact ⟨update_self .., hs⟩
  | @activateRoot c w hp =>
    have hwin : (s.phase c).window = some w := by rw [hp]; rfl
    refine h.moved ⟨rfl, fun _ _ => rfl, fun d hd => update_of_ne hd _ _, rfl, fun _ => rfl⟩
      (fun w' hw => ?_) ?_ nofun nofun
    · exact ⟨h.incoming c w' (hwin.trans hw), h.root c w' (hwin.trans hw)⟩
    · rintro w' ⟨⟩
      exact update_self ..
  | switch =>
    -- The switch ends the decision of one CPU and keeps the others'.
    exact h.moved ⟨rfl, fun _ _ => rfl, fun _ _ => rfl, rfl,
      fun _ => map_storeContext _ fun _ _ => rfl⟩ nofun nofun nofun nofun
  | spawn _ _ _ _ _ _ hta => exact h.insert hex hta rfl rfl rfl rfl
  | @initLock c _ _ hp _ hta =>
    refine moved ?_ (.setPhase _ c _) nofun nofun (fun _ => h.starting c (by rw [hp]; rfl)) ?_
    · exact h.insert hex hta rfl rfl rfl rfl
    · rintro id ⟨⟩
      exact update_self ..
  | initSet =>
    exact h.moved ⟨rfl, fun d hd => update_of_ne hd _ _, fun _ _ => rfl, rfl, fun _ => rfl⟩
      nofun nofun nofun nofun
  | _ => exact h.calm (step_calm rfl ht)

/-- An invariant of guarded runs that rests on the decisions in flight. -/
theorem of_run {P : St n → Prop} {ok : St n → Act n → Bool} {as : List (Act n)} {s : St n}
    (hboot : P (St.boot n))
    (hstep : ∀ {s t : St n} {a : Act n}, Exclusive s → InFlight s → P s → s.step a = some t →
      ok s a = true → P t)
    (hrun : Run (fun s a t => St.Step s a t ∧ ok s a = true) (St.boot n) as s) :
    Exclusive s ∧ InFlight s ∧ P s := by
  refine hrun.invariant (p := fun s => Exclusive s ∧ InFlight s ∧ P s) ?_
    ⟨Exclusive.boot, InFlight.boot, hboot⟩
  rintro s a t ⟨hex, hfl, h⟩ ⟨ht, hok⟩
  exact ⟨hex.step ht, hfl.step hex ht, hstep hex hfl h ht hok⟩

end InFlight

end Qunix.Sched
