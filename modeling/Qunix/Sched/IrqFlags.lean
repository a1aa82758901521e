/-
The interrupt flag across calls that block.

Whatever threads and CPUs do in between, a call of `schedule` returns with the flag it was
entered with, and so do `park` and `block_on` unless they are spoiled: `flag_restored_iff`.
Spoiled calls exist (`masked_park_returns_enabled`): `park` restores the caller's flag with
`Irq::restore`, which does nothing for a caller that had interrupts off.
-/

import Qunix.Sched.Blocking

namespace Qunix.Sched

open Function Qunix.Lib

variable {n : Nat}

/-- The thread on whose stack a CPU is, and the frames that `schedule` will put there if the
CPU is in it. -/
def St.seat (s : St n) (c : Fin n) : Option (ThreadId × List Tail) :=
  match s.phase c with
  | .run => (s.current c).map fun me => (me, [])
  | .pick _ irq | .steal _ irq _ | .took _ irq _ | .nothing _ irq =>
    (s.current c).map fun me => (me, [.restore irq, .reap])
  | .decided w | .stacked w | .rooted w => some (w.outgoing, [.restore w.irq, .reap])
  | _ => none

/-- What the frames and calls of a thread come to, wherever the thread is. -/
structure Restores (s : Traced n) : Prop where
  /-- `schedule` runs masked. -/
  masked : ∀ c, s.sys.phase c ≠ .run → s.sys.irqOn c = false
  seated : ∀ c x l, s.sys.seat c = some (x, l) →
    Unwinds (s.sys.base x) (l ++ s.sys.tail x) (s.calls x) (s.sys.irqOn c)
  /-- A thread that is on no CPU resumes masked. -/
  resting : ∀ x, (∀ c l, s.sys.seat c ≠ some (x, l)) →
    Unwinds (s.sys.base x) (s.sys.tail x) (s.calls x) false
  apart : ∀ c d x l l', s.sys.seat c = some (x, l) → s.sys.seat d = some (x, l') → c = d

namespace St

variable {s t : St n} {c d : Fin n} {x me : ThreadId} {l : List Tail}

theorem seat_of_run (hp : s.phase c = .run) (hcur : s.current c = some me) :
    s.seat c = some (me, []) := by
  rw [seat, hp, hcur]
  rfl

theorem seat_cases (h : s.seat c = some (x, l)) :
    (s.current c = some x ∧ ∀ id, s.phase c ≠ .adopting id) ∨
      ∃ w, (s.phase c).window = some w ∧ w.outgoing = x := by
  unfold seat at h
  split at h
  case h_9 => cases h
  case h_6 | h_7 | h_8 =>
    rename_i w hp
    cases h
    exact .inr ⟨w, by rw [hp]; rfl, rfl⟩
  all_goals
    rename_i hp
    obtain ⟨me, hme, h⟩ := Option.map_eq_some_iff.mp h
    cases h
    exact .inl ⟨hme, by simp [hp]⟩

theorem SameCpu.seat (h : SameCpu s t c) : t.seat c = s.seat c := by
  unfold St.seat
  rw [h.phase, h.current]

theorem seat_ne_nextId (hex : Exclusive s) (h : s.seat c = some (x, l)) : x ≠ ⟨s.nextId⟩ := by
  rcases seat_cases h with ⟨hcur, -⟩ | ⟨w, hw, rfl⟩
  · exact hex.current_ne_nextId hcur
  · -- The thread that a CPU switches away from is not the next to be made.
    intro heq
    have hp : s.places w.outgoing = 0 := heq ▸ hex.places_nextId
    rcases hex.outgoing c w hw with hr | hr | ⟨-, hlt, -⟩
    · have hs := le_tally (f := Handoff.holdsReady w.outgoing) (g := s.handoff) c
      simp only [hr, Handoff.holdsReady, if_true] at hs
      simp only [places, runnable] at hp
      omega
    · have := held_pos_of_parked_slot hr
      simp only [places] at hp
      omega
    · rw [heq] at hlt
      exact Nat.lt_irrefl _ hlt

/-- The current thread of a CPU that is on no stack of a thread. -/
theorem unseated_of_current (hex : Exclusive s) (hn : s.seat c = none)
    (hcur : s.current c = some me) : s.seat d ≠ some (me, l) := by
  intro hd
  rcases seat_cases hd with ⟨hcur', -⟩ | ⟨w, hw, rfl⟩
  · obtain rfl := hex.current_inj hcur' hcur
    rw [hn] at hd
    cases hd
  · exact (hex.outgoing_nowhere hw c).1 hcur

theorem unseated_of_adopting (hex : Exclusive s) (hp : s.phase c = .adopting me) :
    s.seat d ≠ some (me, l) := by
  intro hd
  rcases seat_cases hd with ⟨hcur, -⟩ | ⟨w, hw, rfl⟩
  · exact (hex.adopting_ne hp).2 d hcur
  · have hh := (hex.outgoing_nowhere hw c).2.1
    simp [hp, Phase.holding] at hh

end St

namespace Restores

open St

variable {s t : Traced n} {c : Fin n} {me : ThreadId}

theorem boot : Restores (Traced.boot n) := by
  constructor
  · exact fun _ _ => rfl
  · intro c x l hx
    cases hx
  · exact fun _ _ => .base trivial
  · intro c d x l l' hx
    cases hx

section

variable (h : Restores s)

include h

/-- Steps that leave alone what the threads do and who is where. -/
theorem keep (hc : t.calls = s.calls) (hb : t.sys.base = s.sys.base) (ht : t.sys.tail = s.sys.tail)
    (hirq : t.sys.irqOn = s.sys.irqOn) (hs : ∀ d, t.sys.seat d = s.sys.seat d)
    (hp : ∀ d, s.sys.phase d = .run → t.sys.phase d = .run) : Restores t := by
  constructor
  · intro d hd
    rw [hirq]
    exact h.masked d fun hrun => hd (hp d hrun)
  · intro d x l hx
    rw [hb, ht, hc, hirq]
    exact h.seated d x l (hs d ▸ hx)
  · intro x hx
    rw [hb, ht, hc]
    exact h.resting x fun d l hd => hx d l (hs d ▸ hd)
  · intro d d' x l l' hd hd'
    exact h.apart d d' x l l' (hs d ▸ hd) (hs d' ▸ hd')

/-- What a step leaves alone of a thread. -/
def Same (s t : Traced n) (x : ThreadId) : Prop :=
  t.sys.base x = s.sys.base x ∧ t.sys.tail x = s.sys.tail x ∧ t.calls x = s.calls x

section

variable (ho : ∀ d, d ≠ c → SameCpu s.sys t.sys d)

include ho

/-- A step of a CPU that concerns one thread, which no other CPU is on. -/
theorem move (hsa : ∀ x, x ≠ me → Same s t x) (hma : t.sys.phase c ≠ .run → t.sys.irqOn c = false)
    (hm : ∀ d l, s.sys.seat d = some (me, l) → d = c)
    (hf : ∀ x l, s.sys.seat c = some (x, l) → x = me)
    (hto : ∀ x l, t.sys.seat c = some (x, l) → x = me ∧
      Unwinds (t.sys.base me) (l ++ t.sys.tail me) (t.calls me) (t.sys.irqOn c))
    (hr : t.sys.seat c = none → Unwinds (t.sys.base me) (t.sys.tail me) (t.calls me) false) :
    Restores t := by
  have hs : ∀ d, d ≠ c → t.sys.seat d = s.sys.seat d := fun d hd => (ho d hd).seat
  have hne : ∀ d x l, d ≠ c → s.sys.seat d = some (x, l) → x ≠ me := by
    rintro d x l hd hx rfl
    exact hd (hm d l hx)
  constructor
  · intro d hd
    by_cases hdc : d = c
    · rw [hdc] at hd ⊢
      exact hma hd
    · rw [(ho d hdc).irqOn]
      exact h.masked d ((ho d hdc).phase ▸ hd)
  · intro d x l hx
    by_cases hdc : d = c
    · rw [hdc] at hx ⊢
      obtain ⟨rfl, hme⟩ := hto x l hx
      exact hme
    · rw [hs d hdc] at hx
      obtain ⟨hb, hl, hc⟩ := hsa x (hne d x l hdc hx)
      rw [hb, hl, hc, (ho d hdc).irqOn]
      exact h.seated d x l hx
  · intro x hx
    by_cases hxme : x = me
    · rw [hxme] at hx ⊢
      refine hr (Option.eq_none_iff_forall_ne_some.mpr fun p hp => ?_)
      exact hx c p.2 ((hto p.1 p.2 hp).1 ▸ hp)
    · obtain ⟨hb, hl, hc⟩ := hsa x hxme
      rw [hb, hl, hc]
      refine h.resting x fun d l hd => ?_
      by_cases hdc : d = c
      · exact hxme (hf x l (hdc ▸ hd))
      · exact hx d l (hs d hdc ▸ hd)
  · intro d d' x l l' hd hd'
    by_cases hdc : d = c
    · by_cases hdc' : d' = c
      · rw [hdc, hdc']
      · exact absurd (hto x l (hdc ▸ hd)).1 (hne d' x l' hdc' (hs d' hdc' ▸ hd'))
    · by_cases hdc' : d' = c
      · exact absurd (hto x l' (hdc' ▸ hd')).1 (hne d x l hdc (hs d hdc ▸ hd))
      · exact h.apart d d' x l l' (hs d hdc ▸ hd) (hs d' hdc' ▸ hd')

variable {l : List Tail} {b : Base} {u : St n} {a : Act n}

theorem stay {l' : List Tail} (hs : s.sys.seat c = some (me, l))
    (hs' : t.sys.seat c = some (me, l')) (hsa : ∀ x, x ≠ me → Same s t x)
    (hm : t.sys.phase c ≠ .run → t.sys.irqOn c = false)
    (hme : Unwinds (s.sys.base me) (l ++ s.sys.tail me) (s.calls me) (s.sys.irqOn c) →
      Unwinds (t.sys.base me) (l' ++ t.sys.tail me) (t.calls me) (t.sys.irqOn c)) :
    Restores t := by
  refine h.move ho hsa hm ?_ ?_ ?_ ?_
  · exact fun d _ hd => h.apart d c me _ _ hd hs
  · intro x _ hx
    rw [hs] at hx
    cases hx
    rfl
  · intro x _ hx
    rw [hs'] at hx
    cases hx
    exact ⟨rfl, hme (h.seated c me l hs)⟩
  · intro hn
    rw [hs'] at hn
    cases hn

/-- A step of a thread between two instructions of its own. -/
theorem rebase (hp : s.sys.phase c = .run) (hcur : s.sys.current c = some me)
    (hta : s.sys.tail me = []) (hph : t.sys.phase = s.sys.phase)
    (hcu : t.sys.current = s.sys.current) (ht : t.sys.tail = s.sys.tail)
    (hirq : t.sys.irqOn = s.sys.irqOn) (hb : t.sys.base = update s.sys.base me b)
    (hc : ∀ x, x ≠ me → t.calls x = s.calls x)
    (hme : AtBase (s.sys.base me) (s.calls me) (s.sys.irqOn c) →
      AtBase b (t.calls me) (s.sys.irqOn c)) :
    Restores t := by
  refine h.stay ho (seat_of_run hp hcur)
    (seat_of_run (hph ▸ hp) (hcu ▸ hcur)) ?_ (fun hne => absurd (hph ▸ hp) hne) ?_
  · intro x hx
    exact ⟨by rw [hb, update_of_ne hx], by rw [ht], hc x hx⟩
  · rw [hb, update_self, ht, hta, hirq]
    simp only [List.append_nil, unwinds_nil]
    exact hme

/-- A CPU that is on no stack begins to run its thread, which no other CPU is on. -/
theorem land (hc : t.calls = s.calls) (hb : t.sys.base = s.sys.base) (ht : t.sys.tail = s.sys.tail)
    (hirq : t.sys.irqOn = s.sys.irqOn) (hoff : s.sys.phase c ≠ .run) (hn : s.sys.seat c = none)
    (hp : t.sys.phase c = .run)
    (hme : ∀ me, t.sys.current c = some me → ∀ d l, s.sys.seat d ≠ some (me, l)) : Restores t := by
  have hs : t.sys.seat c = (t.sys.current c).map fun me => (me, []) := by rw [seat, hp]
  cases hcur : t.sys.current c with
  | none =>
    refine h.keep hc hb ht hirq (fun d => ?_) fun d hd => ?_
    · by_cases hdc : d = c
      · rw [hdc, hs, hcur, hn]
        rfl
      · exact (ho d hdc).seat
    · have hdc : d ≠ c := fun hdc => hoff (hdc ▸ hd)
      exact (ho d hdc).phase.trans hd
  | some me =>
    have hr := h.resting me (hme me hcur)
    rw [← hb, ← ht, ← hc] at hr
    refine h.move ho (fun x _ => ⟨by rw [hb], by rw [ht], by rw [hc]⟩)
      (fun hne => absurd hp hne) (fun d l hd => absurd hd (hme me hcur d l)) ?_ ?_
      fun _ => hr
    · intro x l hx
      rw [hn] at hx
      cases hx
    · intro x l hx
      rw [hs, hcur] at hx
      cases hx
      rw [hirq, h.masked c hoff]
      exact ⟨rfl, hr⟩

end

theorem insert (hex : Exclusive s.sys) (hnew : Unwinds b l [] false)
    (hca : t.calls = update s.calls ⟨s.sys.nextId⟩ [])
    (hba : t.sys.base = update s.sys.base ⟨s.sys.nextId⟩ b)
    (ht : t.sys.tail = update s.sys.tail ⟨s.sys.nextId⟩ l) (hirq : t.sys.irqOn = s.sys.irqOn)
    (hs : ∀ d, t.sys.seat d = s.sys.seat d)
    (hp : ∀ d, s.sys.phase d = .run → t.sys.phase d = .run) : Restores t := by
  have hold : ∀ x, x ≠ ⟨s.sys.nextId⟩ → Same s t x := by
    intro x hx
    exact ⟨by rw [hba, update_of_ne hx], by rw [ht, update_of_ne hx],
      by rw [hca, update_of_ne hx]⟩
  constructor
  · intro d hd
    rw [hirq]
    exact h.masked d fun hrun => hd (hp d hrun)
  · intro d x l hx
    rw [hs] at hx
    obtain ⟨hb, hl, hc⟩ := hold x (seat_ne_nextId hex hx)
    rw [hb, hl, hc, hirq]
    exact h.seated d x l hx
  · intro x hx
    by_cases hxn : x = ⟨s.sys.nextId⟩
    · rw [hxn, hba, ht, hca, update_self, update_self, update_self]
      exact hnew
    · obtain ⟨hb, hl, hc⟩ := hold x hxn
      rw [hb, hl, hc]
      exact h.resting x fun d l hd => hx d l (hs d ▸ hd)
  · intro d d' x l l' hd hd'
    exact h.apart d d' x l l' (hs d ▸ hd) (hs d' ▸ hd')

theorem advance {p : Phase n} (hu : ∀ d, d ≠ c → SameCpu s.sys u d) (hb : u.base = s.sys.base)
    (ht : u.tail = s.sys.tail) (hirq : u.irqOn = s.sys.irqOn)
    (hp : u.phase = update s.sys.phase c p) (hoff : s.sys.phase c ≠ .run)
    (hs : u.seat c = s.sys.seat c) : Restores ⟨u, s.calls⟩ := by
  refine h.keep rfl hb ht hirq (fun d => ?_) fun d hd => ?_
  · by_cases hdc : d = c
    · rw [hdc, hs]
    · exact (hu d hdc).seat
  · have hdc : d ≠ c := fun hdc => hoff (hdc ▸ hd)
    rw [hp, update_of_ne hdc]
    exact hd

end

theorem not_waits (hbar : s.barred a = false) (ha : a.strays = true) (hcpu : a.cpu = some c)
    (hme : s.sys.running c = some me) : Call.waits (s.calls me) = false := by
  simpa [Traced.barred, ha, hcpu, hme] using hbar

theorem sched (hex : Exclusive s.sys) (h : Restores s) (hbar : s.barred a = false)
    (hu : s.sys.step a = some u) :
    Restores ⟨u, Traced.trace s.sys u s.calls a⟩ := by
  have ho : ∀ {c}, a.cpu = some c → ∀ d, d ≠ c → SameCpu s.sys u d := by
    intro c hc d hd
    refine step_elsewhere hex hu fun hd' => hd ?_
    exact Option.mem_unique hd' hc
  cases step_moves hu with
  | @run c me a k hp hcur hk =>
    have hme := running_eq_some.mpr ⟨hp, hcur⟩
    have hown : (∃ e, a = .setIrq e) ∨ a = .exit → Call.waits (s.calls me) = false := by
      rintro (⟨e, rfl⟩ | rfl) <;> exact not_waits hbar rfl rfl hme
    simp only [Traced.trace, hme]
    refine h.stay (ho rfl) (seat_of_run hp hcur) (seat_of_run hp hcur)
      (fun x hx => ⟨update_of_ne hx .., update_of_ne hx .., update_of_ne hx ..⟩)
      (fun hne => absurd hp hne) fun hat => ?_
    simp only [setCtl, update_self]
    exact hat.step hk hown
  | @enter c me e k out irq hp hcur hk =>
    have hat := h.seated c me [] (seat_of_run hp hcur)
    obtain ⟨hirq, hoff, hin⟩ := hat.enter hk
    have hs : ((s.sys.setCtl c me k).setPhase c (.pick out irq)).seat c =
        some (me, [.restore irq, .reap]) := by
      simp [seat, setPhase, setCtl, hcur]
    simp only [Traced.trace, running_eq_some.mpr ⟨hp, hcur⟩]
    refine h.stay (ho rfl) (seat_of_run hp hcur) hs
      (fun x hx => ⟨update_of_ne hx .., update_of_ne hx .., update_of_ne hx ..⟩) ?_ fun _ => ?_
    · simp [setPhase, setCtl, hoff]
    · simp only [setCtl, setPhase, update_self, hoff]
      exact hirq ▸ hin
  | parkCancelled hp hcur ht hb | parked hp hcur ht hb =>
    refine h.rebase (ho rfl) hp hcur ht rfl rfl rfl rfl rfl (fun _ _ => rfl) ?_
    rw [hb]
    exact fun hat => hat.parkSection (by simp)
  | parkCheck hp hcur ht hst =>
    simp only [Traced.trace, running_eq_some.mpr ⟨hp, hcur⟩]
    refine h.rebase (ho rfl) hp hcur ht rfl rfl rfl rfl rfl
      (fun x hx => update_of_ne hx ..) fun hat => ?_
    simp only [update_self]
    exact hat.check hst
  | exitCheck hp hcur ht hb | adopt hp hcur ht hb =>
    refine h.rebase (ho rfl) hp hcur ht rfl rfl rfl rfl rfl (fun _ _ => rfl) ?_
    rw [hb]
    exact id
  | reapNone hp hcur ht | reap hp hcur ht =>
    refine h.stay (ho rfl) (seat_of_run hp hcur) (seat_of_run hp hcur)
      (fun x hx => ⟨rfl, update_of_ne hx .., rfl⟩) (fun hne => absurd hp hne) fun hat => ?_
    rw [ht] at hat
    simp only [update_self]
    exact Unwinds.reap hat
  | search hp | pop hp | pass hp | steal hp | giveUp hp | popLast hp | setKernelStack hp
  | activateRoot hp | publish hp =>
    exact h.advance (ho rfl) rfl rfl rfl rfl (by simp [hp])
      (by simp [seat, setPhase, hp])
  | @noNext c out irq me hp hcur =>
    have hs : s.sys.seat c = some (me, [.restore irq, .reap]) := by simp [seat, hp, hcur]
    refine h.stay (ho rfl) hs (seat_of_run (update_self ..) hcur)
      (fun x hx => ⟨rfl, update_of_ne hx .., rfl⟩) (fun hne => absurd (update_self ..) hne)
      fun hat => ?_
    simp only [Traced.trace, setPhase]
    have hba := hat.noNext (Decidable.decide (out = .exited))
    simpa using hba
  | decide hp hcur =>
    exact h.advance (ho rfl) rfl rfl rfl rfl (by simp [hp]) (by simp [seat, hp, hcur])
  | @switch c w hp =>
    have hs : s.sys.seat c = some (w.outgoing, [.restore w.irq, .reap]) := by
      rw [seat, hp]
    have hoff := h.masked c (by simp [hp])
    refine h.move (ho rfl) (fun x hx => ⟨rfl, update_of_ne hx .., rfl⟩) (fun _ => hoff)
      (fun d l hd => h.apart d c _ _ _ hd hs) ?_ ?_ fun _ => ?_
    · intro x l hx
      rw [hs] at hx
      cases hx
      rfl
    · intro x l hx
      simp [seat] at hx
    · have hat := h.seated c _ _ hs
      rw [hoff] at hat
      simp only [setPhase, update_self]
      exact hat
  | @publishNone c hp | @publishPush c _ _ hp =>
    have hn : s.sys.seat c = none := by rw [seat, hp]
    exact h.land (ho rfl) rfl rfl rfl rfl (by simp [hp]) hn (update_self ..)
      fun me hme d l => unseated_of_current hex hn hme
  | @spawn _ _ _ _ process =>
    refine h.insert hex (.start (.base ?_)) rfl rfl rfl rfl
      (fun _ => rfl) fun _ hrun => hrun
    cases process
    · trivial
    · exact fun _ => trivial
  | @initLock c _ _ hp =>
    refine h.insert hex (b := .code) (.base trivial) rfl rfl rfl rfl (fun d => ?_)
      fun d hd => ?_
    · by_cases hdc : d = c
      · rw [hdc]
        simp [seat, hp]
      · exact (ho rfl d hdc).seat
    · have hdc : d ≠ c := by
        rintro rfl
        rw [hp] at hd
        cases hd
      exact (ho rfl d hdc).phase.trans hd
  | initSet hp =>
    refine h.land (ho rfl) rfl rfl rfl rfl (by simp [hp]) (by simp [seat, hp])
      (update_self ..) fun me hme d l => ?_
    simp only [setPhase, update_self, Option.some.injEq] at hme
    exact unseated_of_adopting hex (hme ▸ hp)
  | note | wakeCurrent | wakeClaim | wake | wakePush | spawnPush | markOnline | setPreemption =>
    exact h.keep rfl rfl rfl rfl (fun _ => rfl) fun _ hrun => hrun

/-- A change to the calls of a thread between two instructions of its own. -/
theorem recalled {calls : List Call} (h : Restores s)
    (hme : s.sys.running c = some me) (ht : s.sys.tail me = []) (hb : s.sys.base me = .code)
    (hc : Awaiting (s.sys.irqOn c) (s.calls me) → Awaiting (s.sys.irqOn c) calls) :
    Restores { s with calls := update s.calls me calls } := by
  obtain ⟨hp, hcur⟩ := St.running_eq_some.mp hme
  refine h.rebase (b := .code) (fun d _ => .refl _ d) hp hcur ht rfl rfl rfl rfl ?_
    (fun x hx => update_of_ne hx ..) ?_
  · rw [← hb, update_eq_self]
  · simp only [hb, update_self]
    exact hc

theorem step {turn : Turn n} (hex : Exclusive s.sys) (h : Restores s)
    (hs : s.step turn = some t) : Restores t := by
  cases turn with
  | sched a =>
    obtain ⟨hbar, u, hu, rfl⟩ := Traced.sched_spec hs
    exact h.sched hex hbar hu
  | blockOn c =>
    obtain ⟨me, hme, ht, hb, hw, rfl⟩ := Traced.blockOn_spec hs
    refine h.recalled hme ht hb fun hat => ⟨⟨by simp, by simp⟩, ?_⟩
    -- The calls around the new one are in a poll, and so at any flag.
    intro outer ho f
    cases hc : s.calls me with
    | nil =>
      rw [hc] at ho
      cases ho
    | cons call calls =>
      rw [hc] at ho
      have hany := hat.of_not_waits hw f
      rw [hc] at hany
      rcases List.mem_cons.mp ho with rfl | ho
      · exact hany.1
      · exact hany.2 outer ho f
  | pending c =>
    obtain ⟨me, entry, spoiled, calls, hp, rfl⟩ := Traced.pending_spec hs
    obtain ⟨hme, ht, hb, hc⟩ := Traced.polling_spec hp
    refine h.recalled hme ht hb fun hat => ?_
    rw [hc] at hat
    exact hat
  | ready c =>
    obtain ⟨me, entry, spoiled, calls, hp, rfl⟩ := Traced.ready_spec hs
    obtain ⟨hme, ht, hb, hc⟩ := Traced.polling_spec hp
    refine h.recalled hme ht hb fun hat => ?_
    rw [hc] at hat
    exact hat.outer _

end Restores

namespace Traced

variable {s t : Traced n} {turns : List (Turn n)}

/-- The turns of a run change the scheduler as its own acts do, or not at all. -/
theorem exclusive_step {turn : Turn n} (hex : Exclusive s.sys) (hs : s.step turn = some t) :
    Exclusive t.sys := by
  cases turn with
  | sched a =>
    obtain ⟨-, u, hu, rfl⟩ := sched_spec hs
    exact hex.step hu
  | blockOn c =>
    obtain ⟨me, -, -, -, -, rfl⟩ := blockOn_spec hs
    exact hex
  | pending c =>
    obtain ⟨me, entry, spoiled, calls, -, rfl⟩ := pending_spec hs
    exact hex
  | ready c =>
    obtain ⟨me, entry, spoiled, calls, -, rfl⟩ := ready_spec hs
    exact hex

theorem restores_of_run (hrun : Run Traced.Step (boot n) turns s) :
    Exclusive s.sys ∧ Restores s := by
  refine hrun.invariant (p := fun s => Exclusive s.sys ∧ Restores s) ?_ ⟨Exclusive.boot, .boot⟩
  rintro s turn t ⟨hex, h⟩ hs
  exact ⟨exclusive_step hex hs, h.step hex hs⟩

variable {c : Fin n} {me : ThreadId}

theorem schedule_returns (h : Restores s) (hs : s.step (.sched (.run c .frame)) = some t)
    (hme : s.sys.running c = some me) (he : endsSchedule (s.sys.tail me) = true) :
    ∃ rest, s.calls me = .schedule (t.sys.irqOn c) :: rest := by
  obtain ⟨-, u, hu, rfl⟩ := sched_spec hs
  obtain @⟨_, me', _, k, hp, hcur, hk⟩ := St.runLocal_moves hu
  obtain rfl := Option.some.inj (hme.symm.trans (St.running_eq_some.mpr ⟨hp, hcur⟩))
  obtain ⟨rest, hc, -⟩ := (h.seated c me [] (St.seat_of_run hp hcur)).returned hk he
  refine ⟨rest, ?_⟩
  simp only [St.setCtl, update_self]
  exact hc

theorem park_returns (h : Restores s) (hs : s.step (.sched (.run c .parkReturn)) = some t)
    (hme : s.sys.running c = some me) :
    ∃ entry spoiled rest, s.calls me = .park entry spoiled :: rest ∧
      (t.sys.irqOn c = entry ↔ spoiled = false) := by
  obtain ⟨-, u, hu, rfl⟩ := sched_spec hs
  obtain @⟨_, me', _, k, hp, hcur, hk⟩ := St.runLocal_moves hu
  obtain rfl := Option.some.inj (hme.symm.trans (St.running_eq_some.mpr ⟨hp, hcur⟩))
  obtain ⟨entry, spoiled, rest, hc, hf, -⟩ :=
    (h.seated c me [] (St.seat_of_run hp hcur)).parkReturn hk
  refine ⟨entry, spoiled, rest, hc, ?_⟩
  simp only [St.setCtl, update_self]
  exact hf

theorem blockOn_returns (h : Restores s) (hst : s.step (.ready c) = some t)
    (hme : s.sys.running c = some me) :
    ∃ entry spoiled stage rest, s.calls me = .blockOn entry spoiled stage :: rest ∧
      (t.sys.irqOn c = entry ↔ spoiled = false) := by
  obtain ⟨me', entry, spoiled, rest, hpo, rfl⟩ := ready_spec hst
  obtain ⟨hme', ht, hb, hc⟩ := polling_spec hpo
  obtain rfl := Option.mem_unique hme hme'
  obtain ⟨hp, hcur⟩ := St.running_eq_some.mp hme
  have hat := h.seated c me [] (St.seat_of_run hp hcur)
  rw [ht, hb, List.append_nil, hc] at hat
  obtain ⟨⟨hs, hf⟩, -⟩ := hat
  refine ⟨entry, spoiled, _, rest, hc, ?_⟩
  rw [hf]
  cases spoiled
  · simp
  · simp [hs rfl]

/-- In every run of the threads and CPUs, a call of `schedule`, `park` or `block_on` returns
with the flag it was entered with exactly if it is not spoiled. Between parking and
`schedule`, `park` runs masked. -/
theorem flag_restored_iff (hrun : Run Traced.Step (boot n) turns s) :
    (∀ turn t c me fn, s.step turn = some t → s.returns turn = some (c, me, fn) →
      ∃ call rest, s.calls me = call :: rest ∧ call.fn = fn ∧
        (t.sys.irqOn c = call.entry ↔ call.spoiled = false)) ∧
    ∀ c me irq, s.sys.running c = some me → s.sys.base me = .park irq .sched →
      s.sys.irqOn c = false := by
  obtain ⟨-, h⟩ := restores_of_run hrun
  constructor
  · intro turn t c me fn hstep hret
    match turn, hret with
    | .sched (.run d .frame), hret =>
      obtain ⟨x, hx, hret⟩ := Option.bind_eq_some_iff.mp hret
      split_ifs at hret with hends
      cases hret
      obtain ⟨rest, hcalls⟩ := schedule_returns h hstep hx hends
      exact ⟨_, rest, hcalls, rfl, iff_of_true rfl rfl⟩
    | .sched (.run d .parkReturn), hret =>
      obtain ⟨x, hx, hret⟩ := Option.map_eq_some_iff.mp hret
      cases hret
      obtain ⟨entry, spoiled, rest, hcalls, hflag⟩ := park_returns h hstep hx
      exact ⟨_, rest, hcalls, rfl, hflag⟩
    | .ready d, hret =>
      obtain ⟨x, hx, hret⟩ := Option.map_eq_some_iff.mp hret
      cases hret
      obtain ⟨entry, spoiled, stage, rest, hcalls, hflag⟩ := blockOn_returns h hstep hx
      exact ⟨_, rest, hcalls, rfl, hflag⟩
  · intro c me irq hme hbase
    obtain ⟨hphase, hcur⟩ := St.running_eq_some.mp hme
    exact (h.seated c me [] (St.seat_of_run hphase hcur)).masked hbase

/-- A `block_on` entered with interrupts enabled, whose thread is woken in its halt. -/
theorem flag_restored_enabled :
    ∃ s : Traced 1, Run Traced.Step (boot 1)
      (List.map Turn.sched (bootCpu 0 ++ [.run 0 (.setIrq true)]) ++ [.blockOn 0, .pending 0] ++
        List.map Turn.sched (parkAlone 0 ++ [.unpark ⟨0⟩, .run 0 .interrupt, .parkCheck 0,
          .run 0 .parkReturn])) s ∧
      ∃ t, s.step (.ready 0) = some t ∧ s.returns (.ready 0) = some (0, ⟨0⟩, .blockOn) ∧
        t.sys.irqOn 0 = true := by
  refine exists_run_of_exec (p := fun s => (s.step (.ready 0)).isSome = true ∧
      s.returns (.ready 0) = some (0, ⟨0⟩, .blockOn) ∧
      s.calls ⟨0⟩ = [.blockOn true false (.polling true)])
    (by decide +kernel) fun s hrun hfacts => ?_
  obtain ⟨hstep, hret, hcalls⟩ := hfacts
  obtain ⟨t, ht⟩ := Option.isSome_iff_exists.mp hstep
  refine ⟨t, ht, hret, ?_⟩
  obtain ⟨call, rest, hcall, -, hflag⟩ := (flag_restored_iff hrun).1 _ t 0 ⟨0⟩ .blockOn ht hret
  obtain ⟨rfl, -⟩ := List.cons.inj (hcalls.symm.trans hcall)
  exact hflag.mpr rfl

/-- The same calls with interrupts off: `park` was entered masked and returns with
interrupts on, and `block_on` after it. -/
theorem masked_park_returns_enabled :
    ∃ s : Traced 1, Run Traced.Step (boot 1)
      (List.map Turn.sched (bootCpu 0) ++ [.blockOn 0, .pending 0] ++
        List.map Turn.sched (parkAlone 0 ++ [.unpark ⟨0⟩, .run 0 .interrupt, .parkCheck 0])) s ∧
      s.returns (.sched (.run 0 .parkReturn)) = some (0, ⟨0⟩, .park) ∧
      (s.calls ⟨0⟩).map Call.entry = [false, false] ∧
      (s.step (.sched (.run 0 .parkReturn))).map (fun t => t.sys.irqOn 0) = some true ∧
      (s.step (.sched (.run 0 .parkReturn))).bind (fun t => t.returns (.ready 0)) =
        some (0, ⟨0⟩, .blockOn) ∧
      (exec Traced.step s [.sched (.run 0 .parkReturn), .ready 0]).map (fun t => t.sys.irqOn 0) =
        some true := by
  exact exists_run_of_exec (by decide +kernel) fun _ _ hfacts => hfacts

end Traced

end Qunix.Sched
