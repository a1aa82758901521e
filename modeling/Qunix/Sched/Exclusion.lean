/-
A thread is never dispatched twice at once: every step of the machine keeps
`Exclusive`, so it holds in every state a run reaches.
-/

import Qunix.Sched.Arrivals
import Qunix.Sched.Places

namespace Qunix.Sched

open Function Qunix.Lib

variable {n : Nat}

/-! ### Control steps -/

theorem Base.Parking.wake {b : Base} (h : b.Parking) : b.wake.Parking := by
  obtain ⟨irq, stage, rfl, hne⟩ := h
  cases stage with
  | halt => exact ⟨irq, .recheck, rfl, by decide⟩
  | _ => exact ⟨irq, _, rfl, hne⟩

variable {irq : Bool} {k k' : Ctl} {e : Enter}

theorem Base.not_parking_done : ¬ (Base.park irq .done).Parking := by
  rintro ⟨_, _, h, hne⟩
  cases h
  exact hne rfl

/-- A thread's own steps leave `park` through its last stage only. -/
theorem Ctl.Runs.parking {a : Local} (h : k.Runs a k') (hb : k.base.Parking) :
    k'.base.Parking := by
  cases h with
  | start | restore | drop | iret => exact hb
  | interrupt => exact hb.wake
  | mask | parkSti => exact ⟨_, _, rfl, by decide⟩
  | parkReturn => exact absurd hb Base.not_parking_done
  | _ => obtain ⟨_, _, h, -⟩ := hb; cases h

theorem Ctl.Enters.parking {out : ThreadState} (h : k.Enters e k' out irq) (hb : k.base.Parking) :
    k'.base.Parking := by
  cases h with
  | tick => exact hb.wake
  | yield | sysYield => exact hb
  | park => exact ⟨_, _, rfl, by decide⟩
  | exit => obtain ⟨_, _, h, -⟩ := hb; cases h

theorem Ctl.Enters.exiting (h : k.Enters e k' .exited irq) : k'.base.Exiting := by
  cases h
  exact ⟨_, rfl⟩

namespace Exclusive

open St

variable {s t : St n} {c d : Fin n} {x me id : ThreadId} {e : Thread n} {prio : Priority}

theorem flags_wokenTable (ht : s.table id = some e) :
    (s.wokenTable id e).flags id = some ⟨false, e.park.pending⟩ := by
  rw [wokenTable, flags_modify, if_pos rfl, ht]
  rfl

private theorem countP_erase_add {α : Type*} [BEq α] [LawfulBEq α] {l : List α} {a : α}
    (p : α → Bool)
    (h : a ∈ l) : (l.erase a).countP p + (if p a = true then 1 else 0) = l.countP p := by
  rw [(List.perm_cons_erase h).countP_eq p, List.countP_cons]

section

variable (h : Exclusive s)

include h

/-- The wakeup that was waiting is consumed: the thread was not parked. -/
theorem parkCancelled {irq : Bool} (hph : s.phase c = .run) (hcur : s.current c = some me)
    (ht : s.table me = some e) (hpe : e.park.pending = true) :
    Exclusive ((s.modify me fun e' =>
      { e' with park := ⟨e.park.parked, false⟩ }).setBase me (.park irq .done)) := by
  have hf : s.flags me = some e.park := by rw [flags, ht]; rfl
  have hnot : e.park.parked = false := by
    rw [Bool.eq_false_iff]
    intro hp
    have := h.sober me e.park hf hp
    rw [hpe] at this
    cases this
  have hs : s.parked me = false := by rw [parked_eq, hf]; exact hnot
  have hp : (s.modify me fun e' => { e' with park := ⟨e.park.parked, false⟩ }).flags me =
      some ⟨false, false⟩ := by
    rw [flags_modify, if_pos rfl, ht, hnot]
    rfl
  have htag : ∀ d, s.handoff d ≠ .parked me := fun d hd => by
    rw [h.tagged d me hd] at hs
    cases hs
  have hmod := h.setFlags hp (by simp) (by simp) (by simp) fun d hd => absurd hd (htag d)
  refine hmod.setBase hph hcur fun hpk => ?_
  rw [parked_eq, hp] at hpk
  cases hpk

theorem note (ht : s.table id = some e) (hp : e.park.parked = false) :
    Exclusive (s.modify id fun e' => { e' with park := ⟨false, true⟩ }) := by
  have hnot : s.parked id = false := by rw [parked_eq, flags, ht]; exact hp
  refine h.setFlags (p := ⟨false, true⟩) ?_ (by simp) (by simp) (by simp) fun d hd => ?_
  · rw [flags_modify, if_pos rfl, ht]
    rfl
  · rw [h.tagged d id hd] at hnot
    cases hnot

theorem wokenTable (ht : s.table id = some e) (hs : ∀ d, s.handoff d ≠ .parked id) :
    Exclusive (s.wokenTable id e) :=
  h.setFlags (flags_wokenTable ht) (by simp) (by simp) (by simp) fun d hd => absurd hd (hs d)

theorem not_tagged_of_current (hcur : s.current c = some id) (d : Fin n) :
    s.handoff d ≠ .parked id := by
  intro hd
  have hone := h.places_current hcur
  have hs := le_tally (f := Handoff.holdsParked id) (g := s.handoff) d
  have hn := le_tally (f := namesCurrent id) (g := s.current) c
  simp only [hd, hcur, Handoff.holdsParked, namesCurrent, if_true] at hs hn
  simp only [held] at hone
  omega

theorem wake (ht : s.table id = some e) (hp : e.park.parked = true)
    (hcur : ∀ c, s.current c ≠ some id) (hs : ∀ c, s.handoff c ≠ .parked id) (prio : Priority)
    (home : Option (Fin n)) :
    Exclusive { s.wokenTable id e with wakes := ⟨id, prio, home⟩ :: s.wakes } := by
  have hpa : s.parked id = true := by rw [parked_eq, flags, ht]; exact hp
  have hw := flags_wokenTable ht
  have hr : id ∉ s.reapable := fun hmem => by
    rw [h.not_parked_of_exiting (h.dead id hmem)] at hpa
    cases hpa
  refine (h.wokenTable ht hs).enlist id ?_ ?_ hr ?_ (fun x => ?_)
    fun c => ⟨rfl, rfl, fun hl => hl⟩
  · change s.runnable id + s.held id = 0
    rw [h.parkedHeld id hpa, held_eq_zero hcur hs]
  · rw [hw]
    rfl
  · rw [parked_eq, hw]
    rfl
  · have hwa : (s.wokenTable id e).wakes = s.wakes := rfl
    simp only [runnable, hwa, List.countP_cons, beq_iff_eq]
    omega

theorem publishPush (hph : s.phase c = .publishing id prio) :
    Exclusive
      ({ s with queue := update s.queue c ((s.queue c).push id prio) }.setPhase c .run) := by
  have he : s.handoff c = .empty := h.slot_empty (by rw [hph]; rfl) (by simp [hph])
  refine h.move (fun hne => absurd he hne) (by simp [Phase.choosing]) (by simp [Phase.window])
    fun x => ?_
  have hp : _ + (s.phase c).holding x = _ + 0 := runnable_setPhase
    (s := { s with queue := update s.queue c ((s.queue c).push id prio) }) .run
  have hq := runnable_queue (s := s) (d := c) (x := x) ((s.queue c).push id prio)
  have hpu := (s.queue c).count_push_le id x prio
  rw [hph] at hp
  change _ + (if id = x then 1 else 0) = _ at hp
  omega

/-- A wakeup or a spawn queues the thread it holds. -/
theorem queued {wakes : List (Wake n)} {spawns : List (ThreadId × Priority)}
    (hle : ∀ x, wakes.countP (fun w => w.id == x) + spawns.countP (fun p => p.1 == x) +
      (if id = x then 1 else 0) =
        s.wakes.countP (fun w => w.id == x) + s.spawns.countP fun p => p.1 == x) :
    Exclusive { s with
      wakes := wakes
      spawns := spawns
      queue := update s.queue c ((s.queue c).push id prio) } := by
  refine h.requeue fun x => ?_
  have hq := tally_update (f := fun q => q.count x) (g := s.queue) (i := c)
    ((s.queue c).push id prio)
  have hp := (s.queue c).count_push_le id x prio
  have hw := hle x
  simp only [runnable]
  omega

section Insert

variable {table : ThreadId → Option (Thread n)} {b : Base} {f : Fin n → Phase n}
  {spawns : List (ThreadId × Priority)}

theorem insert
    (hf : ∀ x, (table x).map Thread.park = if x = ⟨s.nextId⟩ then some .fresh else s.flags x)
    (hrun : ∀ x, { s with phase := f, spawns := spawns }.runnable x ≤
      s.runnable x + if (⟨s.nextId⟩ : ThreadId) = x then 1 else 0)
    (hp : ∀ c, (f c).window = (s.phase c).window ∧
      (f c).choosing = (s.phase c).choosing ∧ (s.phase c = .landed → f c = .landed)) :
    Exclusive { s with
      table := table
      nextId := s.nextId + 1
      base := update s.base ⟨s.nextId⟩ b
      phase := f
      spawns := spawns } := by
  have hnew : (table ⟨s.nextId⟩).map Thread.park = some .fresh := by rw [hf, if_pos rfl]
  refine (h.register hf).enlist ⟨s.nextId⟩ h.places_nextId ?_ h.fresh_nextId ?_ hrun hp
  · rw [flags, hnew]
    rfl
  · rw [parked_eq, flags, hnew]
    rfl

end Insert

theorem initSet (hph : s.phase c = .adopting id) :
    Exclusive ({ s with current := update s.current c (some id) }.setPhase c .run) := by
  have hrun : ∀ x, (s.setPhase c .run).runnable x + (if id = x then 1 else 0) = s.runnable x :=
    fun x => by
      have hp : _ + (s.phase c).holding x = _ + 0 := runnable_setPhase .run
      rw [hph] at hp
      exact hp
  have hh : ∀ x, { s with current := update s.current c (some id) }.held x ≤
      s.held x + if id = x then 1 else 0 := fun x => by
    have hc := held_current (s := s) (c := c) (x := x) (some id)
    simp only [namesCurrent, Option.some.injEq] at hc
    omega
  have hpl : ∀ x, (s.setPhase c .run).runnable x +
      { s with current := update s.current c (some id) }.held x ≤ s.places x := fun x => by
    have := hrun x
    have := hh x
    simp only [places]
    omega
  have hl : Exclusive (s.setPhase c .run) :=
    h.look (by rw [hph]; rfl) (by simp [hph]) (fun _ => rfl) (.inl rfl) rfl
  refine { hl with once := ?_, live := ?_, exiting := ?_ }
  · exact fun x => (hpl x).trans (h.once x)
  · exact fun x hx => h.live x (Nat.lt_of_lt_of_le hx (hpl x))
  · intro d x hd hx
    rcases eq_or_ne d c with rfl | hdc
    · simp only [St.setPhase, update_self] at hd
      cases hd
    · refine hl.exiting d x hd ?_
      simpa [St.setPhase, update_of_ne hdc] using hx

theorem step {a : Act n} (ht : s.step a = some t) : Exclusive t := by
  cases step_moves ht with
  | @run c me a k hph hcur hk =>
    exact { h.setBase hph hcur fun hp => hk.parking (h.parkedBase me hp) with }
  | @enter c me e k out irq hph hcur hk =>
    have he : s.handoff c = .empty := h.slot_empty (by rw [hph]; rfl) (by rw [hph]; simp)
    have hctl : Exclusive (s.setCtl c me k) :=
      { h.setBase hph hcur fun hp => hk.parking (h.parkedBase me hp) with }
    refine hctl.setPhase (fun hne => absurd he hne) (fun hout x hx => ?_)
      (by simp [Phase.window]) fun x => Nat.zero_le _
    obtain rfl : out = .exited := Option.some.inj hout
    obtain rfl : me = x := Option.mem_unique hcur hx
    simpa using hk.exiting
  | parkCancelled hph hcur _ _ hta hpe => exact h.parkCancelled hph hcur hta hpe
  | @parked c me irq e hph hcur _ hb hta =>
    have hp :
        (s.modify me fun e' => { e' with park := ⟨true, false⟩, state := .blocked }).flags me =
        some ⟨true, false⟩ := by
      rw [flags_modify, if_pos rfl, hta]
      rfl
    have hmod := h.setFlags hp (fun _ => rfl) (fun _ => (h.places_current hcur).1)
      (fun _ => ⟨irq, .top, hb, by decide⟩) fun _ _ => rfl
    exact hmod.setBase hph hcur fun _ => ⟨irq, .sched, rfl, by decide⟩
  | @parkCheck c me irq stage hph hcur _ hstage =>
    refine h.setBase hph hcur fun hp => ⟨irq, stage, rfl, ?_⟩
    rcases hstage with ⟨-, rfl⟩ | ⟨-, rfl⟩
    · simp [hp]
    · simp [hp]
  | exitCheck hph hcur _ hb =>
    refine h.setBase hph hcur fun hp => ?_
    rw [h.not_parked_of_exiting ⟨_, hb⟩] at hp
    cases hp
  | @adopt c me root e hph hcur _ hb =>
    have hmod : Exclusive (s.modify me fun e => { e with addressSpace := some root }) :=
      h.setTable fun x => map_modify Thread.park fun _ => rfl
    refine hmod.setBase hph hcur fun hp => ?_
    obtain ⟨_, _, hpa, -⟩ := hmod.parkedBase me hp
    exact absurd (hb.symm.trans hpa) (by simp)
  | reapNone _ _ _ hn =>
    refine { h.bury s.table fun x => ?_ with }
    split_ifs with hg
    · have : x ∉ s.corpses := by simp [hn]
      rw [corpses, List.mem_filter, not_and] at this
      simpa using this hg
    · rfl
  | reap =>
    refine { h.bury _ fun x => ?_ with }
    simp only [relocate, Option.map_map]
    split
    · rfl
    · rfl
  | search hph | pass hph | giveUp hph =>
    exact h.look (by rw [hph]; rfl) (by simp [hph]) (fun _ => rfl)
      (.inr (by rw [hph]; rfl)) rfl
  | pop hph _ hpop | popLast hph hpop =>
    obtain ⟨_, _, hl, -⟩ := RunQueue.pop_spec hpop
    exact h.take (by rw [hph]; rfl) (by simp [hph]) (by rw [hph]; rfl) fun x => hl.count
  | steal hph _ hst =>
    obtain ⟨_, _, hl, -⟩ := RunQueue.steal_spec hst
    exact h.take (by rw [hph]; rfl) (by simp [hph]) (by rw [hph]; rfl) fun x => hl.count
  | noNext hph =>
    exact { h.look (by rw [hph]; rfl) (by simp [hph]) (fun _ => rfl) (.inl rfl)
      rfl with }
  | @decide c out irq next me e ctx old hph hcur =>
    have hf : ∀ x, ((((s.handOn c me out).modify next
        fun e => { e with state := .running }).table x).map Thread.park) = s.flags x := fun x =>
      flags_decided
    rcases eq_or_ne out .exited with rfl | hout
    · exact { (h.leave hph hcur rfl).setTable hf with }
    · rw [handOn_of_ne hout] at hf ⊢
      exact { (h.handOff hph hcur rfl rfl).setTable hf with }
  | setKernelStack hph | activateRoot hph => exact { h.advance (by rw [hph]; rfl) rfl with }
  | @switch c =>
    have hla : Exclusive (s.setPhase c .landed) :=
      h.setPhase (fun _ => .inr rfl) (by simp [Phase.choosing]) (by simp [Phase.window])
        fun x => Nat.zero_le _
    exact { hla.setTable fun x => map_storeContext Thread.park fun _ _ => rfl with }
  | publish hph hs =>
    exact h.publish hph (fun x => by rw [hs]; exact le_rfl) rfl rfl
  | publishNone hph => exact h.publish hph (fun x => Nat.zero_le _) rfl rfl
  | publishPush hph => exact h.publishPush hph
  | note hta hp => exact h.note hta hp
  | wakeCurrent hta _ hcur =>
    obtain ⟨c, hcur⟩ := hcur
    exact h.wokenTable hta (h.not_tagged_of_current hcur)
  | wakeClaim hta _ _ hs => exact h.claim hs (flags_wokenTable hta)
  | wake hta hp hcur hs => exact h.wake hta hp hcur hs _ _
  | wakePush hmem =>
    refine h.queued fun x => ?_
    have := countP_erase_add (fun w => w.id == x) hmem
    simp only [beq_iff_eq] at this
    omega
  | spawn _ _ _ _ _ _ hta =>
    refine { h.insert (fun x => ?_) (fun x => ?_) fun c => ⟨rfl, rfl, fun hl => hl⟩ with }
    · rw [hta]
      exact park_relocate_update rfl
    · simp only [runnable, List.countP_cons, beq_iff_eq]
      omega
  | spawnPush hmem =>
    refine h.queued fun x => ?_
    have := countP_erase_add (fun p => p.1 == x) hmem
    simp only [beq_iff_eq] at this
    omega
  | @initLock c place table hph _ hta =>
    refine { h.insert (f := update s.phase c (.adopting ⟨s.nextId⟩)) (fun x => ?_) (fun x => ?_)
      fun d => ?_ with }
    · rw [hta]
      exact park_relocate_update rfl
    · have hp := runnable_setPhase (s := s) (c := c) (x := x) (.adopting ⟨s.nextId⟩)
      change _ = _ + (if (⟨s.nextId⟩ : ThreadId) = x then 1 else 0) at hp
      change (s.setPhase c (.adopting ⟨s.nextId⟩)).runnable x ≤ _
      omega
    · rcases eq_or_ne d c with rfl | hdc
      · rw [update_self, hph]
        exact ⟨rfl, rfl, by simp⟩
      · rw [update_of_ne hdc]
        exact ⟨rfl, rfl, fun hl => hl⟩
  | initSet hph => exact h.initSet hph
  | markOnline | setPreemption => exact { h with }

/-- Between the decision and the end of the switch the outgoing thread is
neither current nor taken anywhere. -/
theorem outgoing_nowhere {w : Window} (hw : (s.phase c).window = some w) (d : Fin n) :
    s.current d ≠ some w.outgoing ∧ (s.phase d).holding w.outgoing = 0 ∧
      (s.queue d).count w.outgoing = 0 := by
  have hone := h.once w.outgoing
  have hz : tally (Phase.holding w.outgoing) s.phase = 0 ∧
      tally (fun q => q.count w.outgoing) s.queue = 0 ∧
      tally (namesCurrent w.outgoing) s.current = 0 := by
    rcases h.outgoing c w hw with hr | hr | ⟨-, -, hde⟩
    · have hs := le_tally (f := Handoff.holdsReady w.outgoing) (g := s.handoff) c
      simp only [hr, Handoff.holdsReady, if_true] at hs
      simp only [places, runnable, held] at hone
      omega
    · have hs := le_tally (f := Handoff.holdsParked w.outgoing) (g := s.handoff) c
      simp only [hr, Handoff.holdsParked, if_true] at hs
      simp only [places, runnable, held] at hone
      omega
    · have hn := h.places_eq_zero hde
      simp only [places, runnable, held] at hn
      omega
  refine ⟨fun heq => ?_, tally_eq_zero.mp hz.1 d, tally_eq_zero.mp hz.2.1 d⟩
  have hd := tally_eq_zero.mp hz.2.2 d
  simp [namesCurrent, heq] at hd

/-- A parked thread is in no run queue. -/
theorem count_of_parked (hx : s.parked x = true) : (s.queue c).count x = 0 := by
  have hle := St.count_le_runnable (s := s) (c := c) (x := x)
  rw [h.parkedHeld x hx] at hle
  exact Nat.le_zero.mp hle

end

theorem boot : Exclusive (St.boot n) := by
  have hp : ∀ x, (St.boot n).places x = 0 := fun x => by
    simp [places, runnable, held, St.boot, tally, Phase.holding, Handoff.holdsReady,
      Handoff.holdsParked, namesCurrent]
  have hpa : ∀ x, (St.boot n).parked x = false := fun x => rfl
  constructor
  · exact fun x => (Nat.le_of_eq (hp x)).trans (Nat.zero_le 1)
  · intro x hx
    rw [hp] at hx
    cases hx
  · rintro x (hx | hx)
    · cases hx
    · cases hx
  · rintro _ _ ⟨⟩
  · intro x hx
    cases hx
  · intro x hx
    cases hx
  · rintro _ _ ⟨⟩
  · exact fun c hc => absurd rfl hc
  · rintro _ _ ⟨⟩
  · rintro _ ⟨⟩
  · rintro _ _ ⟨⟩

theorem run {as : List (Act n)} (hrun : Run St.Step (St.boot n) as s) : Exclusive s :=
  hrun.invariant (fun _ _ _ h ht => h.step ht) boot

end Exclusive

end Qunix.Sched
