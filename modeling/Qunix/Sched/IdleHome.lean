/-
An idle thread stays on its processor.

The idle thread of a CPU is the context the CPU booted on; another CPU that ran it
would run on that stack. It may park and be woken from anywhere, and it reaches run
queues by three pushes: the wakeup's, which goes to the thread's home, the
publication's, which decodes the priority from the handoff slot, and none at
bring-up. `AtHome` says where it can be found, and with what priority; thieves look
at runnable threads only, so it is never theirs.
-/

import Qunix.Sched.Exclusion

namespace Qunix.Sched

open Function Qunix.Lib

variable {n : Nat}

/-- The thread a CPU has in hand: taken from a queue, about to be queued, or being
adopted. -/
def Phase.carried : Phase n → Option ThreadId
  | .adopting id => some id
  | .took _ _ id => some id
  | .publishing id _ => some id
  | _ => none

namespace St

/-- What the table says about where a thread may go. -/
def rank (s : St n) (x : ThreadId) : Option (Priority × Option (Fin n)) :=
  (s.table x).map fun e => (e.priority, e.homeCpu)

end St

structure AtHome (s : St n) (x : ThreadId) (c : Fin n) : Prop where
  issued : x.val < s.nextId
  rank : ∀ r, s.rank x = some r → r = (.idle, some c)
  current : ∀ d, s.current d = some x → d = c
  carried : ∀ d, (s.phase d).carried = some x → d = c
  publishing : ∀ d prio, s.phase d = .publishing x prio → prio = .idle
  slot : ∀ d, s.handoff d = .ready x ∨ s.handoff d = .parked x →
    d = c ∧ s.handoffPriority d = Priority.idle.raw
  queued : ∀ d prio, x ∈ (s.queue d).bandOf prio → d = c ∧ prio = .idle
  wakes : ∀ w ∈ s.wakes, w.id = x → w.prio = .idle ∧ w.home = some c
  spawns : ∀ prio, (x, prio) ∉ s.spawns

namespace AtHome

open St

variable {s t : St n} {x me id : ThreadId} {c d : Fin n}

/-- Steps that move no thread: entries may go, and a CPU may drop out of a phase that
has a thread in hand. -/
structure Keeps (s t : St n) : Prop where
  nextId : s.nextId ≤ t.nextId
  rank : ∀ x r, x.val < s.nextId → t.rank x = some r → s.rank x = some r
  current : t.current = s.current
  phase : ∀ d, t.phase d = s.phase d ∨ (t.phase d).carried = none
  handoff : t.handoff = s.handoff
  handoffPriority : t.handoffPriority = s.handoffPriority
  queue : t.queue = s.queue
  wakes : t.wakes = s.wakes
  spawns : ∀ p ∈ t.spawns, p ∈ s.spawns ∨ s.nextId ≤ p.1.val

theorem Keeps.refl (s : St n) : Keeps s s :=
  ⟨le_rfl, fun _ _ _ h => h, rfl, fun _ => .inl rfl, rfl, rfl, rfl, rfl, fun _ h => .inl h⟩

variable {p : Phase n} {f : Thread n → Thread n} {v : Handoff} {q : RunQueue} {e : Thread n}
  {out : ThreadState} {place : ThreadId → Nat}

theorem Keeps.setPhase (h : Keeps s t) (hp : p.carried = none) :
    Keeps s (t.setPhase c p) :=
  { h with
    phase := fun d => by
      rcases eq_or_ne d c with rfl | hdc
      · rw [setPhase_phase_self]
        exact .inr hp
      · rw [setPhase_phase_of_ne _ hdc]
        exact h.phase d }

theorem keeps (h : AtHome s x c) (hk : Keeps s t) : AtHome t x c := by
  constructor
  case issued => exact Nat.lt_of_lt_of_le h.issued hk.nextId
  case rank =>
    intro r hr
    exact h.rank r (hk.rank x r h.issued hr)
  case current =>
    intro d hd
    rw [hk.current] at hd
    exact h.current d hd
  case carried =>
    intro d hd
    rcases hk.phase d with heq | hn
    · rw [heq] at hd
      exact h.carried d hd
    · rw [hn] at hd
      cases hd
  case publishing =>
    intro d prio hd
    rcases hk.phase d with heq | hn
    · rw [heq] at hd
      exact h.publishing d prio hd
    · rw [hd] at hn
      cases hn
  case slot =>
    intro d hd
    rw [hk.handoff] at hd
    rw [hk.handoffPriority]
    exact h.slot d hd
  case queued =>
    intro d prio hd
    rw [hk.queue] at hd
    exact h.queued d prio hd
  case wakes =>
    intro w hw
    rw [hk.wakes] at hw
    exact h.wakes w hw
  case spawns =>
    intro prio hmem
    rcases hk.spawns _ hmem with hold | hnew
    · exact h.spawns prio hold
    · exact absurd h.issued (Nat.not_lt.mpr hnew)

/-- One entry changes, and neither its priority nor its home. -/
theorem rank_of_modify {r : Priority × Option (Fin n)} (hr : (s.modify id f).rank x = some r)
    (hf : ∀ e, (f e).priority = e.priority ∧ (f e).homeCpu = e.homeCpu) : s.rank x = some r := by
  rwa [St.rank, map_modify (g := fun e => (e.priority, e.homeCpu))
    fun e => by rw [(hf e).1, (hf e).2]] at hr

theorem Keeps.modify (hf : ∀ e, (f e).priority = e.priority ∧ (f e).homeCpu = e.homeCpu) :
    Keeps s (s.modify id f) :=
  { Keeps.refl s with rank := fun _ _ _ hr => rank_of_modify hr hf }

section

variable (h : AtHome s x c)

include h

theorem setPhase (hc : p.carried = some x → d = c)
    (hp : ∀ prio, p = .publishing x prio → prio = .idle) : AtHome (s.setPhase d p) x c :=
  { h with
    carried := (forall_update_iff s.phase fun e q => q.carried = some x → e = c).mpr
      ⟨hc, fun e _ => h.carried e⟩
    publishing := (forall_update_iff s.phase fun _ q => ∀ prio, q = .publishing x prio →
      prio = .idle).mpr ⟨hp, fun e _ => h.publishing e⟩ }

theorem setSlot {r : Nat}
    (hv : v = .ready x ∨ v = .parked x → d = c ∧ r = Priority.idle.raw) :
    AtHome { s with
      handoff := update s.handoff d v
      handoffPriority := update s.handoffPriority d r } x c := by
  refine { h with slot := fun e he => ?_ }
  rcases eq_or_ne e d with rfl | hed
  · simp only [update_self] at he ⊢
    exact hv he
  · simp only [update_of_ne hed] at he ⊢
    exact h.slot e he

theorem setHandoff
    (hv : v = .ready x ∨ v = .parked x → d = c ∧ s.handoffPriority d = Priority.idle.raw) :
    AtHome { s with handoff := update s.handoff d v } x c := by
  have hs := h.setSlot hv
  rwa [update_eq_self] at hs

theorem setQueue (hq : ∀ prio, x ∈ q.bandOf prio → d = c ∧ prio = .idle) :
    AtHome { s with queue := update s.queue d q } x c :=
  { h with
    queued := (forall_update_iff s.queue fun e q => ∀ prio, x ∈ q.bandOf prio →
      e = c ∧ prio = .idle).mpr ⟨hq, fun e _ => h.queued e⟩ }

theorem setCurrent (hc : id = x → d = c) :
    AtHome { s with current := update s.current d (some id) } x c :=
  { h with
    current := (forall_update_iff s.current fun e o => o = some x → e = c).mpr
      ⟨fun heq => hc (Option.some.inj heq), fun e _ => h.current e⟩ }

theorem take {prio : Priority} {before after : List ThreadId} {e : Fin n}
    {irq : Bool} (hl : RunQueue.Loses (s.queue d) q prio before id after)
    (hown : prio = .idle → e = d) :
    AtHome ({ s with queue := update s.queue d q }.setPhase e (.took out irq id)) x c := by
  refine (h.setQueue fun prio' hx => h.queued d prio' (hl.mem hx)).setPhase (fun heq => ?_) nofun
  cases heq
  obtain ⟨rfl, hi⟩ := h.queued d prio hl.mem_self
  exact hown hi

/-- A thread is pushed onto a queue, its own if it is the idle thread. -/
theorem push (d : Fin n) (id : ThreadId) (prio : Priority)
    (hh : id = x → d = c ∧ prio = .idle) :
    AtHome { s with queue := update s.queue d ((s.queue d).push id prio) } x c := by
  refine h.setQueue fun prio' hx => ?_
  rcases RunQueue.mem_push hx with hx | ⟨rfl, rfl⟩
  · exact h.queued d prio' hx
  · exact hh rfl

theorem rank_eq (he : s.table x = some e) :
    e.priority = .idle ∧ e.homeCpu = some c :=
  Prod.mk.inj (h.rank (e.priority, e.homeCpu) (by rw [St.rank, he]; rfl))

/-- The outgoing thread goes into the slot of its CPU, with its priority. -/
theorem handOn (out : ThreadState) (hcur : s.current d = some me)
    (hme : (s.table me).isSome) : AtHome (s.handOn d me out) x c := by
  by_cases hout : out = .exited
  · have hk : Keeps s (s.modify me fun e => { e with state := .exited }) :=
      .modify fun _ => ⟨rfl, rfl⟩
    rw [St.handOn, if_pos hout]
    exact { (h.keeps hk).setHandoff (by simp) with }
  · have hk : Keeps s (s.modify me fun e => { e with
        state := if e.state = .exited then .exited
          else if e.park.parked then .blocked else .ready }) :=
      .modify fun _ => ⟨rfl, rfl⟩
    rw [handOn_of_ne hout]
    refine (h.keeps hk).setSlot fun hv => ?_
    obtain rfl : me = x := by
      split at hv
      · simpa using hv
      · simpa using hv
    obtain ⟨e, he⟩ := Option.isSome_iff_exists.mp hme
    refine ⟨h.current d hcur, ?_⟩
    rw [he, Option.map_some, Option.getD_some, (h.rank_eq he).1]

end

theorem Keeps.insert (ht : t.table = relocate place (update s.table ⟨s.nextId⟩ (some e)))
    (hn : t.nextId = s.nextId + 1) (hcur : t.current = s.current) (hph : t.phase = s.phase)
    (hh : t.handoff = s.handoff) (hpr : t.handoffPriority = s.handoffPriority)
    (hq : t.queue = s.queue) (hw : t.wakes = s.wakes)
    (hs : ∀ p ∈ t.spawns, p ∈ s.spawns ∨ p.1 = ⟨s.nextId⟩) : Keeps s t := by
  refine ⟨by omega, ?_, hcur, fun d => .inl (by rw [hph]), hh, hpr, hq, hw, ?_⟩
  · intro x r hx hr
    have hne : x ≠ ⟨s.nextId⟩ := by
      rintro rfl
      exact Nat.lt_irrefl _ hx
    rwa [St.rank, ht, map_relocate (g := fun e => (e.priority, e.homeCpu)) fun _ _ => rfl,
      update_of_ne hne] at hr
  · intro p hp
    rcases hs p hp with hold | hnew
    · exact .inl hold
    · rw [hnew]
      exact .inr (le_rfl)

theorem isSome_of_decided {next : ThreadId} {old : Thread n}
    (hold : ((s.handOn d me out).modify next fun e => { e with state := .running }).table me =
      some old) :
    (s.table me).isSome := by
  have hmap : (((s.handOn d me out).modify next fun e => { e with state := .running }).table me).map
      Thread.addr = (s.table me).map Thread.addr := map_decided _ fun _ _ => rfl
  rw [hold] at hmap
  rw [← Option.isSome_map, ← hmap]
  rfl

theorem step {a : Act n} (h : AtHome s x c) (ht : s.step a = some t) : AtHome t x c := by
  cases step_moves ht with
  | run | parkCheck | exitCheck | reapNone | markOnline | setPreemption =>
    exact h.keeps { Keeps.refl s with }
  | parkCancelled | parked | adopt =>
    exact h.keeps { Keeps.refl s with
      rank := fun _ _ _ hr => rank_of_modify hr fun _ => ⟨rfl, rfl⟩ }
  | note | wakeCurrent => exact h.keeps (.modify fun _ => ⟨rfl, rfl⟩)
  | reap =>
    refine h.keeps { Keeps.refl s with rank := ?_ }
    intro x r _ hr
    rw [St.rank, map_relocate (g := fun e => (e.priority, e.homeCpu)) fun _ _ => rfl] at hr
    split at hr
    · cases hr
    · exact hr
  | search | pass | giveUp | enter | noNext | setKernelStack | activateRoot =>
    exact h.keeps { (Keeps.refl s).setPhase rfl with }
  | pop _ _ hpop | popLast _ hpop =>
    obtain ⟨prio, after, hl, -⟩ := RunQueue.pop_spec hpop
    exact h.take hl fun _ => rfl
  | steal _ hlen hst =>
    -- A thief looks at queues with runnable threads only.
    obtain ⟨prio, before, hl, htop⟩ := RunQueue.steal_spec hst
    exact h.take hl fun hi => absurd hi (RunQueue.ne_idle_of_runnable hlen htop)
  | @decide d out irq next me e ctx old hph hcur _ _ hold =>
    have hmod : Keeps (s.handOn d me out)
        ((s.handOn d me out).modify next fun e => { e with state := .running }) :=
      .modify fun _ => ⟨rfl, rfl⟩
    have hh := (h.handOn out hcur (isSome_of_decided hold)).keeps hmod
    have hcur : AtHome { s with current := update s.current d (some next) } x c := by
      refine h.setCurrent ?_
      rintro rfl
      exact h.carried d (by rw [hph]; rfl)
    exact { hcur.setPhase (p := .decided _) (by simp [Phase.carried]) (by simp) with
      rank := hh.rank
      slot := hh.slot }
  | switch =>
    refine h.keeps { (Keeps.refl s).setPhase rfl with rank := ?_ }
    intro x r _ hr
    rwa [St.rank, St.setPhase, map_storeContext (g := fun e => (e.priority, e.homeCpu))
      fun _ _ => rfl] at hr
  | @publish d id hph hs =>
    -- The priority comes back out of the slot as it went in.
    refine (h.setHandoff (by simp)).setPhase (fun heq => ?_) fun prio heq => ?_
    · cases heq
      exact (h.slot d (.inl hs)).1
    · obtain ⟨rfl, rfl⟩ := Phase.publishing.inj heq
      rw [(h.slot d (.inl hs)).2, priorityFromRaw_raw]
  | publishNone => exact (h.setHandoff (by simp)).setPhase (by simp [Phase.carried]) (by simp)
  | @publishPush d id prio hph =>
    refine (h.push d id prio ?_).setPhase (by simp [Phase.carried]) (by simp)
    rintro rfl
    exact ⟨h.carried d (by rw [hph]; rfl), h.publishing d prio hph⟩
  | @wakeClaim id e d _ _ _ hs =>
    have hwo : AtHome (s.wokenTable id e) x c := h.keeps (.modify fun _ => ⟨rfl, rfl⟩)
    refine hwo.setHandoff fun hv => ?_
    obtain rfl : id = x := by simpa using hv
    exact h.slot d (.inr hs)
  | @wake id e he =>
    have hwo : AtHome (s.wokenTable id e) x c := h.keeps (.modify fun _ => ⟨rfl, rfl⟩)
    refine { hwo with wakes := fun w hw hid => ?_ }
    rcases List.mem_cons.mp hw with rfl | hw
    · obtain rfl : id = x := hid
      exact h.rank_eq he
    · exact h.wakes w hw hid
  | @wakePush w d e hw he =>
    have hpu := h.push e w.id w.prio (by
      intro hid
      obtain ⟨hpr, hho⟩ := h.wakes w hw hid
      exact ⟨by rw [he, hho]; rfl, hpr⟩)
    exact { hpu with wakes := fun w' hw' => h.wakes w' (List.mem_of_mem_erase hw') }
  | spawn _ _ _ _ _ _ hta =>
    refine h.keeps (Keeps.insert hta rfl rfl rfl rfl rfl rfl rfl fun p hp => ?_)
    rcases List.mem_cons.mp hp with rfl | hp
    · exact .inr rfl
    · exact .inl hp
  | @spawnPush id prio d hmem =>
    have hpu := h.push d id prio (by
      rintro rfl
      exact absurd hmem (h.spawns prio))
    exact { hpu with spawns := fun prio' hp => h.spawns prio' (List.mem_of_mem_erase hp) }
  | @initLock d place table _ _ hta =>
    have hins : AtHome { s with
        table := table
        nextId := s.nextId + 1
        base := update s.base ⟨s.nextId⟩ .code
        tail := update s.tail ⟨s.nextId⟩ []
        rsp := update s.rsp ⟨s.nextId⟩ none } x c :=
      h.keeps (Keeps.insert hta rfl rfl rfl rfl rfl rfl rfl fun _ hp => .inl hp)
    refine hins.setPhase (fun heq => ?_) (by simp)
    cases heq
    exact absurd h.issued (Nat.lt_irrefl _)
  | @initSet d id hph =>
    refine (h.setCurrent ?_).setPhase (by simp [Phase.carried]) (by simp)
    rintro rfl
    exact h.carried d (by rw [hph]; rfl)

/-- The thread a CPU has just adopted is in no other CPU's hands. -/
theorem start (hex : Exclusive s) (ht : s.initLock c place = some t) :
    AtHome t ⟨s.nextId⟩ c := by
  have hn := hex.places_nextId
  simp only [places, runnable, held, Nat.add_eq_zero_iff, tally_eq_zero, List.countP_eq_zero,
    beq_iff_eq] at hn
  obtain ⟨⟨⟨⟨⟨hph, hq⟩, hre⟩, hwa⟩, hs⟩, hcur, hpa⟩ := hn
  cases step_moves (a := .initLock c place) ht
  rename_i hta
  subst hta
  constructor
  case issued => exact Nat.lt_succ_self _
  case rank =>
    intro r hr
    rw [St.rank, St.setPhase, map_relocate (g := fun e => (e.priority, e.homeCpu)) fun _ _ => rfl,
      update_self] at hr
    exact (Option.some.inj hr).symm
  case current =>
    intro d hd
    exact absurd (hcur d) (by simp [namesCurrent, show s.current d = some ⟨s.nextId⟩ from hd])
  case carried =>
    intro d hd
    by_contra hdc
    rw [setPhase_phase_of_ne _ hdc] at hd
    have hz := hph d
    cases hp : s.phase d with
    | adopting id | took out irq id | publishing id prio =>
      rw [hp] at hd hz
      simp only [Phase.carried, Option.some.injEq] at hd
      simp [Phase.holding, hd] at hz
    | _ =>
      rw [hp] at hd
      cases hd
  case publishing =>
    intro d prio hd
    rcases eq_or_ne d c with rfl | hdc
    · rw [setPhase_phase_self] at hd
      cases hd
    · rw [setPhase_phase_of_ne _ hdc] at hd
      have hz := hph d
      rw [show s.phase d = .publishing ⟨s.nextId⟩ prio from hd] at hz
      simp [Phase.holding] at hz
  case slot =>
    rintro d (hd | hd)
    · have hz := hre d
      rw [show s.handoff d = .ready ⟨s.nextId⟩ from hd] at hz
      simp [Handoff.holdsReady] at hz
    · have hz := hpa d
      rw [show s.handoff d = .parked ⟨s.nextId⟩ from hd] at hz
      simp [Handoff.holdsParked] at hz
  case queued =>
    intro d prio hx
    have hmem : (⟨s.nextId⟩ : ThreadId) ∈ (s.queue d).ids := RunQueue.mem_ids_iff.mpr ⟨prio, hx⟩
    exact absurd (hq d) (Nat.ne_of_gt (List.count_pos_iff.mpr hmem))
  case wakes =>
    intro w hw hid
    exact absurd hid (hwa w hw)
  case spawns =>
    intro prio hp
    exact hs _ hp rfl

end AtHome

/-- The thread that a CPU adopts as its idle thread is never current on another CPU, in
another CPU's handoff slot or in another CPU's queue, and in its own queue it is in
the idle band. On its way between these places its own CPU has it in hand, or a
wakeup that will queue it there. -/
theorem idle_stays_home {as bs : List (Act n)} {s s' t : St n} {c : Fin n}
    {place : ThreadId → Nat} (hrun : Run St.Step (St.boot n) as s)
    (hinit : s.initLock c place = some s') (hrun' : Run St.Step s' bs t) :
    (∀ d, t.current d = some ⟨s.nextId⟩ → d = c) ∧
    (∀ d, t.handoff d = .ready ⟨s.nextId⟩ ∨ t.handoff d = .parked ⟨s.nextId⟩ → d = c) ∧
    (∀ d prio, ⟨s.nextId⟩ ∈ (t.queue d).bandOf prio → d = c ∧ prio = .idle) ∧
    (∀ d, (t.phase d).carried = some ⟨s.nextId⟩ → d = c) ∧
    ∀ w ∈ t.wakes, w.id = ⟨s.nextId⟩ → w.prio = .idle ∧ w.home = some c := by
  have h : AtHome t ⟨s.nextId⟩ c := by
    refine hrun'.invariant (p := fun t => AtHome t ⟨s.nextId⟩ c) ?_
      (.start (Exclusive.run hrun) hinit)
    intro s a t h hst
    exact h.step hst
  exact ⟨h.current, fun d hd => (h.slot d hd).1, h.queued, h.carried, h.wakes⟩

/-- The idle thread of a CPU parks and is woken from elsewhere while its context is still
being saved; it is queued at home, and another CPU looks for work. -/
def wokenMidSwitch (c d : Fin n) : List (Act n) :=
  [.initSet c, .markOnline c] ++ spawnOn c ⟨2⟩ 4096 none ++ [.run c .park, .parkSection c,
    .enter c .park, .takeLocal c, .decide c, .unpark ⟨1⟩, .setKernelStack c, .activateRoot c,
    .switch c, .publishSwap c, .publishPush c, .enter d .yield, .takeLocal d,
    .stealFrom d false]

/-- The first CPU does not take the idle thread that is queued on the second. -/
theorem idle_stays_home_woken :
    ∃ s s' t : St 2,
      Run St.Step (St.boot 2) (bootCpu 0 ++ [.markOnline 0]) s ∧
      s.initLock 1 ThreadId.val = some s' ∧
      Run St.Step s' (wokenMidSwitch 1 0) t ∧
      (t.queue 1).idle = [⟨1⟩] ∧ t.phase 0 = .steal .ready false [] ∧
      ∀ d prio, ⟨1⟩ ∈ (t.queue d).bandOf prio → d = 1 ∧ prio = .idle := by
  have hexec : ((exec St.step (St.boot 2) (bootCpu 0 ++ [.markOnline 0])).bind
      fun s => (s.initLock 1 ThreadId.val).bind fun s' =>
        (exec St.step s' (wokenMidSwitch 1 0)).map fun t =>
          decide (s.nextId = 1 ∧ (t.queue 1).idle = [⟨1⟩] ∧ t.phase 0 = .steal .ready false []))
      = some true := by decide +kernel
  obtain ⟨s, hs, hexec⟩ := Option.bind_eq_some_iff.mp hexec
  obtain ⟨s', hinit, hexec⟩ := Option.bind_eq_some_iff.mp hexec
  obtain ⟨t, ht, hfacts⟩ := Option.map_eq_some_iff.mp hexec
  obtain ⟨hid, hidle, hphase⟩ := of_decide_eq_true hfacts
  obtain ⟨-, -, hqueued, -⟩ := idle_stays_home (run_of_exec hs) hinit (run_of_exec ht)
  rw [hid] at hqueued
  exact ⟨s, s', t, run_of_exec hs, hinit, run_of_exec ht, hidle, hphase, hqueued⟩

end Qunix.Sched
