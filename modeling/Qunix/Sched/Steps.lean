/-
What each step of the scheduler machine does.

One inversion lemma per action: the guards under which it is taken and the state
it leads to. The invariants of the machine are proved from these and never
unfold an action.
-/

import Qunix.Sched.Machine

namespace Qunix.Sched

open Function

namespace Phase

variable {n : Nat}

/-- The decision a CPU carries between releasing the scheduler lock and
completing the switch. -/
def window : Phase n → Option Window
  | .decided w => some w
  | .stacked w => some w
  | .rooted w => some w
  | _ => none

/-- Inside `schedule`, before the decision: the state the thread goes into. -/
def choosing : Phase n → Option ThreadState
  | .pick out _ => some out
  | .steal out _ _ => some out
  | .took out _ _ => some out
  | .nothing out _ => some out
  | _ => none

/-- Not scheduling yet. -/
def starting : Phase n → Bool
  | .off => true
  | .adopting _ => true
  | _ => false

theorem choosing_of_window {p : Phase n} {w : Window} (h : p.window = some w) :
    p.choosing = none := by
  cases p with
  | decided | stacked | rooted => rfl
  | _ => cases h

end Phase

/-! ### Control of one thread -/

/-- The table of `Ctl.run`. -/
inductive Ctl.Runs : Ctl → Local → Ctl → Prop
  | start {b l i r} : Runs ⟨b, .start :: l, i, r⟩ .frame ⟨b, l, true, r⟩
  | restore {b irq l i r} : Runs ⟨b, .restore irq :: l, i, r⟩ .frame ⟨b, l, i || irq, r⟩
  | drop {b corpses l i r} : Runs ⟨b, .drop corpses :: l, i, r⟩ .frame ⟨b, l, i, r⟩
  | iret {b l i r} : Runs ⟨b, .iret :: l, i, r⟩ .frame ⟨b, l, true, r⟩
  | interrupt {b l r} : Runs ⟨b, l, true, r⟩ .interrupt ⟨b.wake, l, true, r⟩
  | setIrq {i r e} : Runs ⟨.code, [], i, r⟩ (.setIrq e) ⟨.code, [], e, r⟩
  | park {i r} : Runs ⟨.code, [], i, r⟩ .park ⟨.park i .top, [], false, r⟩
  | mask {irq i r} : Runs ⟨.park irq .again, [], i, r⟩ .mask ⟨.park irq .top, [], false, r⟩
  | parkSti {irq i r} : Runs ⟨.park irq .sti, [], i, r⟩ .sti ⟨.park irq .halt, [], true, r⟩
  | parkReturn {irq i r} : Runs ⟨.park irq .done, [], i, r⟩ .parkReturn ⟨.code, [], i || irq, r⟩
  | exit {i r} : Runs ⟨.code, [], i, r⟩ .exit ⟨.exit .loop, [], i, r⟩
  | exitSti {i r} : Runs ⟨.exit .sti, [], i, r⟩ .sti ⟨.exit .halt, [], true, r⟩
  | activate {root i r} :
      Runs ⟨.userEntry root .activate, [], i, r⟩ .activate
        ⟨.userEntry root .adopt, [], i, some root⟩
  | enterUser {root i r} :
      Runs ⟨.userEntry root .enter, [], i, r⟩ .enterUser ⟨.user root, [], true, r⟩
  | syscall {root i r} : Runs ⟨.user root, [], i, r⟩ .syscall ⟨.sys root, [], false, r⟩
  | sysret {root i r} : Runs ⟨.sys root, [], i, r⟩ .sysret ⟨.user root, [], true, r⟩
  | sysExit {root i r} : Runs ⟨.sys root, [], i, r⟩ .sysExit ⟨.exit .loop, [], i, none⟩
  | fault {root i r} : Runs ⟨.user root, [], i, r⟩ .fault ⟨.exit .loop, [], false, none⟩

variable {k k' : Ctl} {n : Nat}

theorem Ctl.run_spec {a : Local} (h : k.run a = some k') : k.Runs a k' := by
  obtain ⟨b, l, i, r⟩ := k
  unfold Ctl.run at h
  split at h
  · -- Frames that `schedule` and the timer interrupt left.
    simp only at h
    split at h <;> cases h <;> constructor
  · split_ifs at h with hon
    subst hon
    cases h
    constructor
  · simp only at h
    split at h <;> cases h <;> constructor

/-- The table of `Ctl.enter`. -/
inductive Ctl.Enters : Ctl → Enter → Ctl → ThreadState → Bool → Prop
  | tick {b l r} : Enters ⟨b, l, true, r⟩ .tick ⟨b.wake, .iret :: l, false, r⟩ .ready false
  | yield {i r} : Enters ⟨.code, [], i, r⟩ .yield ⟨.code, [], false, r⟩ .ready i
  | sysYield {root i r} : Enters ⟨.sys root, [], i, r⟩ .yield ⟨.sys root, [], false, r⟩ .ready i
  | park {irq i r} :
      Enters ⟨.park irq .sched, [], i, r⟩ .park ⟨.park irq .check, [], false, r⟩ .blocked i
  | exit {i r} : Enters ⟨.exit .loop, [], i, r⟩ .exit ⟨.exit .check, [], false, r⟩ .exited i

theorem Ctl.enter_spec {e : Enter} {out : ThreadState} {irq : Bool}
    (h : k.enter e = some (k', out, irq)) : k.Enters e k' out irq := by
  obtain ⟨b, l, i, r⟩ := k
  unfold Ctl.enter at h
  split at h
  · split_ifs at h with hon
    subst hon
    cases h
    constructor
  · simp only at h
    split at h <;> cases h <;> constructor

section

variable {k k' : Ctl}

theorem Ctl.Runs.syscall_eq (h : k.Runs .syscall k') :
    ∃ root, k.base = .user root ∧ k.tail = [] ∧ k' = ⟨.sys root, [], false, k.cr3⟩ := by
  cases h
  exact ⟨_, rfl, rfl, rfl⟩

theorem Ctl.Runs.sysret_eq (h : k.Runs .sysret k') :
    ∃ root, k.base = .sys root ∧ k.tail = [] ∧ k' = ⟨.user root, [], true, k.cr3⟩ := by
  cases h
  exact ⟨_, rfl, rfl, rfl⟩

theorem Ctl.Runs.fault_eq (h : k.Runs .fault k') : ∃ root, k.base = .user root ∧ k.tail = [] := by
  cases h
  exact ⟨_, rfl, rfl⟩

theorem Ctl.Runs.interrupt_eq (h : k.Runs .interrupt k') :
    k.irqOn = true ∧ k' = { k with base := k.base.wake } := by
  cases h
  exact ⟨rfl, rfl⟩

end

namespace St

variable {n : Nat} {s t : St n} {c d : Fin n} {id me : ThreadId}

theorem running_eq_some : s.running c = some me ↔ s.phase c = .run ∧ s.current c = some me := by
  unfold running
  split_ifs with h
  · simp [h]
  · simp [h]

theorem isCurrentAnywhere_iff : s.isCurrentAnywhere id = true ↔ ∃ c, s.current c = some id := by
  simp [isCurrentAnywhere]

@[simp] theorem setBase_base_self (b : Base) : (s.setBase me b).base me = b := update_self ..

@[simp] theorem setCtl_base_self (k : Ctl) : (s.setCtl c me k).base me = k.base := update_self ..

theorem setCtl_base_of_ne {x : ThreadId} (h : x ≠ me) (k : Ctl) :
    (s.setCtl c me k).base x = s.base x := update_of_ne h _ _

@[simp] theorem setCtl_cr3_self (k : Ctl) : (s.setCtl c me k).cr3 c = k.cr3 := update_self ..

@[simp] theorem setPhase_phase_self (p : Phase n) : (s.setPhase c p).phase c = p := update_self ..

theorem setPhase_phase_of_ne (p : Phase n) (h : d ≠ c) : (s.setPhase c p).phase d = s.phase d :=
  update_of_ne h _ _

/-! ### Table updates -/

theorem modify_table (f : Thread n → Thread n) (x : ThreadId) :
    (s.modify id f).table x = if x = id then (s.table x).map f else s.table x := by
  unfold modify
  rcases eq_or_ne x id with rfl | h
  · simp
  · simp [h]

@[simp] theorem isSome_modify (f : Thread n → Thread n) (x : ThreadId) :
    ((s.modify id f).table x).isSome = (s.table x).isSome := by
  rw [modify_table]
  split
  · exact Option.isSome_map
  · rfl

@[simp] theorem isSome_relocate (place : ThreadId → Nat) (table : ThreadId → Option (Thread n))
    (x : ThreadId) : (relocate place table x).isSome = (table x).isSome := Option.isSome_map

section

variable {β : Type*} {x : ThreadId} (g : Thread n → β)

theorem map_modify {f : Thread n → Thread n} (hf : ∀ e, g (f e) = g e) :
    ((s.modify id f).table x).map g = (s.table x).map g := by
  rw [modify_table]
  split
  · rw [Option.map_map]
    exact Option.map_congr fun e _ => hf e
  · rfl

variable {table : ThreadId → Option (Thread n)}

theorem map_relocate {place : ThreadId → Nat} (hg : ∀ e a, g { e with addr := a } = g e) :
    (relocate place table x).map g = (table x).map g := by
  rw [relocate, Option.map_map]
  exact Option.map_congr fun e _ => hg e _

theorem map_storeContext {slot value : Nat} (hg : ∀ e v, g { e with context := v } = g e) :
    (storeContext table slot value x).map g = (table x).map g := by
  rw [storeContext, Option.map_map]
  refine Option.map_congr fun e _ => ?_
  simp only [comp_apply]
  split
  · exact hg e _
  · rfl

theorem map_decided {out : ThreadState} {next : ThreadId}
    (hg : ∀ e st, g { e with state := st } = g e) :
    (((s.handOn c me out).modify next fun e => { e with state := .running }).table x).map g =
      (s.table x).map g := by
  rw [map_modify g fun e => hg e _]
  unfold handOn
  split <;> exact map_modify g fun e => hg e _

end

/-- The threads a `reap` takes out of the list. -/
def gone (s : St n) : List ThreadId := s.reapable.filter fun id => !s.isCurrentAnywhere id

/-- Those of them that still have an entry. -/
def corpses (s : St n) : List ThreadId := s.gone.filter fun id => (s.table id).isSome

theorem handOn_of_ne {out : ThreadState} (h : out ≠ .exited) : s.handOn c me out =
    { s.modify me (fun e => { e with
        state := if e.state = .exited then .exited
          else if e.park.parked then .blocked else .ready }) with
      handoffPriority := update s.handoffPriority c
        (((s.table me).map Thread.priority).getD .normal).raw
      handoff := update s.handoff c (if s.parked me then .parked me else .ready me) } := if_neg h

/-- The table after a wake of a parked thread. -/
def wokenTable (s : St n) (id : ThreadId) (e : Thread n) : St n :=
  s.modify id fun e' => { e' with park := ⟨false, e.park.pending⟩, state := .ready }

end St

/-- The transitions of the machine, one for each way through an action: what has to hold
and the state it leads to. -/
inductive St.Moves {n : Nat} (s : St n) : Act n → St n → Prop
  | run {c me a k} : s.phase c = .run → s.current c = some me → (s.ctl c me).Runs a k →
      Moves s (.run c a) (s.setCtl c me k)
  | enter {c me e k out irq} : s.phase c = .run → s.current c = some me →
      (s.ctl c me).Enters e k out irq →
      Moves s (.enter c e) ((s.setCtl c me k).setPhase c (.pick out irq))
  /-- A wakeup came first. -/
  | parkCancelled {c me irq e} : s.phase c = .run → s.current c = some me → s.tail me = [] →
      s.base me = .park irq .top → s.table me = some e → e.park.pending = true →
      Moves s (.parkSection c) ((s.modify me fun e' =>
        { e' with park := ⟨e.park.parked, false⟩ }).setBase me (.park irq .done))
  | parked {c me irq e} : s.phase c = .run → s.current c = some me → s.tail me = [] →
      s.base me = .park irq .top → s.table me = some e → e.park.pending = false →
      Moves s (.parkSection c) ((s.modify me fun e' =>
        { e' with park := ⟨true, false⟩, state := .blocked }).setBase me (.park irq .sched))
  | parkCheck {c me irq stage} : s.phase c = .run → s.current c = some me → s.tail me = [] →
      (s.base me = .park irq .check ∧ stage = (if s.parked me then .sti else .done) ∨
        s.base me = .park irq .recheck ∧ stage = if s.parked me then .again else .done) →
      Moves s (.parkCheck c) (s.setBase me (.park irq stage))
  | exitCheck {c me} : s.phase c = .run → s.current c = some me → s.tail me = [] →
      s.base me = .exit .check → Moves s (.exitCheck c) (s.setBase me (.exit .sti))
  | adopt {c me root e} : s.phase c = .run → s.current c = some me → s.tail me = [] →
      s.base me = .userEntry root .adopt → s.table me = some e → e.addressSpace = none →
      Moves s (.adopt c) ((s.modify me fun e => { e with addressSpace := some root }).setBase me
        (.userEntry root .enter))
  | reapNone {c place me tail} : s.phase c = .run → s.current c = some me →
      s.tail me = .reap :: tail → s.corpses = [] →
      Moves s (.reap c place) { s with
        reapable := s.reapable.filter s.isCurrentAnywhere
        tail := update s.tail me (.drop [] :: tail) }
  | reap {c place me tail} : s.phase c = .run → s.current c = some me →
      s.tail me = .reap :: tail → s.corpses ≠ [] →
      Separate (relocate place fun id => if id ∈ s.gone then none else s.table id) s.nextId →
      Moves s (.reap c place) { s with
        reapable := s.reapable.filter s.isCurrentAnywhere
        tail := update s.tail me (.drop s.corpses :: tail)
        table := relocate place fun id => if id ∈ s.gone then none else s.table id }
  | search {c out irq} : s.phase c = .pick out irq →
      Moves s (.takeLocal c) (s.setPhase c (.steal out irq
        ((List.finRange n).filter fun d => s.online d && Decidable.decide (d ≠ c))))
  | pop {c out irq id q} : s.phase c = .pick out irq → 0 < (s.queue c).runnableLen →
      (s.queue c).pop = some (id, q) →
      Moves s (.takeLocal c) ({ s with queue := update s.queue c q }.setPhase c (.took out irq id))
  | pass {c contended out irq d victims} : s.phase c = .steal out irq (d :: victims) →
      Moves s (.stealFrom c contended) (s.setPhase c (.steal out irq victims))
  | steal {c contended out irq d victims id q} : s.phase c = .steal out irq (d :: victims) →
      (s.queue d).runnableLen ≠ 0 → (s.queue d).steal = some (id, q) →
      Moves s (.stealFrom c contended)
        ({ s with queue := update s.queue d q }.setPhase c (.took out irq id))
  | giveUp {c out irq} : s.phase c = .steal out irq [] → (s.queue c).pop = none →
      Moves s (.takeLast c) (s.setPhase c (.nothing out irq))
  | popLast {c out irq id q} : s.phase c = .steal out irq [] → (s.queue c).pop = some (id, q) →
      Moves s (.takeLast c) ({ s with queue := update s.queue c q }.setPhase c (.took out irq id))
  | noNext {c out irq me} : s.phase c = .nothing out irq → s.current c = some me →
      Moves s (.noNext c) ({ s with
        tail := update s.tail me
          ((if out = ThreadState.exited then [Tail.restore irq]
             else [Tail.reap, Tail.restore irq]) ++
            s.tail me) }.setPhase c .run)
  | decide {c out irq next me e ctx old} : s.phase c = .took out irq next → s.current c = some me →
      (s.handOn c me out).table next = some e → e.context = some ctx →
      ((s.handOn c me out).modify next fun e => { e with state := .running }).table me = some old →
      Moves s (.decide c) { s with
        table := ((s.handOn c me out).modify next fun e => { e with state := .running }).table
        reapable := (s.handOn c me out).reapable
        handoff := (s.handOn c me out).handoff
        handoffPriority := (s.handOn c me out).handoffPriority
        current := update s.current c (some next)
        phase := update s.phase c
          (.decided ⟨me, old.addr, next, ctx, e.kernelStackTop, e.addressSpace, irq⟩) }
  | setKernelStack {c w} : s.phase c = .decided w →
      Moves s (.setKernelStack c) ({ s with
        kernelRsp := update s.kernelRsp c
          (if w.stackTop = 0 then s.kernelRsp c else w.stackTop) }.setPhase c (.stacked w))
  | activateRoot {c w} : s.phase c = .stacked w →
      Moves s (.activateRoot c) ({ s with cr3 := update s.cr3 c w.root }.setPhase c (.rooted w))
  | switch {c w} : s.phase c = .rooted w →
      Moves s (.switch c) ({ s with
        table := storeContext s.table w.slot s.stamp
        rsp := update s.rsp w.outgoing (some s.stamp)
        stamp := s.stamp + 1
        tail := update s.tail w.outgoing
          (.restore w.irq :: .reap :: s.tail w.outgoing) }.setPhase c .landed)
  | publish {c id} : s.phase c = .landed → s.handoff c = .ready id →
      Moves s (.publishSwap c) ({ s with handoff := update s.handoff c .empty }.setPhase c
        (.publishing id (priorityFromRaw (s.handoffPriority c))))
  | publishNone {c} : s.phase c = .landed → (∀ id, s.handoff c ≠ .ready id) →
      Moves s (.publishSwap c) ({ s with handoff := update s.handoff c .empty }.setPhase c .run)
  | publishPush {c id prio} : s.phase c = .publishing id prio →
      Moves s (.publishPush c)
        ({ s with queue := update s.queue c ((s.queue c).push id prio) }.setPhase c .run)
  | note {id e} : s.table id = some e → e.park.parked = false →
      Moves s (.unpark id) (s.modify id fun e' => { e' with park := ⟨false, true⟩ })
  | wakeCurrent {id e} : s.table id = some e → e.park.parked = true → (∃ c, s.current c = some id) →
      Moves s (.unpark id) (s.wokenTable id e)
  | wakeClaim {id e c} : s.table id = some e → e.park.parked = true →
      (∀ c, s.current c ≠ some id) → s.handoff c = .parked id →
      Moves s (.unpark id) { s.wokenTable id e with handoff := update s.handoff c (.ready id) }
  | wake {id e} : s.table id = some e → e.park.parked = true → (∀ c, s.current c ≠ some id) →
      (∀ c, s.handoff c ≠ .parked id) →
      Moves s (.unpark id) { s.wokenTable id e with
        wakes := ⟨id, e.priority, e.homeCpu⟩ :: s.wakes }
  | wakePush {w c d} : w ∈ s.wakes → d = w.home.getD c →
      Moves s (.wakePush w c) { s with
        wakes := s.wakes.erase w
        queue := update s.queue d ((s.queue d).push w.id w.prio) }
  | spawn {c place prio stackTop process me table} : s.phase c = .run → s.current c = some me →
      s.tail me = [] → s.base me = .code → stackTop ≠ 0 → Separate table (s.nextId + 1) →
      table = relocate place (update s.table ⟨s.nextId⟩
        (some ⟨place ⟨s.nextId⟩, some s.stamp, stackTop, .ready, prio, .fresh, none, none⟩)) →
      Moves s (.spawn c place prio stackTop process) { s with
        table := table
        nextId := s.nextId + 1
        spawns := (⟨s.nextId⟩, prio) :: s.spawns
        base := update s.base ⟨s.nextId⟩ (startBase process)
        tail := update s.tail ⟨s.nextId⟩ [.start]
        rsp := update s.rsp ⟨s.nextId⟩ (some s.stamp)
        stamp := s.stamp + 1 }
  | spawnPush {id prio c} : (id, prio) ∈ s.spawns →
      Moves s (.spawnPush id prio c) { s with
        spawns := s.spawns.erase (id, prio)
        queue := update s.queue c ((s.queue c).push id prio) }
  | initLock {c place table} : s.phase c = .off → Separate table (s.nextId + 1) →
      table = relocate place (update s.table ⟨s.nextId⟩
        (some ⟨place ⟨s.nextId⟩, none, 0, .running, .idle, .fresh, some c, none⟩)) →
      Moves s (.initLock c place) ({ s with
        table := table
        nextId := s.nextId + 1
        base := update s.base ⟨s.nextId⟩ .code
        tail := update s.tail ⟨s.nextId⟩ []
        rsp := update s.rsp ⟨s.nextId⟩ none }.setPhase c (.adopting ⟨s.nextId⟩))
  | initSet {c id} : s.phase c = .adopting id →
      Moves s (.initSet c) ({ s with current := update s.current c (some id) }.setPhase c .run)
  | markOnline {c} : s.phase c = .run →
      Moves s (.markOnline c) { s with online := update s.online c true }
  | setPreemption {enabled} : Moves s (.setPreemption enabled) { s with preempt := enabled }

namespace St

variable {n : Nat} {s t : St n} {c d : Fin n} {id me : ThreadId}

theorem of_running {f : ThreadId → Option (St n)} (h : (s.running c).bind f = some t) :
    ∃ me, s.phase c = .run ∧ s.current c = some me ∧ f me = some t := by
  obtain ⟨me, hme, h⟩ := Option.bind_eq_some_iff.mp h
  obtain ⟨hp, hcur⟩ := running_eq_some.mp hme
  exact ⟨me, hp, hcur, h⟩

theorem runLocal_moves {a : Local} (h : s.runLocal c a = some t) : Moves s (.run c a) t := by
  obtain ⟨me, hp, hcur, h⟩ := of_running h
  obtain ⟨k, hk, rfl⟩ := Option.map_eq_some_iff.mp h
  exact .run hp hcur (Ctl.run_spec hk)

theorem enter_moves {e : Enter} (h : s.enter c e = some t) : Moves s (.enter c e) t := by
  unfold enter at h
  split_ifs at h
  obtain ⟨me, hp, hcur, h⟩ := of_running h
  obtain ⟨⟨k, out, irq⟩, hk, rfl⟩ := Option.map_eq_some_iff.mp h
  exact .enter hp hcur (Ctl.enter_spec hk)

variable {place : ThreadId → Nat} {prio : Priority} {p : Phase n}

theorem reap_moves (h : s.reap c place = some t) :
    Moves s (.reap c place) t := by
  obtain ⟨me, hp, hcur, h⟩ := of_running h
  split at h
  · rename_i tail ht
    simp only at h
    split at h
    · rename_i hnil
      have hnil : s.corpses = [] := hnil
      rw [← Option.some.inj h]
      change Moves s _ { s with
        reapable := s.reapable.filter s.isCurrentAnywhere
        tail := update s.tail me (.drop s.corpses :: tail) }
      rw [hnil]
      exact .reapNone hp hcur ht hnil
    · rename_i hc
      obtain ⟨hsep, heq⟩ := Option.ite_none_right_eq_some.mp h
      cases heq
      exact .reap hp hcur ht hc hsep
  · cases h

theorem takeLocal_moves (h : s.takeLocal c = some t) : Moves s (.takeLocal c) t := by
  unfold takeLocal at h
  split at h
  · rename_i out irq hp
    split_ifs at h with hlen
    · split at h
      · rename_i id q hpop
        cases h
        exact .pop hp hlen hpop
      · cases h
        exact .search hp
    · cases h
      exact .search hp
  · cases h

theorem stealFrom_moves {contended : Bool} (h : s.stealFrom c contended = some t) :
    Moves s (.stealFrom c contended) t := by
  unfold stealFrom at h
  split at h
  · rename_i out irq d victims hp
    split_ifs at h with hl
    · cases h
      exact .pass hp
    · simp only [Bool.or_eq_true, beq_iff_eq, not_or] at hl
      split at h
      · rename_i id q hs
        cases h
        exact .steal hp hl.2 hs
      · cases h
        exact .pass hp
  · cases h

theorem takeLast_moves (h : s.takeLast c = some t) : Moves s (.takeLast c) t := by
  unfold takeLast at h
  split at h
  · rename_i out irq hp
    split at h
    · rename_i id q hpop
      cases h
      exact .popLast hp hpop
    · rename_i hpop
      cases h
      exact .giveUp hp hpop
  · cases h

/-- The decision, in terms of the state the outgoing half leaves. -/
theorem decide_moves (h : s.decide c = some t) : Moves s (.decide c) t := by
  unfold decide at h
  split at h
  · rename_i out irq next me hp hcur
    simp only at h
    split at h
    · rename_i e hn
      split at h
      · rename_i ctx hctx
        obtain ⟨old, hold, rfl⟩ := Option.map_eq_some_iff.mp h
        convert Moves.decide hp hcur hn hctx hold using 1
        unfold handOn setPhase
        split <;> rfl
      · cases h
    · cases h
  · cases h

theorem publishSwap_moves (h : s.publishSwap c = some t) : Moves s (.publishSwap c) t := by
  unfold publishSwap at h
  split at h
  · rename_i hp
    split at h
    · rename_i id hs
      cases h
      exact .publish hp hs
    all_goals
      rename_i hs
      cases h
      exact .publishNone hp (by simp [hs])
  · cases h

theorem unpark_moves (h : s.unpark id = some t) : Moves s (.unpark id) t := by
  obtain ⟨e, he, h⟩ := Option.map_eq_some_iff.mp h
  cases hp : e.park.parked with
  | false =>
    simp only [ParkState.wake, hp] at h
    exact h ▸ .note he hp
  | true =>
    simp only [ParkState.wake, hp, if_true] at h
    split_ifs at h with hcur
    · exact h ▸ .wakeCurrent he hp (isCurrentAnywhere_iff.mp hcur)
    · have hcur : ∀ c, s.current c ≠ some id := fun c hc =>
        hcur (isCurrentAnywhere_iff.mpr ⟨c, hc⟩)
      split at h
      · rename_i claimed hcl
        obtain ⟨c, hf, rfl⟩ := Option.map_eq_some_iff.mp hcl
        have hs : s.handoff c = .parked id := by
          simpa [modify] using List.find?_some hf
        exact h ▸ .wakeClaim he hp hcur hs
      · rename_i hcl
        refine h ▸ .wake he hp hcur fun c hc => ?_
        have hn := List.find?_eq_none.mp (Option.map_eq_none_iff.mp hcl) c
          (List.mem_finRange c)
        exact hn (by simpa [modify] using hc)

theorem step_moves {a : Act n} (h : s.step a = some t) : Moves s a t := by
  cases a with
  | run => exact runLocal_moves h
  | enter => exact enter_moves h
  | parkSection =>
    obtain ⟨me, hph, hcur, h⟩ := of_running h
    split at h
    · rename_i irq e hta hb ht
      cases hp : e.park.pending with
      | true =>
        simp only [ParkState.park, hp, if_true, Option.some.injEq] at h
        exact h ▸ .parkCancelled hph hcur hta hb ht hp
      | false =>
        simp only [ParkState.park, hp, Bool.false_eq_true, if_false, Option.some.injEq] at h
        exact h ▸ .parked hph hcur hta hb ht hp
    · cases h
  | parkCheck =>
    obtain ⟨me, hp, hcur, h⟩ := of_running h
    split at h
    · rename_i irq ht hb
      cases h
      exact .parkCheck hp hcur ht (.inl ⟨hb, rfl⟩)
    · rename_i irq ht hb
      cases h
      exact .parkCheck hp hcur ht (.inr ⟨hb, rfl⟩)
    · cases h
  | exitCheck =>
    obtain ⟨me, hp, hcur, h⟩ := of_running h
    split at h
    · rename_i ht hb
      obtain ⟨-, heq⟩ := Option.ite_none_right_eq_some.mp h
      cases heq
      exact .exitCheck hp hcur ht hb
    · cases h
  | adopt =>
    obtain ⟨me, hp, hcur, h⟩ := of_running h
    split at h
    · rename_i root e ht hb htable
      obtain ⟨hs, heq⟩ := Option.ite_none_right_eq_some.mp h
      cases heq
      exact .adopt hp hcur ht hb htable hs
    · cases h
  | reap => exact reap_moves h
  | takeLocal => exact takeLocal_moves h
  | stealFrom => exact stealFrom_moves h
  | takeLast => exact takeLast_moves h
  | decide => exact decide_moves h
  | publishSwap => exact publishSwap_moves h
  | noNext | setKernelStack | activateRoot | switch | publishPush | initSet =>
    -- Taken from one phase, and in one way.
    simp only [step, noNext, setKernelStack, activateRoot, switch, publishPush, initSet] at h
    split at h
    · cases h
      constructor <;> assumption
    · cases h
  | unpark => exact unpark_moves h
  | wakePush =>
    obtain ⟨hmem, heq⟩ := Option.ite_none_right_eq_some.mp h
    cases heq
    exact .wakePush hmem rfl
  | spawn =>
    obtain ⟨me, hp, hcur, h⟩ := of_running h
    obtain ⟨⟨ht, hb, htop, -, hsep⟩, heq⟩ := Option.ite_none_right_eq_some.mp h
    cases heq
    exact .spawn hp hcur ht hb htop hsep rfl
  | spawnPush | markOnline =>
    obtain ⟨hg, heq⟩ := Option.ite_none_right_eq_some.mp h
    cases heq
    constructor
    exact hg
  | initLock =>
    obtain ⟨⟨hp, -, hsep⟩, heq⟩ := Option.ite_none_right_eq_some.mp h
    cases heq
    exact .initLock hp hsep rfl
  | setPreemption =>
    cases h
    exact .setPreemption

/-- The steps of the machine, as a relation. -/
def Step (s : St n) (a : Act n) (t : St n) : Prop := s.step a = some t

/-! ### Queue traffic -/

/-- The phases agree on decisions in flight and on CPUs that are starting. -/
structure SamePhases (s t : St n) : Prop where
  window : ∀ c, (t.phase c).window = (s.phase c).window
  rooted : ∀ c w, t.phase c = .rooted w ↔ s.phase c = .rooted w
  starting : ∀ c, (t.phase c).starting = true → (s.phase c).starting = true
  adopting : ∀ c id, t.phase c = .adopting id → s.phase c = .adopting id

theorem SamePhases.of_eq (h : t.phase = s.phase) : SamePhases s t := by
  constructor <;> simp [h]

theorem window_update (hp : p.window = (s.phase c).window) (d : Fin n) :
    (update s.phase c p d).window = (s.phase d).window :=
  (forall_update_iff s.phase fun d q => q.window = (s.phase d).window).mpr ⟨hp, fun _ _ => rfl⟩ d

theorem SamePhases.setPhase (hp : t.phase = update s.phase c p)
    (hwin : p.window = (s.phase c).window) (hold : ∀ w, s.phase c ≠ .rooted w)
    (hnew : ∀ w, p ≠ .rooted w) (hs : p.starting = false) : SamePhases s t := by
  constructor <;> rw [hp]
  · exact window_update hwin
  · refine (forall_update_iff s.phase fun d q => ∀ w, q = .rooted w ↔ s.phase d = .rooted w).mpr
      ⟨fun w => ⟨fun h => absurd h (hnew w), fun h => absurd h (hold w)⟩, fun _ _ _ => Iff.rfl⟩
  · refine (forall_update_iff s.phase fun d q => q.starting = true →
      (s.phase d).starting = true).mpr ⟨fun h => ?_, fun _ _ h => h⟩
    rw [hs] at h
    cases h
  · refine (forall_update_iff s.phase fun d q => ∀ id, q = .adopting id →
      s.phase d = .adopting id).mpr ⟨fun id h => ?_, fun _ _ _ h => h⟩
    rw [h] at hs
    cases hs

/-- What wakeups and the traffic between queues, slots and phases leave alone. -/
structure Calm (s t : St n) : Prop extends SamePhases s t where
  current : t.current = s.current
  cr3 : t.cr3 = s.cr3
  rsp : t.rsp = s.rsp
  base : t.base = s.base
  nextId : t.nextId = s.nextId
  reapable : t.reapable = s.reapable
  addr : ∀ x, (t.table x).map Thread.addr = (s.table x).map Thread.addr
  context : ∀ x, (t.table x).map Thread.context = (s.table x).map Thread.context
  space : ∀ x, (t.table x).map Thread.addressSpace = (s.table x).map Thread.addressSpace

theorem Calm.isSome (h : Calm s t) (x : ThreadId) : (t.table x).isSome = (s.table x).isSome := by
  rw [← Option.isSome_map, h.addr, Option.isSome_map]

/-- Without a wakeup the table does not change at all. -/
structure Quiet (s t : St n) : Prop extends Calm s t where
  table : t.table = s.table

theorem Quiet.of_phases (hph : SamePhases s t) (hcur : t.current = s.current)
    (hcr3 : t.cr3 = s.cr3) (hrsp : t.rsp = s.rsp) (hb : t.base = s.base)
    (hn : t.nextId = s.nextId) (hr : t.reapable = s.reapable) (ht : t.table = s.table) :
    Quiet s t := by
  refine ⟨⟨hph, hcur, hcr3, hrsp, hb, hn, hr, ?_, ?_, ?_⟩, ht⟩ <;>
    exact fun x => by rw [ht]

end St

/-- The actions that are queue traffic only. -/
def Act.isQuiet {n : Nat} : Act n → Bool
  | .takeLocal _ => true
  | .stealFrom _ _ => true
  | .takeLast _ => true
  | .noNext _ => true
  | .setKernelStack _ => true
  | .publishSwap _ => true
  | .publishPush _ => true
  | .wakePush _ _ => true
  | .spawnPush _ _ _ => true
  | .markOnline _ => true
  | .setPreemption _ => true
  | _ => false

theorem St.step_quiet {s t : St n} {a : Act n} (ha : a.isQuiet = true) (ht : s.step a = some t) :
    Quiet s t := by
  cases step_moves ht with
  | search hp | pop hp | pass hp | steal hp | giveUp hp | popLast hp | noNext hp
  | setKernelStack hp | publish hp | publishNone hp | publishPush hp =>
    refine .of_phases (.setPhase rfl ?_ ?_ ?_ rfl) rfl rfl rfl rfl rfl rfl rfl
    · rw [hp]
      rfl
    · simp [hp]
    · simp
  | wakePush | spawnPush | markOnline | setPreemption =>
    exact .of_phases (.of_eq rfl) rfl rfl rfl rfl rfl rfl rfl
  | _ => cases ha

/-- Queue traffic and wakeups. -/
def Act.isCalm {n : Nat} : Act n → Bool
  | .unpark _ => true
  | a => a.isQuiet

theorem St.step_calm {s t : St n} {a : Act n} (ha : a.isCalm = true) (ht : s.step a = some t) :
    Calm s t := by
  by_cases hq : a.isQuiet = true
  · exact (step_quiet hq ht).toCalm
  · cases step_moves ht with
    | note | wakeCurrent | wakeClaim | wake =>
      exact ⟨.of_eq rfl, rfl, rfl, rfl, rfl, rfl, rfl, fun _ => map_modify _ fun _ => rfl,
        fun _ => map_modify _ fun _ => rfl, fun _ => map_modify _ fun _ => rfl⟩
    | _ => exact absurd ha hq

end Qunix.Sched
