/-
The stack a CPU enters the kernel on.

`percpu::set_kernel_stack` writes the two words a CPU takes its stack from when it
leaves ring 3: `PerCpu::kernel_rsp`, which the `SYSCALL` stub reads, and
`TSS.rsp0`, which the CPU itself reads. `schedule` calls it for every incoming
thread that has a stack of its own; an idle thread has none, and the words keep
what they held. The machine of `Qunix.Sched.Machine` has the first of the words;
`Trap` adds the second, and whether the heap kept stacks apart.

A thread in ring 3 has a stack, was dispatched by its CPU, and nothing was
dispatched there since: `traps_onto_own_stack`.
-/

import Qunix.Sched.InFlight

namespace Qunix.Sched

open Function Qunix.Lib

variable {n : Nat}

/-- Where the table says a thread's kernel stack ends. -/
def St.stackTop (s : St n) (x : ThreadId) : Option Nat := (s.table x).map Thread.kernelStackTop

/-- A stack that no thread in the table has. -/
def St.unusedStack (s : St n) (top : Nat) : Prop := ∀ i < s.nextId, s.stackTop ⟨i⟩ ≠ some top

instance (s : St n) (top : Nat) : Decidable (s.unusedStack top) :=
  inferInstanceAs (Decidable (∀ i < s.nextId, _))

/-- The scheduler with the second word that `set_kernel_stack` writes. -/
structure Trap (n : Nat) where
  sched : St n
  /-- `TSS.privilege_stack_table[0]` -/
  rsp0 : Fin n → Nat
  /-- The heap has given no new thread a stack in use. -/
  heapSound : Bool

namespace Trap

def boot (n : Nat) : Trap n := ⟨.boot n, fun _ => 0, true⟩

def setRsp0 (s : Trap n) : Act n → Fin n → Nat
  | .setKernelStack c =>
    match s.sched.phase c with
    | .decided w => if w.stackTop = 0 then s.rsp0 else update s.rsp0 c w.stackTop
    | _ => s.rsp0
  | _ => s.rsp0

def heapKept (s : Trap n) : Act n → Bool
  | .spawn _ _ _ top _ => s.heapSound && decide (s.sched.unusedStack top)
  | _ => s.heapSound

def step (s : Trap n) (a : Act n) : Option (Trap n) :=
  (s.sched.step a).map fun t => ⟨t, s.setRsp0 a, s.heapKept a⟩

def Step (s : Trap n) (a : Act n) (t : Trap n) : Prop := s.step a = some t

/-- A CPU executes a thread's code in ring 3. -/
def InRing3 (s : Trap n) (c : Fin n) (x : ThreadId) : Prop :=
  s.sched.running c = some x ∧ s.sched.tail x = [] ∧ ∃ root, s.sched.base x = .user root

/-- A CPU is at the assertion of `user_thread_entry`. -/
def AtEntry (s : Trap n) (c : Fin n) (x : ThreadId) : Prop :=
  s.sched.running c = some x ∧ s.sched.tail x = [] ∧
    ∃ root, s.sched.base x = .userEntry root .activate

end Trap

/-- The code of a process, in either ring. -/
def Base.process : Base → Bool
  | .userEntry _ _ => true
  | .user _ => true
  | .sys _ => true
  | _ => false

theorem Base.process_wake (b : Base) : b.wake.process = b.process := by
  unfold wake
  split <;> rfl

theorem Ctl.Runs.process {k k' : Ctl} {a : Local} (h : k.Runs a k')
    (hp : k'.base.process = true) : k.base.process = true := by
  cases h with
  | interrupt => rwa [Base.process_wake] at hp
  | start | restore | drop | iret | activate | enterUser | syscall | sysret => exact hp
  | _ => cases hp

theorem Ctl.Enters.keeps_process {k k' : Ctl} {e : Enter} {out : ThreadState} {irq : Bool}
    (h : k.Enters e k' out irq) : k'.base.process = k.base.process := by
  cases h with
  | tick => exact Base.process_wake _
  | _ => rfl

namespace St

variable {s t : St n} {c d : Fin n} {x me id : ThreadId}

/-- What most steps leave alone: who runs where, the stacks, and the decisions whose
stack is not set yet. -/
structure Stable (s t : St n) : Prop where
  current : t.current = s.current
  kernelRsp : t.kernelRsp = s.kernelRsp
  stackTop : ∀ x, t.stackTop x = s.stackTop x
  decided : ∀ c w, t.phase c = .decided w ↔ s.phase c = .decided w
  adopting : ∀ c id, t.phase c = .adopting id → s.phase c = .adopting id
  process : ∀ x, (t.base x).process = true → (s.base x).process = true

theorem Stable.refl (s : St n) : Stable s s :=
  ⟨rfl, rfl, fun _ => rfl, fun _ _ => Iff.rfl, fun _ _ h => h, fun _ h => h⟩

theorem Stable.setPhase {p : Phase n} (hp : t.phase = update s.phase c p)
    (hold : ∀ w, s.phase c ≠ .decided w) (hnew : ∀ w, p ≠ .decided w)
    (hs : ∀ id, p ≠ .adopting id) (hcur : t.current = s.current)
    (hrsp : t.kernelRsp = s.kernelRsp) (htop : ∀ x, t.stackTop x = s.stackTop x)
    (hpr : ∀ x, (t.base x).process = true → (s.base x).process = true) : Stable s t := by
  refine ⟨hcur, hrsp, htop, ?_, ?_, hpr⟩ <;> rw [hp]
  · exact (forall_update_iff s.phase fun d q => ∀ w, q = .decided w ↔ s.phase d = .decided w).mpr
      ⟨fun w => ⟨fun h => absurd h (hnew w), fun h => absurd h (hold w)⟩, fun _ _ _ => Iff.rfl⟩
  · exact (forall_update_iff s.phase fun d q => ∀ id, q = .adopting id →
      s.phase d = .adopting id).mpr ⟨fun id h => absurd h (hs id), fun _ _ _ h => h⟩

theorem process_of_update {f : ThreadId → Base} {b : Base}
    (hb : b.process = true → (f me).process = true) :
    ∀ x, (update f me b x).process = true → (f x).process = true :=
  (forall_update_iff f fun x b => b.process = true → (f x).process = true).mpr
    ⟨hb, fun _ _ h => h⟩

end St

/-- The steps that dispatch no thread and change no entry's stack. -/
def Act.isStable : Act n → Bool
  | .reap _ _ => false
  | .decide _ => false
  | .setKernelStack _ => false
  | .spawn _ _ _ _ _ => false
  | .initLock _ _ => false
  | .initSet _ => false
  | _ => true

theorem St.step_stable {s t : St n} {a : Act n} (ha : a.isStable = true)
    (ht : s.step a = some t) : Stable s t := by
  cases step_moves ht with
  | run _ _ hk => exact { Stable.refl s with process := process_of_update hk.process }
  | enter hp _ hk =>
    refine .setPhase rfl (by simp [hp]) (by simp) (by simp) rfl rfl (fun _ => rfl)
      (process_of_update ?_)
    rw [hk.keeps_process]
    exact id
  | parkCancelled | parked =>
    exact { Stable.refl s with
      stackTop := fun _ => map_modify _ fun _ => rfl
      process := process_of_update nofun }
  | parkCheck | exitCheck => exact { Stable.refl s with process := process_of_update nofun }
  | adopt _ _ _ hb =>
    exact { Stable.refl s with
      stackTop := fun _ => map_modify _ fun _ => rfl
      process := process_of_update (f := s.base) fun _ => by rw [hb]; rfl }
  | search hp | pop hp | pass hp | steal hp | giveUp hp | popLast hp | noNext hp
  | activateRoot hp | publish hp | publishNone hp | publishPush hp =>
    exact .setPhase rfl (by simp [hp]) (by simp) (by simp) rfl rfl (fun _ => rfl) fun _ h => h
  | switch hp =>
    exact .setPhase rfl (by simp [hp]) (by simp) (by simp) rfl rfl
      (fun _ => map_storeContext Thread.kernelStackTop fun _ _ => rfl) fun _ h => h
  | note | wakeCurrent | wakeClaim | wake =>
    exact { Stable.refl s with stackTop := fun _ => map_modify _ fun _ => rfl }
  | wakePush | spawnPush | markOnline | setPreemption => exact { Stable.refl s with }
  | _ => cases ha

/-! ### The invariant -/

structure Stacked (s : Trap n) : Prop where
  /-- A decision has copied the stack of the thread it dispatches. -/
  chosen : ∀ c w top, s.sched.phase c = .decided w → s.sched.stackTop w.incoming = some top →
    top = w.stackTop
  /-- Where no decision waits for it, both words name the stack of the current thread. -/
  words : ∀ c x top, (∀ w, s.sched.phase c ≠ .decided w) → s.sched.current c = some x →
    s.sched.stackTop x = some top → top ≠ 0 → s.sched.kernelRsp c = top ∧ s.rsp0 c = top
  adopting : ∀ c id top, s.sched.phase c = .adopting id → s.sched.stackTop id = some top → top = 0
  process : ∀ x, (s.sched.base x).process = true → ∃ top, top ≠ 0 ∧ s.sched.stackTop x = some top
  distinct : s.heapSound = true → ∀ x y top, s.sched.stackTop x = some top →
    s.sched.stackTop y = some top → top ≠ 0 → x = y

namespace Stacked

open St

variable {s : Trap n} {t : St n} {c d : Fin n} {x me id : ThreadId} {ok : Bool}

theorem boot : Stacked (Trap.boot n) := by
  constructor
  · intro c w top hp
    cases hp
  · intro c x top _ hcur
    cases hcur
  · intro c id top hp
    cases hp
  · intro x hx
    cases hx
  · intro _ x y top hx
    cases hx

theorem shrink (h : Stacked s) (hcur : t.current = s.sched.current)
    (hrsp : t.kernelRsp = s.sched.kernelRsp)
    (htop : ∀ x top, t.stackTop x = some top → s.sched.stackTop x = some top)
    (hd : ∀ c w, t.phase c = .decided w ↔ s.sched.phase c = .decided w)
    (ha : ∀ c id, t.phase c = .adopting id → s.sched.phase c = .adopting id)
    (hpr : ∀ x, (t.base x).process = true → ∃ top, top ≠ 0 ∧ t.stackTop x = some top) :
    Stacked ⟨t, s.rsp0, s.heapSound⟩ where
  chosen c w top hp hx := h.chosen c w top ((hd c w).mp hp) (htop _ _ hx)
  words c x top hp hc hx hne := by
    rw [hcur] at hc
    have hwo := h.words c x top (fun w hw => hp w ((hd c w).mpr hw)) hc
      (htop _ _ hx) hne
    rwa [← hrsp] at hwo
  adopting c id top hp hx := h.adopting c id top (ha c id hp) (htop _ _ hx)
  process := hpr
  distinct hok x y top hx hy := h.distinct hok x y top (htop _ _ hx) (htop _ _ hy)

theorem stable (h : Stacked s) (hst : Stable s.sched t) : Stacked ⟨t, s.rsp0, s.heapSound⟩ := by
  refine h.shrink hst.current hst.kernelRsp (fun x top hx => ?_) hst.decided hst.adopting
    fun x hx => ?_
  · rwa [hst.stackTop] at hx
  · obtain ⟨top, hne, htop⟩ := h.process x (hst.process x hx)
    exact ⟨top, hne, (hst.stackTop x).trans htop⟩

theorem moved (h : Stacked s) {p : Phase n} {r : Fin n → Nat}
    (hp : t.phase = update s.sched.phase c p)
    (hcur : ∀ d, d ≠ c → t.current d = s.sched.current d)
    (hrsp : ∀ d, d ≠ c → t.kernelRsp d = s.sched.kernelRsp d ∧ r d = s.rsp0 d)
    (hb : t.base = s.sched.base) (htop : ∀ x, t.stackTop x = s.sched.stackTop x)
    (hc : ∀ w top, p = .decided w → s.sched.stackTop w.incoming = some top → top = w.stackTop)
    (hwo : ∀ x top, (∀ w, p ≠ .decided w) → t.current c = some x →
      s.sched.stackTop x = some top → top ≠ 0 → t.kernelRsp c = top ∧ r c = top)
    (ha : ∀ id, p ≠ .adopting id) : Stacked ⟨t, r, s.heapSound⟩ := by
  constructor <;> simp only [hp, htop, hb]
  case chosen =>
    exact (forall_update_iff s.sched.phase fun _ q => ∀ w top, q = .decided w →
      s.sched.stackTop w.incoming = some top → top = w.stackTop).mpr
      ⟨hc, fun d _ => h.chosen d⟩
  case words =>
    refine (forall_update_iff s.sched.phase fun d q => ∀ x top, (∀ w, q ≠ .decided w) →
      t.current d = some x → s.sched.stackTop x = some top → top ≠ 0 →
      t.kernelRsp d = top ∧ r d = top).mpr ⟨hwo, fun d hd x top hw hx => ?_⟩
    rw [(hrsp d hd).1, (hrsp d hd).2]
    exact h.words d x top hw ((hcur d hd).symm.trans hx)
  case adopting =>
    exact (forall_update_iff s.sched.phase fun _ q => ∀ id top, q = .adopting id →
      s.sched.stackTop id = some top → top = 0).mpr
      ⟨fun id _ hid => absurd hid (ha id), fun d _ => h.adopting d⟩
  case process => exact h.process
  case distinct => exact h.distinct

/-- A new entry is of no thread that is dispatched or about to be. -/
theorem insert (hex : Exclusive s.sched) (hfl : InFlight s.sched) (h : Stacked s)
    {place : ThreadId → Nat} {e : Thread n} {b : Base}
    (hta : t.table = relocate place (update s.sched.table ⟨s.sched.nextId⟩ (some e)))
    (hba : t.base = update s.sched.base ⟨s.sched.nextId⟩ b)
    (hb : b.process = true → e.kernelStackTop ≠ 0) (hcur : t.current = s.sched.current)
    (hrsp : t.kernelRsp = s.sched.kernelRsp)
    (hde : ∀ c w, t.phase c = .decided w ↔ s.sched.phase c = .decided w)
    (ha : ∀ c id, t.phase c = .adopting id →
      s.sched.phase c = .adopting id ∨ id = ⟨s.sched.nextId⟩ ∧ e.kernelStackTop = 0)
    (hok : ok = true → s.heapSound = true ∧
      (e.kernelStackTop ≠ 0 → s.sched.unusedStack e.kernelStackTop)) :
    Stacked ⟨t, s.rsp0, ok⟩ := by
  have hnew : t.stackTop ⟨s.sched.nextId⟩ = some e.kernelStackTop := by
    rw [stackTop, hta, map_relocate Thread.kernelStackTop fun _ _ => rfl, update_self]
    rfl
  have hold : ∀ x, x ≠ ⟨s.sched.nextId⟩ → t.stackTop x = s.sched.stackTop x := by
    intro x hne
    rw [stackTop, hta, map_relocate Thread.kernelStackTop fun _ _ => rfl, update_of_ne hne]
    rfl
  have hu : ∀ x top, ok = true → top ≠ 0 → x ≠ ⟨s.sched.nextId⟩ → t.stackTop x = some top →
      e.kernelStackTop ≠ top := by
    rintro x top hok' hne hx ht rfl
    rw [hold x hx] at ht
    have hl : (s.sched.flags x).isSome := by
      rw [flags, Option.isSome_map, ← Option.isSome_map]
      exact Option.isSome_of_eq_some ht
    exact (hok hok').2 hne x.val (hex.fresh x (.inl hl)) ht
  constructor
  case chosen =>
    intro d w top hd hx
    have hd := (hde d w).mp hd
    rw [hold _ (hex.current_ne_nextId (hfl.incoming d w (by rw [hd]; rfl)))] at hx
    exact h.chosen d w top hd hx
  case words =>
    intro d x top hd hc hx hne
    rw [hcur] at hc
    rw [hold _ (hex.current_ne_nextId hc)] at hx
    rw [hrsp]
    exact h.words d x top (fun w hw => hd w ((hde d w).mpr hw)) hc hx hne
  case adopting =>
    intro d id top hd hx
    rcases ha d id hd with hd | ⟨rfl, hz⟩
    · rw [hold _ (hex.adopting_ne hd).1] at hx
      exact h.adopting d id top hd hx
    · exact (Option.mem_unique hnew hx).symm.trans hz
  case process =>
    intro x hx
    rcases eq_or_ne x ⟨s.sched.nextId⟩ with rfl | hxn
    · rw [hba, update_self] at hx
      exact ⟨_, hb hx, hnew⟩
    · rw [hba, update_of_ne hxn] at hx
      obtain ⟨top, hne, ht⟩ := h.process x hx
      exact ⟨top, hne, (hold x hxn).trans ht⟩
  case distinct =>
    intro hok' x y top hx hy hne
    by_cases hxn : x = ⟨s.sched.nextId⟩
    · by_cases hyn : y = ⟨s.sched.nextId⟩
      · exact hxn.trans hyn.symm
      · subst hxn
        exact absurd (Option.mem_unique hnew hx) (hu y top hok' hne hyn hy)
    · rcases eq_or_ne y ⟨s.sched.nextId⟩ with rfl | hyn
      · exact absurd (Option.mem_unique hnew hy) (hu x top hok' hne hxn hx)
      · exact h.distinct (hok hok').1 x y top ((hold x hxn).symm.trans hx)
          ((hold y hyn).symm.trans hy) hne

theorem step {a : Act n} {s' : Trap n} (hex : Exclusive s.sched) (hfl : InFlight s.sched)
    (h : Stacked s) (hst : Trap.Step s a s') : Stacked s' := by
  obtain ⟨t, ht, rfl⟩ := Option.map_eq_some_iff.mp hst
  cases step_moves ht with
  | reapNone => exact h.stable { Stable.refl s.sched with }
  | @reap c place =>
    have htop : ∀ x,
        (relocate place (fun id => if id ∈ s.sched.gone then none else s.sched.table id)
        x).map Thread.kernelStackTop = if x ∈ s.sched.gone then none else s.sched.stackTop x := by
      intro x
      rw [map_relocate Thread.kernelStackTop fun _ _ => rfl]
      split <;> rfl
    refine h.shrink rfl rfl (fun x top hx => ?_) (fun _ _ => Iff.rfl) (fun _ _ hid => hid)
      fun x hx => ?_
    · rw [stackTop, htop] at hx
      split_ifs at hx
      exact hx
    · -- A process is never among the threads that are removed.
      have hk : x ∉ s.sched.gone := by
        intro hg
        obtain ⟨stage, hb⟩ := hex.dead x (List.mem_filter.mp hg).1
        rw [hb] at hx
        cases hx
      obtain ⟨top, hne, hx⟩ := h.process x hx
      exact ⟨top, hne, by rw [stackTop, htop, if_neg hk, hx]⟩
  | @decide c out _ next me e _ _ _ _ hn =>
    -- The decision copies the stack of the incoming thread and makes it current.
    have htop : ∀ x, (((s.sched.handOn c me out).modify next fun e =>
        { e with state := .running }).table x).map Thread.kernelStackTop = s.sched.stackTop x :=
      fun x => map_decided Thread.kernelStackTop fun _ _ => rfl
    have hco : (((s.sched.handOn c me out).modify next fun e =>
        { e with state := .running }).table next).map Thread.kernelStackTop =
        ((s.sched.handOn c me out).table next).map Thread.kernelStackTop :=
      map_modify _ fun _ => rfl
    rw [htop, hn] at hco
    refine h.moved rfl (fun d hd => update_of_ne hd _ _) (fun _ _ => ⟨rfl, rfl⟩) rfl htop ?_
      (fun _ _ hne => absurd rfl (hne _)) (by simp)
    rintro w top ⟨⟩ hx
    exact Option.mem_unique hx hco
  | @setKernelStack c w hp =>
    -- Both words are written for a thread that has a stack; without one they stay.
    have hrsp0 : s.setRsp0 (.setKernelStack c) =
        if w.stackTop = 0 then s.rsp0 else update s.rsp0 c w.stackTop := by
      simp [Trap.setRsp0, hp]
    refine h.moved rfl (fun _ _ => rfl) (fun d hd => ⟨update_of_ne hd _ _, ?_⟩) rfl (fun _ => rfl)
      (by simp) (fun x top _ hc hx hne => ?_) (by simp)
    · rw [hrsp0]
      split
      · rfl
      · exact update_of_ne hd _ _
    · obtain rfl : w.incoming = x :=
        Option.some.inj ((hfl.incoming c w (by rw [hp]; rfl)).symm.trans hc)
      obtain rfl := h.chosen c w top hp hx
      rw [hrsp0]
      simp [St.setPhase, if_neg hne]
  | spawn _ _ _ _ hne _ hta =>
    refine h.insert hex hfl hta rfl (fun _ => hne) rfl rfl (fun _ _ => Iff.rfl)
      (fun _ _ hid => .inl hid) fun hok => ?_
    simp only [Trap.heapKept, Bool.and_eq_true, decide_eq_true_eq] at hok
    exact ⟨hok.1, fun _ => hok.2⟩
  | @initLock c _ _ hp _ hta =>
    refine h.insert hex hfl hta rfl (by simp [Base.process]) rfl rfl ?_ ?_
      fun hok => ⟨hok, fun hne => absurd rfl hne⟩
    · exact (forall_update_iff s.sched.phase fun d q => ∀ w, q = .decided w ↔
        s.sched.phase d = .decided w).mpr ⟨by simp [hp], fun _ _ _ => Iff.rfl⟩
    · refine (forall_update_iff s.sched.phase fun d q => ∀ id, q = .adopting id →
        s.sched.phase d = .adopting id ∨ id = ⟨s.sched.nextId⟩ ∧ _).mpr
        ⟨?_, fun _ _ _ hid => .inl hid⟩
      rintro id ⟨⟩
      exact .inr ⟨rfl, rfl⟩
  | @initSet c id hp =>
    refine h.moved rfl (fun d hd => update_of_ne hd _ _) (fun _ _ => ⟨rfl, rfl⟩) rfl (fun _ => rfl)
      (by simp) (fun x top _ hc hx hne => ?_) (by simp)
    -- The thread a CPU starts with has no stack of its own.
    obtain rfl : id = x := by simpa [St.setPhase] using hc
    exact absurd (h.adopting c id top hp hx) hne
  | _ => exact h.stable (step_stable rfl ht)

end Stacked

/-- In every run, a CPU that executes ring-3 code of a thread has the thread's own
kernel stack in both words, and one that is about to enter ring 3 passes the
assertion of `user_thread_entry`. If the heap gave no new thread a stack in use,
two threads in ring 3 trap onto different stacks. -/
theorem traps_onto_own_stack {as : List (Act n)} {s : Trap n}
    (hrun : Run Trap.Step (Trap.boot n) as s) :
    (∀ c x, s.InRing3 c x → ∃ top, top ≠ 0 ∧ s.sched.stackTop x = some top ∧
      s.sched.kernelRsp c = top ∧ s.rsp0 c = top) ∧
    (∀ c x, s.AtEntry c x → s.sched.kernelRsp c ≠ 0) ∧
    (s.heapSound = true → ∀ c d x y, s.InRing3 c x → s.InRing3 d y → x ≠ y →
      s.sched.kernelRsp c ≠ s.sched.kernelRsp d ∧ s.rsp0 c ≠ s.rsp0 d) := by
  have hinv : Exclusive s.sched ∧ InFlight s.sched ∧ Stacked s := by
    refine hrun.invariant (p := fun s => Exclusive s.sched ∧ InFlight s.sched ∧ Stacked s)
      (fun s a t h hstep => ?_) ⟨Exclusive.boot, InFlight.boot, Stacked.boot⟩
    obtain ⟨hex, hfl, hstack⟩ := h
    obtain ⟨t', ht, rfl⟩ := Option.map_eq_some_iff.mp hstep
    exact ⟨hex.step ht, hfl.step hex ht, hstack.step hex hfl hstep⟩
  obtain ⟨-, -, hstack⟩ := hinv
  have hwords : ∀ c x, s.sched.running c = some x → (s.sched.base x).process = true →
      ∃ top, top ≠ 0 ∧ s.sched.stackTop x = some top ∧ s.sched.kernelRsp c = top ∧
        s.rsp0 c = top := by
    intro c x hrunning hprocess
    obtain ⟨hphase, hcur⟩ := St.running_eq_some.mp hrunning
    obtain ⟨top, hne, htop⟩ := hstack.process x hprocess
    exact ⟨top, hne, htop, hstack.words c x top (by simp [hphase]) hcur htop hne⟩
  have hring : ∀ c x, s.InRing3 c x → ∃ top, top ≠ 0 ∧ s.sched.stackTop x = some top ∧
      s.sched.kernelRsp c = top ∧ s.rsp0 c = top := by
    rintro c x ⟨hrunning, -, root, hbase⟩
    exact hwords c x hrunning (by rw [hbase]; rfl)
  refine ⟨hring, ?_, fun hok c d x y hx hy hne => ?_⟩
  · rintro c x ⟨hrunning, -, root, hbase⟩
    obtain ⟨top, hne, -, hrsp, -⟩ := hwords c x hrunning (by rw [hbase]; rfl)
    rwa [hrsp]
  · obtain ⟨top, hnz, htop, hrsp, hrsp0⟩ := hring c x hx
    obtain ⟨top', -, htop', hrsp', hrsp0'⟩ := hring d y hy
    have hapart : top ≠ top' := by
      rintro rfl
      exact hne (hstack.distinct hok x y top htop htop' hnz)
    rw [hrsp, hrsp', hrsp0, hrsp0']
    exact ⟨hapart, hapart⟩

/-- A process is preempted in user mode, its CPU goes through the idle thread, and the
other CPU steals it; then the first CPU enters a second process. -/
theorem traps_onto_own_stack_migrated :
    ∃ s : Trap 2, Run Trap.Step (Trap.boot 2) (List.flatten [
      bootCpu 0, bootCpu 1, [.markOnline 0, .markOnline 1],
      spawnOn 0 ⟨2⟩ 4096 (some 7), yieldTo 0, enterProcess 0,
      [.setPreemption true, .enter 0 .tick, .takeLocal 0, .stealFrom 0 false, .takeLast 0],
      switchOver 0, leaveSchedule 0,
      [.enter 1 .yield, .takeLocal 1, .stealFrom 1 false], switchOver 1, leaveSchedule 1,
      [.run 1 .frame],
      spawnOn 0 ⟨3⟩ 8192 (some 8), yieldTo 0, enterProcess 0]) s ∧
      s.sched.kernelRsp 1 = 4096 ∧ s.rsp0 1 = 4096 ∧ s.sched.kernelRsp 0 = 8192 ∧
      s.rsp0 0 = 8192 ∧ s.sched.kernelRsp 0 ≠ s.sched.kernelRsp 1 ∧ s.rsp0 0 ≠ s.rsp0 1 := by
  refine exists_run_of_exec
    (p := fun s => (s.sched.running 1 = some ⟨2⟩ ∧ s.sched.tail ⟨2⟩ = [] ∧
        s.sched.base ⟨2⟩ = .user 7 ∧ s.sched.stackTop ⟨2⟩ = some 4096) ∧
      (s.sched.running 0 = some ⟨3⟩ ∧ s.sched.tail ⟨3⟩ = [] ∧ s.sched.base ⟨3⟩ = .user 8 ∧
        s.sched.stackTop ⟨3⟩ = some 8192) ∧ s.heapSound = true)
    (by decide +kernel) fun s hrun hfacts => ?_
  obtain ⟨⟨hrunning, htail, hbase, htop⟩, ⟨hrunning', htail', hbase', htop'⟩, hok⟩ := hfacts
  obtain ⟨hwords, -, hapart⟩ := traps_onto_own_stack hrun
  have hring : s.InRing3 1 ⟨2⟩ := ⟨hrunning, htail, 7, hbase⟩
  have hring' : s.InRing3 0 ⟨3⟩ := ⟨hrunning', htail', 8, hbase'⟩
  obtain ⟨top, -, heq, hrsp, hrsp0⟩ := hwords 1 ⟨2⟩ hring
  obtain ⟨top', -, heq', hrsp', hrsp0'⟩ := hwords 0 ⟨3⟩ hring'
  obtain rfl := Option.mem_unique htop heq
  obtain rfl := Option.mem_unique htop' heq'
  exact ⟨hrsp, hrsp0, hrsp', hrsp0', hapart hok 0 1 ⟨3⟩ ⟨2⟩ hring' hring (by decide)⟩

end Qunix.Sched
