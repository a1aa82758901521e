/-
The kernel side of the scheduler (`kernel/src/sched.rs`) as a machine of any
number of CPUs.

One step is one section under the scheduler lock, one section under a run-queue
lock, one atomic operation on a handoff slot, or one piece of CPU-local code
between two of these. What a CPU does inside `schedule` is its `Phase`; what a
thread does when it runs is its `Base`, under the frames (`Tail`) that
`schedule` and the timer interrupt have left on its stack. A thread's own code
is arbitrary: it may yield, park, exit, spawn or mask interrupts at any time.
Wakeups come from anywhere, an interrupt handler included.

A step that the source answers with a panic has no successor. The handoff word
is kept decoded (`Handoff`); ids below 2^63 - 1 leave it its tag bit. The
value `context::switch` stores is a stamp drawn from a counter, so that two
saved contexts are never confused, and `rsp` remembers for each thread the
stamp of the stack it really stopped on. A switch resumes the thread that the
decision named; whether it loaded that thread's context is a theorem, not an
assumption.

`current_id` is one step here: `park`, `exit_current` and `adopt_address_space`
act on the thread that runs them. The source reads the id in two steps, and may
then act on another thread. `Qunix.Hal.CurrentId` is the machine in which it
does, and `Qunix.Hal.OwnIds` says what of this one is true of that one.
-/

import Mathlib.Data.List.FinRange
import Qunix.Sched.Policy

namespace Qunix.Sched

open Function

/-! ### Threads -/

inductive ThreadState where
  | ready
  | running
  | blocked
  | exited
deriving DecidableEq, Repr

/-- An entry of the thread table. `addr` is where the table keeps it. -/
structure Thread (n : Nat) where
  addr : Nat
  context : Option Nat
  kernelStackTop : Nat
  state : ThreadState
  priority : Priority
  park : ParkState
  homeCpu : Option (Fin n)
  /-- The root frame of the address space the thread owns. -/
  addressSpace : Option Nat
deriving DecidableEq, Repr

/-! ### The handoff slot -/

/-- `HANDOFF_ID` of one CPU. -/
inductive Handoff where
  | empty
  | ready (id : ThreadId)
  | parked (id : ThreadId)
deriving DecidableEq, Repr

def noThread : Nat := 0xffffffffffffffff

/-! ### What a thread is doing -/

/-- Where a call of `park` stands. -/
inductive ParkStage where
  /-- Masked, before `ParkState::park`. -/
  | top
  /-- Parked, about to call `schedule(Blocked)`. -/
  | sched
  /-- Back from `schedule`, before the first `is_parked`. -/
  | check
  /-- Still parked, about to execute `sti; hlt`. -/
  | sti
  | halt
  /-- Out of the halt, before the second `is_parked`. -/
  | recheck
  /-- Answered yes: about to go round the loop, interrupts enabled. -/
  | again
  /-- Woken or cancelled: about to restore interrupts and return. -/
  | done
deriving DecidableEq, Repr

/-- Where `exit_current` stands. -/
inductive ExitStage where
  | loop
  | check
  | sti
  | halt
deriving DecidableEq, Repr

/-- Where `user_thread_entry` stands. -/
inductive UserStage where
  | activate
  | adopt
  | enter
deriving DecidableEq, Repr

/-- The code a thread runs outside `schedule`. Roots are those of the thread's
own address space. -/
inductive Base where
  | code
  | park (irq : Bool) (stage : ParkStage)
  | exit (stage : ExitStage)
  | userEntry (root : Nat) (stage : UserStage)
  | user (root : Nat)
  | sys (root : Nat)
deriving DecidableEq, Repr

/-- What is left to do on a thread's stack before its own code goes on. -/
inductive Tail where
  /-- `thread_entry` of a fresh thread: enable interrupts. -/
  | start
  /-- `Irq::restore` of a saved flag. -/
  | restore (irq : Bool)
  /-- The locked part of `reap`. -/
  | reap
  /-- `reap` dropping what it took out of the table. -/
  | drop (corpses : List ThreadId)
  /-- The end of the timer handler. -/
  | iret
deriving DecidableEq, Repr

/-- The part of the state that a running thread changes on its own. `cr3` is
the loaded root, with `none` for the kernel's. -/
structure Ctl where
  base : Base
  tail : List Tail
  irqOn : Bool
  cr3 : Option Nat
deriving DecidableEq, Repr

/-- An interrupt ends a halt. -/
def Base.wake : Base → Base
  | .park irq .halt => .park irq .recheck
  | .exit .halt => .exit .loop
  | base => base

/-- Steps that touch nothing shared. -/
inductive Local where
  | frame
  | interrupt
  | setIrq (enabled : Bool)
  | park
  | mask
  | sti
  | parkReturn
  | exit
  | activate
  | enterUser
  | syscall
  | sysret
  | sysExit
  | fault
deriving DecidableEq, Repr

def Ctl.run (k : Ctl) : Local → Option Ctl
  | .frame =>
    match k.tail with
    | .start :: tail => some { k with tail := tail, irqOn := true }
    | .restore irq :: tail => some { k with tail := tail, irqOn := k.irqOn || irq }
    | .drop _ :: tail => some { k with tail := tail }
    | .iret :: tail => some { k with tail := tail, irqOn := true }
    | _ => none
  | .interrupt => if k.irqOn then some { k with base := k.base.wake } else none
  | a =>
    -- Everything else is the thread's own code.
    match k.tail, k.base, a with
    | [], .code, .setIrq enabled => some { k with irqOn := enabled }
    | [], .code, .park => some { k with base := .park k.irqOn .top, irqOn := false }
    | [], .park irq .again, .mask => some { k with base := .park irq .top, irqOn := false }
    | [], .park irq .sti, .sti => some { k with base := .park irq .halt, irqOn := true }
    | [], .park irq .done, .parkReturn =>
      some { k with base := .code, irqOn := k.irqOn || irq }
    | [], .code, .exit => some { k with base := .exit .loop }
    | [], .exit .sti, .sti => some { k with base := .exit .halt, irqOn := true }
    | [], .userEntry root .activate, .activate =>
      some { k with base := .userEntry root .adopt, cr3 := some root }
    | [], .userEntry root .enter, .enterUser => some { k with base := .user root, irqOn := true }
    | [], .user root, .syscall => some { k with base := .sys root, irqOn := false }
    | [], .sys root, .sysret => some { k with base := .user root, irqOn := true }
    -- Both ways out of a process leave its page tables first.
    | [], .sys _, .sysExit => some { k with base := .exit .loop, cr3 := none }
    | [], .user _, .fault => some { k with base := .exit .loop, cr3 := none, irqOn := false }
    | _, _, _ => none

/-- The calls of `schedule`. -/
inductive Enter where
  | yield
  | tick
  | park
  | exit
deriving DecidableEq, Repr

/-- Entering `schedule`: the state handed to it and the interrupt flag it saves. -/
def Ctl.enter (k : Ctl) : Enter → Option (Ctl × ThreadState × Bool)
  | .tick =>
    if k.irqOn then
      some ({ k with base := k.base.wake, tail := .iret :: k.tail, irqOn := false }, .ready, false)
    else none
  | e =>
    match k.tail, k.base, e with
    | [], .code, .yield => some ({ k with irqOn := false }, .ready, k.irqOn)
    | [], .sys _, .yield => some ({ k with irqOn := false }, .ready, k.irqOn)
    | [], .park irq .sched, .park =>
      some ({ k with base := .park irq .check, irqOn := false }, .blocked, k.irqOn)
    | [], .exit .loop, .exit =>
      some ({ k with base := .exit .check, irqOn := false }, .exited, k.irqOn)
    | _, _, _ => none

/-! ### CPUs -/

/-- What `schedule` copies out under the scheduler lock and uses after it has
released it. -/
structure Window where
  outgoing : ThreadId
  /-- `from_slot`: where the outgoing thread's entry was. -/
  slot : Nat
  incoming : ThreadId
  ctx : Nat
  stackTop : Nat
  root : Option Nat
  irq : Bool
deriving DecidableEq, Repr

/-- What a CPU is doing. -/
inductive Phase (n : Nat) where
  /-- Not scheduling yet. -/
  | off
  /-- `init`, with the idle thread in the table but not yet current. -/
  | adopting (id : ThreadId)
  /-- Running its current thread. -/
  | run
  /-- Inside `schedule`, before it looks at its own queue. -/
  | pick (out : ThreadState) (irq : Bool)
  /-- Looking for work in the queues of the CPUs left to try. -/
  | steal (out : ThreadState) (irq : Bool) (victims : List (Fin n))
  | took (out : ThreadState) (irq : Bool) (next : ThreadId)
  | nothing (out : ThreadState) (irq : Bool)
  /-- The lock is released; the three parts of the switch follow. -/
  | decided (w : Window)
  | stacked (w : Window)
  | rooted (w : Window)
  /-- On the incoming thread's stack, before it publishes the handoff. -/
  | landed
  | publishing (id : ThreadId) (prio : Priority)
deriving DecidableEq, Repr

/-- A wakeup past its lock section that still has to queue its thread. -/
structure Wake (n : Nat) where
  id : ThreadId
  prio : Priority
  home : Option (Fin n)
deriving DecidableEq, Repr

structure St (n : Nat) where
  -- Per CPU.
  current : Fin n → Option ThreadId
  phase : Fin n → Phase n
  handoff : Fin n → Handoff
  handoffPriority : Fin n → Nat
  queue : Fin n → RunQueue
  online : Fin n → Bool
  irqOn : Fin n → Bool
  cr3 : Fin n → Option Nat
  kernelRsp : Fin n → Nat
  -- Under the scheduler lock.
  table : ThreadId → Option (Thread n)
  nextId : Nat
  reapable : List ThreadId
  -- Between a lock section and the push that follows it.
  wakes : List (Wake n)
  spawns : List (ThreadId × Priority)
  preempt : Bool
  -- Per thread.
  base : ThreadId → Base
  tail : ThreadId → List Tail
  rsp : ThreadId → Option Nat
  stamp : Nat

namespace St

variable {n : Nat}

def boot (n : Nat) : St n where
  current := fun _ => none
  phase := fun _ => .off
  handoff := fun _ => .empty
  handoffPriority := fun _ => 0
  queue := fun _ => .empty
  online := fun _ => false
  irqOn := fun _ => false
  cr3 := fun _ => none
  kernelRsp := fun _ => 0
  table := fun _ => none
  nextId := 0
  reapable := []
  wakes := []
  spawns := []
  preempt := false
  base := fun _ => .code
  tail := fun _ => []
  rsp := fun _ => none
  stamp := 0

/-- The thread whose code a CPU executes, outside `schedule`. -/
def running (s : St n) (c : Fin n) : Option ThreadId :=
  if s.phase c = .run then s.current c else none

def parked (s : St n) (id : ThreadId) : Bool := (s.table id).any fun t => t.park.parked

def isCurrentAnywhere (s : St n) (id : ThreadId) : Bool :=
  (List.finRange n).any fun c => s.current c == some id

/-! ### The thread table -/

/-- Changes one entry in place. -/
def modify (s : St n) (id : ThreadId) (f : Thread n → Thread n) : St n :=
  { s with table := update s.table id ((s.table id).map f) }

/-- The table promises no address stability: `place` says where an insertion or
a removal left every entry. -/
def relocate (place : ThreadId → Nat) (table : ThreadId → Option (Thread n)) :
    ThreadId → Option (Thread n) :=
  fun id => (table id).map fun t => { t with addr := place id }

/-- Entries do not overlap. -/
def Separate (table : ThreadId → Option (Thread n)) (nextId : Nat) : Prop :=
  ∀ i < nextId, ∀ j < nextId, (table ⟨i⟩).isSome → (table ⟨j⟩).isSome →
    (table ⟨i⟩).map Thread.addr = (table ⟨j⟩).map Thread.addr → i = j

instance (table : ThreadId → Option (Thread n)) (nextId : Nat) :
    Decidable (Separate table nextId) :=
  inferInstanceAs (Decidable (∀ i < nextId, ∀ j < nextId, _ → _ → _ → _))

/-! ### Steps of a running thread -/

def ctl (s : St n) (c : Fin n) (id : ThreadId) : Ctl :=
  ⟨s.base id, s.tail id, s.irqOn c, s.cr3 c⟩

def setCtl (s : St n) (c : Fin n) (id : ThreadId) (k : Ctl) : St n :=
  { s with
    base := update s.base id k.base
    tail := update s.tail id k.tail
    irqOn := update s.irqOn c k.irqOn
    cr3 := update s.cr3 c k.cr3 }

def setPhase (s : St n) (c : Fin n) (phase : Phase n) : St n :=
  { s with phase := update s.phase c phase }

def setBase (s : St n) (id : ThreadId) (base : Base) : St n :=
  { s with base := update s.base id base }

def runLocal (s : St n) (c : Fin n) (a : Local) : Option (St n) :=
  (s.running c).bind fun me => ((s.ctl c me).run a).map (s.setCtl c me)

/-- Entering `schedule`. A timer tick does so only while preemption is on. -/
def enter (s : St n) (c : Fin n) (e : Enter) : Option (St n) :=
  if e = .tick ∧ s.preempt = false then none
  else (s.running c).bind fun me =>
    ((s.ctl c me).enter e).map fun (k, out, irq) => (s.setCtl c me k).setPhase c (.pick out irq)

/-- The locked part of `park`, on the thread itself; on the id it has read this is
`Hal.parkSectionOn`. -/
def parkSection (s : St n) (c : Fin n) : Option (St n) :=
  (s.running c).bind fun me =>
    match s.tail me, s.base me, s.table me with
    | [], .park irq .top, some t =>
      match t.park.park with
      | (.cancelled, p) =>
        some ((s.modify me fun t => { t with park := p }).setBase me (.park irq .done))
      | (.parked, p) =>
        some ((s.modify me fun t => { t with park := p, state := .blocked }).setBase me
          (.park irq .sched))
    | _, _, _ => none

/-- `is_parked`, asked after `schedule` and after the halt. -/
def parkCheck (s : St n) (c : Fin n) : Option (St n) :=
  (s.running c).bind fun me =>
    match s.tail me, s.base me with
    | [], .park irq .check =>
      some (s.setBase me (.park irq (if s.parked me then .sti else .done)))
    | [], .park irq .recheck =>
      some (s.setBase me (.park irq (if s.parked me then .again else .done)))
    | _, _ => none

/-- `another_thread_is_alive`; without one the source panics. -/
def exitCheck (s : St n) (c : Fin n) : Option (St n) :=
  (s.running c).bind fun me =>
    match s.tail me, s.base me with
    | [], .exit .check =>
      if (List.range s.nextId).any fun i => decide (i ≠ me.val) && (s.table ⟨i⟩).isSome then
        some (s.setBase me (.exit .sti))
      else none
    | _, _ => none

/-- On the thread itself, as `parkSection`. -/
def adoptAddressSpace (s : St n) (c : Fin n) : Option (St n) :=
  (s.running c).bind fun me =>
    match s.tail me, s.base me, s.table me with
    | [], .userEntry root .adopt, some t =>
      if t.addressSpace = none then
        some ((s.modify me fun t => { t with addressSpace := some root }).setBase me
          (.userEntry root .enter))
      else none
    | _, _, _ => none

/-- The locked part of `reap`. Removing an entry may move the others. -/
def reap (s : St n) (c : Fin n) (place : ThreadId → Nat) : Option (St n) :=
  (s.running c).bind fun me =>
    match s.tail me with
    | .reap :: tail =>
      let gone := s.reapable.filter fun id => !s.isCurrentAnywhere id
      let corpses := gone.filter fun id => (s.table id).isSome
      let table := fun id => if id ∈ gone then none else s.table id
      let s := { s with
        reapable := s.reapable.filter s.isCurrentAnywhere
        tail := update s.tail me (.drop corpses :: tail) }
      if corpses = [] then some s
      else if Separate (relocate place table) s.nextId then
        some { s with table := relocate place table }
      else none
    | _ => none

/-! ### `take_next` -/

def takeLocal (s : St n) (c : Fin n) : Option (St n) :=
  match s.phase c with
  | .pick out irq =>
    let search := s.setPhase c
      (.steal out irq ((List.finRange n).filter fun d => s.online d && decide (d ≠ c)))
    if 0 < (s.queue c).runnableLen then
      match (s.queue c).pop with
      | some (id, q) => some ({ s with queue := update s.queue c q }.setPhase c (.took out irq id))
      | none => some search
    else some search
  | _ => none

/-- One victim; `contended` says that its lock was taken. -/
def stealFrom (s : St n) (c : Fin n) (contended : Bool) : Option (St n) :=
  match s.phase c with
  | .steal out irq (d :: victims) =>
    let search := s.setPhase c (.steal out irq victims)
    if contended || (s.queue d).runnableLen == 0 then some search
    else match (s.queue d).steal with
      | some (id, q) => some ({ s with queue := update s.queue d q }.setPhase c (.took out irq id))
      | none => some search
  | _ => none

def takeLast (s : St n) (c : Fin n) : Option (St n) :=
  match s.phase c with
  | .steal out irq [] =>
    match (s.queue c).pop with
    | some (id, q) => some ({ s with queue := update s.queue c q }.setPhase c (.took out irq id))
    | none => some (s.setPhase c (.nothing out irq))
  | _ => none

/-! ### `schedule` -/

/-- `schedule` without a thread to switch to: everyone but an exiting thread
reaps, still masked, and returns. -/
def noNext (s : St n) (c : Fin n) : Option (St n) :=
  match s.phase c, s.current c with
  | .nothing out irq, some me =>
    let back := if out = ThreadState.exited then [.restore irq] else [.reap, .restore irq]
    some ({ s with tail := update s.tail me (back ++ s.tail me) }.setPhase c .run)
  | _, _ => none

/-- The outgoing half of the decision: an exiting thread becomes reapable, any
other goes into the handoff slot, tagged if it is parked. -/
def handOn (s : St n) (c : Fin n) (me : ThreadId) (out : ThreadState) : St n :=
  if out = .exited then
    { s.modify me (fun t => { t with state := .exited }) with
      reapable := s.reapable ++ [me]
      handoff := update s.handoff c .empty }
  else
    let prio := ((s.table me).map Thread.priority).getD .normal
    { s.modify me (fun t => { t with
        state := if t.state = .exited then .exited
          else if t.park.parked then .blocked else .ready }) with
      handoffPriority := update s.handoffPriority c prio.raw
      handoff := update s.handoff c (if s.parked me then .parked me else .ready me) }

/-- The locked part of `schedule`. -/
def decide (s : St n) (c : Fin n) : Option (St n) :=
  match s.phase c, s.current c with
  | .took out irq next, some me =>
    let s := s.handOn c me out
    match s.table next with
    | some t =>
      match t.context with
      | some ctx =>
        let s := { s.modify next (fun t => { t with state := .running }) with
          current := update s.current c (some next) }
        (s.table me).map fun old => s.setPhase c
          (.decided ⟨me, old.addr, next, ctx, t.kernelStackTop, t.addressSpace, irq⟩)
      | none => none
    | none => none
  | _, _ => none

def setKernelStack (s : St n) (c : Fin n) : Option (St n) :=
  match s.phase c with
  | .decided w =>
    let top := if w.stackTop = 0 then s.kernelRsp c else w.stackTop
    some ({ s with kernelRsp := update s.kernelRsp c top }.setPhase c (.stacked w))
  | _ => none

def activateRoot (s : St n) (c : Fin n) : Option (St n) :=
  match s.phase c with
  | .stacked w => some ({ s with cr3 := update s.cr3 c w.root }.setPhase c (.rooted w))
  | _ => none

/-- A store of a context through the address of an entry. -/
def storeContext (table : ThreadId → Option (Thread n)) (slot value : Nat) :
    ThreadId → Option (Thread n) :=
  fun id => (table id).map fun t => if t.addr = slot then { t with context := some value } else t

/-- `context::switch`: the outgoing thread's stack pointer goes through
`from_slot`, and the CPU is on the incoming thread's stack. -/
def switch (s : St n) (c : Fin n) : Option (St n) :=
  match s.phase c with
  | .rooted w =>
    some ({ s with
      table := storeContext s.table w.slot s.stamp
      rsp := update s.rsp w.outgoing (some s.stamp)
      stamp := s.stamp + 1
      tail := update s.tail w.outgoing (.restore w.irq :: .reap :: s.tail w.outgoing) }.setPhase c
        .landed)
  | _ => none

/-- The swap in `publish_handoff`. -/
def publishSwap (s : St n) (c : Fin n) : Option (St n) :=
  match s.phase c with
  | .landed =>
    let t := { s with handoff := update s.handoff c .empty }
    match s.handoff c with
    | .ready id => some (t.setPhase c (.publishing id (priorityFromRaw (s.handoffPriority c))))
    -- Still parked when the switch completed: it stays out of every queue.
    | .parked _ => some (t.setPhase c .run)
    | .empty => some (t.setPhase c .run)
  | _ => none

def publishPush (s : St n) (c : Fin n) : Option (St n) :=
  match s.phase c with
  | .publishing id prio =>
    some ({ s with queue := update s.queue c ((s.queue c).push id prio) }.setPhase c .run)
  | _ => none

/-! ### Waking and spawning -/

/-- The compare-exchange loop: clears the parked tag of a slot that names `id`. -/
def claimParkedHandoff (s : St n) (id : ThreadId) : Option (St n) :=
  ((List.finRange n).find? fun c => s.handoff c == .parked id).map fun c =>
    { s with handoff := update s.handoff c (.ready id) }

/-- The locked part of `unpark`. -/
def unpark (s : St n) (id : ThreadId) : Option (St n) :=
  (s.table id).map fun t =>
    match t.park.wake with
    | (.noted, p) => s.modify id fun t => { t with park := p }
    | (.runnable, p) =>
      let s := s.modify id fun t => { t with park := p, state := .ready }
      if s.isCurrentAnywhere id then s
      else match s.claimParkedHandoff id with
        | some s => s
        | none => { s with wakes := ⟨id, t.priority, t.homeCpu⟩ :: s.wakes }

/-- The push that ends `unpark`, on the thread's home or on the local CPU. -/
def wakePush (s : St n) (w : Wake n) (c : Fin n) : Option (St n) :=
  if w ∈ s.wakes then
    let d := w.home.getD c
    some { s with
      wakes := s.wakes.erase w
      queue := update s.queue d ((s.queue d).push w.id w.prio) }
  else none

/-- What a new thread runs: kernel code, or a process with its address space. -/
def startBase : Option Nat → Base
  | none => .code
  | some root => .userEntry root .activate

/-- The locked part of `spawn_kernel`; `allocate_id` panics before it hands out `NO_THREAD`. -/
def spawn (s : St n) (c : Fin n) (place : ThreadId → Nat) (prio : Priority) (stackTop : Nat)
    (process : Option Nat) : Option (St n) :=
  (s.running c).bind fun me =>
    let id : ThreadId := ⟨s.nextId⟩
    let entry : Thread n :=
      ⟨place id, some s.stamp, stackTop, .ready, prio, .fresh, none, none⟩
    let table := relocate place (update s.table id (some entry))
    if s.tail me = [] ∧ s.base me = .code ∧ stackTop ≠ 0 ∧ s.nextId < noThread ∧
        Separate table (s.nextId + 1) then
      some { s with
        table := table
        nextId := s.nextId + 1
        spawns := (id, prio) :: s.spawns
        base := update s.base id (startBase process)
        tail := update s.tail id [.start]
        rsp := update s.rsp id (some s.stamp)
        stamp := s.stamp + 1 }
    else none

def spawnPush (s : St n) (id : ThreadId) (prio : Priority) (c : Fin n) : Option (St n) :=
  if (id, prio) ∈ s.spawns then
    some { s with
      spawns := s.spawns.erase (id, prio)
      queue := update s.queue c ((s.queue c).push id prio) }
  else none

/-! ### Bring-up -/

/-- The locked part of `init`: the CPU's boot context becomes its idle thread. -/
def initLock (s : St n) (c : Fin n) (place : ThreadId → Nat) : Option (St n) :=
  let id : ThreadId := ⟨s.nextId⟩
  let entry : Thread n := ⟨place id, none, 0, .running, .idle, .fresh, some c, none⟩
  let table := relocate place (update s.table id (some entry))
  if s.phase c = .off ∧ s.nextId < noThread ∧ Separate table (s.nextId + 1) then
    some ({ s with
      table := table
      nextId := s.nextId + 1
      base := update s.base id .code
      tail := update s.tail id []
      rsp := update s.rsp id none }.setPhase c (.adopting id))
  else none

def initSet (s : St n) (c : Fin n) : Option (St n) :=
  match s.phase c with
  | .adopting id => some ({ s with current := update s.current c (some id) }.setPhase c .run)
  | _ => none

def markOnline (s : St n) (c : Fin n) : Option (St n) :=
  if s.phase c = .run then some { s with online := update s.online c true } else none

end St

/-! ### The machine -/

inductive Act (n : Nat) where
  | run (c : Fin n) (a : Local)
  | enter (c : Fin n) (e : Enter)
  | parkSection (c : Fin n)
  | parkCheck (c : Fin n)
  | exitCheck (c : Fin n)
  | adopt (c : Fin n)
  | reap (c : Fin n) (place : ThreadId → Nat)
  | takeLocal (c : Fin n)
  | stealFrom (c : Fin n) (contended : Bool)
  | takeLast (c : Fin n)
  | noNext (c : Fin n)
  | decide (c : Fin n)
  | setKernelStack (c : Fin n)
  | activateRoot (c : Fin n)
  | switch (c : Fin n)
  | publishSwap (c : Fin n)
  | publishPush (c : Fin n)
  | unpark (id : ThreadId)
  | wakePush (w : Wake n) (c : Fin n)
  | spawn (c : Fin n) (place : ThreadId → Nat) (prio : Priority) (stackTop : Nat)
      (process : Option Nat)
  | spawnPush (id : ThreadId) (prio : Priority) (c : Fin n)
  | initLock (c : Fin n) (place : ThreadId → Nat)
  | initSet (c : Fin n)
  | markOnline (c : Fin n)
  | setPreemption (enabled : Bool)

variable {n : Nat}

def St.step (s : St n) : Act n → Option (St n)
  | .run c a => s.runLocal c a
  | .enter c e => s.enter c e
  | .parkSection c => s.parkSection c
  | .parkCheck c => s.parkCheck c
  | .exitCheck c => s.exitCheck c
  | .adopt c => s.adoptAddressSpace c
  | .reap c place => s.reap c place
  | .takeLocal c => s.takeLocal c
  | .stealFrom c contended => s.stealFrom c contended
  | .takeLast c => s.takeLast c
  | .noNext c => s.noNext c
  | .decide c => s.decide c
  | .setKernelStack c => s.setKernelStack c
  | .activateRoot c => s.activateRoot c
  | .switch c => s.switch c
  | .publishSwap c => s.publishSwap c
  | .publishPush c => s.publishPush c
  | .unpark id => s.unpark id
  | .wakePush w c => s.wakePush w c
  | .spawn c place prio stackTop process => s.spawn c place prio stackTop process
  | .spawnPush id prio c => s.spawnPush id prio c
  | .initLock c place => s.initLock c place
  | .initSet c => s.initSet c
  | .markOnline c => s.markOnline c
  | .setPreemption enabled => some { s with preempt := enabled }

/-! ### Pieces of runs -/

/-- A CPU adopts the thread it boots on. -/
def bootCpu (c : Fin n) : List (Act n) := [.initLock c ThreadId.val, .initSet c]

def spawnOn (c : Fin n) (id : ThreadId) (stackTop : Nat) (process : Option Nat) : List (Act n) :=
  [.spawn c ThreadId.val .normal stackTop process, .spawnPush id .normal c]

/-- From the decision to the end of the switch. -/
def switchOver (c : Fin n) : List (Act n) :=
  [.decide c, .setKernelStack c, .activateRoot c, .switch c, .publishSwap c, .publishPush c]

/-- A thread yields to the next one in its CPU's queue. -/
def yieldTo (c : Fin n) : List (Act n) := [.enter c .yield, .takeLocal c] ++ switchOver c

/-- A thread that has been switched back to returns from `schedule`. -/
def leaveSchedule (c : Fin n) : List (Act n) :=
  [.run c .frame, .reap c ThreadId.val, .run c .frame]

/-- A new thread with a process, up to its first instruction in ring 3. -/
def enterProcess (c : Fin n) : List (Act n) :=
  [.run c .frame, .run c .activate, .adopt c, .run c .enterUser]

/-- A call of `park` with nothing else to run, up to its halt. -/
def parkAlone (c : Fin n) : List (Act n) :=
  [.run c .park, .parkSection c, .enter c .park, .takeLocal c, .takeLast c, .noNext c,
    .reap c ThreadId.val, .run c .frame, .run c .frame, .parkCheck c, .run c .sti]

end Qunix.Sched
