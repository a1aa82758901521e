/-
The ways between ring 3 and the kernel
(`crates/qunix-hal-x86_64/src/{percpu,syscall,idt,tlb}.rs`, `kernel/src/main.rs`).

A `Machine` is the scheduler machine together with the registers that its steps
take for granted: each CPU's `GS_BASE` and `KERNEL_GS_BASE`, the `user_rsp` slot
of its block, and the user stack pointer of every process. A base is the block
it points at, or `none` for the zero that `mov gs, ax` leaves in ring 3.

`finish_install` has run on every CPU: both bases start at its own block. The
syscall stub and the interrupt handlers are sequences of the instructions below;
they run with interrupts masked, and nothing else reads the registers and slots
they use. An access through a zero base faults in ring 0, which stops the
machine. Every use of a base goes into a log.
-/

import Qunix.Sched.Elsewhere

namespace Qunix.Hal

open Function Qunix.Sched

variable {n : Nat}

/-- What a run is asked about afterwards. -/
inductive Event (n : Nat) where
  /-- A kernel access through `gs:` and the base it used. -/
  | gs (c : Fin n) (base : Option (Fin n))
  /-- `KERNEL_GS_BASE` as `restore_gs_base` or the stub's first `swapgs` found it. -/
  | kernelGs (c : Fin n) (base : Option (Fin n))
  /-- A `sysretq`: the stack pointer at the `SYSCALL` and the one returned to. -/
  | sysret (id : ThreadId) (entered returned : Nat)
deriving DecidableEq, Repr

/-- The handlers that call `restore_gs_base` first. -/
inductive Handler where
  | timer
  | shootdown
  | block
deriving DecidableEq, Repr

structure Machine (n : Nat) where
  st : St n
  -- Per CPU.
  gsBase : Fin n → Option (Fin n)
  kernelGsBase : Fin n → Option (Fin n)
  userRsp : Fin n → Nat
  handling : Fin n → Option Handler
  /-- The stack pointer a thread has in ring 3. -/
  rsp : ThreadId → Nat
  /-- The stack pointer and the CPU of a thread's last `SYSCALL`. -/
  entry : ThreadId → Option (Nat × Fin n)
  log : List (Event n)
  stopped : Bool

/-! ### Which code uses `gs:` -/

/-- Steps of the scheduler machine that are taken here together with the
instructions of an entry or an exit. -/
def viaEntry : Act n → Bool
  | .run _ .interrupt => true
  | .run _ .syscall => true
  | .run _ .sysret => true
  | .run _ .fault => true
  | .enter _ .tick => true
  | _ => false

/-- The CPU whose block a step reaches through `gs:`, by `current_id`, `cpu_id`,
`run_queue`, `set_current_thread`, `set_kernel_stack` or `selectors`. -/
def gsCpu : Act n → Option (Fin n)
  | .run c .park => some c
  | .run c .exit => some c
  | .run c .sysExit => some c
  | .run c .activate => some c
  | .run c .enterUser => some c
  | .enter c _ => some c
  | .adopt c => some c
  | .takeLocal c => some c
  | .takeLast c => some c
  | .decide c => some c
  | .setKernelStack c => some c
  | .publishSwap c => some c
  | .publishPush c => some c
  | .wakePush _ c => some c
  | .spawnPush _ _ c => some c
  | .initLock c _ => some c
  | .initSet c => some c
  | .markOnline c => some c
  | _ => none

namespace Machine

def boot (n : Nat) : Machine n where
  st := St.boot n
  gsBase := some
  kernelGsBase := some
  userRsp := fun _ => 0
  handling := fun _ => none
  rsp := fun _ => 0
  entry := fun _ => none
  log := []
  stopped := false

/-- The CPU executes an instruction of its process. -/
def inUser (m : Machine n) (c : Fin n) : Bool :=
  (m.handling c).isNone &&
    (m.st.running c).any fun me => (m.st.tail me).isEmpty && (m.st.base me).isUser

/-! ### Instructions -/

/-- An access through `gs:`. -/
def touch (m : Machine n) (c : Fin n) : Machine n :=
  { m with log := .gs c (m.gsBase c) :: m.log, stopped := (m.gsBase c).isNone }

/-- Goes on unless the last access faulted. -/
def andThen (m : Machine n) (f : Machine n → Machine n) : Machine n := if m.stopped then m else f m

def swapgs (m : Machine n) (c : Fin n) : Machine n :=
  { m with
    gsBase := update m.gsBase c (m.kernelGsBase c)
    kernelGsBase := update m.kernelGsBase c (m.gsBase c) }

def noteKernelGs (m : Machine n) (c : Fin n) : Machine n :=
  { m with log := .kernelGs c (m.kernelGsBase c) :: m.log }

def restoreGsBase (m : Machine n) (c : Fin n) : Machine n :=
  { m.noteKernelGs c with gsBase := update m.gsBase c (m.kernelGsBase c) }

/-- `mov gs:[user_rsp], rsp`. -/
def storeUserRsp (m : Machine n) (c : Fin n) (value : Nat) : Machine n :=
  match m.gsBase c with
  | some d => { m.touch c with userRsp := update m.userRsp d value }
  | none => m.touch c

/-- `mov rsp, gs:[user_rsp]`. -/
def loadUserRsp (m : Machine n) (c : Fin n) (me : ThreadId) : Machine n :=
  match m.gsBase c with
  | some d => { m.touch c with rsp := update m.rsp me (m.userRsp d) }
  | none => m.touch c

/-- `syscall_entry` up to the call of `dispatch`; the second access reads
`kernel_rsp`. -/
def syscallEntry (m : Machine n) (c : Fin n) (me : ThreadId) : Machine n :=
  (((m.noteKernelGs c).swapgs c).storeUserRsp c (m.rsp me)).andThen fun m => m.touch c

/-- `syscall_entry` after `dispatch` returned, up to the `sysretq`. -/
def syscallExit (m : Machine n) (c : Fin n) (me : ThreadId) : Machine n :=
  (m.loadUserRsp c me).andThen fun m => m.swapgs c

/-! ### Steps -/

/-- A step of the scheduler machine that is not an entry or an exit. While a
handler runs its CPU does nothing else, and only kernel code uses `gs:`. -/
def sched (m : Machine n) (a : Act n) : Option (Machine n) :=
  if !viaEntry a && a.cpu.all (fun c => (m.handling c).isNone) &&
      (gsCpu a).all (fun c => !m.inUser c)
  then
    (m.st.step a).map fun st =>
      match gsCpu a with
      | some c => (m.touch c).andThen fun m => { m with st := st }
      | none => { m with st := st }
  else none

/-- `mov gs, ax` in ring 3. -/
def clearGs (m : Machine n) (c : Fin n) : Option (Machine n) :=
  if m.inUser c then some { m with gsBase := update m.gsBase c none } else none

/-- Ring 3 moves its stack pointer. -/
def setRsp (m : Machine n) (c : Fin n) (value : Nat) : Option (Machine n) :=
  if m.inUser c then (m.st.running c).map fun me => { m with rsp := update m.rsp me value }
  else none

def syscall (m : Machine n) (c : Fin n) : Option (Machine n) :=
  if m.handling c = none then
    (m.st.running c).bind fun me =>
      (m.st.runLocal c .syscall).map fun st =>
        (m.syscallEntry c me).andThen fun m =>
          { m with st := st, entry := update m.entry me (some (m.rsp me, c)) }
  else none

def sysret (m : Machine n) (c : Fin n) : Option (Machine n) :=
  if m.handling c = none then
    (m.st.running c).bind fun me =>
      (m.st.runLocal c .sysret).map fun st =>
        (m.syscallExit c me).andThen fun m => { m with
          st := st
          log := .sysret me ((m.entry me).elim 0 Prod.fst) (m.rsp me) :: m.log }
  else none

/-- A ring-3 fault: `deliver_user_fault` and then `exit_current`. -/
def fault (m : Machine n) (c : Fin n) : Option (Machine n) :=
  if m.handling c = none then
    (m.st.runLocal c .fault).map fun st =>
      ((m.restoreGsBase c).touch c).andThen fun m => { m with st := st }
  else none

/-- An interrupt whose handler restores the base. -/
def interrupt (m : Machine n) (c : Fin n) (handler : Handler) : Option (Machine n) :=
  if m.handling c = none then
    (m.st.runLocal c .interrupt).map fun st =>
      { m.restoreGsBase c with st := st, handling := update m.handling c (some handler) }
  else none

/-- The end of a handler. The timer's ends in `schedule` while preemption is on. -/
def handlerEnd (m : Machine n) (c : Fin n) : Option (Machine n) :=
  match m.handling c with
  | some handler =>
    if handler = .timer ∧ m.st.preempt then none
    else some { m with handling := update m.handling c none }
  | none => none

/-- `preempt` calling `schedule`. -/
def tick (m : Machine n) (c : Fin n) : Option (Machine n) :=
  if m.handling c = some .timer then
    (m.st.enter c .tick).map fun st =>
      (m.touch c).andThen fun m => { m with st := st, handling := update m.handling c none }
  else none

/-- `wake_handler`, which uses nothing through `gs:`. -/
def wakeIpi (m : Machine n) (c : Fin n) : Option (Machine n) :=
  if m.handling c = none then
    (m.st.runLocal c .interrupt).map fun st => { m with st := st }
  else none

end Machine

inductive Move (n : Nat) where
  | sched (a : Act n)
  | clearGs (c : Fin n)
  | setRsp (c : Fin n) (value : Nat)
  | syscall (c : Fin n)
  | sysret (c : Fin n)
  | fault (c : Fin n)
  | interrupt (c : Fin n) (handler : Handler)
  | handlerEnd (c : Fin n)
  | tick (c : Fin n)
  | wakeIpi (c : Fin n)

def Machine.move (m : Machine n) : Move n → Option (Machine n)
  | .sched a => m.sched a
  | .clearGs c => m.clearGs c
  | .setRsp c value => m.setRsp c value
  | .syscall c => m.syscall c
  | .sysret c => m.sysret c
  | .fault c => m.fault c
  | .interrupt c handler => m.interrupt c handler
  | .handlerEnd c => m.handlerEnd c
  | .tick c => m.tick c
  | .wakeIpi c => m.wakeIpi c

def Machine.step (m : Machine n) (a : Move n) : Option (Machine n) :=
  if m.stopped then none else m.move a

/-- The steps of the machine, as a relation. -/
def Machine.Step (m : Machine n) (a : Move n) (m' : Machine n) : Prop := m.step a = some m'

end Qunix.Hal
