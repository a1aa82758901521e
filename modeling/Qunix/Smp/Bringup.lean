/-
Bring-up of the processors (`kernel/src/smp.rs`, `install_bsp` and `install_ap` of
`crates/qunix-hal-x86_64/src/percpu.rs`, `init` of `kernel/src/sched.rs`).

The bootloader hands over a list of processors. The bootstrap processor installs its
block and adopts its boot path as a thread, then it lets the others go one by one, and
each does the same on its own. A step of the machine is what one processor does between
two stores that the others can see.
-/

import Qunix.Lib.Run

namespace Qunix.Smp

open Function Qunix.Lib

/-- What the bootloader reports of one processor. -/
structure MpInfo where
  processorId : Nat
  lapicId : Nat
deriving DecidableEq, Repr

/-- The answer to `MP_REQUEST`. -/
structure MpResponse where
  bspLapicId : Nat
  cpus : List MpInfo
deriving DecidableEq, Repr

/-- The widest `cpu_id` of the online mask, and the length of the per-CPU tables. -/
def maxCpus : Nat := 64

/-- `initial_apic_id`, on the processor with this local APIC id: `CPUID` leaf 1 has a
byte for it. -/
def initialApicId (lapicId : Nat) : Nat := lapicId % 2 ^ 8

/-- Whose stack and registers a thread of the table is. -/
inductive Stack where
  /-- The boot path of the processor with this local APIC id. -/
  | adopted (lapicId : Nat)
  | kernel
deriving DecidableEq, Repr

/-- Where a processor is. -/
inductive Pc where
  /-- An application processor in the bootloader's pen; the bootstrap processor before
  `install_bsp`. -/
  | held
  /-- At `ap_entry`, with the extra argument. -/
  | entered (extraArgument : Nat)
  /-- In `finish_install`, with the APIC table written and `GS` loaded. -/
  | publish
  /-- At `sched::init`, before it reads `IDLE_INSTALLED`. -/
  | init
  | adopt
  | mark
  /-- At `mark_online`. -/
  | online
  /-- In the loop of `start_all`. -/
  | starting (rest : List MpInfo)
  /-- Before `ONLINE` is incremented. -/
  | count
  | idle
  | panicked
deriving DecidableEq, Repr

/-- The statics of bring-up. A processor is named by its local APIC id. -/
structure Boot where
  /-- `cpu_id` of the block that `GS` of the processor reaches. -/
  cpuId : Nat → Option Nat
  /-- `current_thread` of that block; `NO_THREAD` is `none`. -/
  currentThread : Nat → Option Nat
  /-- `BLOCKS`: the processor whose block is registered at an index. -/
  blocks : Nat → Option Nat
  /-- `APIC_TO_CPU`; `u32::MAX` is `none`. -/
  apicToCpu : Nat → Option Nat
  installed : Nat
  onlineMask : Nat
  idleInstalled : Nat
  online : Nat
  nextId : Nat
  threads : Nat → Option Stack
  pc : Nat → Pc

inductive Act where
  /-- The processor does what comes next. -/
  | run (p : Nat)
  /-- Some thread spawns another. -/
  | spawn
deriving DecidableEq, Repr

namespace Boot

def start : Boot where
  cpuId := fun _ => none
  currentThread := fun _ => none
  blocks := fun _ => none
  apicToCpu := fun _ => none
  installed := 0
  onlineMask := 0
  idleInstalled := 0
  online := 0
  nextId := 0
  threads := fun _ => none
  pc := fun _ => .held

def goto (s : Boot) (p : Nat) (pc : Pc) : Boot := { s with pc := update s.pc p pc }

/-- `allocate_id` and the insertion of the thread. Its sentinel is the last id, which
the checked addition refuses before. -/
def allocate (s : Boot) (stack : Stack) : Option (Nat × Boot) :=
  if s.nextId + 1 < 2 ^ 64 then
    some (s.nextId,
      { s with nextId := s.nextId + 1, threads := update s.threads s.nextId (some stack) })
  else none

/-- `finish_install`, up to the load of `GS`. -/
def announce (s : Boot) (p cpuId : Nat) : Boot :=
  if initialApicId p < maxCpus then
    { s with
      apicToCpu := update s.apicToCpu (initialApicId p) (some cpuId)
      cpuId := update s.cpuId p (some cpuId) }.goto p .publish
  else s.goto p .panicked

/-- The rest of `finish_install`. -/
def publish (s : Boot) (p cpuId : Nat) : Boot :=
  if cpuId < maxCpus then
    { s with
      blocks := update s.blocks cpuId (some p)
      installed := s.installed + 1 }.goto p .init
  else s.goto p .panicked

/-- The first test of `sched::init`. -/
def checkIdle (s : Boot) (p cpuId : Nat) : Boot :=
  if s.idleInstalled.testBit cpuId then s.goto p .online else s.goto p .adopt

/-- The locked part of `sched::init`, and `set_current_thread`. -/
def adopt (s : Boot) (p : Nat) : Boot :=
  match s.allocate (.adopted p) with
  | some (id, s) => { s with currentThread := update s.currentThread p (some id) }.goto p .mark
  | none => s.goto p .panicked

/-- `mark_online`, and what follows it on this processor. -/
def markOnline (s : Boot) (r : MpResponse) (p cpuId : Nat) : Boot :=
  if cpuId < maxCpus then
    { s with onlineMask := s.onlineMask ||| 1 <<< cpuId }.goto p
      (if p = r.bspLapicId then .starting r.cpus else .count)
  else s.goto p .panicked

/-- One turn of `start_all`. -/
def startNext (s : Boot) (r : MpResponse) (p : Nat) : List MpInfo → Boot
  | [] => s.goto p .idle
  | cpu :: rest =>
    if cpu.lapicId = r.bspLapicId then s.goto p (.starting rest)
    else (s.goto cpu.lapicId (.entered cpu.processorId)).goto p (.starting rest)

def run (s : Boot) (r : MpResponse) (p : Nat) : Option Boot :=
  match s.pc p with
  | .held => if p = r.bspLapicId then some (s.announce p 0) else none
  | .entered extraArgument => some (s.announce p (extraArgument % 2 ^ 32))
  | .publish => (s.cpuId p).map (s.publish p)
  | .init => (s.cpuId p).map (s.checkIdle p)
  | .adopt => some (s.adopt p)
  | .mark => (s.cpuId p).map fun cpuId =>
    { s with idleInstalled := s.idleInstalled ||| 1 <<< cpuId }.goto p .online
  | .online => (s.cpuId p).map (s.markOnline r p)
  | .starting rest => some (s.startNext r p rest)
  | .count => some ({ s with online := s.online + 1 }.goto p .idle)
  | .idle => none
  | .panicked => none

def step (s : Boot) (r : MpResponse) : Act → Option Boot
  | .run p => s.run r p
  | .spawn => (s.allocate .kernel).map Prod.snd

def Step (r : MpResponse) (s : Boot) (a : Act) (t : Boot) : Prop := s.step r a = some t

end Boot

/-- How far a processor has come. -/
def Pc.rank : Pc → Nat
  | .held => 0
  | .entered _ => 0
  | .panicked => 1
  | .publish => 2
  | .init => 3
  | .adopt => 4
  | .mark => 5
  | .online => 6
  | .starting _ => 7
  | .count => 7
  | .idle => 8

@[simp] theorem Pc.rank_starting (rest : List MpInfo) : (Pc.starting rest).rank = 7 := rfl

/-! ### What is asked of a response, and of the states it leads to -/

namespace MpResponse

/-- The processors are told apart by their APIC ids and by the firmware's numbers, and
the bootstrap processor is one of them. -/
structure WellFormed (r : MpResponse) : Prop where
  lapicIds : (r.cpus.map MpInfo.lapicId).Nodup
  processorIds : (r.cpus.map MpInfo.processorId).Nodup
  small : ∀ cpu ∈ r.cpus, cpu.processorId < maxCpus
  bootstrap : ∃ cpu ∈ r.cpus, cpu.lapicId = r.bspLapicId

/-- If the bootstrap processor is not refused, then of the processors that are not
refused no other one has the firmware's number 0, and no two have the same byte of
their APIC ids. -/
def Unshared (r : MpResponse) : Prop :=
  initialApicId r.bspLapicId < maxCpus →
    (∀ cpu ∈ r.cpus, initialApicId cpu.lapicId < maxCpus → cpu.lapicId ≠ r.bspLapicId →
      cpu.processorId ≠ 0) ∧
    ∀ cpu ∈ r.cpus, ∀ cpu' ∈ r.cpus, initialApicId cpu.lapicId < maxCpus →
      initialApicId cpu.lapicId = initialApicId cpu'.lapicId → cpu = cpu'

/-- The index that a processor is given. -/
def Labels (r : MpResponse) (p i : Nat) : Prop :=
  (p = r.bspLapicId ∧ i = 0) ∨
    ∃ cpu ∈ r.cpus, cpu.lapicId = p ∧ p ≠ r.bspLapicId ∧ cpu.processorId = i

end MpResponse

/-- Every index, with what the tables have at it, belongs to one processor. -/
structure Boot.Private (s : Boot) : Prop where
  /-- Who got through `finish_install` has an index. -/
  named : ∀ p, 2 ≤ (s.pc p).rank → ∃ i, s.cpuId p = some i
  index : ∀ p q i, s.cpuId p = some i → s.cpuId q = some i → p = q
  /-- `BLOCKS` has the processor's own block or, until it is registered, none. -/
  blocks : ∀ p i, s.cpuId p = some i → ∀ q, s.blocks i = some q → q = p
  registered : ∀ p i, s.cpuId p = some i → 3 ≤ (s.pc p).rank → s.blocks i = some p
  apic : ∀ p i, s.cpuId p = some i → s.apicToCpu (initialApicId p) = some i
  injective : ∀ a a' i, s.apicToCpu a = some i → s.apicToCpu a' = some i → a = a'
  /-- The bits are set by the processor itself. -/
  idleBit : ∀ p i, s.cpuId p = some i →
    (s.idleInstalled.testBit i = true ↔ 6 ≤ (s.pc p).rank)
  onlineBit : ∀ p i, s.cpuId p = some i → (s.onlineMask.testBit i = true ↔ 7 ≤ (s.pc p).rank)
  /-- Who got through `sched::init` has a thread of its own. -/
  adopted : ∀ p, 5 ≤ (s.pc p).rank →
    ∃ id, s.currentThread p = some id ∧ s.threads id = some (.adopted p)

end Qunix.Smp
