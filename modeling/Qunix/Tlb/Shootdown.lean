/-
Cross-CPU TLB shootdown (`crates/qunix-hal-x86_64/src/tlb.rs`, and `unmap` and
`unmap_and_prune` of `paging.rs`) as a machine of 64 CPUs and any number of
threads.

One step is one access to `PENDING`, `TARGET` or `IN_PROGRESS`, one invalidation
or one read of the CPU number. A thread may be preempted between any two of its
steps unless it runs with interrupts masked, and is resumed on any CPU.
`service_pending` is called from the wait loops of `shootdown`, from a lock wait
(`spin`, `poll`), and from the handler of the shootdown interrupt, which nests on
whatever its CPU executes unmasked.

The per-CPU block of every CPU is installed and its local APIC enabled, so
`is_installed` and the assertion on the interrupt hold. A call remembers which
CPUs were online when its entry was cleared and which have executed an
invalidation that covers it since; the code reads neither.
-/

import Mathlib.Data.Fintype.Basic

namespace Qunix.Tlb

open Function

/-- A CPU number below `MAX_CPUS`. -/
abbrev Cpu := Fin 64

/-- What to invalidate: one page, or everything (`TARGET_ALL`). -/
inductive Target where
  | page (va : Nat)
  | all
deriving DecidableEq, Repr

/-- An `invlpg` drops the translations of its page, a CR3 reload drops all. -/
def Target.covers : Target → Target → Bool
  | .all, _ => true
  | .page va, .page va' => va == va'
  | .page _, .all => false

@[simp] theorem Target.covers_self (t : Target) : t.covers t = true := by
  cases t <;> simp [covers]

/-! ### Masks -/

def bit (c : Cpu) : BitVec 64 := 1#64 <<< c.val

/-- A CPU's bit in a mask. -/
def has (mask : BitVec 64) (c : Cpu) : Bool := mask.getLsbD c.val

def remoteMask (online : BitVec 64) (selfId : Nat) : BitVec 64 :=
  if 64 ≤ selfId then 0#64 else online &&& ~~~(1#64 <<< selfId)

theorem has_bit (c d : Cpu) : has (bit c) d = decide (d = c) := by
  rw [Bool.eq_iff_iff, decide_eq_true_iff, Fin.ext_iff]
  simp only [has, bit, BitVec.getLsbD_shiftLeft, BitVec.getLsbD_one, Bool.and_eq_true,
    Bool.not_eq_true', decide_eq_true_eq, decide_eq_false_iff_not]
  omega

@[simp] theorem has_zero (c : Cpu) : has 0#64 c = false := by
  simp [has]

@[simp] theorem has_or (mask : BitVec 64) (c d : Cpu) :
    has (mask ||| bit c) d = (has mask d || decide (d = c)) := by
  rw [← has_bit]
  simp [has]

@[simp] theorem has_clear (mask : BitVec 64) (c d : Cpu) :
    has (mask &&& ~~~bit c) d = (has mask d && decide (d ≠ c)) := by
  rw [decide_not, ← has_bit, has, BitVec.getLsbD_and]
  simp [has]

@[simp] theorem has_remoteMask (online : BitVec 64) (c d : Cpu) :
    has (remoteMask online c.val) d = (has online d && decide (d ≠ c)) := by
  rw [remoteMask, if_neg (Nat.not_le.mpr c.isLt)]
  exact has_clear online c d

/-! ### State -/

/-- Where a call of `service_pending` stands. -/
inductive Serve where
  /-- Before `cpu_id_without_gs`. -/
  | top
  /-- Before the load of `PENDING`. -/
  | read (cpu : Cpu)
  /-- Its bit was set; before the load of `TARGET`. -/
  | owing (cpu : Cpu)
  /-- Before the invalidation. -/
  | loaded (cpu : Cpu) (target : Target)
  /-- Before the bit is cleared. -/
  | flushed (cpu : Cpu)
deriving DecidableEq, Repr

/-- Where a call of `unmap` stands, from the moment its entry is clear. -/
inductive Stage where
  /-- Before the local flush. -/
  | cleared
  /-- Before `online_mask`. -/
  | flushed
  /-- Before `cpu_id`. -/
  | counted (online : BitVec 64)
  /-- Before the compare-exchange of `IN_PROGRESS`. -/
  | acquire (remote : BitVec 64)
  | storeTarget (remote : BitVec 64)
  | storePending (remote : BitVec 64)
  | sendIpi
  /-- Before the load of `PENDING`. -/
  | wait
  /-- Before `IN_PROGRESS` is cleared. -/
  | release
  /-- About to return `Ok`. -/
  | done
deriving DecidableEq, Repr

structure Call where
  target : Target
  stage : Stage
  /-- The CPUs that were online when the entry was cleared. -/
  online : BitVec 64
  /-- The CPUs that have executed an invalidation covering the target since. -/
  covered : Cpu → Bool

structure Sys (m : Nat) where
  pending : BitVec 64
  target : Target
  inProgress : Bool
  -- Per CPU.
  online : BitVec 64
  /-- Shootdown interrupts sent and not yet taken. -/
  ipis : BitVec 64
  running : Cpu → Option (Fin m)
  /-- A `service_pending` that runs masked on top of what the CPU executes. -/
  nested : Cpu → Option Serve
  -- Per thread.
  /-- The CPU a thread runs on or last ran on. -/
  home : Fin m → Cpu
  masked : Fin m → Bool
  call : Fin m → Option Call
  serve : Fin m → Option Serve

namespace Sys

variable {m : Nat}

def boot (m : Nat) : Sys m where
  pending := 0#64
  target := .all
  inProgress := false
  online := 0#64
  ipis := 0#64
  running := fun _ => none
  nested := fun _ => none
  home := fun _ => 0
  masked := fun _ => false
  call := fun _ => none
  serve := fun _ => none

def isRunning (s : Sys m) (t : Fin m) : Bool := decide (∃ c, s.running c = some t)

/-- The thread whose own code a CPU executes. -/
def current (s : Sys m) (c : Cpu) : Option (Fin m) :=
  if (s.nested c).isNone then s.running c else none

end Sys

def Call.cover (k : Call) (c : Cpu) (target : Target) : Call :=
  { k with covered := if target.covers k.target then update k.covered c true else k.covered }

namespace Sys

variable {m : Nat}

/-- `invalidate`, executed on a CPU. -/
def invalidate (s : Sys m) (c : Cpu) (target : Target) : Sys m :=
  { s with call := fun t => (s.call t).map fun k => k.cover c target }

def setStage (s : Sys m) (t : Fin m) (stage : Stage) : Sys m :=
  { s with call := update s.call t ((s.call t).map fun k => { k with stage := stage }) }

/-! ### Steps -/

/-- A step of `service_pending` on a CPU, and where the call stands then. -/
def serviceStep (s : Sys m) (c : Cpu) : Serve → Sys m × Option Serve
  | .top => (s, some (.read c))
  | .read cpu => (s, if has s.pending cpu then some (.owing cpu) else none)
  | .owing cpu => (s, some (.loaded cpu s.target))
  | .loaded cpu target => (s.invalidate c target, some (.flushed cpu))
  | .flushed cpu => ({ s with pending := s.pending &&& ~~~bit cpu }, none)

/-- A step of `unmap` that thread `t` takes on a CPU. A weak compare-exchange may
fail for no reason. -/
def unmapStep (s : Sys m) (c : Cpu) (t : Fin m) (k : Call) (spurious : Bool) : Option (Sys m) :=
  match k.stage with
  | .cleared => some ((s.invalidate c k.target).setStage t .flushed)
  | .flushed => some (s.setStage t (.counted s.online))
  | .counted online =>
    if remoteMask online c.val = 0#64 then some (s.setStage t .done)
    else some (s.setStage t (.acquire (remoteMask online c.val)))
  | .acquire remote =>
    if s.inProgress || spurious then some { s with serve := update s.serve t (some .top) }
    else some ({ s with inProgress := true }.setStage t (.storeTarget remote))
  | .storeTarget remote => some ({ s with target := k.target }.setStage t (.storePending remote))
  | .storePending remote => some ({ s with pending := remote }.setStage t .sendIpi)
  | .sendIpi => some ({ s with ipis := s.ipis ||| ~~~bit c }.setStage t .wait)
  | .wait =>
    if s.pending = 0#64 then some (s.setStage t .release)
    else some { s with serve := update s.serve t (some .top) }
  | .release => some ({ s with inProgress := false }.setStage t .done)
  | .done => none

/-- The next step of the thread on a CPU, in `service_pending` or in `unmap`. -/
def advance (s : Sys m) (c : Cpu) (spurious : Bool) : Option (Sys m) :=
  (s.current c).bind fun t =>
    match s.serve t with
    | some sv =>
      some { (s.serviceStep c sv).1 with serve := update s.serve t (s.serviceStep c sv).2 }
    | none => (s.call t).bind fun k => s.unmapStep c t k spurious

/-- The next step of the nested `service_pending`. -/
def handle (s : Sys m) (c : Cpu) : Option (Sys m) :=
  (s.nested c).map fun sv =>
    { (s.serviceStep c sv).1 with nested := update s.nested c (s.serviceStep c sv).2 }

/-- The thread on a CPU, if it executes neither `unmap` nor `service_pending`. -/
def outside (s : Sys m) (c : Cpu) : Option (Fin m) :=
  (s.current c).filter fun t => (s.call t).isNone && (s.serve t).isNone

end Sys

inductive Act (m : Nat) where
  | markOnline (c : Cpu)
  | setMask (c : Cpu) (masked : Bool)
  /-- `reload` says whether `activate_root` found another root loaded. -/
  | dispatch (t : Fin m) (c : Cpu) (reload : Bool)
  | preempt (c : Cpu)
  /-- `unmap` has cleared its entry, or `unmap_and_prune` has unlinked its tables. -/
  | clear (c : Cpu) (target : Target)
  | advance (c : Cpu) (spurious : Bool)
  | leave (c : Cpu)
  /-- A lock wait of a thread. -/
  | spin (c : Cpu)
  /-- A lock wait of the scheduler, between two threads. -/
  | poll (c : Cpu)
  /-- `shootdown_handler`. -/
  | ipi (c : Cpu)
  | handle (c : Cpu)
  /-- Other code writes CR3. -/
  | reload (c : Cpu)
deriving DecidableEq, Repr

namespace Sys

variable {m : Nat}

def step (s : Sys m) : Act m → Option (Sys m)
  | .markOnline c => some { s with online := s.online ||| bit c }
  | .setMask c masked => (s.outside c).map fun t => { s with masked := update s.masked t masked }
  | .dispatch t c reload =>
    if s.running c = none ∧ s.nested c = none ∧ s.isRunning t = false then
      some { (if reload then s.invalidate c .all else s) with
        running := update s.running c (some t)
        home := update s.home t c }
    else none
  | .preempt c =>
    (s.current c).bind fun t =>
      if s.masked t = false ∨ s.outside c = some t then
        some { s with running := update s.running c none }
      else none
  | .clear c target => (s.outside c).map fun t =>
    { s with call := update s.call t (some ⟨target, .cleared, s.online, fun _ => false⟩) }
  | .advance c spurious => s.advance c spurious
  | .leave c =>
    (s.current c).bind fun t =>
      if (s.call t).any fun k => k.stage == .done then some { s with call := update s.call t none }
      else none
  | .spin c => (s.outside c).map fun t => { s with serve := update s.serve t (some .top) }
  | .poll c =>
    if s.running c = none ∧ s.nested c = none then
      some { s with nested := update s.nested c (some .top) }
    else none
  | .ipi c =>
    if has s.ipis c ∧ s.nested c = none ∧ (s.running c).all fun t => !s.masked t then
      some { s with
        ipis := s.ipis &&& ~~~bit c
        nested := update s.nested c (some .top) }
    else none
  | .handle c => s.handle c
  | .reload c => some (s.invalidate c .all)

def Step (s : Sys m) (a : Act m) (s' : Sys m) : Prop := s.step a = some s'

end Sys

end Qunix.Tlb
