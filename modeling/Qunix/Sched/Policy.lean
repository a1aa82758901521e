/-
The scheduling policy (`crates/qunix-sched`): priority bands, the run queue of
one CPU, and the park state of one thread.

The policy knows nothing about CPUs. A run queue is three FIFO bands; a park
state is two flags. The kernel side (`Qunix.Sched.Machine`) decides under which
lock they change.
-/

import Mathlib.Data.List.Count
import Mathlib.Data.List.Basic

namespace Qunix.Sched

/-- A handle from a counter that is never reused. -/
structure ThreadId where
  val : Nat
deriving DecidableEq, Repr

/-! ### Priorities -/

inductive Priority where
  | idle
  | normal
  | high
deriving DecidableEq, Repr

/-- `prio as u8`. -/
def Priority.raw : Priority → Nat
  | .idle => 0
  | .normal => 1
  | .high => 2

/-- What `publish_handoff` rebuilds from the byte in the handoff slot. -/
def priorityFromRaw : Nat → Priority
  | 0 => .idle
  | 2 => .high
  | _ => .normal

@[simp] theorem priorityFromRaw_raw (p : Priority) : priorityFromRaw p.raw = p := by
  cases p <;> rfl

/-! ### The run queue -/

structure RunQueue where
  high : List ThreadId
  normal : List ThreadId
  idle : List ThreadId
deriving DecidableEq, Repr

namespace RunQueue

def empty : RunQueue := ⟨[], [], []⟩

/-- Every queued thread, in the order `pop` serves them. -/
def ids (q : RunQueue) : List ThreadId := q.high ++ q.normal ++ q.idle

def contains (q : RunQueue) (id : ThreadId) : Bool := q.ids.contains id

/-- A thread already queued is not queued twice. -/
def push (q : RunQueue) (id : ThreadId) (prio : Priority) : RunQueue :=
  if q.contains id then q
  else match prio with
    | .high => { q with high := q.high ++ [id] }
    | .normal => { q with normal := q.normal ++ [id] }
    | .idle => { q with idle := q.idle ++ [id] }

/-- The front of the highest non-empty band. -/
def pop : RunQueue → Option (ThreadId × RunQueue)
  | ⟨id :: high, normal, idle⟩ => some (id, ⟨high, normal, idle⟩)
  | ⟨[], id :: normal, idle⟩ => some (id, ⟨[], normal, idle⟩)
  | ⟨[], [], id :: idle⟩ => some (id, ⟨[], [], idle⟩)
  | ⟨[], [], []⟩ => none

/-- The back of the highest non-empty band. -/
def steal (q : RunQueue) : Option (ThreadId × RunQueue) :=
  match q.high.getLast?, q.normal.getLast?, q.idle.getLast? with
  | some id, _, _ => some (id, { q with high := q.high.dropLast })
  | none, some id, _ => some (id, { q with normal := q.normal.dropLast })
  | none, none, some id => some (id, { q with idle := q.idle.dropLast })
  | none, none, none => none

/-- Takes a thread out wherever it is queued; the bands are tried in the order of
their index, lowest first. -/
def remove (q : RunQueue) (id : ThreadId) : Bool × RunQueue :=
  if id ∈ q.idle then (true, { q with idle := q.idle.erase id })
  else if id ∈ q.normal then (true, { q with normal := q.normal.erase id })
  else if id ∈ q.high then (true, { q with high := q.high.erase id })
  else (false, q)

/-- Queued threads outside the idle band. -/
def runnableLen (q : RunQueue) : Nat := q.high.length + q.normal.length

/-- How often a thread is queued. -/
def count (q : RunQueue) (id : ThreadId) : Nat := q.ids.count id

variable {id : ThreadId}

@[simp] theorem count_empty : empty.count id = 0 := rfl

theorem count_push_le (q : RunQueue) (id x : ThreadId) (prio : Priority) :
    (q.push id prio).count x ≤ q.count x + if id = x then 1 else 0 := by
  unfold push
  split
  · exact Nat.le_add_right _ _
  · cases prio <;> simp only [count, ids, List.count_append, List.count_singleton, beq_iff_eq] <;>
      omega

end RunQueue

/-! ### The park state -/

structure ParkState where
  parked : Bool
  pending : Bool
deriving DecidableEq, Repr

inductive ParkOutcome where
  | parked
  | cancelled
deriving DecidableEq, Repr

inductive WakeOutcome where
  | runnable
  | noted
deriving DecidableEq, Repr

namespace ParkState

def fresh : ParkState := ⟨false, false⟩

/-- Parks, unless a wakeup is already waiting; that wakeup is consumed. -/
def park (p : ParkState) : ParkOutcome × ParkState :=
  if p.pending then (.cancelled, { p with pending := false })
  else (.parked, { p with parked := true })

/-- Records a wakeup; of a parked thread it makes it runnable. -/
def wake (p : ParkState) : WakeOutcome × ParkState :=
  if p.parked then (.runnable, { p with parked := false })
  else (.noted, { p with pending := true })

end ParkState

end Qunix.Sched
