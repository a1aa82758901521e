/-
Calls of `read_at` and `write_at` (`kernel/src/block.rs`), cut at their lock
sections and awaits.

A thread's call advances by one section, is polled again at any time while it
waits, and may be dropped there. Between the section that asks the device and the
poll of the deadline, and between that and `finish`, other threads and the
completion handler may run. The device may write anything into a bounce buffer,
the used ring and the status bytes at any time.
-/

import Qunix.Block.Driver
import Qunix.Lib.Run

namespace Qunix.Block

open Function Qunix.Virtio Qunix.Lib
open Qunix.BufferCache (Bytes BlkStatus BlockError)

inductive Call where
  | idle
  /-- Before `reserve_deadline`. -/
  | reserve (r : Request)
  /-- Before `submit`, with the deadline. -/
  | submit (r : Request) (deadline : Nat)
  /-- Before `poll_device`. -/
  | poll (r : Request) (head deadline : Nat)
  /-- `poll_device` said `Pending`; before the poll of the deadline. -/
  | expire (r : Request) (head deadline : Nat)
  /-- The await. -/
  | waiting (r : Request) (head deadline : Nat)
  /-- Before `finish`. -/
  | finish (r : Request) (head : Nat) (status : UInt8)
  /-- The call returned; `copied` is what a read put into the caller's buffer. -/
  | done (result : Except BlockError Unit) (copied : Option Bytes)

/-- The chain a call has published and not given up. -/
def Call.head? : Call → Option Nat
  | .poll _ head _ | .expire _ head _ | .waiting _ head _ | .finish _ head _ => some head
  | _ => none

/-- The request of a call that was published, and its head. -/
def Call.sent? : Call → Option (Request × Nat)
  | .poll r h _ | .expire r h _ | .waiting r h _ | .finish r h _ => some (r, h)
  | .idle | .reserve _ | .submit _ _ | .done _ _ => none

theorem Call.head?_of_sent? {c : Call} {r : Request} {h : Nat} (hc : c.sent? = some (r, h)) :
    c.head? = some h := by
  cases c <;> simp_all [sent?, head?]

/-- The buffer of a read. -/
def Request.into (r : Request) : Option Nat := if r.out.isSome then none else some r.len

structure Sys where
  blk : Blk
  ticks : Nat
  calls : Nat → Call
  panicked : Option Panic

inductive Act where
  | tick
  /-- Thread `t` calls `read_at` or `write_at`. -/
  | call (t : Nat) (r : Request)
  /-- `reserve_deadline` finds a free timer slot, or none. -/
  | reserve (t : Nat) (free : Bool)
  | advance (t : Nat)
  /-- The future is dropped at its await. -/
  | drop (t : Nat)
  | interrupt (d : DeviceInput)
  /-- The device writes into a bounce buffer. -/
  | dma (head : Nat) (bytes : Bytes)

namespace Sys

def boot (metaPhys dataPhys : Nat) (bounce : Nat → Bytes) : Sys where
  blk := .new metaPhys dataPhys bounce
  ticks := 0
  calls := fun _ => .idle
  panicked := none

def setCall (s : Sys) (t : Nat) (c : Call) : Sys := { s with calls := update s.calls t c }

def stop (s : Sys) (why : Panic) : Sys := { s with panicked := some why }

def submit (s : Sys) (t : Nat) (r : Request) (deadline : Nat) : Sys :=
  match s.blk.submit r with
  | .error why => s.stop why
  | .ok (.error e, blk) => { s with blk := blk }.setCall t (.done (.error e) none)
  | .ok (.ok head, blk) => { s with blk := blk }.setCall t (.poll r head deadline)

def pollDevice (s : Sys) (t : Nat) (r : Request) (head deadline : Nat) : Sys :=
  match s.blk.pollDevice head with
  | some status => s.setCall t (.finish r head status)
  | none => s.setCall t (.expire r head deadline)

def pollDeadline (s : Sys) (t : Nat) (r : Request) (head deadline : Nat) : Sys :=
  if deadline ≤ s.ticks then s.setCall t (.finish r head statusTimedOut)
  else s.setCall t (.waiting r head deadline)

def finish (s : Sys) (t : Nat) (r : Request) (head : Nat) (status : UInt8) : Sys :=
  match s.blk.finish head status r.into with
  | .error why => s.stop why
  | .ok (result, copied, blk) => { s with blk := blk }.setCall t (.done result copied)

def advance (s : Sys) (t : Nat) : Option Sys :=
  match s.calls t with
  | .submit r deadline => some (s.submit t r deadline)
  | .poll r head deadline => some (s.pollDevice t r head deadline)
  | .expire r head deadline => some (s.pollDeadline t r head deadline)
  | .waiting r head deadline => some (s.setCall t (.poll r head deadline))
  | .finish r head status => some (s.finish t r head status)
  | .idle | .reserve _ | .done _ _ => none

def drop (s : Sys) (t : Nat) : Option Sys :=
  match s.calls t with
  | .waiting _ head _ =>
    match s.blk.dropRequest head with
    | .error why => some (s.stop why)
    | .ok blk => some ({ s with blk := blk }.setCall t .idle)
  | _ => none

def step (s : Sys) (a : Act) : Option Sys :=
  if s.panicked.isSome then none
  else
    match a with
    | .tick => some { s with ticks := s.ticks + 1 }
    | .call t r =>
      match s.calls t with
      | .idle | .done _ _ => some (s.setCall t (.reserve r))
      | _ => none
    | .reserve t free =>
      match s.calls t with
      | .reserve r =>
        if free then some (s.setCall t (.submit r (s.ticks + requestTimeoutTicks)))
        else some (s.setCall t (.done (.error .queueFull) none))
      | _ => none
    | .advance t => s.advance t
    | .drop t => s.drop t
    | .interrupt d =>
      match s.blk.handleCompletion d with
      | .error why => some (s.stop why)
      | .ok (_, blk) => some { s with blk := blk }
    | .dma head bytes => some { s with
          blk := { s.blk with bounce := update s.blk.bounce head bytes } }

def Step (s : Sys) (a : Act) (s' : Sys) : Prop := s.step a = some s'

end Sys

end Qunix.Block
