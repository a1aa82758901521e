/-
The block driver over a device that only completes requests
(`handle_completion` in `kernel/src/block.rs`).

The device writes to the data buffer and the status byte of a chain it was given,
puts an entry for the chain into the next slot of the used ring and advances its
16-bit index. It does so once for a chain, in any order. The threads' calls go on
between these, and the completion handler runs at any time; the index it reads may
be from before the entries that came last.

`Machine` keeps the history beside the state: the entries appended, how far
`last_used` has moved over them, the heads taken, the threads unparked, and what the
device did for the request that a head stands for. `thread` is the field of that
name of the driver's slots.
-/

import Qunix.Block.Changes
import Qunix.Lib.Ring

namespace Qunix.Virtio

/-- The bytes of an entry, as the device writes them. -/
def UsedElem.toBytes (e : UsedElem) (i : Fin 8) : UInt8 :=
  UInt8.ofNat (if i.val < 4 then e.id / 2 ^ (8 * i.val) else e.len / 2 ^ (8 * (i.val - 4)))

theorem UsedElem.ofBytes_toBytes {e : UsedElem} (hid : e.id < 2 ^ 32) (hlen : e.len < 2 ^ 32) :
    UsedElem.ofBytes e.toBytes = e := by
  obtain ⟨id, len⟩ := e
  simp only at hid hlen
  simp only [UsedElem.ofBytes, UsedElem.toBytes, le32, UsedElem.mk.injEq]
  constructor
  · simp
    omega
  · simp
    omega

end Qunix.Virtio

namespace Qunix.Block

open Function Qunix.Virtio Qunix.Lib
open Qunix.BufferCache (Bytes BlkStatus BlockError)

/-! ### The threads the handler wakes -/

namespace Blk

/-- The thread that the completion in a slot of the used ring puts into `woken`. -/
def noted (blk : Blk) (thread : Nat → Nat) (slot : Nat) : Option Nat :=
  match blk.queue.takeUsed slot with
  | (none, _) => none
  | (some (head, _), _) =>
    match blk.slots head with
    | none => none
    | some entry => if entry.abandoned then none else some (thread head)

/-- `woken` after the loop that `drain` runs. -/
def woken (thread : Nat → Nat) (d : DeviceInput) : Nat → Nat → Blk → List Nat
  | 0, _, _ => []
  | n + 1, k, blk =>
    let slot := blk.lastUsed % queueSize
    match blk.queue.ingestUsedSlot slot (d.entries k) with
    | (false, _) => []
    | (true, queue) =>
      let blk := { blk with queue := queue }
      match blk.take slot (d.status k) with
      | .error _ => []
      | .ok (_, blk') =>
        (blk.noted thread slot).toList ++
          woken thread d n (k + 1) { blk' with lastUsed := (blk'.lastUsed + 1) % 2 ^ 16 }

/-- The threads a run of the completion handler unparks, in order. -/
def unparks (blk : Blk) (thread : Nat → Nat) (d : DeviceInput) : List Nat :=
  if queueSize < blk.pending d then [] else woken thread d (blk.pending d) 0 blk

/-- The heads a run of the completion handler takes. -/
def takes (blk : Blk) (d : DeviceInput) : List Nat :=
  match blk.handleCompletion d with
  | .ok (taken, _) => taken
  | .error _ => []

end Blk

/-! ### The machine -/

/-- What the device did for a chain: the bytes it put at the start of the data
buffer, the status byte, and the length it reports. -/
structure Entry where
  head : Nat
  bytes : Bytes
  status : UInt8
  len : Nat
deriving DecidableEq

def Entry.elem (e : Entry) : UsedElem := ⟨e.head, e.len⟩

structure Machine where
  sys : Sys
  /-- The used ring in memory. -/
  used : Nat → Fin 8 → UInt8
  usedIdx : Nat
  /-- The status byte in the metadata area of a head. -/
  status : Nat → UInt8
  thread : Nat → Nat
  appended : List Entry
  consumed : Nat
  taken : List Nat
  unparked : List Nat
  served : Nat → Option Entry

inductive MachineAct where
  /-- A step of a call, or a timer tick. -/
  | driver (a : Act)
  /-- The device completes a chain. -/
  | complete (e : Entry)
  /-- The handler runs; the last `late` entries came after it read the index. -/
  | handle (late : Nat)

/-- Neither the device nor the handler. -/
def Act.software : Act → Bool
  | .interrupt _ | .dma _ _ => false
  | _ => true

/-- The thread and the head of a request that a step published. -/
def Sys.published (s : Sys) (a : Act) (s' : Sys) : Option (Nat × Nat) :=
  match a with
  | .advance t =>
    match s.calls t, s'.calls t with
    | .submit _ _, .poll _ head _ => some (t, head)
    | _, _ => none
  | _ => none

namespace Machine

def boot (metaPhys dataPhys : Nat) (bounce : Nat → Bytes) (used : Nat → Fin 8 → UInt8)
    (status : Nat → UInt8) : Machine where
  sys := .boot metaPhys dataPhys bounce
  used := used
  usedIdx := 0
  status := status
  thread := fun _ => 0
  appended := []
  consumed := 0
  taken := []
  unparked := []
  served := fun _ => none

/-- The entries that are appended and not consumed. -/
def unread (m : Machine) : List Entry := m.appended.drop m.consumed

def driver (m : Machine) (a : Act) : Option Machine :=
  (m.sys.step a).map fun sys =>
    match m.sys.published a sys with
    | some (t, head) =>
      { m with
        sys := sys
        -- "The status byte must not carry a stale success".
        status := update m.status head 0xff
        thread := update m.thread head t
        served := update m.served head none }
    | none => { m with sys := sys }

/-- The device's stores for one chain. -/
def answer (m : Machine) (e : Entry) : Machine :=
  let bounce := e.bytes ++ (m.sys.blk.bounce e.head).drop e.bytes.length
  { m with
    sys := { m.sys with blk := { m.sys.blk with bounce := update m.sys.blk.bounce e.head bounce } }
    used := update m.used (m.usedIdx % queueSize) e.elem.toBytes
    usedIdx := (m.usedIdx + 1) % 2 ^ 16
    status := update m.status e.head e.status
    appended := m.appended ++ [e]
    served := update m.served e.head (some e) }

/-- A chain is completed once. -/
def complete (m : Machine) (e : Entry) : Option Machine :=
  if m.sys.blk.queue.inFlight e.head = true ∧ e.head ∉ m.unread.map Entry.head ∧ e.len < 2 ^ 32 then
    some (m.answer e)
  else none

/-- What the handler reads. -/
def input (m : Machine) (late : Nat) : DeviceInput where
  idx := UInt16.ofNat (m.usedIdx + 2 ^ 16 - late)
  entries := fun k => m.used ((m.sys.blk.lastUsed + k) % 2 ^ 16 % queueSize)
  status := fun k =>
    m.status (UsedElem.ofBytes (m.used ((m.sys.blk.lastUsed + k) % 2 ^ 16 % queueSize))).id

def handle (m : Machine) (late : Nat) : Option Machine :=
  if late ≤ m.unread.length then
    (m.sys.step (.interrupt (m.input late))).map fun sys =>
      { m with
        sys := sys
        consumed := m.consumed + (sys.blk.lastUsed + 2 ^ 16 - m.sys.blk.lastUsed) % 2 ^ 16
        taken := m.taken ++ m.sys.blk.takes (m.input late)
        unparked := m.unparked ++ m.sys.blk.unparks m.thread (m.input late) }
  else none

def step (m : Machine) : MachineAct → Option Machine
  | .driver a => if a.software then m.driver a else none
  | .complete e => m.complete e
  | .handle late => m.handle late

def Step (m : Machine) (a : MachineAct) (m' : Machine) : Prop := m.step a = some m'

end Machine

end Qunix.Block
