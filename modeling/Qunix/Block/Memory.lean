/-
The memory the block driver shares with the device (`kernel/src/block.rs`).

`submit` and `write_rings` put a request into memory by a sequence of copies: the
header, the status byte and the data of a write, then the three descriptors and
the slot of the available ring, and last the index that makes the slot valid. A
`Wire` is the driver with that memory, and the stores of the submission in
progress one by one, since the device reads whenever it likes. A request is
outstanding from the store of the index until its chain is released.

Memory is cut into `Part`s. What an outstanding request needs is in parts that no
later submission stores to while its descriptors are taken; only its slot of the
ring is used again, 64 requests later.
-/

import Qunix.Block.Ownership
import Qunix.Virtio.Wire

namespace Qunix.Block

open Function Qunix.Virtio Qunix.Lib

/-- `REQUEST_IN` and `REQUEST_OUT`. -/
def RequestKind.word : RequestKind → Nat
  | .read => 0
  | .write => 1

def RequestHeader.toBytes (h : RequestHeader) : List UInt8 :=
  toLE 4 h.kind.word ++ (toLE 4 0 ++ toLE 8 h.sector)

@[simp] theorem RequestHeader.length_toBytes (h : RequestHeader) :
    h.toBytes.length = RequestHeader.bytes := by
  simp [RequestHeader.toBytes, RequestHeader.bytes]

/-- A sector number is a `u64`, and the length is that of the caller's buffer. -/
def Request.WellFormed (r : Request) : Prop :=
  r.lba < 2 ^ 64 ∧ ∀ bytes ∈ r.out, bytes.length = r.len

instance (r : Request) : Decidable r.WellFormed := inferInstanceAs (Decidable (_ ∧ _))

/-- Where `init` put the ring, the metadata and the bounce buffers: a frame, a frame
and 64 slots, none overlapping another. -/
structure Areas where
  ringPhys : Nat
  metaPhys : Nat
  dataPhys : Nat
  ring_meta : Separate ringPhys 4096 metaPhys 4096
  ring_data : Separate ringPhys 4096 dataPhys (slotBytes * queueSize)
  meta_data : Separate metaPhys 4096 dataPhys (slotBytes * queueSize)
  meta_le : metaPhys + 4096 ≤ 2 ^ 64
  data_le : dataPhys + slotBytes * queueSize ≤ 2 ^ 64

/-! ### What a submission stores -/

namespace Areas

/-- The loop of `write_rings` over the chain. -/
def descTransfers (a : Areas) (q : SplitQueue) : Nat → Nat → Except Panic (List Transfer)
  | 0, _ => .ok []
  | n + 1, index => do
    let d ← q.read index
    let rest ←
      match ← q.nextInChain index with
      | some next => a.descTransfers q n next
      | none => pure []
    pure (⟨a.ringPhys + (ringLayout queueSize).desc + index * Descriptor.bytes, d.toBytes,
      false⟩ :: rest)

def writeRings (a : Areas) (q : SplitQueue) (head : Nat) : Except Panic (List Transfer) := do
  let descs ← a.descTransfers q q.size head
  let slot := (q.availIdx + 2 ^ 16 - 1) % 2 ^ 16 % queueSize
  let avail := a.ringPhys + (ringLayout queueSize).avail
  if slot < q.size then
    pure (descs ++
      [⟨avail + SplitQueue.availSlotsOffset + slot * 2, toLE 2 (q.availRing slot), false⟩,
        ⟨avail + SplitQueue.availIdxOffset, toLE 2 q.availIdx, true⟩])
  else throw .outOfBounds

/-- The copies of `submit`, with the driver as it is after `publish`. -/
def submitTransfers (a : Areas) (blk : Blk) (head : Nat) (r : Request) :
    Except Panic (List Transfer) := do
  let request : List Transfer :=
    [⟨blk.headerPhys head, r.header.toBytes, false⟩, ⟨blk.statusPhys head, [0xff], true⟩]
  let data : List Transfer :=
    match r.out with
    | some bytes => [⟨blk.bouncePhys head, bytes, false⟩]
    | none => []
  let rings ← a.writeRings blk.queue head
  pure (request ++ data ++ rings)

end Areas

/-! ### The driver, the memory and the device -/

/-- A request with the chain that carries it and the number of requests submitted
before it. -/
structure Posted where
  head : Nat
  data : Nat
  status : Nat
  request : Request
  seq : Nat
deriving DecidableEq, Repr

def Posted.chain (o : Posted) : List Nat := [o.head, o.data, o.status]

structure Wire where
  blk : Blk
  mem : Nat → UInt8
  /-- The stores of the submission in progress that are still to come. -/
  pending : List Write
  entering : Option Posted
  /-- The requests that are published and not released. -/
  out : List Posted
  submitted : Nat

inductive WireAct where
  | submit (r : Request)
  | store
  | release (head : Nat)
  /-- The device stores a byte. -/
  | device (addr : Nat) (byte : UInt8)

namespace Wire

def boot (a : Areas) (mem : Nat → UInt8) (bounce : Nat → BufferCache.Bytes) : Wire where
  blk := .new a.metaPhys a.dataPhys bounce
  mem := writeBytes mem a.ringPhys (List.replicate 4096 0)
  pending := []
  entering := none
  out := []
  submitted := 0

/-- What a device may store to: the used ring, and the device-writable buffers of the
requests it was given. -/
def DeviceMay (a : Areas) (w : Wire) (addr : Nat) : Prop :=
  (a.ringPhys + (ringLayout queueSize).used ≤ addr ∧
    addr < a.ringPhys + (ringLayout queueSize).bytes) ∨
  ∃ o ∈ w.out, addr = w.blk.statusPhys o.head ∨
    (o.request.out = none ∧ w.blk.bouncePhys o.head ≤ addr ∧
      addr < w.blk.bouncePhys o.head + o.request.len)

instance (a : Areas) (w : Wire) (addr : Nat) : Decidable (w.DeviceMay a addr) :=
  inferInstanceAs (Decidable (_ ∨ ∃ o ∈ w.out, _ ∨ _))

/-- The driver has put the request into its record; its stores are to come. -/
def enter (a : Areas) (w : Wire) (blk : Blk) (head : Nat) (r : Request) : Except Panic Wire := do
  let transfers ← a.submitTransfers blk head r
  let data := (blk.queue.desc head).next
  pure { w with
    blk := blk
    pending := transfers.flatMap Transfer.writes
    entering := some ⟨head, data, (blk.queue.desc data).next, r, w.submitted⟩
    submitted := w.submitted + 1 }

/-- The next store; the last one publishes the request. -/
def store (w : Wire) : Option Wire :=
  match w.pending with
  | [] => none
  | p :: rest =>
    let mem := writeBytes w.mem p.addr p.bytes
    if rest = [] then
      some { w with mem := mem, pending := [], entering := none, out := w.entering.toList ++ w.out }
    else some { w with mem := mem, pending := rest }

/-- The sections of the driver run under its lock, one after the other. -/
def step (a : Areas) (w : Wire) : WireAct → Option Wire
  | .submit r =>
    if w.pending = [] ∧ r.WellFormed then
      match w.blk.submit r with
      | .ok (.ok head, blk) => (w.enter a blk head r).toOption
      | .ok (.error _, blk) => some { w with blk := blk }
      | .error _ => none
    else none
  | .store => w.store
  | .release head =>
    if w.pending = [] ∧ w.out.any (fun o => o.head == head) then
      match w.blk.release head with
      | .ok blk => some { w with blk := blk, out := w.out.eraseP fun o => o.head == head }
      | .error _ => none
    else none
  | .device addr byte =>
    if w.DeviceMay a addr then some { w with mem := update w.mem addr byte } else none

def Step (a : Areas) (w : Wire) (act : WireAct) (w' : Wire) : Prop := w.step a act = some w'

end Wire

end Qunix.Block
