/-
The block driver (`kernel/src/block.rs`): the sections that run under the `DEVICE`
lock, over a device that was found and set up.

A head is an index below the queue's size, so `slots`, the header areas and the
bounce buffers are functions of it. What the device chose and the driver reads
is an argument: the used index, the bytes of each entry and each status byte. The
copy of a chain into ring memory, the notification, the counters and the wakeups
leave nothing behind that a section reads.
-/

import Qunix.BufferCache.Kernel
import Qunix.Virtio.Queue

namespace Qunix.Block

open Function Qunix.Virtio
open Qunix.BufferCache (Bytes BlkStatus BlockError)

def queueSize : Nat := 64
def sectorBytes : Nat := 512
def slotBytes : Nat := 4096
def maxSectors : Nat := slotBytes / sectorBytes
def metaStride : Nat := 32
def requestTimeoutTicks : Nat := 500
def statusTimedOut : UInt8 := 0xfe

/-- `REQUEST_IN` and `REQUEST_OUT`. -/
inductive RequestKind where
  | read
  | write
deriving DecidableEq, Repr

structure RequestHeader where
  kind : RequestKind
  sector : Nat
deriving DecidableEq, Repr

def RequestHeader.bytes : Nat := 16

def statusFromByte (b : UInt8) : BlkStatus :=
  if b = 0 then .ok else if b = 1 then .ioError else if b = 2 then .unsupported else .unknown b

def transferSatisfied (reported asked : Nat) : Bool := asked ≤ reported

/-- One in-flight request. -/
structure Slot where
  done : Bool
  status : UInt8
  len : Nat
  abandoned : Bool
deriving DecidableEq, Repr

structure Blk where
  queue : SplitQueue
  metaPhys : Nat
  dataPhys : Nat
  lastUsed : Nat
  slots : Nat → Option Slot
  /-- The request header in the metadata area of a head. -/
  header : Nat → RequestHeader
  /-- The bytes in the bounce buffer of a head. -/
  bounce : Nat → Bytes

/-- The arguments of `submit`. -/
structure Request where
  lba : Nat
  len : Nat
  out : Option Bytes
deriving DecidableEq, Repr

/-- What one run of the completion handler reads of the device's writing. -/
structure DeviceInput where
  idx : UInt16
  entries : Nat → Fin 8 → UInt8
  status : Nat → UInt8

def expect {α : Type} (x : Option α) (why : Panic) : Except Panic α :=
  match x with
  | some a => .ok a
  | none => .error why

namespace Blk

def new (metaPhys dataPhys : Nat) (bounce : Nat → Bytes) : Blk where
  queue := .new queueSize
  metaPhys := metaPhys
  dataPhys := dataPhys
  lastUsed := 0
  slots := fun _ => none
  header := fun _ => ⟨.read, 0⟩
  bounce := bounce

def headerPhys (blk : Blk) (head : Nat) : Nat := blk.metaPhys + head * metaStride

def statusPhys (blk : Blk) (head : Nat) : Nat := blk.headerPhys head + RequestHeader.bytes

def bouncePhys (blk : Blk) (head : Nat) : Nat := blk.dataPhys + head * slotBytes

/-- The request in its slot and its memory. -/
def record (blk : Blk) (queue : SplitQueue) (head : Nat) (r : Request) : Blk :=
  { blk with
    queue := queue
    slots := update blk.slots head
      (some { done := false, status := 0xff, len := 0, abandoned := false })
    header := update blk.header head ⟨if r.out.isSome then .write else .read, r.lba⟩
    bounce := update blk.bounce head
      (match r.out with
      | some bytes => bytes ++ (blk.bounce head).drop r.len
      | none => blk.bounce head) }

/-- `submit` past its checks and its allocation. -/
def publishRequest (blk : Blk) (queue : SplitQueue) (head : Nat) (r : Request) :
    Except Panic Blk := do
  let data ← expect (← queue.nextInChain head) .noSecond
  let status ← expect (← queue.nextInChain data) .noThird
  let queue ← queue.describe head (blk.headerPhys head) RequestHeader.bytes false
  let queue ← queue.describe data (blk.bouncePhys head) r.len r.out.isNone
  let queue ← queue.describe status (blk.statusPhys head) 1 true
  let queue ← queue.publish head
  pure (blk.record queue head r)

def submit (blk : Blk) (r : Request) : Except Panic (Except BlockError Nat × Blk) :=
  if r.len = 0 ∨ r.len % sectorBytes ≠ 0 then .ok (.error .unaligned, blk)
  else if maxSectors * sectorBytes < r.len then .ok (.error .tooLarge, blk)
  else do
    match ← blk.queue.allocChain 3 with
    | (none, queue) => pure (.error .queueFull, { blk with queue := queue })
    | (some head, queue) =>
      let blk ← blk.publishRequest queue head r
      pure (.ok head, blk)

def pollDevice (blk : Blk) (head : Nat) : Option UInt8 :=
  match blk.slots head with
  | some slot => if slot.done then some slot.status else none
  | none => none

/-- `free_chain` and the end of the slot. -/
def release (blk : Blk) (head : Nat) : Except Panic Blk := do
  let queue ← blk.queue.freeChain head
  pure { blk with queue := queue, slots := update blk.slots head none }

def abandon (blk : Blk) (head : Nat) : Blk :=
  { blk with
    slots := update blk.slots head ((blk.slots head).map ({ · with abandoned := true })) }

/-- The end of a request; for a read, `into` is the length of the caller's buffer
and the last answer what is copied into it. -/
def finish (blk : Blk) (head : Nat) (status : UInt8) (into : Option Nat) :
    Except Panic (Except BlockError Unit × Option Bytes × Blk) :=
  let verdict : Except BlockError Unit :=
    match statusFromByte status with
    | .ok => .ok ()
    | other => .error (.device other)
  if status = statusTimedOut then .ok (.error .timeout, none, blk.abandon head)
  else
    match into with
    | some len =>
      let reported := ((blk.slots head).map (·.len)).getD 0
      if !transferSatisfied reported len then do
        let blk ← blk.release head
        pure (.error .short, none, blk)
      else do
        let copied := (blk.bounce head).take len
        let blk ← blk.release head
        pure (verdict, some copied, blk)
    | none => do
      let blk ← blk.release head
      pure (verdict, none, blk)

/-- `Request::drop` of a request that `finish` has not taken over. -/
def dropRequest (blk : Blk) (head : Nat) : Except Panic Blk :=
  match blk.slots head with
  | none => .ok blk
  | some slot => if slot.done then blk.release head else .ok (blk.abandon head)

/-- The completion in one slot of the used ring; the answer is the head that was
taken. -/
def take (blk : Blk) (slot : Nat) (status : UInt8) : Except Panic (Option Nat × Blk) :=
  match blk.queue.takeUsed slot with
  | (none, queue) => .ok (none, { blk with queue := queue })
  | (some (head, len), queue) =>
    match blk.slots head with
    | none => .ok (some head, { blk with queue := queue })
    | some entry =>
      if entry.abandoned then do
        let blk ← { blk with queue := queue }.release head
        pure (some head, blk)
      else
        let entry := { entry with done := true, status := status, len := len }
        .ok (some head, { blk with queue := queue, slots := update blk.slots head (some entry) })

/-- The loop over the entries that are ready, from the `k`-th the handler reads. -/
def drain (d : DeviceInput) : Nat → Nat → Blk → Except Panic (List Nat × Blk)
  | 0, _, blk => .ok ([], blk)
  | n + 1, k, blk =>
    let slot := blk.lastUsed % queueSize
    match blk.queue.ingestUsedSlot slot (d.entries k) with
    | (false, _) => .ok ([], blk)
    | (true, queue) => do
      let (taken, blk) ← { blk with queue := queue }.take slot (d.status k)
      let (rest, blk) ← drain d n (k + 1) { blk with lastUsed := (blk.lastUsed + 1) % 2 ^ 16 }
      pure (taken.toList ++ rest, blk)

/-- `index.wrapping_sub(last_used)`, the number of entries that are ready. -/
def pending (blk : Blk) (d : DeviceInput) : Nat := (d.idx.toNat + 2 ^ 16 - blk.lastUsed) % 2 ^ 16

/-- The answer is the heads whose completions were taken. -/
def handleCompletion (blk : Blk) (d : DeviceInput) : Except Panic (List Nat × Blk) :=
  if queueSize < blk.pending d then .ok ([], blk) else drain d (blk.pending d) 0 blk

end Blk

end Qunix.Block
