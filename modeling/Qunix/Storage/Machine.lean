/-
The buffer cache over the block driver over a disk.

The cache's threads call `read_at` and `write_at` of the driver, whose requests
the device performs at any time while they are in flight: also after the call
that submitted one has timed out or was dropped. The disk is the `device` of the
cache's machine; a request moves one whole block, which is what the cache asks
for. The device tells the truth: an entry it puts into the used ring for a chain
in flight names a request it has performed, with the status it had.
-/

import Qunix.Block.Exclusive
import Qunix.BufferCache.History

namespace Qunix.Storage

open Function Qunix.Lib
open Qunix.BufferCache (Bytes blockBytes)
open Qunix.Block (Request RequestHeader DeviceInput queueSize)
open Qunix.Virtio (UsedElem)

/-- The request of a task that awaits the driver. -/
def request? {N : Nat} : BufferCache.Task N → Option Request
  | .fill c _ => some { lba := c.key.lba, len := blockBytes, out := none }
  | .writing _ w bytes => some { lba := w.key.lba, len := blockBytes, out := some bytes }
  | _ => none

structure Machine (N : Nat) where
  cache : BufferCache.Sys N
  driver : Block.Sys
  /-- The status of the request of a head, once the device has performed it. -/
  served : Nat → Option UInt8

inductive Act (N : Nat) where
  | cache (a : BufferCache.Act N)
  | driver (a : Block.Act)
  /-- The call of `read_at` or `write_at` returns to the cache. -/
  | resume (t : Nat)
  /-- The future of thread `t` is dropped while it awaits the device. -/
  | drop (t : Nat)
  | perform (head : Nat)
  /-- The device fails a request, and leaves anything in the block. -/
  | fail (head : Nat) (status : UInt8) (junk : Bytes)

namespace Machine

variable {N : Nat}

def boot (N : Nat) (disk : Nat → Bytes) (metaPhys dataPhys : Nat) (bounce : Nat → Bytes) :
    Machine N where
  cache := .boot N disk
  driver := .boot metaPhys dataPhys bounce
  served := fun _ => none

/-- A step of the cache's own; a task that comes to await the driver makes its
call there. -/
def cacheStep (m : Machine N) (a : BufferCache.Act N) : Option (Machine N) :=
  match a with
  | .complete _ _ _ => none
  | .drop t junk =>
    if (request? (m.cache.tasks t)).isSome then none
    else (m.cache.step (.drop t junk)).map fun c => { m with cache := c }
  | .tick => do
    let c ← m.cache.step .tick
    let d ← m.driver.step .tick
    some { m with cache := c, driver := d }
  | .advance t => do
    let c ← m.cache.step (.advance t)
    match request? (c.tasks t) with
    | none => some { m with cache := c }
    | some r =>
      let d ← m.driver.step (.call t r)
      some { m with cache := c, driver := d }
  | a => (m.cache.step a).map fun c => { m with cache := c }

/-- Every entry for a chain in flight names a request that was performed. -/
def honest (m : Machine N) (d : DeviceInput) : Bool :=
  (List.range (m.driver.blk.pending d)).all fun k =>
    let head := (UsedElem.ofBytes (d.entries k)).id
    !m.driver.blk.queue.inFlight head || m.served head == some (d.status k)

/-- A step of a call in the driver, or of the completion handler. -/
def driverStep (m : Machine N) (a : Block.Act) : Option (Machine N) :=
  match a with
  | .reserve t free => (m.driver.step (.reserve t free)).map fun d => { m with driver := d }
  | .advance t =>
    (m.driver.step (.advance t)).map fun d =>
      { m with
        driver := d
        served :=
          match m.driver.event (.advance t) d with
          | some (.published head _) => update m.served head none
          | _ => m.served }
  | .interrupt input =>
    if m.honest input then
      (m.driver.step (.interrupt input)).map fun d => { m with driver := d }
    else none
  | .tick | .call _ _ | .drop _ | .dma _ _ => none

/-- The cache goes on with what the driver's call returned. A write has reached
the disk when the device performed it, or not. -/
def resume (m : Machine N) (t : Nat) : Option (Machine N) :=
  if m.cache.panicked.isSome then none
  else
    match m.cache.tasks t, m.cache.cache, m.driver.calls t with
    | .fill c token, some b, .done result copied =>
      let frame := copied.getD (b.frames token.slot)
      some { m with
        cache := (m.cache.setCache { b with frames := update b.frames token.slot frame }).setTask t
          (.filled c token result) }
    | .writing f w _, some _, .done result _ =>
      some { m with cache := m.cache.setTask t (.written f w result) }
    | _, _, _ => none

/-- What the frame, or the block of the disk, of a task holds already. -/
def untouched (m : Machine N) (t : Nat) : Bytes :=
  match m.cache.tasks t, m.cache.cache with
  | .fill _ token, some b => b.frames token.slot
  | .writing _ w _, _ => m.cache.device w.key.lba
  | _, _ => []

/-- The guards of the request and of the task are dropped; neither touches the
frame or the disk. -/
def drop (m : Machine N) (t : Nat) : Option (Machine N) :=
  if (request? (m.cache.tasks t)).isSome then do
    let d ← m.driver.step (.drop t)
    let c ← m.cache.step (.drop t (m.untouched t))
    some { m with cache := c, driver := d }
  else none

/-- The request of a head is over at the device: a write leaves these bytes on
the disk, a read leaves them in the bounce buffer. -/
def transfer (m : Machine N) (head : Nat) (status : UInt8) (bytes : Bytes) : Machine N :=
  let header := m.driver.blk.header head
  match header.kind with
  | .write =>
    { m with
      cache := { m.cache with device := update m.cache.device header.sector bytes }
      served := update m.served head (some status) }
  | .read =>
    { m with
      driver := { m.driver with
        blk := { m.driver.blk with bounce := update m.driver.blk.bounce head bytes } }
      served := update m.served head (some status) }

/-- What the request of a head asks the device to move. -/
def asked (m : Machine N) (head : Nat) : Bytes :=
  let header := m.driver.blk.header head
  match header.kind with
  | .write => (m.driver.blk.bounce head).take blockBytes
  | .read => m.cache.device header.sector

/-- The request of a head is in flight, and the device has not performed it. -/
def waiting (m : Machine N) (head : Nat) : Bool :=
  m.driver.blk.queue.inFlight head && m.served head == none

def step (m : Machine N) (a : Act N) : Option (Machine N) :=
  match a with
  | .cache a => m.cacheStep a
  | .driver a => m.driverStep a
  | .resume t => m.resume t
  | .drop t => m.drop t
  | .perform head => if m.waiting head then some (m.transfer head 0 (m.asked head)) else none
  | .fail head status junk =>
    if m.waiting head ∧ status ≠ 0 ∧ junk.length = blockBytes then
      some (m.transfer head status junk)
    else none

def Step (m : Machine N) (a : Act N) (m' : Machine N) : Prop := m.step a = some m'

/-- What a step of the cache shows. -/
def event (m : Machine N) (a : Act N) (m' : Machine N) : Option (BufferCache.Event N) :=
  match a with
  | .cache a => m.cache.event a m'.cache
  | .resume t =>
    match m.driver.calls t with
    | .done result _ => m.cache.event (.complete t result []) m'.cache
    | _ => none
  | _ => none

/-- A write of a block is submitted only when every write of the block that was
published before has been performed. -/
def writesInOrder (m : Machine N) (a : Act N) : Bool :=
  match a with
  | .driver (.advance t) =>
    match m.driver.calls t with
    | .submit r _ =>
      r.out.isNone || (List.range queueSize).all fun head =>
        !(m.waiting head && m.driver.blk.header head == ⟨.write, r.lba⟩)
    | _ => true
  | _ => true

end Machine

end Qunix.Storage
