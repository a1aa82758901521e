/-
Threads over the buffer cache: `read_block`, `write_block`, `sync` and
`make_room` of `kernel/src/bcache.rs`, cut at their lock sections and awaits.

A task is what one thread's call does next. It advances by one section, by one
completion of its request, or by its future being dropped at an await, so a run
is an interleaving of all threads' sections. The functions `read_at` and
`write_at` of the device are assumed: a successful read delivers the bytes the
device holds, a successful write makes it hold the submitted bytes, and a write
that fails or is dropped leaves that block of the device holding anything. A
read that fails or is dropped may leave anything in the frame.

`lastWrite` is a ghost: the bytes of the last `write_block` of a key that
returned `Ok`. Each reference remembers the key it was handed out for.
-/

import Qunix.BufferCache.Kernel
import Qunix.Lib.Run

namespace Qunix.BufferCache

open Function Qunix.Lib

/-! ### Calls -/

/-- A `read_block` past its entry checks. -/
structure ReadCall where
  key : BlockKey
  valid : key.Valid
  started : Nat
  flushed : Nat

/-- A `write_block` past its entry checks; `data` is the `[u8; BLOCK_BYTES]`
they made of the caller's slice. -/
structure WriteCall where
  key : BlockKey
  valid : key.Valid
  data : Bytes
  whole : data.length = blockBytes
  ioStarted : Option Nat
  pinStarted : Option Nat
  flushed : Nat

/-- The caller of `make_room`. -/
inductive Caller where
  | read (call : ReadCall)
  | write (call : WriteCall)

structure SyncCall (N : Nat) where
  owed : Fin N → Bool
  failed : Fin N → Bool
  failure : Option BcacheError
  idleRounds : Nat
  pending : List (Fin N)
  acted : Bool

/-- The caller of `write_back`. -/
inductive Flusher (N : Nat) where
  | room (caller : Caller)
  | sync (call : SyncCall N)

inductive Task (N : Nat) where
  | idle
  /-- Before the next `claim`. -/
  | claim (call : ReadCall)
  /-- `claim` said `Wait`; the deadline is checked next. -/
  | filling (call : ReadCall)
  | readWait (call : ReadCall)
  /-- Awaiting `read_at`, with the `Fill` guard. -/
  | fill (call : ReadCall) (token : IoToken N)
  /-- Before `finish_fill`. -/
  | filled (call : ReadCall) (token : IoToken N) (outcome : Except BlockError Unit)
  /-- Before the next `store`. -/
  | store (call : WriteCall)
  /-- `store` was refused; before the wait for this reason is timed. -/
  | blocked (call : WriteCall) (why : Blocked)
  /-- Before its deadline is checked. -/
  | overdue (call : WriteCall) (why : Blocked)
  | writeWait (call : WriteCall)
  /-- Before `flushable_slot`. -/
  | room (caller : Caller)
  /-- Before `begin_writeback`. -/
  | begin (flusher : Flusher N) (slot : Fin N)
  /-- Before `write_at`, with the `Writeback` guard. -/
  | submit (flusher : Flusher N) (writeback : Writeback N)
  /-- Awaiting `write_at` of the submitted bytes. -/
  | writing (flusher : Flusher N) (writeback : Writeback N) (bytes : Bytes)
  /-- Before `finish_writeback`. -/
  | written (flusher : Flusher N) (writeback : Writeback N) (outcome : Except BlockError Unit)
  /-- `make_room` found its slot not dirty any more; before `state_of_slot`. -/
  | notDirty (caller : Caller) (slot : Fin N)
  | roomWait (caller : Caller)
  /-- Before the mask that `sync` computes on entry. -/
  | owed
  /-- Before the mask of the next round. -/
  | round (call : SyncCall N)
  | syncWait (call : SyncCall N)
  /-- The call returned. -/
  | done (result : Except BcacheError Unit)

/-- A live `BlockRef`. -/
structure BlockRef (N : Nat) where
  slot : Fin N
  key : BlockKey
deriving DecidableEq, Repr

structure Sys (N : Nat) where
  cache : Option (Bcache N)
  /-- The device's bytes of the block that starts at a sector. -/
  device : Nat → Bytes
  ticks : Nat
  tasks : Nat → Task N
  refs : List (BlockRef N)
  panicked : Option Panic
  lastWrite : BlockKey → Option Bytes

namespace Sys

variable {N : Nat}

def boot (N : Nat) (device : Nat → Bytes) : Sys N where
  cache := none
  device := device
  ticks := 0
  tasks := fun _ => .idle
  refs := []
  panicked := none
  lastWrite := fun _ => none

def setTask (s : Sys N) (t : Nat) (task : Task N) : Sys N :=
  { s with tasks := update s.tasks t task }

def finish (s : Sys N) (t : Nat) (result : Except BcacheError Unit) : Sys N :=
  s.setTask t (.done result)

def setCache (s : Sys N) (b : Bcache N) : Sys N := { s with cache := some b }

def stop (s : Sys N) (why : Panic) : Sys N := { s with panicked := some why }

def pastDeadline (s : Sys N) (started limit : Nat) : Bool := limit < s.ticks - started

end Sys

/-- Back to the loop that called `make_room`. -/
def Caller.resume {N : Nat} : Caller → Task N
  | .read call => .claim call
  | .write call => .store call

namespace SyncCall

variable {N : Nat}

/-- The `while pending != 0` loop from where it stands, and the end of a round. -/
def turn (y : SyncCall N) : Task N :=
  match y.pending with
  | slot :: rest => .begin (.sync { y with pending := rest }) slot
  | [] =>
    if y.acted then .round { y with idleRounds := 0 }
    else
      let y := { y with idleRounds := y.idleRounds + 1 }
      if syncRoundLimit < y.idleRounds then .done (.error .writebackStalled) else .syncWait y

/-- The head of the loop, with the mask read afresh. -/
def startRound (y : SyncCall N) (unsynced : Fin N → Bool) : Task N :=
  let pending := (List.finRange N).filter fun i => y.owed i && unsynced i && !y.failed i
  if pending = [] then
    match y.failure with
    | some error => .done (.error error)
    | none => .done (.ok ())
  else { y with pending := pending, acted := false }.turn

def record (y : SyncCall N) (slot : Fin N) : Except BlockError Unit → SyncCall N
  | .ok () => { y with acted := true }
  | .error e =>
    { y with
      failed := update y.failed slot true
      failure := some (y.failure.getD (.device e))
      acted := true }

end SyncCall

namespace Sys

variable {N : Nat}

/-! ### Reading -/

def readBlock (s : Sys N) (t : Nat) (key : BlockKey) : Sys N :=
  if hdev : key.dev ≠ onlyDevice then s.finish t (.error .unknownDevice)
  else if hlba : key.lba < 2 ^ 64 then
    s.setTask t (.claim ⟨key, ⟨not_not.mp hdev, hlba⟩, s.ticks, 0⟩)
  else s.finish t (.error .outOfRange)

def claim (s : Sys N) (t : Nat) (c : ReadCall) : Sys N :=
  match s.cache with
  | none => s.finish t (.error .uninitialised)
  | some b =>
    match b.claim c.key with
    | .error why => s.stop why
    | .ok (.error .exhausted, b) =>
      let c := { c with flushed := c.flushed + 1 }
      if N < c.flushed then (s.setCache b).finish t (.error .exhausted)
      else (s.setCache b).setTask t (.room (.read c))
    | .ok (.error e, b) => (s.setCache b).finish t (.error e)
    | .ok (.ok (.hit slot), b) =>
      { s.setCache b with refs := ⟨slot, c.key⟩ :: s.refs }.finish t (.ok ())
    | .ok (.ok .wait, b) => (s.setCache b).setTask t (.filling c)
    | .ok (.ok (.fill token), b) =>
      match lbaOf c.key with
      | .error _ => (s.setCache b).stop .unvalidatedKey
      | .ok _ => (s.setCache b).setTask t (.fill c token)

def checkFill (s : Sys N) (t : Nat) (c : ReadCall) : Sys N :=
  if s.pastDeadline c.started fillWaitTicksLimit then s.finish t (.error .fillStalled)
  else s.setTask t (.readWait c)

def finishFill (s : Sys N) (t : Nat) (c : ReadCall) (token : IoToken N)
    (outcome : Except BlockError Unit) : Sys N :=
  match s.cache with
  | none => s.stop .tornDown
  | some b =>
    match b.finishFill token outcome.toBool, outcome with
    | .error why, _ => s.stop why
    | .ok (some slot, b), _ =>
      { s.setCache b with refs := ⟨slot, c.key⟩ :: s.refs }.finish t (.ok ())
    | .ok (none, b), .error e => (s.setCache b).finish t (.error (.device e))
    | .ok (none, _), .ok () => s.stop .unwrapErr

/-! ### Writing -/

def writeBlock (s : Sys N) (t : Nat) (key : BlockKey) (data : Bytes) : Sys N :=
  if hdev : key.dev ≠ onlyDevice then s.finish t (.error .unknownDevice)
  else if hwhole : data.length = blockBytes then
    if hlba : key.lba < 2 ^ 64 then
      s.setTask t (.store ⟨key, ⟨not_not.mp hdev, hlba⟩, data, hwhole, none, none, 0⟩)
    else s.finish t (.error .outOfRange)
  else s.finish t (.error .partialBlock)

def store (s : Sys N) (t : Nat) (c : WriteCall) : Sys N :=
  match s.cache with
  | none => s.finish t (.error .uninitialised)
  | some b =>
    match b.store c.key c.data with
    | .error why => s.stop why
    | .ok (.error .exhausted, b) =>
      let c := { c with flushed := c.flushed + 1 }
      if N < c.flushed then (s.setCache b).finish t (.error .exhausted)
      else (s.setCache b).setTask t (.room (.write c))
    | .ok (.error e, b) => (s.setCache b).finish t (.error e)
    | .ok (.ok (.ok ()), b) =>
      { s.setCache b with lastWrite := update s.lastWrite c.key (some c.data) }.finish t (.ok ())
    | .ok (.ok (.error why), b) => (s.setCache b).setTask t (.blocked c why)

/-- `started.get_or_insert_with(now_ticks)`: waits on I/O and waits on readers
are timed apart. -/
def startWait (s : Sys N) (t : Nat) (c : WriteCall) (why : Blocked) : Sys N :=
  match why with
  | .filling | .writingBack =>
    s.setTask t (.overdue { c with ioStarted := some (c.ioStarted.getD s.ticks) } why)
  | .reader => s.setTask t (.overdue { c with pinStarted := some (c.pinStarted.getD s.ticks) } why)

def checkBlocked (s : Sys N) (t : Nat) (c : WriteCall) (why : Blocked) : Sys N :=
  let (started, limit, stalled) :=
    match why with
    | .filling => (c.ioStarted, fillWaitTicksLimit, BcacheError.fillStalled)
    | .writingBack => (c.ioStarted, fillWaitTicksLimit, .writebackStalled)
    | .reader => (c.pinStarted, pinWaitTicksLimit, .pinned)
  if s.pastDeadline (started.getD s.ticks) limit then s.finish t (.error stalled)
  else s.setTask t (.writeWait c)

/-! ### Writing back -/

def makeRoom (s : Sys N) (t : Nat) (k : Caller) : Sys N :=
  match s.cache with
  | none => s.finish t (.error .exhausted)
  | some b =>
    match b.flushableSlot with
    | none => s.finish t (.error .exhausted)
    | some slot => s.setTask t (.begin (.room k) slot)

/-- `write_back` returned `None`. -/
def notBegun (s : Sys N) (t : Nat) (slot : Fin N) : Flusher N → Sys N
  | .room k => s.setTask t (.notDirty k slot)
  | .sync y => s.setTask t y.turn

def beginWriteback (s : Sys N) (t : Nat) (f : Flusher N) (slot : Fin N) : Sys N :=
  match s.cache with
  | none => s.notBegun t slot f
  | some b =>
    match b.beginWriteback slot with
    | .error why => s.stop why
    | .ok (none, b) => (s.setCache b).notBegun t slot f
    | .ok (some w, b) => (s.setCache b).setTask t (.submit f w)

def submit (s : Sys N) (t : Nat) (f : Flusher N) (w : Writeback N) : Sys N :=
  match lbaOf w.key, s.cache with
  | .error _, _ => s.stop .unvalidatedKey
  | .ok _, some b => s.setTask t (.writing f w (b.frames w.token.slot))
  -- `CACHE` is never emptied, so the guard's frame is always there.
  | .ok _, none => s.stop .tornDown

/-- `write_back` returned `Some(outcome)`. -/
def wroteBack (s : Sys N) (t : Nat) (slot : Fin N) (outcome : Except BlockError Unit) :
    Flusher N → Sys N
  | .room k =>
    match outcome with
    | .ok () => s.setTask t k.resume
    | .error e => s.finish t (.error (.device e))
  | .sync y => s.setTask t (y.record slot outcome).turn

def finishWriteback (s : Sys N) (t : Nat) (f : Flusher N) (w : Writeback N)
    (outcome : Except BlockError Unit) : Sys N :=
  match s.cache with
  | none => s.stop .tornDown
  | some b =>
    match b.finishWriteback w.token outcome.toBool with
    | .error why => s.stop why
    | .ok b => (s.setCache b).wroteBack t w.token.slot outcome f

def checkSlot (s : Sys N) (t : Nat) (k : Caller) (slot : Fin N) : Sys N :=
  match s.cache with
  | none => s.setTask t k.resume
  | some b =>
    if b.table.stateOf slot = .clean then s.setTask t k.resume else s.setTask t (.roomWait k)

def sync (s : Sys N) (t : Nat) : Sys N :=
  match s.cache with
  | none => s.finish t (.error .uninitialised)
  | some b =>
    s.setTask t (.round
      { owed := b.unsyncedMask, failed := fun _ => false, failure := none, idleRounds := 0,
        pending := [], acted := false })

def syncRound (s : Sys N) (t : Nat) (y : SyncCall N) : Sys N :=
  match s.cache with
  | none => s.finish t (.error .uninitialised)
  | some b => s.setTask t (y.startRound b.unsyncedMask)

/-! ### Steps -/

/-- The next section of thread `t`; a thread that awaits its request has none. -/
def advance (s : Sys N) (t : Nat) : Option (Sys N) :=
  match s.tasks t with
  | .claim c => some (s.claim t c)
  | .filling c => some (s.checkFill t c)
  | .readWait c => some (s.setTask t (.claim c))
  | .filled c token outcome => some (s.finishFill t c token outcome)
  | .store c => some (s.store t c)
  | .blocked c why => some (s.startWait t c why)
  | .overdue c why => some (s.checkBlocked t c why)
  | .writeWait c => some (s.setTask t (.store c))
  | .room k => some (s.makeRoom t k)
  | .begin f slot => some (s.beginWriteback t f slot)
  | .submit f w => some (s.submit t f w)
  | .written f w outcome => some (s.finishWriteback t f w outcome)
  | .notDirty k slot => some (s.checkSlot t k slot)
  | .roomWait k => some (s.setTask t k.resume)
  | .owed => some (s.sync t)
  | .round y => some (s.syncRound t y)
  | .syncWait y => some (s.setTask t (.round y))
  | .idle | .done _ | .fill _ _ | .writing _ _ _ => none

/-- The request of thread `t` comes back; `junk` is what a failed one leaves. -/
def complete (s : Sys N) (t : Nat) (outcome : Except BlockError Unit) (junk : Bytes) :
    Option (Sys N) :=
  match s.tasks t, s.cache with
  | .fill c token, some b =>
    let bytes := if outcome.toBool then s.device c.key.lba else junk
    some ((s.setCache { b with frames := update b.frames token.slot bytes }).setTask t
      (.filled c token outcome))
  | .writing f w bytes, _ =>
    let held := if outcome.toBool then bytes else junk
    some ({ s with device := update s.device w.key.lba held }.setTask t (.written f w outcome))
  | _, _ => none

/-- The future of thread `t` is dropped at the await where it stands. -/
def drop (s : Sys N) (t : Nat) (junk : Bytes) : Option (Sys N) :=
  match s.tasks t, s.cache with
  | .readWait _, _ | .writeWait _, _ | .roomWait _, _ | .syncWait _, _ => some (s.setTask t .idle)
  | .fill _ token, some b =>
    match { b with frames := update b.frames token.slot junk }.dropFill token with
    | .error why => some (s.stop why)
    | .ok b => some ((s.setCache b).setTask t .idle)
  | .writing _ w _, some b =>
    match b.dropWriteback w.token with
    | .error why => some (s.stop why)
    | .ok b =>
      some ({ s.setCache b with device := update s.device w.key.lba junk }.setTask t .idle)
  | _, _ => none

/-- A holder of `r` lets go of it. -/
def dropRef (s : Sys N) (r : BlockRef N) : Option (Sys N) :=
  if r ∈ s.refs then
    match s.cache with
    | none => some (s.stop .tornDown)
    | some b =>
      match b.dropRef r.slot with
      | .error why => some (s.stop why)
      | .ok b => some { s.setCache b with refs := s.refs.erase r }
  else none

/-- `init`, when the frames it asks for are there; they hold anything. -/
def init (s : Sys N) (frames : Fin N → Bytes) : Sys N :=
  match s.cache with
  | some _ => s
  | none => s.setCache (Bcache.new frames)

end Sys

inductive Act (N : Nat) where
  | init (frames : Fin N → Bytes)
  | tick
  | readBlock (t : Nat) (key : BlockKey)
  | writeBlock (t : Nat) (key : BlockKey) (data : Bytes)
  | sync (t : Nat)
  | advance (t : Nat)
  | complete (t : Nat) (outcome : Except BlockError Unit) (junk : Bytes)
  | drop (t : Nat) (junk : Bytes)
  | dropRef (r : BlockRef N)

namespace Sys

variable {N : Nat}

/-- A thread between two calls. -/
def isIdle (s : Sys N) (t : Nat) : Bool :=
  match s.tasks t with
  | .idle | .done _ => true
  | _ => false

def step (s : Sys N) (a : Act N) : Option (Sys N) :=
  if s.panicked.isSome then none
  else
    match a with
    | .init frames => some (s.init frames)
    | .tick => some { s with ticks := s.ticks + 1 }
    | .readBlock t key => if s.isIdle t then some (s.readBlock t key) else none
    | .writeBlock t key data => if s.isIdle t then some (s.writeBlock t key data) else none
    | .sync t => if s.isIdle t then some (s.setTask t .owed) else none
    | .advance t => s.advance t
    | .complete t outcome junk => s.complete t outcome junk
    | .drop t junk => s.drop t junk
    | .dropRef r => s.dropRef r

def Step (s : Sys N) (a : Act N) (s' : Sys N) : Prop := s.step a = some s'

/-- What a reader of `key` must be shown: the bytes of the last acknowledged
write, or else those of the device. -/
def contents (s : Sys N) (key : BlockKey) : Bytes :=
  (s.lastWrite key).getD (s.device key.lba)

/-- The bytes behind a reference. -/
def shows (s : Sys N) (r : BlockRef N) : Option Bytes :=
  s.cache.map fun b => b.frames r.slot

end Sys

end Qunix.BufferCache
