/-
The kernel's buffer cache (`kernel/src/bcache.rs`): the sections that run under
the `CACHE` lock.

`frames` gives the bytes that stand in a slot's frame. A section is a function
of the cache; `Except Panic` says that one of its assertions fired. The result a
section hands back stands next to the cache it leaves, because a section that
returns an error may have changed the cache before.
-/

import Qunix.BufferCache.Table

namespace Qunix.BufferCache

open Function

abbrev Bytes := List UInt8

def blockBytes : Nat := 4096
def sectorsPerBlock : Nat := 8
def fillWaitTicksLimit : Nat := 600
def pinWaitTicksLimit : Nat := 32
def syncRoundLimit : Nat := 600
def onlyDevice : Nat := 0

/-- `BlkStatus`, the status byte of a finished request. -/
inductive BlkStatus where
  | ok
  | ioError
  | unsupported
  | unknown (status : UInt8)
deriving DecidableEq, Repr

/-- Why a request to the device failed; the causes that only its
initialisation reports are left out. -/
inductive BlockError where
  | unaligned
  | short
  | tooLarge
  | queueFull
  | noDevice
  | device (status : BlkStatus)
  | timeout
deriving DecidableEq, Repr

inductive BcacheError where
  | noFrames
  | uninitialised
  | device (error : BlockError)
  | exhausted
  | fillStalled
  | outOfRange
  | writebackStalled
  | pinned
  | partialBlock
  | unknownDevice
deriving DecidableEq, Repr

/-- The first sector of a block. -/
def BlockKey.lba (key : BlockKey) : Nat := key.block * sectorsPerBlock

def lbaOf (key : BlockKey) : Except BcacheError Nat :=
  if key.lba < 2 ^ 64 then .ok key.lba else .error .outOfRange

/-- What `read_block` and `write_block` check of a key on entry. -/
def BlockKey.Valid (key : BlockKey) : Prop := key.dev = onlyDevice ∧ key.lba < 2 ^ 64

instance (key : BlockKey) : Decidable key.Valid := inferInstanceAs (Decidable (_ ∧ _))

structure Bcache (N : Nat) where
  table : Cache N
  frames : Fin N → Bytes
  filling : Fin N → Bool
  writebackFailed : Fin N → Bool

/-- What a reader found under the lock. -/
inductive Claim (N : Nat) where
  | hit (slot : Fin N)
  | fill (token : IoToken N)
  | wait

/-- Why a write cannot go in yet. -/
inductive Blocked where
  | filling
  | writingBack
  | reader
deriving DecidableEq, Repr

/-- The guard of one writeback. -/
structure Writeback (N : Nat) where
  token : IoToken N
  key : BlockKey

namespace Bcache

variable {N : Nat}

def new (frames : Fin N → Bytes) : Bcache N where
  table := Cache.new N
  frames := frames
  filling := fun _ => false
  writebackFailed := fun _ => false

def claimFreeSlot (b : Bcache N) (key : BlockKey) :
    Except Panic (Except BcacheError (IoToken N) × Bcache N) :=
  match b.table.insert key with
  | .ok (token, table) => .ok (.ok token, { b with table := table })
  | .error (.alreadyResident _) => .error .alreadyResident
  | .error .full =>
    match b.table.victim with
    | none => .ok (.error .exhausted, b)
    | some victim =>
      match b.table.evict victim with
      | .error _ => .error .victimRefused
      | .ok table =>
        let b := { b with
          table := table
          writebackFailed := update b.writebackFailed victim false }
        match b.table.insert key with
        | .ok (token, table) => .ok (.ok token, { b with table := table })
        | .error _ => .ok (.error .exhausted, b)

def claim (b : Bcache N) (key : BlockKey) :
    Except Panic (Except BcacheError (Claim N) × Bcache N) :=
  match b.table.lookup key with
  | some slot =>
    if b.table.stateOf slot = .inFlight ∧ b.filling slot then .ok (.ok .wait, b)
    else do
      let table ← b.table.pin slot
      pure (.ok (.hit slot), { b with table := table })
  | none => do
    match ← b.claimFreeSlot key with
    | (.error e, b) => pure (.error e, b)
    | (.ok token, b) =>
      pure (.ok (.fill token), { b with filling := update b.filling token.slot true })

/-- Resolves a fill; the answer is the slot of the reference it hands out. -/
def finishFill (b : Bcache N) (token : IoToken N) (ok : Bool) :
    Except Panic (Option (Fin N) × Bcache N) := do
  let slot := token.slot
  let table ← b.table.endIo token .clean
  let b := { b with table := table, filling := update b.filling slot false }
  if !ok then
    if b.table.stateOf slot ≠ .clean then throw .writtenWhileFilled
    else
      match b.table.evict slot with
      | .error _ => throw .failedFillKept
      | .ok table => pure (none, { b with table := table })
  else
    let table ← b.table.pin slot
    pure (some slot, { b with table := table })

/-- `Fill::drop` with the token still inside. -/
def dropFill (b : Bcache N) (token : IoToken N) : Except Panic (Bcache N) := do
  let slot := token.slot
  let table ← b.table.endIo token .clean
  match table.evict slot with
  | .error _ => throw .abandonedFillKept
  | .ok table => pure { b with table := table, filling := update b.filling slot false }

/-- The end of `store`: the copy into the frame. -/
def copyIn (b : Bcache N) (slot : Fin N) (data : Bytes) : Except Panic (Bcache N) := do
  let table ← b.table.markDirty slot
  pure { b with
    table := table
    frames := update b.frames slot data
    writebackFailed := update b.writebackFailed slot false }

def store (b : Bcache N) (key : BlockKey) (data : Bytes) :
    Except Panic (Except BcacheError (Except Blocked Unit) × Bcache N) :=
  match b.table.lookup key with
  | some slot =>
    if b.table.stateOf slot = .inFlight then
      .ok (.ok (.error (if b.filling slot then .filling else .writingBack)), b)
    else if b.table.pinsOf slot ≠ 0 then .ok (.ok (.error .reader), b)
    else do
      let b ← b.copyIn slot data
      pure (.ok (.ok ()), b)
  | none => do
    match ← b.claimFreeSlot key with
    | (.error e, b) => pure (.error e, b)
    | (.ok token, b) => do
      let table ← b.table.endIo token .clean
      let b ← { b with table := table }.copyIn token.slot data
      pure (.ok (.ok ()), b)

/-- Slots whose bytes the device may not hold yet. -/
def unsyncedMask (b : Bcache N) (slot : Fin N) : Bool :=
  match b.table.stateOf slot with
  | .dirty => true
  | .inFlight => !b.filling slot
  | .free | .clean => false

def beginWriteback (b : Bcache N) (slot : Fin N) :
    Except Panic (Option (Writeback N) × Bcache N) :=
  if b.table.stateOf slot ≠ .dirty then .ok (none, b)
  else
    match b.table.keyOf slot with
    | none => .ok (none, b)
    | some key => do
      if b.filling slot then throw .dirtyAndFilling
      let (token, table) ← b.table.beginIo slot
      if token.prior ≠ .dirty then throw .priorNotDirty
      pure (some ⟨token, key⟩, { b with table := table })

def finishWriteback (b : Bcache N) (token : IoToken N) (ok : Bool) : Except Panic (Bcache N) := do
  let table ← b.table.endIo token (if ok then .clean else .dirty)
  pure { b with
    table := table
    writebackFailed := update b.writebackFailed token.slot (!ok) }

/-- `Writeback::drop` with the token still inside. -/
def dropWriteback (b : Bcache N) (token : IoToken N) : Except Panic (Bcache N) := do
  let table ← b.table.endIo token .dirty
  pure { b with table := table }

/-- A dirty slot nobody reads, one the device has not refused first. -/
def flushableSlot (b : Bcache N) : Option (Fin N) :=
  let unpinned := fun slot => b.table.pinsOf slot == 0
  match b.table.dirtySlots.find? fun slot => unpinned slot && !b.writebackFailed slot with
  | some slot => some slot
  | none => b.table.dirtySlots.find? unpinned

/-- `BlockRef::drop`. -/
def dropRef (b : Bcache N) (slot : Fin N) : Except Panic (Bcache N) := do
  let table ← b.table.unpin slot
  pure { b with table := table }

end Bcache

end Qunix.BufferCache
