/-
The driver's half of a split virtqueue (`crates/qunix-virtio/src/queue.rs`).

The tables are functions of an index; every access to one checks the index
against the queue's size first, as the source's `Vec`s do, and a failed check is
a `Panic`. So are the failed assertion of `alloc_chain` and an overflow of the
count of free descriptors. Of a descriptor's flag word only `NEXT` and `WRITE`
are ever set.
-/

import Mathlib.Algebra.Group.Nat.Hom

namespace Qunix.Virtio

open Function

/-- "no descriptor" -/
def nil : Nat := 65535

inductive Panic where
  | outOfBounds
  /-- "the free list ran out with … descriptors counted" -/
  | freeListRanOut
  | overflow
  /-- "a three-chain has a second descriptor" -/
  | noSecond
  /-- "a three-chain has a third descriptor" -/
  | noThird
deriving DecidableEq, Repr

structure Flags where
  next : Bool
  write : Bool
deriving DecidableEq, Repr

structure Descriptor where
  addr : Nat
  len : Nat
  flags : Flags
  next : Nat
deriving DecidableEq, Repr

def Descriptor.default : Descriptor := { addr := 0, len := 0, flags := ⟨false, false⟩, next := 0 }

namespace Descriptor

/-- `flags |= DESC_F_NEXT` and the index of the next descriptor. -/
def leadTo (idx : Nat) (d : Descriptor) : Descriptor :=
  { d with flags := { d.flags with next := true }, next := idx }

/-- `flags &= !DESC_F_NEXT`, and no index. -/
def terminate (d : Descriptor) : Descriptor :=
  { d with flags := { d.flags with next := false }, next := 0 }

end Descriptor

/-- An entry of the used ring, as the device writes it. -/
structure UsedElem where
  id : Nat
  len : Nat
deriving DecidableEq, Repr

/-- `u32::from_le_bytes` -/
def le32 (b₀ b₁ b₂ b₃ : UInt8) : Nat :=
  b₀.toNat + 2 ^ 8 * b₁.toNat + 2 ^ 16 * b₂.toNat + 2 ^ 24 * b₃.toNat

def UsedElem.ofBytes (bytes : Fin 8 → UInt8) : UsedElem where
  id := le32 (bytes 0) (bytes 1) (bytes 2) (bytes 3)
  len := le32 (bytes 4) (bytes 5) (bytes 6) (bytes 7)

structure SplitQueue where
  size : Nat
  desc : Nat → Descriptor
  freeHead : Nat
  free : Nat
  inFlight : Nat → Bool
  availIdx : Nat
  availRing : Nat → Nat
  usedRing : Nat → UsedElem

namespace SplitQueue

/-- `SplitQueue::new` of a size that is a power of two. -/
def new (size : Nat) : SplitQueue where
  size := size
  desc := fun i => { Descriptor.default with next := if i + 1 < size then i + 1 else nil }
  freeHead := 0
  free := size
  inFlight := fun _ => false
  availIdx := 0
  availRing := fun _ => 0
  usedRing := fun _ => ⟨0, 0⟩

/-- `desc[idx]` -/
def read (q : SplitQueue) (idx : Nat) : Except Panic Descriptor :=
  if idx < q.size then .ok (q.desc idx) else .error .outOfBounds

/-- A store to `desc[idx]`. -/
def modify (q : SplitQueue) (idx : Nat) (f : Descriptor → Descriptor) : Except Panic SplitQueue :=
  if idx < q.size then .ok { q with desc := update q.desc idx (f (q.desc idx)) }
  else .error .outOfBounds

/-! ### Chains -/

/-- The loop of `alloc_chain`, with the descriptor taken last; `nil` at first. -/
def allocLoop : Nat → SplitQueue → Nat → Except Panic (Nat × SplitQueue)
  | 0, q, prev => .ok (prev, q)
  | n + 1, q, prev =>
    let idx := q.freeHead
    if idx = nil then .error .freeListRanOut
    else do
      let d ← q.read idx
      if q.free = 0 then throw .overflow
      let q := { q with freeHead := d.next, free := q.free - 1 }
      let q ← if prev ≠ nil then q.modify prev (·.leadTo idx) else pure q
      allocLoop n q idx

def allocChain (q : SplitQueue) (n : Nat) : Except Panic (Option Nat × SplitQueue) :=
  if n = 0 ∨ q.free < n then .ok (none, q)
  else do
    let head := q.freeHead
    let (last, q) ← allocLoop n q nil
    let q ← q.modify last Descriptor.terminate
    pure (some head, q)

def freeLoop : Nat → SplitQueue → Nat → Except Panic SplitQueue
  | 0, q, _ => .ok q
  | n + 1, q, idx => do
    let d ← q.read idx
    let q ← q.modify idx fun _ => { Descriptor.default with next := q.freeHead }
    if 2 ^ 16 ≤ q.free + 1 then throw .overflow
    let q := { q with freeHead := idx, free := q.free + 1 }
    if d.flags.next then freeLoop n q d.next else pure q

def freeChain (q : SplitQueue) (head : Nat) : Except Panic SplitQueue := do
  let q ← freeLoop q.size q head
  if head < q.size then pure { q with inFlight := update q.inFlight head false }
  else throw .outOfBounds

def describe (q : SplitQueue) (idx addr len : Nat) (deviceWritable : Bool) :
    Except Panic SplitQueue :=
  q.modify idx fun d =>
    { d with addr := addr, len := len, flags := ⟨d.flags.next, deviceWritable⟩ }

def nextInChain (q : SplitQueue) (idx : Nat) : Except Panic (Option Nat) := do
  let d ← q.read idx
  pure (if d.flags.next then some d.next else none)

/-! ### The rings -/

def publish (q : SplitQueue) (head : Nat) : Except Panic SplitQueue :=
  if head < q.size then
    .ok { q with
      inFlight := update q.inFlight head true
      availRing := update q.availRing (q.availIdx % q.size) head
      availIdx := (q.availIdx + 1) % 2 ^ 16 }
  else .error .outOfBounds

def ingestUsedSlot (q : SplitQueue) (slot : Nat) (bytes : Fin 8 → UInt8) : Bool × SplitQueue :=
  if slot < q.size then (true, { q with usedRing := update q.usedRing slot (.ofBytes bytes) })
  else (false, q)

def takeUsed (q : SplitQueue) (slot : Nat) : Option (Nat × Nat) × SplitQueue :=
  let elem := q.usedRing (slot % q.size)
  if q.size ≤ elem.id then (none, q)
  else if !q.inFlight elem.id then (none, q)
  else (some (elem.id, elem.len), { q with inFlight := update q.inFlight elem.id false })

end SplitQueue

end Qunix.Virtio
