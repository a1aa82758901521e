/-
The buffer cache's bookkeeping (`crates/qunix-bcache/src/lib.rs`): which slot
holds which block, and whether that slot may be reused.

A slot is an index below the capacity `N`, so the bounds checks of the source's
arrays and the `Option` of its queries disappear into `Fin N`. A failed
assertion of a mutator is a `Panic`, and so is the overflow of a pin count,
which the development profile checks.
-/

import Mathlib.Data.List.FinRange
import Mathlib.Algebra.Group.Nat.Hom

namespace Qunix.BufferCache

open Function

structure BlockKey where
  dev : Nat
  block : Nat
deriving DecidableEq, Repr

inductive SlotState where
  | free
  | clean
  | dirty
  | inFlight
deriving DecidableEq, Repr

structure Slot where
  key : BlockKey
  state : SlotState
  pins : Nat
  dirtiedDuringIo : Bool
deriving DecidableEq, Repr

def Slot.empty : Slot := { key := ⟨0, 0⟩, state := .free, pins := 0, dirtiedDuringIo := false }

def Slot.reusable (s : Slot) : Bool :=
  (s.state == .free || s.state == .clean) && s.pins == 0

/-- The assertion that stopped the machine. -/
inductive Panic where
  /-- "a slot holding no block was dirtied" -/
  | dirtiedFree
  /-- "a slot that is free or already has io outstanding cannot begin another" -/
  | beganTwice
  /-- "ending io does not release a slot; `evict` does" -/
  | endedFree
  /-- "no io was outstanding against this slot" -/
  | noIo
  /-- "a slot holding no block was pinned" -/
  | pinnedFree
  | pinOverflow
  /-- "unpinned a slot that was not pinned" -/
  | notPinned
  /-- "both callers rule out residency under this same lock" -/
  | alreadyResident
  /-- "victim offered a slot evict refused" -/
  | victimRefused
  /-- "an abandoned fill left slot … unreleasable" -/
  | abandonedFillKept
  /-- "slot … was written to while it was being filled, so no reader ever saw it" -/
  | writtenWhileFilled
  /-- "a failed fill left a slot that could not be released" -/
  | failedFillKept
  /-- "slot … is dirty and being filled at once" -/
  | dirtyAndFilling
  /-- The prior state of a writeback's token is not `Dirty`. -/
  | priorNotDirty
  /-- "an unvalidated key reached the fill", or a writeback. -/
  | unvalidatedKey
  /-- `unwrap_err` of a read that succeeded. -/
  | unwrapErr
  /-- An I/O completed, or a reference was dropped, without a cache. -/
  | tornDown
deriving DecidableEq, Repr

inductive InsertError (N : Nat) where
  | alreadyResident (slot : Fin N)
  | full
deriving DecidableEq, Repr

/-- The right to end one I/O. -/
structure IoToken (N : Nat) where
  slot : Fin N
  prior : SlotState
deriving DecidableEq, Repr

inductive EvictError where
  | dirty
  | ioOutstanding
  | pinned
deriving DecidableEq, Repr

structure Cache (N : Nat) where
  slots : Fin N → Slot

namespace Cache

variable {N : Nat}

def new (N : Nat) : Cache N := ⟨fun _ => .empty⟩

/-- `slots.iter().position(p)`. -/
def position (c : Cache N) (p : Slot → Bool) : Option (Fin N) :=
  (List.finRange N).find? fun i => p (c.slots i)

def set (c : Cache N) (i : Fin N) (s : Slot) : Cache N := ⟨update c.slots i s⟩

def lookup (c : Cache N) (key : BlockKey) : Option (Fin N) :=
  c.position fun s => s.state != .free && s.key == key

def insert (c : Cache N) (key : BlockKey) : Except (InsertError N) (IoToken N × Cache N) :=
  match c.lookup key with
  | some slot => .error (.alreadyResident slot)
  | none =>
    match c.position (·.state == .free) with
    | none => .error .full
    | some index =>
      .ok (⟨index, .free⟩,
        c.set index { key := key, state := .inFlight, pins := 0, dirtiedDuringIo := false })

def keyOf (c : Cache N) (slot : Fin N) : Option BlockKey :=
  if (c.slots slot).state ≠ .free then some (c.slots slot).key else none

def stateOf (c : Cache N) (slot : Fin N) : SlotState := (c.slots slot).state

def pinsOf (c : Cache N) (slot : Fin N) : Nat := (c.slots slot).pins

def markDirty (c : Cache N) (slot : Fin N) : Except Panic (Cache N) :=
  let entry := c.slots slot
  match entry.state with
  | .free => .error .dirtiedFree
  | .inFlight => .ok (c.set slot { entry with dirtiedDuringIo := true })
  | .clean | .dirty => .ok (c.set slot { entry with state := .dirty })

def beginIo (c : Cache N) (slot : Fin N) : Except Panic (IoToken N × Cache N) :=
  let entry := c.slots slot
  match entry.state with
  | .free | .inFlight => .error .beganTwice
  | .clean | .dirty => .ok (⟨slot, entry.state⟩, c.set slot { entry with state := .inFlight })

def endIo (c : Cache N) (token : IoToken N) (state : SlotState) : Except Panic (Cache N) :=
  let entry := c.slots token.slot
  if state = .free then .error .endedFree
  else if entry.state ≠ .inFlight then .error .noIo
  else
    .ok (c.set token.slot { entry with
      dirtiedDuringIo := false
      state := if entry.dirtiedDuringIo then .dirty else state })

def pin (c : Cache N) (slot : Fin N) : Except Panic (Cache N) :=
  let entry := c.slots slot
  if entry.state = .free then .error .pinnedFree
  else if entry.pins + 1 < 2 ^ 32 then .ok (c.set slot { entry with pins := entry.pins + 1 })
  else .error .pinOverflow

def unpin (c : Cache N) (slot : Fin N) : Except Panic (Cache N) :=
  let entry := c.slots slot
  if 0 < entry.pins then .ok (c.set slot { entry with pins := entry.pins - 1 })
  else .error .notPinned

def victim (c : Cache N) : Option (Fin N) :=
  match c.position (·.state == .free) with
  | some free => some free
  | none => c.position Slot.reusable

def evict (c : Cache N) (slot : Fin N) : Except EvictError (Cache N) :=
  let entry := c.slots slot
  if entry.pins ≠ 0 then .error .pinned
  else
    match entry.state with
    | .dirty => .error .dirty
    | .inFlight => .error .ioOutstanding
    | .free | .clean => .ok (c.set slot .empty)

def dirtySlots (c : Cache N) : List (Fin N) :=
  (List.finRange N).filter fun i => (c.slots i).state == .dirty

/-! ### What the queries answer -/

variable {c : Cache N} {p : Slot → Bool} {i : Fin N} {key : BlockKey}

theorem position_eq_some (h : c.position p = some i) : p (c.slots i) = true := by
  simpa using List.find?_some h

theorem position_eq_none (h : c.position p = none) (i : Fin N) : p (c.slots i) = false := by
  simpa using List.find?_eq_none.mp h i (List.mem_finRange i)

theorem lookup_eq_some (h : c.lookup key = some i) :
    (c.slots i).state ≠ .free ∧ (c.slots i).key = key := by
  simpa using position_eq_some h

theorem lookup_eq_none (h : c.lookup key = none) (i : Fin N) (hi : (c.slots i).state ≠ .free) :
    (c.slots i).key ≠ key := by
  have := position_eq_none h i
  simp_all

@[simp] theorem set_slots_self (c : Cache N) (i : Fin N) (s : Slot) : (c.set i s).slots i = s :=
  update_self ..

/-! ### What the mutators did, when they did not panic -/

variable {c' : Cache N} {token : IoToken N} {state : SlotState}

/-- A block is inserted only when it is absent, into a free slot. -/
theorem insert_eq_ok (h : c.insert key = .ok (token, c')) :
    c.lookup key = none ∧ (c.slots token.slot).state = .free ∧
      c' = c.set token.slot
        { key := key, state := .inFlight, pins := 0, dirtiedDuringIo := false } := by
  unfold insert at h
  split at h
  · cases h
  · rename_i hn
    split at h
    · cases h
    · rename_i index hf
      cases h
      exact ⟨hn, by simpa using position_eq_some hf, rfl⟩

theorem markDirty_eq_ok (h : c.markDirty i = .ok c') (hio : (c.slots i).state ≠ .inFlight) :
    c' = c.set i { c.slots i with state := .dirty } := by
  simp only [markDirty] at h
  split at h
  · cases h
  · exact absurd ‹_› hio
  all_goals exact (Except.ok.inj h).symm

theorem beginIo_eq_ok (h : c.beginIo i = .ok (token, c')) :
    token = ⟨i, (c.slots i).state⟩ ∧ c' = c.set i { c.slots i with state := .inFlight } := by
  simp only [beginIo] at h
  split at h
  · cases h
  · cases h
  all_goals
    cases h
    exact ⟨rfl, rfl⟩

/-- Outside a concurrent write, the slot takes the state the caller names. -/
theorem endIo_eq_ok (h : c.endIo token state = .ok c')
    (hq : (c.slots token.slot).dirtiedDuringIo = false) :
    (c.slots token.slot).state = .inFlight ∧
      c' = c.set token.slot { c.slots token.slot with state := state } := by
  simp only [endIo, hq] at h
  split at h
  · cases h
  · split at h
    · cases h
    · rename_i hio
      refine ⟨not_not.mp hio, ?_⟩
      rw [← Except.ok.inj h]
      simp [hq]

theorem pin_eq_ok (h : c.pin i = .ok c') :
    c' = c.set i { c.slots i with pins := (c.slots i).pins + 1 } := by
  simp only [pin] at h
  split at h
  · cases h
  · split_ifs at h
    exact (Except.ok.inj h).symm

theorem unpin_eq_ok (h : c.unpin i = .ok c') :
    c' = c.set i { c.slots i with pins := (c.slots i).pins - 1 } := by
  simp only [unpin] at h
  split_ifs at h
  exact (Except.ok.inj h).symm

/-- Eviction succeeds only on an unpinned slot that is free or clean. -/
theorem evict_eq_ok (h : c.evict i = .ok c') :
    (c.slots i).reusable = true ∧ c' = c.set i .empty := by
  simp only [evict] at h
  split_ifs at h with hp
  split at h
  · cases h
  · cases h
  all_goals
    simp_all [Slot.reusable]

end Cache

end Qunix.BufferCache
