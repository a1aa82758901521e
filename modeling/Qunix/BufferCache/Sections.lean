/-
What each lock section does to the cache.

Every section changes at most one slot, after it may have emptied another one
to make room. `Becomes` says what the changed slot holds afterwards; the flags
of failed writebacks are left open, since nothing but the choice of a slot to
flush reads them.
-/

import Qunix.BufferCache.Kernel
import Qunix.Lib.Run

namespace Qunix.BufferCache

open Function Qunix.Lib

variable {N : Nat}

/-- From `b` to `b'` slot `i` came to hold the given record, bytes and flag, and
the other slots kept theirs. -/
structure Bcache.Becomes (b : Bcache N) (i : Fin N) (slot : Slot) (frame : Bytes)
    (filling : Bool) (b' : Bcache N) : Prop where
  slots : b'.table.slots = update b.table.slots i slot
  frames : b'.frames = update b.frames i frame
  filling : b'.filling = update b.filling i filling

/-- `b'` is `b`, or `b` with one reusable slot emptied. -/
def Bcache.Freed (b b' : Bcache N) : Prop :=
  b' = b ∨ ∃ v, (b.table.slots v).reusable = true ∧
    b.Becomes v .empty (b.frames v) (b.filling v) b'

namespace Bcache

variable {b b' : Bcache N} {key : BlockKey} {slot : Fin N} {token : IoToken N} {data : Bytes}

/-- The record `insert` puts into a free slot. -/
abbrev claimed (key : BlockKey) : Slot :=
  { key := key, state := .inFlight, pins := 0, dirtiedDuringIo := false }

theorem becomes_set (b : Bcache N) (i : Fin N) (s : Slot) (failed : Fin N → Bool) :
    b.Becomes i s (b.frames i) (b.filling i)
      { b with table := b.table.set i s, writebackFailed := failed } where
  slots := rfl
  frames := (update_eq_self i b.frames).symm
  filling := (update_eq_self i b.filling).symm

theorem becomes_frame (b : Bcache N) (i : Fin N) (bytes : Bytes) :
    b.Becomes i (b.table.slots i) bytes (b.filling i)
      { b with frames := update b.frames i bytes } where
  slots := (update_eq_self i b.table.slots).symm
  frames := rfl
  filling := (update_eq_self i b.filling).symm

/-- A slot is claimed in a table where the block is absent, perhaps after a
reusable slot was emptied; or there is no such slot. -/
theorem claimFreeSlot_eq_ok {r : Except BcacheError (IoToken N)}
    (h : b.claimFreeSlot key = .ok (r, b')) :
    ((∃ e, r = .error e) ∧ b.Freed b') ∨
      ∃ token b₁, r = .ok token ∧ b.Freed b₁ ∧ b₁.table.lookup key = none ∧
        (b₁.table.slots token.slot).state = .free ∧
        b' = { b₁ with table := b₁.table.set token.slot (claimed key) } := by
  unfold claimFreeSlot at h
  split at h
  · rename_i token table hi
    cases h
    obtain ⟨ha, hf, rfl⟩ := Cache.insert_eq_ok hi
    exact .inr ⟨token, b, rfl, .inl rfl, ha, hf, rfl⟩
  · cases h
  · split at h
    · cases h
      exact .inl ⟨⟨_, rfl⟩, .inl rfl⟩
    · rename_i victim _
      split at h
      · cases h
      · rename_i table he
        obtain ⟨hr, rfl⟩ := Cache.evict_eq_ok he
        have hfr : b.Freed _ :=
          .inr ⟨victim, hr, b.becomes_set victim .empty (update b.writebackFailed victim false)⟩
        simp only at h
        split at h
        · rename_i token table hi
          cases h
          obtain ⟨ha, hf, rfl⟩ := Cache.insert_eq_ok hi
          exact .inr ⟨token, _, rfl, hfr, ha, hf, rfl⟩
        · cases h
          exact .inl ⟨⟨_, rfl⟩, hfr⟩

/-- A reader is refused, told to wait, handed a resident slot, or given a slot
to fill. -/
theorem claim_eq_ok {r : Except BcacheError (Claim N)} (h : b.claim key = .ok (r, b')) :
    ((∃ e, r = .error e) ∧ b.Freed b') ∨ (r = .ok .wait ∧ b' = b) ∨
      (∃ slot, r = .ok (.hit slot) ∧ b.table.lookup key = some slot ∧
        ¬ ((b.table.slots slot).state = .inFlight ∧ b.filling slot = true) ∧
        b.Becomes slot { b.table.slots slot with pins := (b.table.slots slot).pins + 1 }
          (b.frames slot) (b.filling slot) b') ∨
      ∃ token b₁, r = .ok (.fill token) ∧ b.Freed b₁ ∧ b₁.table.lookup key = none ∧
        (b₁.table.slots token.slot).state = .free ∧
        b₁.Becomes token.slot (claimed key) (b₁.frames token.slot) true b' := by
  unfold claim at h
  split at h
  · rename_i slot hl
    split_ifs at h with hr
    · cases h
      exact .inr (.inl ⟨rfl, rfl⟩)
    · obtain ⟨table, hpin, h⟩ := bind_eq_ok h
      cases h
      rw [Cache.pin_eq_ok hpin]
      exact .inr (.inr (.inl ⟨slot, rfl, hl, hr, b.becomes_set slot _ _⟩))
  · obtain ⟨⟨r₁, b₁⟩, hc, h⟩ := bind_eq_ok h
    rcases claimFreeSlot_eq_ok hc with ⟨⟨e, rfl⟩, hf⟩ |
      ⟨token, b₂, rfl, hf, ha, hfr, rfl⟩
    · cases h
      exact .inl ⟨⟨e, rfl⟩, hf⟩
    · cases h
      exact .inr (.inr (.inr ⟨token, b₂, rfl, hf, ha, hfr,
        rfl, (update_eq_self _ b₂.frames).symm, rfl⟩))

section Guards

variable (hquiet : (b.table.slots token.slot).dirtiedDuringIo = false)

include hquiet

/-- A read that succeeded leaves a clean slot with one more reference. -/
theorem finishFill_ok {r : Option (Fin N)} (h : b.finishFill token true = .ok (r, b')) :
    r = some token.slot ∧
      b.Becomes token.slot
        { b.table.slots token.slot with
          state := .clean
          pins := (b.table.slots token.slot).pins + 1 }
        (b.frames token.slot) false b' := by
  obtain ⟨table, hend, h⟩ := bind_eq_ok h
  obtain ⟨-, rfl⟩ := Cache.endIo_eq_ok hend hquiet
  obtain ⟨table, hpin, h⟩ := bind_eq_ok h
  cases h
  rw [Cache.pin_eq_ok hpin, Cache.set_slots_self]
  refine ⟨rfl, ?_, (update_eq_self _ b.frames).symm, rfl⟩
  exact update_idem ..

theorem finishFill_error {r : Option (Fin N)} (h : b.finishFill token false = .ok (r, b')) :
    r = none ∧ b.Becomes token.slot .empty (b.frames token.slot) false b' := by
  obtain ⟨table, hend, h⟩ := bind_eq_ok h
  obtain ⟨-, rfl⟩ := Cache.endIo_eq_ok hend hquiet
  simp only [Bool.not_false, if_true] at h
  split_ifs at h
  split at h
  · cases h
  · rename_i table he
    cases h
    obtain ⟨-, rfl⟩ := Cache.evict_eq_ok he
    exact ⟨rfl, update_idem .., (update_eq_self _ b.frames).symm, rfl⟩

theorem dropFill_eq_ok (h : b.dropFill token = .ok b') :
    b.Becomes token.slot .empty (b.frames token.slot) false b' := by
  obtain ⟨table, hend, h⟩ := bind_eq_ok h
  obtain ⟨-, rfl⟩ := Cache.endIo_eq_ok hend hquiet
  split at h
  · cases h
  · rename_i table he
    cases h
    obtain ⟨-, rfl⟩ := Cache.evict_eq_ok he
    exact ⟨update_idem .., (update_eq_self _ b.frames).symm, rfl⟩

theorem finishWriteback_eq_ok {ok : Bool} (h : b.finishWriteback token ok = .ok b') :
    b.Becomes token.slot
      { b.table.slots token.slot with state := if ok then .clean else .dirty }
      (b.frames token.slot) (b.filling token.slot) b' := by
  obtain ⟨table, hend, h⟩ := bind_eq_ok h
  obtain ⟨-, rfl⟩ := Cache.endIo_eq_ok hend hquiet
  cases h
  exact b.becomes_set token.slot _ _

theorem dropWriteback_eq_ok (h : b.dropWriteback token = .ok b') :
    b.Becomes token.slot { b.table.slots token.slot with state := .dirty }
      (b.frames token.slot) (b.filling token.slot) b' := by
  obtain ⟨table, hend, h⟩ := bind_eq_ok h
  obtain ⟨-, rfl⟩ := Cache.endIo_eq_ok hend hquiet
  cases h
  exact b.becomes_set token.slot _ _

end Guards

theorem copyIn_eq_ok (h : b.copyIn slot data = .ok b')
    (hio : (b.table.slots slot).state ≠ .inFlight) :
    b.Becomes slot { b.table.slots slot with state := .dirty } data (b.filling slot) b' := by
  obtain ⟨table, hd, h⟩ := bind_eq_ok h
  cases h
  rw [Cache.markDirty_eq_ok hd hio]
  exact ⟨rfl, rfl, (update_eq_self _ b.filling).symm⟩

/-- A write is refused, blocked, or goes into the block's own unread slot, or
into a slot claimed for it. -/
theorem store_eq_ok {r : Except BcacheError (Except Blocked Unit)}
    (h : b.store key data = .ok (r, b')) :
    ((∃ e, r = .error e) ∧ b.Freed b') ∨ ((∃ why, r = .ok (.error why)) ∧ b' = b) ∨
      (r = .ok (.ok ()) ∧ ∃ slot, b.table.lookup key = some slot ∧
        (b.table.slots slot).state ≠ .inFlight ∧ (b.table.slots slot).pins = 0 ∧
        b.Becomes slot { b.table.slots slot with state := .dirty } data (b.filling slot) b') ∨
      (r = .ok (.ok ()) ∧ ∃ slot b₁, b.Freed b₁ ∧ b₁.table.lookup key = none ∧
        (b₁.table.slots slot).state = .free ∧
        b₁.Becomes slot { claimed key with state := .dirty } data (b₁.filling slot) b') := by
  unfold store at h
  split at h
  · rename_i slot hl
    split at h
    · cases h
      exact .inr (.inl ⟨⟨_, rfl⟩, rfl⟩)
    · rename_i hio
      split at h
      · cases h
        exact .inr (.inl ⟨⟨_, rfl⟩, rfl⟩)
      · rename_i hp
        obtain ⟨b₁, hco, h⟩ := bind_eq_ok h
        cases h
        exact .inr (.inr (.inl ⟨rfl, slot, hl, hio, not_not.mp hp, copyIn_eq_ok hco hio⟩))
  · obtain ⟨⟨r₁, b₁⟩, hcl, h⟩ := bind_eq_ok h
    rcases claimFreeSlot_eq_ok hcl with ⟨⟨e, rfl⟩, hf⟩ |
      ⟨token, b₂, rfl, hf, ha, hfr, rfl⟩
    · cases h
      exact .inl ⟨⟨e, rfl⟩, hf⟩
    · obtain ⟨table, hend, h⟩ := bind_eq_ok h
      obtain ⟨b₃, hco, h⟩ := bind_eq_ok h
      cases h
      obtain ⟨-, rfl⟩ := Cache.endIo_eq_ok hend (by simp)
      have hc := copyIn_eq_ok hco (by simp)
      refine .inr (.inr (.inr ⟨rfl, token.slot, b₂, hf, ha, hfr, ?_, hc.frames,
        hc.filling⟩))
      rw [hc.slots]
      simp [Cache.set]

theorem beginWriteback_eq_ok {r : Option (Writeback N)}
    (h : b.beginWriteback slot = .ok (r, b')) :
    (r = none ∧ b' = b) ∨ ((b.table.slots slot).state = .dirty ∧
      r = some ⟨⟨slot, .dirty⟩, (b.table.slots slot).key⟩ ∧
      b.Becomes slot { b.table.slots slot with state := .inFlight } (b.frames slot)
        (b.filling slot) b') := by
  unfold beginWriteback at h
  split at h
  · cases h
    exact .inl ⟨rfl, rfl⟩
  · rename_i hd
    have hd : (b.table.slots slot).state = .dirty := not_not.mp hd
    simp only [Cache.keyOf, hd, ne_eq, reduceCtorEq, not_false_eq_true, if_true] at h
    split at h
    · cases h
    · obtain ⟨⟨token, table⟩, hb, h⟩ := bind_eq_ok h
      obtain ⟨rfl, rfl⟩ := Cache.beginIo_eq_ok hb
      simp only [hd] at h
      cases h
      exact .inr ⟨hd, rfl, b.becomes_set slot _ _⟩

theorem dropRef_eq_ok (h : b.dropRef slot = .ok b') :
    b.Becomes slot { b.table.slots slot with pins := (b.table.slots slot).pins - 1 }
      (b.frames slot) (b.filling slot) b' := by
  obtain ⟨table, hu, h⟩ := bind_eq_ok h
  cases h
  rw [Cache.unpin_eq_ok hu]
  exact b.becomes_set slot _ _

end Bcache

end Qunix.BufferCache
