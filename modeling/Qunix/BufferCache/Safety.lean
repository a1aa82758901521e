/-
The assertions of the buffer cache never fire.

Each section of a coherent cache succeeds: a slot with a guard has its I/O
outstanding, a slot that is being filled has no reader and nothing written into
it, and a slot that `victim` offers is one `evict` takes. What is left is the
count of a slot's references, which `pin` may overflow. That a guard is resolved
twice, and a token taken twice, cannot be said here: a task holds its token until
its section ends.
-/

import Qunix.BufferCache.Coherence

namespace Qunix.BufferCache

open Function Qunix.Lib

variable {N : Nat}

/-! ### The table -/

namespace Cache

variable {c : Cache N} {i : Fin N} {token : IoToken N} {why : Panic} {key : BlockKey}

theorem evict_of_reusable (h : (c.slots i).reusable = true) : c.evict i = .ok (c.set i .empty) := by
  obtain ⟨hs, hp⟩ : ((c.slots i).state = .free ∨ (c.slots i).state = .clean) ∧
      (c.slots i).pins = 0 := by simpa [Slot.reusable] using h
  unfold evict
  rcases hs with hs | hs
  · simp [hp, hs]
  · simp [hp, hs]

/-- `victim` offers what `evict` takes, if a free slot has no readers. -/
theorem reusable_of_victim (hu : ∀ j, (c.slots j).state = .free → (c.slots j).pins = 0)
    (h : c.victim = some i) : (c.slots i).reusable = true := by
  unfold victim at h
  split at h
  · rename_i free hf
    obtain rfl := Option.some.inj h
    have hf : (c.slots free).state = .free := by simpa using position_eq_some hf
    simp [Slot.reusable, hf, hu free hf]
  · exact position_eq_some h

theorem endIo_of_inFlight (state : SlotState) (hio : (c.slots token.slot).state = .inFlight)
    (hq : (c.slots token.slot).dirtiedDuringIo = false) (hs : state ≠ .free) :
    c.endIo token state = .ok (c.set token.slot { c.slots token.slot with state := state }) := by
  simp [endIo, hs, hio, hq]

/-- A slot that holds a block is pinned, unless its count overflows. -/
theorem pin_eq_error (h : c.pin i = .error why) (hi : (c.slots i).state ≠ .free) :
    why = .pinOverflow := by
  simp only [pin, hi, if_false] at h
  split_ifs at h
  exact (Except.error.inj h).symm

theorem insert_of_absent (ha : c.lookup key = none) :
    c.insert key = .error .full ∨ ∃ p, c.insert key = .ok p := by
  unfold insert
  rw [ha]
  simp only
  split
  · exact .inl rfl
  · exact .inr ⟨_, rfl⟩

end Cache

/-! ### The sections -/

/-- The bind of a section: both parts succeed. -/
theorem exists_bind_eq_ok {α β : Type} {x : Except Panic α} {f : α → Except Panic β}
    (hx : ∃ a, x = .ok a) (hf : ∀ a, x = .ok a → ∃ y, f a = .ok y) : ∃ y, x >>= f = .ok y := by
  obtain ⟨a, rfl⟩ := hx
  exact hf a rfl

namespace Bcache

variable {b : Bcache N} {i : Fin N} {token : IoToken N} {data : Bytes}

/-- A fill is abandoned while its slot is in flight, unread and not written to. -/
theorem dropFill_ok (hio : (b.table.slots token.slot).state = .inFlight)
    (hp : (b.table.slots token.slot).pins = 0)
    (hq : (b.table.slots token.slot).dirtiedDuringIo = false) :
    ∃ b', b.dropFill token = .ok b' := by
  have hend := Cache.endIo_of_inFlight .clean hio hq nofun
  unfold Bcache.dropFill
  simp [hend, bind, Except.bind, Cache.evict, hp, pure, Except.pure]

theorem copyIn_ok (hi : (b.table.slots i).state ≠ .free) : ∃ b', b.copyIn i data = .ok b' := by
  refine exists_bind_eq_ok ?_ fun _ _ => ⟨_, rfl⟩
  unfold Cache.markDirty
  cases hs : (b.table.slots i).state with
  | free => exact absurd hs hi
  | _ => simp [hs]

end Bcache

namespace Coherent

variable {b : Bcache N} {device : Nat → Bytes} {last : BlockKey → Option Bytes}
  {hold : Nat → Option (Hold N)} {refs : List (BlockRef N)} {i : Fin N} {key : BlockKey} {t : Nat}
  {token : IoToken N} {why : Panic} {data : Bytes}

variable (h : Coherent b device last hold refs)

include h

theorem evict_victim (hv : b.table.victim = some i) :
    b.table.evict i = .ok (b.table.set i .empty) :=
  Cache.evict_of_reusable (Cache.reusable_of_victim (fun j => (h.sound j).unread) hv)

theorem claimFreeSlot_ok
    (ha : b.table.lookup key = none) : ∃ p, b.claimFreeSlot key = .ok p := by
  unfold Bcache.claimFreeSlot
  rcases Cache.insert_of_absent ha with hf | ⟨p, hi⟩
  · rw [hf]
    cases hv : b.table.victim with
    | none => exact ⟨_, rfl⟩
    | some v =>
      simp only [h.evict_victim hv]
      split <;> exact ⟨_, rfl⟩
  · rw [hi]
    exact ⟨_, rfl⟩

theorem claim_error (he : b.claim key = .error why) :
    why = .pinOverflow := by
  unfold Bcache.claim at he
  split at he
  · rename_i slot hf
    split_ifs at he
    cases hpin : b.table.pin slot with
    | ok table => simp [hpin, bind, Except.bind, pure, Except.pure] at he
    | error e =>
      simp only [hpin, bind] at he
      obtain rfl := Except.error.inj he
      exact Cache.pin_eq_error hpin (Cache.lookup_eq_some hf).1
  · rename_i ha
    obtain ⟨⟨r, b₁⟩, hc⟩ := h.claimFreeSlot_ok ha
    simp only [hc, bind, Except.bind] at he
    split at he <;> cases he

/-- The end of a read finds its slot in flight, unread and not written to. -/
theorem finishFill_ok
    (hl : b.line token.slot = .pending key) (ok : Bool) :
    ∃ p, b.finishFill token ok = .ok p := by
  obtain ⟨hs, -, -, hp, -⟩ := h.filling_of_pending hl
  have hend := Cache.endIo_of_inFlight .clean hs (h.sound token.slot).quiet nofun
  unfold Bcache.finishFill
  simp only [hend, bind, Except.bind]
  cases ok with
  | true => simp [Cache.pin, hp, pure, Except.pure]
  | false =>
    simp [Cache.stateOf, Cache.evict, hp, pure, Except.pure]

theorem store_ok (key : BlockKey) (data : Bytes) :
    ∃ p, b.store key data = .ok p := by
  unfold Bcache.store
  split
  · rename_i slot hf
    split
    · exact ⟨_, rfl⟩
    · split
      · exact ⟨_, rfl⟩
      · refine exists_bind_eq_ok ?_ fun _ _ => ⟨_, rfl⟩
        exact Bcache.copyIn_ok (Cache.lookup_eq_some hf).1
  · rename_i ha
    refine exists_bind_eq_ok (h.claimFreeSlot_ok ha) fun p hc => ?_
    obtain ⟨r, b'⟩ := p
    rcases Bcache.claimFreeSlot_eq_ok hc with ⟨⟨e, rfl⟩, -⟩ | ⟨token, b₁, rfl, -, -, -, rfl⟩
    · exact ⟨_, rfl⟩
    · have hend : (b₁.table.set token.slot (Bcache.claimed key)).endIo token .clean = _ :=
        Cache.endIo_of_inFlight .clean (by simp) (by simp) nofun
      refine exists_bind_eq_ok ⟨_, hend⟩ fun table ht => ?_
      obtain rfl := Except.ok.inj (hend.symm.trans ht)
      exact exists_bind_eq_ok (Bcache.copyIn_ok (by simp)) fun _ _ => ⟨_, rfl⟩

theorem beginWriteback_ok (i : Fin N) :
    ∃ p, b.beginWriteback i = .ok p := by
  unfold Bcache.beginWriteback
  split
  · exact ⟨_, rfl⟩
  · rename_i hd
    have hd : (b.table.slots i).state = .dirty := not_not.mp hd
    have hf := h.not_filling (i := i) (by simp [hd])
    simp [Cache.keyOf, Cache.beginIo, hd, hf, bind, Except.bind, pure, Except.pure]

theorem finishWriteback_ok
    (hio : (b.table.slots token.slot).state = .inFlight) (ok : Bool) :
    ∃ b', b.finishWriteback token ok = .ok b' := by
  have hend := Cache.endIo_of_inFlight (if ok then .clean else .dirty) hio
    (h.sound token.slot).quiet (by cases ok <;> simp)
  exact exists_bind_eq_ok ⟨_, hend⟩ fun _ _ => ⟨_, rfl⟩

theorem dropWriteback_ok
    (hio : (b.table.slots token.slot).state = .inFlight) :
    ∃ b', b.dropWriteback token = .ok b' := by
  have hend := Cache.endIo_of_inFlight .dirty hio (h.sound token.slot).quiet nofun
  exact exists_bind_eq_ok ⟨_, hend⟩ fun _ _ => ⟨_, rfl⟩

theorem dropRef_ok {r : BlockRef N} (hr : r ∈ refs) :
    ∃ b', b.dropRef r.slot = .ok b' := by
  have hpos : 0 < (b.table.slots r.slot).pins := by
    rw [h.pins.count]
    exact List.countP_pos_iff.mpr ⟨r, hr, by simp⟩
  refine exists_bind_eq_ok ?_ fun _ _ => ⟨_, rfl⟩
  simp [Cache.unpin, hpos]

end Coherent

/-! ### Runs -/

/-- A step stops the machine only where a count overflows. -/
def Spares (s s' : Sys N) : Prop :=
  s'.panicked = s.panicked ∨ s'.panicked = some .pinOverflow

namespace Inv

variable {s s' : Sys N} {a : Act N} {t : Nat}

theorem spares_claim (h : Inv s) (t : Nat) (c : ReadCall) : Spares s (s.claim t c) := by
  unfold Sys.claim
  split
  · exact .inl rfl
  · rename_i b hc
    split
    · rename_i why he
      exact .inr (congrArg some ((h.ready b hc).claim_error he))
    · simp only
      split <;> exact .inl rfl
    · exact .inl rfl
    · exact .inl rfl
    · exact .inl rfl
    · simp only [lbaOf, c.valid.2]
      exact .inl rfl

variable {outcome : Except BlockError Unit} {f : Flusher N} {w : Writeback N}

section

variable (h : Inv s)

include h

theorem spares_finishFill {c : ReadCall} {token : IoToken N}
    (ht : s.tasks t = .filled c token outcome) :
    Spares s (s.finishFill t c token outcome) := by
  obtain ⟨b, hc⟩ := h.holds (congrArg Task.hold ht)
  obtain ⟨⟨r, b'⟩, hfin⟩ := (h.ready b hc).finishFill_ok (h.line_of_filled hc ht)
    outcome.toBool
  cases outcome with
  | ok u =>
    obtain ⟨rfl, -⟩ := Bcache.finishFill_ok (h.quiet_of_cache hc _) hfin
    simp only [Sys.finishFill, hc, hfin]
    exact .inl rfl
  | error e =>
    obtain ⟨rfl, -⟩ := Bcache.finishFill_error (h.quiet_of_cache hc _) hfin
    simp only [Sys.finishFill, hc, hfin]
    exact .inl rfl

theorem spares_store (t : Nat) (c : WriteCall) : Spares s (s.store t c) := by
  unfold Sys.store
  split
  · exact .inl rfl
  · rename_i b hc
    obtain ⟨p, hs⟩ := (h.ready b hc).store_ok c.key c.data
    split
    · rename_i he
      exact nomatch hs.symm.trans he
    · simp only
      split <;> exact .inl rfl
    · exact .inl rfl
    · exact .inl rfl
    · exact .inl rfl

theorem spares_beginWriteback (t : Nat) (f : Flusher N) (slot : Fin N) :
    Spares s (s.beginWriteback t f slot) := by
  unfold Sys.beginWriteback
  split
  · cases f <;> exact .inl rfl
  · rename_i b hc
    obtain ⟨p, hb⟩ := (h.ready b hc).beginWriteback_ok slot
    split
    · rename_i he
      exact nomatch hb.symm.trans he
    · cases f <;> exact .inl rfl
    · exact .inl rfl

/-- The key of a writeback stood in a slot, so it was checked. -/
theorem spares_submit (ht : s.tasks t = .submit f w) :
    Spares s (s.submit t f w) := by
  obtain ⟨b, hc⟩ := h.holds (congrArg Task.hold ht)
  have hco := h.ready b hc
  obtain ⟨hs, hl⟩ := hco.guards.slot_of_hold (congrArg Task.hold ht)
  have hv := (hco.sound w.token.slot).valid (by simp [hs])
  obtain ⟨-, hkey, -⟩ := line_eq_dirty hl
  rw [hkey] at hv
  simp only [Sys.submit, lbaOf, hv.2, hc]
  exact .inl rfl

theorem spares_finishWriteback (ht : s.tasks t = .written f w outcome) :
    Spares s (s.finishWriteback t f w outcome) := by
  obtain ⟨b, hc⟩ := h.holds (congrArg Task.hold ht)
  have hco := h.ready b hc
  have hio := (hco.guards.slot_of_hold (congrArg Task.hold ht)).1
  obtain ⟨b', hfin⟩ := hco.finishWriteback_ok hio outcome.toBool
  obtain ⟨task, -, heq⟩ := wroteBack_eq (s.setCache b') t w.token.slot outcome f
  simp only [Sys.finishWriteback, hc, hfin, heq]
  exact .inl rfl

theorem spares_advance (hs : s.advance t = some s') : Spares s s' := by
  cases Sys.section_of_advance hs with
  | moves hm =>
    obtain ⟨task, rfl, -⟩ := hm
    exact .inl rfl
  | claim => exact h.spares_claim ..
  | finishFill ht => exact h.spares_finishFill ht
  | store => exact h.spares_store ..
  | beginWriteback => exact h.spares_beginWriteback ..
  | submit ht => exact h.spares_submit ht
  | finishWriteback ht => exact h.spares_finishWriteback ht

theorem spares_drop {junk : Bytes} (hs : s.drop t junk = some s') : Spares s s' := by
  unfold Sys.drop at hs
  split at hs
  · exact Option.some.inj hs ▸ .inl rfl
  · exact Option.some.inj hs ▸ .inl rfl
  · exact Option.some.inj hs ▸ .inl rfl
  · exact Option.some.inj hs ▸ .inl rfl
  · rename_i c token b ht hc
    have hco := h.ready b hc
    obtain ⟨hio, -, -, hp, -⟩ := hco.filling_of_pending (h.line_of_fill hc ht)
    -- The junk in the frame is nothing the table knows of.
    obtain ⟨b', hd⟩ := Bcache.dropFill_ok
      (b := { b with frames := update b.frames token.slot junk }) hio hp
      (hco.sound token.slot).quiet
    simp only [hd, Option.some.injEq] at hs
    exact hs ▸ .inl rfl
  · rename_i f w bytes b ht hc
    have hco := h.ready b hc
    obtain ⟨b', hd⟩ := hco.dropWriteback_ok (hco.guards.slot_of_hold (congrArg Task.hold ht)).1
    simp only [hd, Option.some.injEq] at hs
    exact hs ▸ .inl rfl
  · cases hs

theorem spares_dropRef {r : BlockRef N} (hs : s.dropRef r = some s') : Spares s s' := by
  unfold Sys.dropRef at hs
  split_ifs at hs with hr
  cases hc : s.cache with
  | none =>
    rw [(h.fresh hc).2.1] at hr
    cases hr
  | some b =>
    obtain ⟨b', hd⟩ := (h.ready b hc).dropRef_ok hr
    simp only [hc, hd, Option.some.injEq] at hs
    exact hs ▸ .inl rfl

theorem spares (hs : s.step a = some s') : Spares s s' := by
  unfold Sys.step at hs
  split_ifs at hs
  cases a with
  | advance t => exact h.spares_advance hs
  | drop t junk => exact h.spares_drop hs
  | dropRef r => exact h.spares_dropRef hs
  | tick => exact Option.some.inj hs ▸ .inl rfl
  | init frames =>
    cases hs
    unfold Sys.init
    split <;> exact .inl rfl
  | readBlock | writeBlock | sync | complete =>
    simp only [Sys.readBlock, Sys.writeBlock, Sys.complete] at hs
    repeat' split at hs
    all_goals first | exact Option.some.inj hs ▸ .inl rfl | cases hs

end

theorem panicked_of_run {device : Nat → Bytes} {as : List (Act N)}
    (hrun : Run Sys.Step (Sys.boot N device) as s) (why : Panic) (hwhy : s.panicked = some why) :
    why = .pinOverflow := by
  have hall : Inv s ∧ ∀ why, s.panicked = some why → why = .pinOverflow := by
    refine Run.invariant (p := fun s => Inv s ∧ ∀ why, s.panicked = some why → why = .pinOverflow)
      ?_ hrun ⟨Inv.boot device, nofun⟩
    rintro s a s' ⟨h, hno⟩ hs
    refine ⟨h.step hs, fun why hwhy => ?_⟩
    rcases h.spares hs with hsa | ho
    · exact hno why (hsa ▸ hwhy)
    · exact Option.mem_unique hwhy ho
  exact hall.2 why hwhy

end Inv

/-- In every interleaving no assertion fires; the machine stops only where the
count of a slot's references overflows. A slot that is being filled is in flight
and unread, a dirty slot is not being filled, and `evict` takes what `victim`
offers. -/
theorem assertions_hold {device : Nat → Bytes} {as : List (Act N)} {s : Sys N}
    (hrun : Run Sys.Step (Sys.boot N device) as s) :
    (∀ why, s.panicked = some why → why = .pinOverflow) ∧
      ∀ b, s.cache = some b →
        (∀ i, b.filling i = true → b.table.stateOf i = .inFlight ∧ b.table.pinsOf i = 0) ∧
        (∀ i, b.table.stateOf i = .dirty → b.filling i = false) ∧
        ∀ v, b.table.victim = some v → ∃ c, b.table.evict v = .ok c := by
  refine ⟨Inv.panicked_of_run hrun, fun b hcache => ?_⟩
  have hco := (Inv.of_run hrun).ready b hcache
  refine ⟨fun i hfill => (hco.sound i).fill hfill, fun i hdirty => ?_, fun v hvictim => ?_⟩
  · exact hco.not_filling (by simp [show (b.table.slots i).state = .dirty from hdirty])
  · exact ⟨_, hco.evict_victim hvictim⟩

/-- A reader waits for a block that another thread is reading in. -/
theorem assertions_hold_filling :
    ∃ s : Sys 1, Run Sys.Step (Sys.boot 1 fun _ => [0])
      [.init fun _ => [], .readBlock 0 ⟨0, 5⟩, .advance 0, .readBlock 1 ⟨0, 5⟩, .advance 1] s ∧
      s.panicked = none ∧
      ∃ b, s.cache = some b ∧ b.filling 0 = true ∧ b.table.stateOf 0 = .inFlight ∧
        b.table.pinsOf 0 = 0 := by
  refine exists_run_of_exec
    (p := fun s => s.panicked = none ∧ s.cache.map (·.filling 0) = some true) (by decide +kernel)
    fun s hrun hfacts => ?_
  obtain ⟨hno, hfill⟩ := hfacts
  obtain ⟨b, hcache, hfill⟩ := Option.map_eq_some_iff.mp hfill
  obtain ⟨hstate, hpins⟩ := ((assertions_hold hrun).2 b hcache).1 0 hfill
  exact ⟨hno, b, hcache, hfill, hstate, hpins⟩

end Qunix.BufferCache
